import Mathlib

/-!
# Runs and their invariants

What a successful computation in `Except` passed through, and the invariant rules for folds
whose steps may fail: a property that holds at the start and that every successful step keeps
holds at the end of a fold that succeeds.
-/

universe u v w

namespace Run

open List

variable {ε : Type w} {α β : Type u} {γ : Type v}

/-- A computation that succeeds after a first part went through a success of that part. -/
@[simp]
theorem ok_of_do {x : Except ε α} {f : α → Except ε β} {b : β} :
  (x >>= f) = .ok b ↔ ∃ a, x = .ok a ∧ f a = .ok b
  := by
  constructor
  · intro h
    cases x with
    | error e => cases h
    | ok a =>
      use a
      exact ⟨rfl, h⟩
  · rintro ⟨a, rfl, h⟩
    exact h

variable {a : α}

@[simp]
theorem ok_of_return {b : α} :
  (pure a : Except ε α) = .ok b ↔ a = b
  := ⟨Except.ok.inj, congrArg Except.ok⟩

@[simp]
theorem not_ok_of_throw {e : ε} :
  (throw e : Except ε α) = .ok a ↔ False
  := ⟨nofun, False.elim⟩

theorem ok_of_toOption {x : Except ε α} (h : x.toOption = some a) :
  x = .ok a
  := by
  cases x with
  | error e => cases h
  | ok b => rw [Option.some.inj h]

/-- What a run on given inputs returns can be computed. -/
instance decidableExistsSome (o : Option α) (P : α → Prop) [DecidablePred P] :
    Decidable (∃ a, o = some a ∧ P a) :=
  decidable_of_iff (o.any fun a => decide (P a))
    (by simp only [Option.any_eq_true, decide_eq_true_eq])

variable {l : List γ} {I : α → Prop}

/-- The invariant rule for a fold whose steps may fail. The step may use that its element is
one of the list. -/
theorem foldlM_ok_induction {f : α → γ → Except ε α}
    (hstep : ∀ a x a', x ∈ l → I a → f a x = .ok a' → I a') {a' : α} (ha : I a)
    (h : l.foldlM f a = .ok a') :
  I a'
  := by
  induction l generalizing a with
  | nil =>
    rw [foldlM_nil, ok_of_return] at h
    exact h ▸ ha
  | cons x l ih =>
    rw [foldlM_cons, ok_of_do] at h
    obtain ⟨b, hb, h⟩ := h
    apply ih (fun a y a' hy => hstep a y a' (mem_cons_of_mem x hy)) _ h
    exact hstep a x b mem_cons_self ha hb

variable {f : α → γ → Option α}

/-- The invariant rule for a fold that may stop without a result. -/
theorem foldlM_some_induction (hstep : ∀ a x a', x ∈ l → I a → f a x = some a' → I a') {a' : α}
    (ha : I a) (h : l.foldlM f a = some a') :
  I a'
  := by
  induction l generalizing a with
  | nil =>
    obtain rfl : a = a' := by simpa using h
    exact ha
  | cons x l ih =>
    rw [foldlM_cons] at h
    obtain ⟨b, hb, h⟩ := Option.bind_eq_some_iff.mp h
    apply ih (fun a y a' hy => hstep a y a' (mem_cons_of_mem x hy)) _ h
    exact hstep a x b mem_cons_self ha hb

/-- Every step of a run from `a` meets the condition `P` on the state before it. -/
def Along (f : α → γ → Option α) (P : α → γ → Prop) : List γ → α → Prop
  | [], _ => True
  | x :: l, a => P a x ∧ ∀ a' ∈ f a x, Along f P l a'

instance decidableAlong {f : α → γ → Option α} {P : α → γ → Prop} [∀ a x, Decidable (P a x)] :
    ∀ l a, Decidable (Along f P l a)
  | [], _ => isTrue trivial
  | x :: l, a =>
    haveI := fun a' => decidableAlong (f := f) (P := P) l a'
    inferInstanceAs (Decidable (P a x ∧ ∀ a' ∈ f a x, Along f P l a'))

variable {P : α → γ → Prop}

/-- A condition on the inputs alone is met along every run of such inputs. -/
theorem Along.and_forall {Q : γ → Prop} (hl : Along f P l a) (hq : ∀ x ∈ l, Q x) :
  Along f (fun a x => P a x ∧ Q x) l a
  := by
  induction l generalizing a with
  | nil => trivial
  | cons x l ih =>
    obtain ⟨hx, hl⟩ := hl
    obtain ⟨hqx, hq⟩ := forall_mem_cons.mp hq
    exact ⟨⟨hx, hqx⟩, fun b hb => ih (hl b hb) hq⟩

theorem Along.mono {Q : α → γ → Prop} (h : ∀ a x, P a x → Q a x) (hl : Along f P l a) :
  Along f Q l a
  := by
  induction l generalizing a with
  | nil => trivial
  | cons x l ih => exact ⟨h a x hl.1, fun a' ha' => ih (hl.2 a' ha')⟩

theorem along_append {l' : List γ} :
  Along f P (l ++ l') a ↔ Along f P l a ∧ ∀ b, l.foldlM f a = some b → Along f P l' b
  := by
  induction l generalizing a with
  | nil => simp [Along]
  | cons x l ih =>
    rw [cons_append, Along, Along]
    constructor
    · rintro ⟨hx, hrest⟩
      refine ⟨⟨hx, fun c hc => (ih.mp (hrest c hc)).1⟩, ?_⟩
      intro b hb
      rw [foldlM_cons] at hb
      obtain ⟨c, hc, hb⟩ := Option.bind_eq_some_iff.mp hb
      exact (ih.mp (hrest c hc)).2 b hb
    · rintro ⟨⟨hx, hrest⟩, hl'⟩
      refine ⟨hx, fun c hc => ih.mpr ⟨hrest c hc, ?_⟩⟩
      intro b hb
      apply hl' b
      rw [foldlM_cons]
      exact Option.bind_eq_some_iff.mpr ⟨c, hc, hb⟩

theorem along_true (l : List γ) (a : α) :
  Along f (fun _ _ => True) l a
  := by
  induction l generalizing a with
  | nil => trivial
  | cons x l ih => exact ⟨trivial, fun a' _ => ih a'⟩

/-- A step that is only taken where it meets a condition. -/
def guarded (f : α → γ → Option α) (P : α → γ → Prop) [∀ a x, Decidable (P a x)] (a : α) (x : γ) :
    Option α :=
  if P a x then f a x else none

/-- A run of guarded steps is a run whose steps meet the condition. -/
theorem along_of_guarded [∀ a x, Decidable (P a x)] {b : α} (h : l.foldlM (guarded f P) a = some b) :
  Along f P l a ∧ l.foldlM f a = some b
  := by
  induction l generalizing a with
  | nil => exact ⟨trivial, h⟩
  | cons x l ih =>
    rw [foldlM_cons] at h ⊢
    obtain ⟨c, hc, h⟩ := Option.bind_eq_some_iff.mp h
    obtain ⟨hp, hc⟩ := Option.ite_none_right_eq_some.mp hc
    obtain ⟨halong, hrun⟩ := ih h
    refine ⟨⟨hp, ?_⟩, Option.bind_eq_some_iff.mpr ⟨c, hc, hrun⟩⟩
    intro c' hc'
    cases hc.symm.trans hc'
    exact halong

/-- What steps under a condition keep holds after a run all of whose steps meet it. -/
theorem Along.induction (hstep : ∀ a x a', P a x → I a → f a x = some a' → I a') {a' : α}
    (hl : Along f P l a) (ha : I a) (h : l.foldlM f a = some a') :
  I a'
  := by
  induction l generalizing a with
  | nil =>
    obtain rfl : a = a' := by simpa using h
    exact ha
  | cons x l ih =>
    rw [foldlM_cons] at h
    obtain ⟨b, hb, h⟩ := Option.bind_eq_some_iff.mp h
    obtain ⟨hx, hl⟩ := hl
    apply ih (hl b hb) _ h
    exact hstep a x b hx ha hb

/-- Every state of a run from `a` has the property `I`, the first and the last included. -/
def Always (f : α → γ → Option α) (I : α → Prop) : List γ → α → Prop
  | [], a => I a
  | x :: l, a => I a ∧ ∀ a' ∈ f a x, Always f I l a'

/-- A run keeps a property throughout exactly if all its steps meet a condition, when that is so
of every single step. The steps may be known to meet another condition `Q`, which keeps `J`. -/
theorem always_iff_along {J : α → Prop} {Q : α → γ → Prop}
    (hkeep : ∀ a x a', Q a x → J a → f a x = some a' → J a')
    (hstep : ∀ a x, Q a x → J a → I a → ((∀ a' ∈ f a x, I a') ↔ P a x)) (hl : Along f Q l a)
    (hj : J a) (hi : I a) :
  Always f I l a ↔ Along f P l a
  := by
  induction l generalizing a with
  | nil => exact iff_of_true hi trivial
  | cons x l ih =>
    obtain ⟨hx, hl⟩ := hl
    rw [Always, Along]
    constructor
    · rintro ⟨-, hall⟩
      have hnext : ∀ a' ∈ f a x, I a' := by
        intro a' ha'
        cases l with
        | nil => exact hall a' ha'
        | cons y l => exact (hall a' ha').1
      refine ⟨(hstep a x hx hj hi).mp hnext, ?_⟩
      intro a' ha'
      exact (ih (hl a' ha') (hkeep a x a' hx hj ha') (hnext a' ha')).mp (hall a' ha')
    · rintro ⟨hp, hall⟩
      have hnext := (hstep a x hx hj hi).mpr hp
      refine ⟨hi, ?_⟩
      intro a' ha'
      exact (ih (hl a' ha') (hkeep a x a' hx hj ha') (hnext a' ha')).mpr (hall a' ha')

/-- The results of mapping a partial function are the results at the elements. -/
theorem mapM_some {β : Type v} {δ : Type u} {f : β → Option δ} {l : List β} {l' : List δ}
    (h : l.mapM f = some l') :
  (∀ x ∈ l, ∃ y ∈ l', f x = some y) ∧ ∀ y ∈ l', ∃ x ∈ l, f x = some y
  := by
  induction l generalizing l' with
  | nil =>
    obtain rfl : [] = l' := by simpa using h
    exact ⟨nofun, nofun⟩
  | cons x l ih =>
    rw [mapM_cons] at h
    obtain ⟨y, hy, h⟩ := Option.bind_eq_some_iff.mp h
    obtain ⟨ys, hys, h⟩ := Option.bind_eq_some_iff.mp h
    cases h
    obtain ⟨hto, hof⟩ := ih hys
    constructor
    · intro x' hx'
      rcases mem_cons.mp hx' with rfl | hx'
      · exact ⟨y, mem_cons_self, hy⟩
      · obtain ⟨y', hy', hfy'⟩ := hto x' hx'
        exact ⟨y', mem_cons_of_mem y hy', hfy'⟩
    · intro y' hy'
      rcases mem_cons.mp hy' with rfl | hy'
      · exact ⟨x, mem_cons_self, hy⟩
      · obtain ⟨x', hx', hfx'⟩ := hof y' hy'
        exact ⟨x', mem_cons_of_mem x hx', hfx'⟩

/-- A fold that changes one part of a state only is a fold of that part. -/
theorem foldl_part {σ : Type u} {τ : Type v} (get : σ → τ) (put : τ → σ → σ)
    (hget : ∀ v s, get (put v s) = v) (hput : ∀ v w s, put v (put w s) = put v s)
    (hself : ∀ s, put (get s) s = s) (g : τ → γ → τ) (l : List γ) (s : σ) :
  l.foldl (fun s x => put (g (get s) x) s) s = put (l.foldl g (get s)) s
  := by
  induction l generalizing s with
  | nil => exact (hself s).symm
  | cons x l ih => rw [foldl_cons, ih, hget, hput, foldl_cons]

/-- A fold of two parts side by side is the two folds. -/
theorem foldl_pair {σ : Type u} {τ : Type w} (f : σ → γ → σ) (g : τ → γ → τ) (l : List γ)
    (a : σ) (b : τ) :
  l.foldl (fun p x => (f p.1 x, g p.2 x)) (a, b) = (l.foldl f a, l.foldl g b)
  := by
  induction l generalizing a b with
  | nil => rfl
  | cons x l ih => apply ih

/-- The results of a function that has one for every entry. -/
theorem mapM_eq_filterMap {α β : Type} {f : α → Option β} {l : List α}
    (h : ∀ x ∈ l, (f x).isSome) :
  l.mapM f = some (l.filterMap f)
  := by
  induction l with
  | nil => rfl
  | cons x l ih =>
    obtain ⟨y, hy⟩ := Option.isSome_iff_exists.mp (h x mem_cons_self)
    rw [mapM_cons, hy, ih fun x hx => h x (mem_cons_of_mem _ hx), filterMap_cons_some hy]
    rfl

/-- The results of such a function stand in the order of the entries. -/
theorem forall₂_filterMap {α β : Type} {f : α → Option β} {l : List α}
    (h : ∀ x ∈ l, (f x).isSome) :
  Forall₂ (fun y x => f x = some y) (l.filterMap f) l
  := by
  induction l with
  | nil => exact .nil
  | cons x l ih =>
    obtain ⟨y, hy⟩ := Option.isSome_iff_exists.mp (h x mem_cons_self)
    rw [filterMap_cons_some hy]
    exact .cons hy (ih fun x hx => h x (mem_cons_of_mem _ hx))

end Run
