import StreamStack.Lib.Tasks

/-!
# Tasks that take turns

Tasks that share a state of which one of them at a time is the owner. The owner may break what the
state satisfies otherwise, as long as it restores it before it gives the state up. What the other
tasks do meanwhile is quiet: it leaves alone what the owner knows.
-/

namespace Tasks

/-- A discipline for a shared state. -/
structure Discipline (σ : Type) where
  /-- The states that are looked at. -/
  Allowed : σ → Prop
  owner : σ → Option ℕ
  /-- What holds in every state. -/
  Inv : σ → Prop
  /-- What holds in every state without an owner. -/
  Rest : σ → Prop
  /-- What every action keeps. -/
  Kept : σ → σ → Prop
  /-- What the actions of others keep for the owner. -/
  Quiet : σ → σ → Prop
  kept_refl : ∀ s, Kept s s
  kept_trans : ∀ {s t u}, Kept s t → Kept t u → Kept s u
  quiet_refl : ∀ s, Quiet s s
  quiet_trans : ∀ {s t u}, Quiet s t → Quiet t u → Quiet s u
  rest_quiet : ∀ {s t}, Inv s → Inv t → Quiet s t → Rest s → Rest t

namespace Discipline

variable {ι σ ε α β ρ χ : Type} {D : Discipline σ} {me : ℕ}

/-- The invariant of the discipline. -/
def Good (D : Discipline σ) (s : σ) : Prop :=
  D.Inv s ∧ (D.owner s = none → D.Rest s)

/-- A step that every task may take at any time. -/
def Calm (D : Discipline σ) (s t : σ) : Prop :=
  D.Good s → D.Inv t ∧ D.Kept s t ∧ D.owner t = D.owner s ∧ D.Quiet s t

/-- The rules of a task. -/
def rules (D : Discipline σ) (me : ℕ) : Rules σ where
  Allowed := D.Allowed
  Rely s t := D.Good s →
    D.Good t ∧ D.Kept s t ∧ (D.owner s = some me → D.owner t = some me ∧ D.Quiet s t)
  Guar s t := D.Good s →
    D.Good t ∧ D.Kept s t ∧ ∀ i ≠ me, D.owner s = some i → D.owner t = some i ∧ D.Quiet s t
  rely_refl s := fun hs => ⟨hs, D.kept_refl s, fun howner => ⟨howner, D.quiet_refl s⟩⟩
  rely_trans := by
    intro s t u hst htu hs
    obtain ⟨ht, hkept, hquiet⟩ := hst hs
    obtain ⟨hu, hkept', hquiet'⟩ := htu ht
    refine ⟨hu, D.kept_trans hkept hkept', ?_⟩
    intro howner
    obtain ⟨howner, hquiet⟩ := hquiet howner
    obtain ⟨howner, hquiet'⟩ := hquiet' howner
    exact ⟨howner, D.quiet_trans hquiet hquiet'⟩

theorem Calm.good {s t : σ} (h : D.Calm s t) (hs : D.Good s) :
  D.Good t
  := by
  obtain ⟨hinv, -, howner, hquiet⟩ := h hs
  refine ⟨hinv, ?_⟩
  intro hfree
  apply D.rest_quiet hs.1 hinv hquiet
  apply hs.2 (howner ▸ hfree)

theorem Calm.trans {s t u : σ} (h : D.Calm s t) (h' : D.Calm t u) :
  D.Calm s u
  := by
  intro hs
  obtain ⟨-, hkept, howner, hquiet⟩ := h hs
  obtain ⟨hinv, hkept', howner', hquiet'⟩ := h' (h.good hs)
  exact ⟨hinv, D.kept_trans hkept hkept', howner'.trans howner, D.quiet_trans hquiet hquiet'⟩

theorem Calm.rely {s t : σ} (h : D.Calm s t) :
  (D.rules me).Rely s t
  := by
  intro hs
  obtain ⟨-, hkept, howner, hquiet⟩ := h hs
  exact ⟨h.good hs, hkept, fun hme => ⟨howner.trans hme, hquiet⟩⟩

theorem Calm.guar {s t : σ} (h : D.Calm s t) :
  (D.rules me).Guar s t
  := by
  intro hs
  obtain ⟨-, hkept, howner, hquiet⟩ := h hs
  exact ⟨h.good hs, hkept, fun i _ hi => ⟨howner.trans hi, hquiet⟩⟩

/-- The rules of the tasks fit if what happens outside is calm. -/
theorem fits {change : χ → σ → Option σ}
    (h : ∀ x s t, change x s = some t → D.Allowed t → D.Calm s t) :
  Fits D.rules D.Good change
  := by
  constructor
  · intro i j s t hne hs hguar _
    obtain ⟨ht, hkept, hothers⟩ := hguar hs
    exact ⟨ht, hkept, hothers j hne.symm⟩
  · intro i s t hs hguar
    exact (hguar hs).1
  · intro x s t hs hchange hallowed
    have hcalm := h x s t hchange (hallowed 0)
    exact ⟨fun i => hcalm.rely, hcalm.good hs⟩

/-! ### What a task knows -/

/-- A property that quiet steps keep. -/
def Lasting (D : Discipline σ) (F : σ → Prop) : Prop :=
  ∀ s t, D.Inv s → D.Inv t → D.Quiet s t → F s → F t

/-- A property that all steps keep. -/
def Persistent (D : Discipline σ) (K : σ → Prop) : Prop :=
  ∀ s t, D.Inv s → D.Inv t → D.Kept s t → K s → K t

/-- A task is the owner and knows `F`. -/
def Owned (D : Discipline σ) (me : ℕ) (F : σ → Prop) (s : σ) : Prop :=
  D.Good s ∧ D.owner s = some me ∧ F s

/-- A task knows `K`, whoever is the owner. -/
def Known (D : Discipline σ) (K : σ → Prop) (s : σ) : Prop :=
  D.Good s ∧ K s

/-- The properties that last, by their form. -/
class Lasts (D : Discipline σ) (F : σ → Prop) : Prop where
  lasting : D.Lasting F

/-- The properties that persist, by their form. -/
class Persists (D : Discipline σ) (K : σ → Prop) : Prop where
  persistent : D.Persistent K

theorem lasting_rest :
  D.Lasts D.Rest
  := ⟨fun _ _ hs ht hquiet => D.rest_quiet hs ht hquiet⟩

instance Lasts.const (p : Prop) : D.Lasts fun _ => p :=
  ⟨fun _ _ _ _ _ h => h⟩

instance Lasts.all {γ : Type} (F : γ → σ → Prop) [hF : ∀ c, D.Lasts (F c)] :
    D.Lasts fun s => ∀ c, F c s :=
  ⟨fun s t hs ht hquiet h c => (hF c).lasting s t hs ht hquiet (h c)⟩

instance Lasts.exists {γ : Type} (F : γ → σ → Prop) [hF : ∀ c, D.Lasts (F c)] :
    D.Lasts fun s => ∃ c, F c s :=
  ⟨fun s t hs ht hquiet ⟨c, h⟩ => ⟨c, (hF c).lasting s t hs ht hquiet h⟩⟩

instance Lasts.and (F G : σ → Prop) [hF : D.Lasts F] [hG : D.Lasts G] :
    D.Lasts fun s => F s ∧ G s :=
  ⟨fun s t hs ht hquiet h =>
    ⟨hF.lasting s t hs ht hquiet h.1, hG.lasting s t hs ht hquiet h.2⟩⟩

instance Lasts.imp (p : Prop) (F : σ → Prop) [hF : D.Lasts F] : D.Lasts fun s => p → F s :=
  ⟨fun s t hs ht hquiet h hp => hF.lasting s t hs ht hquiet (h hp)⟩

instance Lasts.ok (G : α → σ → Prop) (E : ε → σ → Prop) (a : α) [h : D.Lasts (G a)] :
    D.Lasts (Outcome G E (.ok a)) := h

instance Lasts.error (G : α → σ → Prop) (E : ε → σ → Prop) (e : ε) [h : D.Lasts (E e)] :
    D.Lasts (Outcome G E (.error e)) := h

instance Persists.const (p : Prop) : D.Persists fun _ => p :=
  ⟨fun _ _ _ _ _ h => h⟩

theorem stable_owned {F : σ → Prop} [hF : D.Lasts F] :
  (D.rules me).Stable (D.Owned me F)
  := by
  rintro s t ⟨hs, howner, hf⟩ hrely
  obtain ⟨ht, -, hquiet⟩ := hrely hs
  obtain ⟨howner, hquiet⟩ := hquiet howner
  exact ⟨ht, howner, hF.lasting s t hs.1 ht.1 hquiet hf⟩

theorem stable_known {K : σ → Prop} [hK : D.Persists K] :
  (D.rules me).Stable (D.Known K)
  := by
  rintro s t ⟨hs, hk⟩ hrely
  obtain ⟨ht, hkept, -⟩ := hrely hs
  exact ⟨ht, hK.persistent s t hs.1 ht.1 hkept hk⟩

/-! ### Programs of the owner -/

/-- From states with `F` on, a program of the owner succeeds with `G` or fails with `E`, and stays
the owner. -/
def Spec (D : Discipline σ) (me : ℕ) (F : σ → Prop) (x : Prog ι σ ε α) (G : α → σ → Prop)
    (E : σ → Prop) : Prop :=
  Ensures (D.rules me) (D.Owned me F) x (fun a => D.Owned me (G a)) fun _ => D.Owned me E

/-- A program of the owner keeps `F`, however it ends. -/
abbrev Preserves (D : Discipline σ) (me : ℕ) (F : σ → Prop) (x : Prog ι σ ε α) : Prop :=
  D.Spec me F x (fun _ => F) F

/-- A program that may start at any time and leaves everything in order. -/
abbrev Behaves (D : Discipline σ) (me : ℕ) (x : Prog ι σ ε α) : Prop :=
  Ensures (D.rules me) D.Good x (fun _ => D.Known fun _ => True) fun _ => D.Good

/-- A step of the owner that leads from `F` to `G`. -/
abbrev Leads (D : Discipline σ) (me : ℕ) (F : σ → Prop) (s : σ) (G : σ → Prop) (t : σ) : Prop :=
  D.Inv s → D.owner s = some me → F s → D.Allowed t →
    D.Inv t ∧ D.Kept s t ∧ D.owner t = some me ∧ G t

variable {action : ι → σ → Option (σ × Except ε α)}

namespace Spec

variable {F F' E E' : σ → Prop} {G G' : α → σ → Prop} {x : Prog ι σ ε α}

section

variable (h : D.Spec me F x G E)

include h

theorem weaken (hF : ∀ s, D.Inv s → F' s → F s) (hG : ∀ a s, D.Inv s → G a s → G' a s)
    (hE : ∀ s, D.Inv s → E s → E' s) :
  D.Spec me F' x G' E'
  := by
  apply Ensures.weaken h
  · rintro s ⟨hs, howner, hf⟩
    exact ⟨hs, howner, hF s hs.1 hf⟩
  · rintro a s ⟨hs, howner, hg⟩
    exact ⟨hs, howner, hG a s hs.1 hg⟩
  · rintro e s ⟨hs, howner, he⟩
    exact ⟨hs, howner, hE s hs.1 he⟩

/-- A stronger assumption. -/
theorem assume (hF : ∀ s, D.Inv s → F' s → F s) :
  D.Spec me F' x G E
  := h.weaken hF (fun _ _ _ hg => hg) fun _ _ he => he

/-- Less of a success. -/
theorem grant (hG : ∀ a s, D.Inv s → G a s → G' a s) :
  D.Spec me F x G' E
  := h.weaken (fun _ _ hf => hf) hG fun _ _ he => he

/-- Less of a failure. -/
theorem excuse (hE : ∀ s, D.Inv s → E s → E' s) :
  D.Spec me F x G E'
  := h.weaken (fun _ _ hf => hf) (fun _ _ _ hg => hg) hE

end

theorem bind {H : β → σ → Prop} {f : α → Prog ι σ ε β} (hx : D.Spec me F x G E)
    (hf : ∀ a, D.Spec me (G a) (f a) H E) :
  D.Spec me F (x >>= f) H E
  := Ensures.bind hx hf

theorem pure [D.Lasts F] {a : α} (h : ∀ s, D.Inv s → F s → G a s) :
  D.Spec me F (Pure.pure a : Prog ι σ ε α) G E
  := by
  apply Ensures.pure stable_owned
  rintro s ⟨hs, howner, hf⟩
  exact ⟨hs, howner, h s hs.1 hf⟩

theorem throw [D.Lasts F] {e : ε} (h : ∀ s, D.Inv s → F s → E s) :
  D.Spec me F (throw e : Prog ι σ ε α) G E
  := by
  apply Ensures.throw stable_owned
  rintro s ⟨hs, howner, hf⟩
  exact ⟨hs, howner, h s hs.1 hf⟩

/-- A state that has an owner need not be at rest. -/
theorem good_of_owner {s : σ} (hs : D.Inv s) (howner : D.owner s = some me) :
  D.Good s
  := ⟨hs, fun hfree => absurd (howner.symm.trans hfree) nofun⟩

/-- One action of the owner. -/
theorem perform [D.Lasts F] [∀ a, D.Lasts (G a)] [D.Lasts E]
    (h : ∀ s i s' r, action i s = some (s', r) → D.Leads me F s (Outcome G (fun _ => E) r) s') :
  D.Spec me F (perform action) G E
  := by
  apply Ensures.perform stable_owned (fun _ => stable_owned) fun _ => stable_owned
  rintro s i s' r ⟨hs, howner, hf⟩ haction hallowed
  obtain ⟨hs', hkept, howner', hr⟩ := h s i s' r haction hs.1 howner hf hallowed
  have hgood := good_of_owner hs' howner'
  constructor
  · intro _
    refine ⟨hgood, hkept, ?_⟩
    intro j hne hj
    exact absurd (Option.some.inj (hj.symm.trans howner)) hne
  · cases r with
    | ok a => exact ⟨hgood, howner', hr⟩
    | error e => exact ⟨hgood, howner', hr⟩

/-- A property that all actions of a program of the owner keep. -/
theorem only {C : σ → σ → Prop} [D.Lasts F] (h : Only C x)
    (hC : ∀ s t, C s t → D.Leads me F s F t) :
  D.Preserves me F x
  := by
  apply Only.ensures h stable_owned
  rintro s t ⟨hs, howner, hf⟩ hst hallowed
  obtain ⟨ht, hkept, howner', hf'⟩ := hC s t hst hs.1 howner hf hallowed
  have hgood := good_of_owner ht howner'
  refine ⟨fun _ => ⟨hgood, hkept, ?_⟩, hgood, howner', hf'⟩
  intro j hne hj
  exact absurd (Option.some.inj (hj.symm.trans howner)) hne

/-- Calm programs keep what lasts. -/
theorem calm [D.Lasts F] (h : Only D.Calm x) :
  D.Preserves me F x
  := by
  apply Only.ensures h stable_owned
  intro s t hs hst _
  exact ⟨hst.guar, stable_owned s t hs hst.rely⟩

theorem attempt (h : D.Spec me F x G E) :
  D.Spec me F (attempt x) (Outcome G fun _ => E) E'
  := by
  have hx : Ensures (D.rules me) (D.Owned me F) (Tasks.attempt x)
      (Outcome (fun a => D.Owned me (G a)) fun _ => D.Owned me E) fun _ => D.Owned me E' :=
    Ensures.attempt h
  apply hx.weaken (fun _ hs => hs) _ fun _ _ hs => hs
  intro r s hr
  cases r with
  | ok a => exact hr
  | error e => exact hr

/-- A program after which the same is known however it ends. -/
theorem attempt_same {H : σ → Prop} (h : D.Spec me F x (fun _ => H) H) :
  D.Spec me F (Tasks.attempt x) (fun _ => H) E'
  := by
  apply h.attempt.grant
  intro r s _ hr
  cases r with
  | ok a => exact hr
  | error e => exact hr

theorem onlyIf [D.Lasts F] {condition : Bool} {x : Prog ι σ ε Unit} {G : Unit → σ → Prop}
    (hx : condition = true → D.Spec me F x G E)
    (hskip : ∀ s, D.Inv s → F s → condition = false → G () s) :
  D.Spec me F (onlyIf condition x) G E
  := by
  apply Ensures.onlyIf hx
  intro hcondition
  exact Spec.pure fun s hs hf => hskip s hs hf hcondition

theorem onlyIf_same [D.Lasts F] {condition : Bool} {x : Prog ι σ ε Unit}
    (hx : D.Spec me F x (fun _ => F) E) :
  D.Spec me F (Tasks.onlyIf condition x) (fun _ => F) E
  := Spec.onlyIf (fun _ => hx) fun _ _ hf _ => hf

/-- What is known of no state is assumed once. -/
theorem of_and {p : Prop} (h : p → D.Spec me F x G E) :
  D.Spec me (fun s => F s ∧ p) x G E
  := by
  rintro s ⟨hs, howner, hf, hp⟩
  exact h hp s ⟨hs, howner, hf⟩

/-- A program that is never started. -/
theorem of_false :
  D.Spec me (fun _ => False) x G E
  := fun _ hs => hs.2.2.elim

theorem of_exists {γ : Type} {F : γ → σ → Prop} (h : ∀ c, D.Spec me (F c) x G E) :
  D.Spec me (fun s => ∃ c, F c s) x G E
  := by
  rintro s ⟨hs, howner, c, hf⟩
  exact h c s ⟨hs, howner, hf⟩

end Spec

/-! ### The frame -/

theorem safe_frame {K : σ → Prop} [hK : D.Persists K] {Q : α → σ → Prop} {task : Task ι σ α}
    {s : σ} (hs : D.Good s) (hk : K s) (h : Safe (D.rules me) Q task s) :
  Safe (D.rules me) (fun a t => Q a t ∧ K t) task s
  := by
  induction task generalizing s with
  | done a =>
    intro t hst
    obtain ⟨ht, hkept, -⟩ := hst hs
    exact ⟨h t hst, hK.persistent s t hs.1 ht.1 hkept hk⟩
  | act action next ih =>
    intro t hst i t' b hact hallowed
    obtain ⟨hguar, hnext⟩ := h t hst i t' b hact hallowed
    obtain ⟨ht, hkept, -⟩ := hst hs
    obtain ⟨ht', hkept', -⟩ := hguar ht
    have hk' := hK.persistent t t' ht.1 ht'.1 hkept' (hK.persistent s t hs.1 ht.1 hkept hk)
    exact ⟨hguar, ih b ht' hk' hnext⟩

/-- What every action keeps is kept by every program. -/
theorem Spec.frame {F E : σ → Prop} {G : α → σ → Prop} {x : Prog ι σ ε α}
    (h : D.Spec me F x G E) (K : σ → Prop) [D.Persists K] :
  D.Spec me (fun s => F s ∧ K s) x (fun a s => G a s ∧ K s) fun s => E s ∧ K s
  := by
  rintro s ⟨hs, howner, hf, hk⟩
  apply (safe_frame hs hk (h s ⟨hs, howner, hf⟩)).weaken
  rintro r t ⟨hr, hkt⟩
  cases r with
  | ok a => exact ⟨hr.1, hr.2.1, hr.2.2, hkt⟩
  | error e => exact ⟨hr.1, hr.2.1, hr.2.2, hkt⟩

/-! ### Taking turns -/

section Turns

variable {G K : α → σ → Prop} {x : Prog ι σ ε α}
  {acquire release : ι → σ → Option (σ × Except ε Unit)}

theorem stable_good :
  (D.rules me).Stable D.Good
  := by
  intro s t hs hrely
  exact (hrely hs).1

/-- Calm programs may run at any time. -/
theorem ensures_calm {K : σ → Prop} [D.Persists K] (h : Only D.Calm x) :
  Ensures (D.rules me) (D.Known K) x (fun _ => D.Known K) fun _ => D.Known K
  := by
  have hstable : (D.rules me).Stable (D.Known K) := stable_known
  apply Only.ensures h hstable
  intro s t hs hst _
  exact ⟨hst.guar, hstable s t hs hst.rely⟩

/-- One action of a task, whoever is the owner. -/
theorem ensures_known {L E : σ → Prop} [D.Persists L] [∀ a, D.Persists (K a)] [D.Persists E]
    (h : ∀ s i s' r, D.Good s → L s → action i s = some (s', r) → D.Allowed s' → D.Inv s' ∧ D.Kept
      s s' ∧ D.owner s' = D.owner s ∧ D.Quiet s s' ∧ Outcome K (fun _ => E) r s') :
  Ensures (D.rules me) (D.Known L) (perform action) (fun a => D.Known (K a)) fun _ => D.Known E
  := by
  apply Ensures.perform stable_known (fun _ => stable_known) fun _ => stable_known
  rintro s i s' r ⟨hs, hl⟩ haction hallowed
  obtain ⟨hinv, hkept, howner, hquiet, hr⟩ := h s i s' r hs hl haction hallowed
  have hcalm : D.Calm s s' := fun _ => ⟨hinv, hkept, howner, hquiet⟩
  refine ⟨hcalm.guar, ?_⟩
  cases r with
  | ok a => exact ⟨hcalm.good hs, hr⟩
  | error e => exact ⟨hcalm.good hs, hr⟩

/-- The action that makes a task the owner. -/
theorem ensures_acquire (hacquire : ∀ s i s' r, D.Good s → acquire i s = some (s', r) →
      D.Allowed s' → D.owner s = none ∧ D.Inv s' ∧ D.Kept s s' ∧ D.owner s' = some me ∧ D.Rest s') :
  Ensures (D.rules me) D.Good (perform acquire) (fun _ => D.Owned me D.Rest) fun _ => D.Good
  := by
  have := lasting_rest (D := D)
  apply Ensures.perform stable_good (fun _ => stable_owned) fun _ => stable_good
  intro s i s' r hs haction hallowed
  obtain ⟨hfree, hinv, hkept, howner, hrest⟩ := hacquire s i s' r hs haction hallowed
  have hgood : D.Good s' := ⟨hinv, fun _ => hrest⟩
  constructor
  · intro _
    exact ⟨hgood, hkept, fun j _ hj => absurd (hfree.symm.trans hj) nofun⟩
  · cases r with
    | ok _ => exact ⟨hgood, howner, hrest⟩
    | error e => exact hgood

/-- The action with which the owner gives the state up. -/
theorem ensures_release {F L : σ → Prop} [D.Lasts F] [hL : D.Persists L]
    (hrelease : ∀ s i s' r, D.Inv s → D.owner s = some me → D.Rest s →
      release i s = some (s', r) → D.Allowed s' → D.Good s' ∧ D.Kept s s')
    (hrest : ∀ s, D.Inv s → F s → D.Rest s) (hfl : ∀ s, D.Inv s → F s → L s) :
  Ensures (D.rules me) (D.Owned me F) (perform release) (fun _ => D.Known L) fun _ => D.Good
  := by
  apply Ensures.perform stable_owned (fun _ => stable_known) fun _ => stable_good
  rintro s i s' r ⟨hs, howner, hf⟩ haction hallowed
  obtain ⟨hgood, hkept⟩ := hrelease s i s' r hs.1 howner (hrest s hs.1 hf) haction hallowed
  constructor
  · intro _
    refine ⟨hgood, hkept, ?_⟩
    intro j hne hj
    exact absurd (Option.some.inj (hj.symm.trans howner)) hne
  · cases r with
    | ok _ => exact ⟨hgood, hL.persistent s s' hs.1 hgood.1 hkept (hfl s hs.1 hf)⟩
    | error e => exact hgood

/-- A program that takes the state, runs a body as the owner, and gives the state up. -/
theorem ensures_turn [∀ a, D.Lasts (G a)] [∀ a, D.Persists (K a)]
    (hacquire : ∀ s i s' r, D.Good s → acquire i s = some (s', r) → D.Allowed s' →
      D.owner s = none ∧ D.Inv s' ∧ D.Kept s s' ∧ D.owner s' = some me ∧ D.Rest s')
    (hrelease : ∀ s i s' r, D.Inv s → D.owner s = some me → D.Rest s →
      release i s = some (s', r) → D.Allowed s' → D.Good s' ∧ D.Kept s s')
    (hbody : D.Spec me D.Rest x G D.Rest) (hrest : ∀ a s, D.Inv s → G a s → D.Rest s)
    (hgk : ∀ a s, D.Inv s → G a s → K a s) :
  Ensures (D.rules me) D.Good
    (do perform acquire; let r ← attempt x; perform release; conclude r)
    (fun a => D.Known (K a)) fun _ => D.Good
  := by
  apply (ensures_acquire hacquire).bind
  intro _
  apply (Ensures.attempt hbody).bind
  intro r
  cases r with
  | ok a =>
    apply (ensures_release hrelease (hrest a) (hgk a)).bind
    intro _
    exact Ensures.pure stable_known fun _ hs => hs
  | error e =>
    have := lasting_rest (D := D)
    have hrelease : Ensures (D.rules me) (D.Owned me D.Rest) (perform release)
        (fun _ => D.Known fun _ => True) fun _ => D.Good :=
      ensures_release hrelease (fun _ _ hs => hs) fun _ _ _ => trivial
    apply hrelease.bind
    intro _
    exact Ensures.throw stable_known fun _ hs => hs.1

end Turns

end Discipline

end Tasks
