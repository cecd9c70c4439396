import StreamStack.Lib.Run

/-!
# Tasks that share a state

A task takes atomic actions on a shared state one after the other. An action gets an input from
outside and may have to wait. Any number of tasks run interleaved, and the state may also change
from outside.

What a task does is stated against rules: what it may rely on the others not to do, and what it
guarantees itself. When the guarantee of every task is within what the others rely on, all tasks of
a pool keep their rules in every run.
-/

universe u

namespace Tasks

/-! ### Tasks -/

/-- A task with a result in `α`. -/
inductive Task (ι σ α : Type) : Type 1 where
  | done (value : α)
  /-- Take an action, which waits while it gives `none`, and go on with its value. -/
  | act {β : Type} (action : ι → σ → Option (σ × β)) (next : β → Task ι σ α)

namespace Task

variable {ι σ α β : Type}

/-- The second task starts when the first has its result. -/
protected def bind : Task ι σ α → (α → Task ι σ β) → Task ι σ β
  | .done a, f => f a
  | .act action next, f => .act action fun b => (next b).bind f

/-- The task has nothing left to do. -/
def finished : Task ι σ α → Bool
  | .done _ => true
  | .act _ _ => false

instance : Monad (Task ι σ) where
  pure := .done
  bind := Task.bind

end Task

/-- Tasks that may fail. -/
abbrev Prog (ι σ ε : Type) : Type → Type 1 := ExceptT ε (Task ι σ)

variable {ι σ ε α β : Type}

/-- One action as a program. -/
def perform (action : ι → σ → Option (σ × Except ε β)) : Prog ι σ ε β :=
  ExceptT.mk (.act action .done)

/-- Run a program and look at how it ended. -/
def attempt (x : Prog ι σ ε α) : Prog ι σ ε (Except ε α) :=
  ExceptT.mk (x.run.bind fun r => .done (.ok r))

/-- End as another program has ended. -/
def conclude (r : Except ε α) : Prog ι σ ε α :=
  ExceptT.mk (.done r)

/-- Run a program under a condition. -/
def onlyIf (condition : Bool) (x : Prog ι σ ε Unit) : Prog ι σ ε Unit :=
  if condition then x else pure ()

/-! ### Rules -/

/-- The rules that a task keeps: the states that are looked at, what the others may do between two
of its actions, and what its own actions do. -/
structure Rules (σ : Type) where
  Allowed : σ → Prop
  Rely : σ → σ → Prop
  Guar : σ → σ → Prop
  rely_refl : ∀ s, Rely s s
  rely_trans : ∀ {s t u}, Rely s t → Rely t u → Rely s u

/-- A property that the others keep. -/
def Rules.Stable (L : Rules σ) (P : σ → Prop) : Prop :=
  ∀ s t, P s → L.Rely s t → P t

/-- From a state on, all actions of a task keep the rules, and its result satisfies `Q`. -/
def Safe (L : Rules σ) (Q : α → σ → Prop) : Task ι σ α → σ → Prop
  | .done a, s => ∀ t, L.Rely s t → Q a t
  | .act action next, s => ∀ t, L.Rely s t → ∀ i t' b, action i t = some (t', b) → L.Allowed t' →
      L.Guar t t' ∧ Safe L Q (next b) t'

variable {L : Rules σ} {s : σ}

/-- What the others do leaves a task safe. -/
theorem Safe.rely {Q : α → σ → Prop} {task : Task ι σ α} {t : σ} (h : Safe L Q task s)
    (hst : L.Rely s t) :
  Safe L Q task t
  := by
  cases task with
  | done a =>
    intro u htu
    apply h u (L.rely_trans hst htu)
  | act action next =>
    intro u htu
    apply h u (L.rely_trans hst htu)

theorem Safe.weaken {Q Q' : α → σ → Prop} {task : Task ι σ α} (h : Safe L Q task s)
    (hQ : ∀ a t, Q a t → Q' a t) :
  Safe L Q' task s
  := by
  induction task generalizing s with
  | done a =>
    intro t hst
    apply hQ a t (h t hst)
  | act action next ih =>
    intro t hst i t' b hact hallowed
    obtain ⟨hguar, hnext⟩ := h t hst i t' b hact hallowed
    exact ⟨hguar, ih b hnext⟩

/-- A task that follows another starts where that one is safe, after any steps of others. -/
theorem Safe.bind {Q : α → σ → Prop} {Q' : β → σ → Prop} {x : Task ι σ α} {f : α → Task ι σ β}
    (hx : Safe L Q x s) (hf : ∀ a t, (∀ u, L.Rely t u → Q a u) → Safe L Q' (f a) t) :
  Safe L Q' (x.bind f) s
  := by
  induction x generalizing s with
  | done a => exact hf a s hx
  | act action next ih =>
    intro t hst i t' b hact hallowed
    obtain ⟨hguar, hnext⟩ := hx t hst i t' b hact hallowed
    exact ⟨hguar, ih b hnext⟩

/-! ### Rules for programs -/

/-- A success with `Q` or a failure with `E`. -/
def Outcome (Q : α → σ → Prop) (E : ε → σ → Prop) : Except ε α → σ → Prop
  | .ok a => Q a
  | .error e => E e

/-- From states with `P` on, a program keeps the rules; it succeeds with `Q` or fails with `E`. -/
def Ensures (L : Rules σ) (P : σ → Prop) (x : Prog ι σ ε α) (Q : α → σ → Prop)
    (E : ε → σ → Prop) : Prop :=
  ∀ s, P s → Safe L (Outcome Q E) x.run s

variable {action : ι → σ → Option (σ × Except ε α)} {f : α → Prog ι σ ε β}

namespace Ensures

variable {P P' : σ → Prop} {Q Q' : α → σ → Prop} {E E' : ε → σ → Prop} {x : Prog ι σ ε α}

theorem weaken (h : Ensures L P x Q E) (hP : ∀ s, P' s → P s) (hQ : ∀ a s, Q a s → Q' a s)
    (hE : ∀ e s, E e s → E' e s) :
  Ensures L P' x Q' E'
  := by
  intro s hs
  apply (h s (hP s hs)).weaken
  intro r t hr
  cases r with
  | ok a => exact hQ a t hr
  | error e => exact hE e t hr

/-- What does not depend on the state is used before a program runs. -/
theorem of_and {fact : Prop} (h : fact → Ensures L P x Q E) :
  Ensures L (fun s => P s ∧ fact) x Q E
  := fun s hs => h hs.2 s hs.1

theorem bind {T : β → σ → Prop} (hx : Ensures L P x Q E) (hf : ∀ a, Ensures L (Q a) (f a) T E) :
  Ensures L P (x >>= f) T E
  := by
  intro s hs
  apply (hx s hs).bind
  intro r t hr
  cases r with
  | ok a => exact hf a t (hr t (L.rely_refl t))
  | error e => exact hr

theorem map {T : β → σ → Prop} {f : α → β} (hx : Ensures L P x Q E)
    (h : ∀ a s, Q a s → T (f a) s) :
  Ensures L P (f <$> x) T E
  := by
  intro s hs
  apply (hx s hs).bind
  intro r t hr
  cases r with
  | ok a => exact fun u htu => h a u (hr u htu)
  | error e => exact hr

theorem pure {a : α} (hP : L.Stable P) (h : ∀ s, P s → Q a s) :
  Ensures L P (Pure.pure a : Prog ι σ ε α) Q E
  := by
  intro s hs t hst
  exact h t (hP s t hs hst)

theorem throw {e : ε} (hP : L.Stable P) (h : ∀ s, P s → E e s) :
  Ensures L P (throw e : Prog ι σ ε α) Q E
  := by
  intro s hs t hst
  exact h t (hP s t hs hst)

theorem perform (hP : L.Stable P) (hQ : ∀ a, L.Stable (Q a)) (hE : ∀ e, L.Stable (E e)) (h : ∀ s i
      s' r, P s → action i s = some (s', r) → L.Allowed s' → L.Guar s s' ∧ Outcome Q E r s') :
  Ensures L P (perform action) Q E
  := by
  intro s hs t hst i t' r hact hallowed
  obtain ⟨hguar, hr⟩ := h t i t' r (hP s t hs hst) hact hallowed
  refine ⟨hguar, ?_⟩
  intro u htu
  cases r with
  | ok a => exact hQ a t' u hr htu
  | error e => exact hE e t' u hr htu

/-- A program that is looked at does not fail. -/
theorem attempt (h : Ensures L P x Q E) :
  Ensures L P (attempt x) (Outcome Q E) E'
  := by
  intro s hs
  apply (h s hs).bind
  intro r t hr
  exact hr

theorem onlyIf {condition : Bool} {x : Prog ι σ ε Unit} {Q : Unit → σ → Prop}
    (hx : condition = true → Ensures L P x Q E)
    (hskip : condition = false → Ensures L P (Pure.pure () : Prog ι σ ε Unit) Q E) :
  Ensures L P (onlyIf condition x) Q E
  := by
  cases condition with
  | true => exact hx rfl
  | false => exact hskip rfl

end Ensures

/-! ### What every action of a program does -/

/-- Every action of a task relates the states before and after it by `C`. -/
def Does (C : σ → σ → Prop) : Task ι σ α → Prop
  | .done _ => True
  | .act action next => (∀ i s t b, action i s = some (t, b) → C s t) ∧ ∀ b, Does C (next b)

namespace Does

variable {C C' : σ → σ → Prop}

theorem bind {x : Task ι σ α} {f : α → Task ι σ β} (hx : Does C x) (hf : ∀ a, Does C (f a)) :
  Does C (x.bind f)
  := by
  induction x with
  | done a => apply hf
  | act action next ih => exact ⟨hx.1, fun b => ih b (hx.2 b)⟩

theorem weaken {x : Task ι σ α} (h : Does C x) (hC : ∀ s t, C s t → C' s t) :
  Does C' x
  := by
  induction x with
  | done a => trivial
  | act action next ih =>
    refine ⟨?_, fun b => ih b (h.2 b)⟩
    intro i s t b hact
    apply hC s t (h.1 i s t b hact)

/-- A property that the others and all actions of a task keep holds when the task is done. -/
theorem safe {P : σ → Prop} {x : Task ι σ α} (h : Does C x) (hstable : L.Stable P)
    (hC : ∀ s t, P s → C s t → L.Allowed t → L.Guar s t ∧ P t) (hs : P s) :
  Safe L (fun _ => P) x s
  := by
  induction x generalizing s with
  | done a =>
    intro t hst
    apply hstable s t hs hst
  | act action next ih =>
    intro t hst i t' b hact hallowed
    obtain ⟨hguar, hP⟩ := hC t t' (hstable s t hs hst) (h.1 i t t' b hact) hallowed
    exact ⟨hguar, ih b (h.2 b) hP⟩

end Does

/-- Every action of a program relates the states before and after it by `C`. -/
def Only (C : σ → σ → Prop) (x : Prog ι σ ε α) : Prop :=
  Does C x.run

namespace Only

variable {C C' : σ → σ → Prop} {x : Prog ι σ ε α}

theorem pure (a : α) :
  Only C (Pure.pure a : Prog ι σ ε α)
  := trivial

theorem throw (e : ε) :
  Only C (throw e : Prog ι σ ε α)
  := trivial

theorem conclude (r : Except ε α) :
  Only C (conclude r : Prog ι σ ε α)
  := trivial

theorem bind (hx : Only C x) (hf : ∀ a, Only C (f a)) :
  Only C (x >>= f)
  := by
  apply Does.bind hx
  intro r
  cases r with
  | ok a => apply hf
  | error e => trivial

theorem map {f : α → β} (hx : Only C x) :
  Only C (f <$> x)
  := by
  apply Does.bind hx
  intro r
  cases r with
  | ok a => trivial
  | error e => trivial

theorem attempt (hx : Only C x) :
  Only C (attempt x)
  := by
  apply Does.bind hx
  intro r
  trivial

theorem onlyIf {condition : Bool} {x : Prog ι σ ε Unit} (hx : Only C x) :
  Only C (onlyIf condition x)
  := by
  cases condition with
  | true => exact hx
  | false => trivial

theorem perform (h : ∀ i s t r, action i s = some (t, r) → C s t) :
  Only C (perform action)
  := ⟨h, fun _ => trivial⟩

theorem weaken (h : Only C x) (hC : ∀ s t, C s t → C' s t) :
  Only C' x
  := Does.weaken h hC

/-- A property that the others and all actions of a program keep. -/
theorem ensures {P : σ → Prop} (h : Only C x) (hstable : L.Stable P)
    (hC : ∀ s t, P s → C s t → L.Allowed t → L.Guar s t ∧ P t) :
  Ensures L P x (fun _ => P) fun _ => P
  := by
  intro s hs
  apply (Does.safe h hstable hC hs).weaken
  intro r t ht
  cases r with
  | ok a => exact ht
  | error e => exact ht

/-- A property that the others and the action keep held of the state that the action has looked
at. -/
theorem observes {P : σ → Prop} {R : α → σ → Prop} (h : Only C (Tasks.perform action))
    (hR : ∀ i s t a, action i s = some (t, .ok a) → R a s) (hstable : L.Stable P)
    (hC : ∀ s t, P s → C s t → L.Allowed t → L.Guar s t ∧ P t) :
  Ensures L P (Tasks.perform action) (fun a s => P s ∧ ∃ t, P t ∧ R a t) fun _ => P
  := by
  apply Ensures.perform hstable
  · intro a s t hs hst
    exact ⟨hstable s t hs.1 hst, hs.2⟩
  · exact fun _ => hstable
  · intro s i t r hs hact hallowed
    obtain ⟨hguar, ht⟩ := hC s t hs (h.1 i s t r hact) hallowed
    refine ⟨hguar, ?_⟩
    cases r with
    | ok a => exact ⟨ht, s, hs, hR i s t a hact⟩
    | error e => exact ht

end Only

/-! ### Pools -/

/-- The shared state and the tasks that were started, each with its request. -/
structure Config (ι σ ρ α : Type) : Type 1 where
  shared : σ
  tasks : List (ρ × Task ι σ α)

/-- A call comes in, a task takes its next step, or something else happens. -/
inductive Event (ι ρ χ : Type) where
  | call (request : ρ)
  | run (task : ℕ) (input : ι)
  | outside (change : χ)

section Pools

variable {ρ χ : Type} {prog : ρ → ℕ → Task ι σ α} {change : χ → σ → Option σ}

/-- One event. A task is started with its index, and a task that is done or waits cannot run. -/
def exec (prog : ρ → ℕ → Task ι σ α) (change : χ → σ → Option σ) (c : Config ι σ ρ α) :
    Event ι ρ χ → Option (Config ι σ ρ α)
  | .call request =>
    some { c with tasks := c.tasks ++ [(request, prog request c.tasks.length)] }
  | .run i input =>
    match c.tasks[i]? with
    | some (request, .act action next) =>
      match action input c.shared with
      | some (shared, b) => some ⟨shared, c.tasks.set i (request, next b)⟩
      | none => none
    | _ => none
  | .outside x =>
    match change x c.shared with
    | some shared => some { c with shared }
    | none => none

/-- Every task of the pool is safe in the current state. -/
def Config.AllSafe (rules : ℕ → Rules σ) (Q : ρ → ℕ → α → σ → Prop) (c : Config ι σ ρ α) : Prop :=
  ∀ i request task, c.tasks[i]? = some (request, task) →
    Safe (rules i) (Q request i) task c.shared

/-- The rules of the tasks fit: what one guarantees the others may rely on, and `I` holds
throughout. -/
structure Fits (rules : ℕ → Rules σ) (I : σ → Prop) (change : χ → σ → Option σ) : Prop where
  guar : ∀ {i j s t}, i ≠ j → I s → (rules i).Guar s t → (rules j).Rely s t
  keeps : ∀ {i s t}, I s → (rules i).Guar s t → I t
  outside : ∀ {x s t}, I s → change x s = some t → (∀ i, (rules i).Allowed t) →
    (∀ i, (rules i).Rely s t) ∧ I t

variable {rules : ℕ → Rules σ} {I : σ → Prop} {Q : ρ → ℕ → α → σ → Prop} {c c' : Config ι σ ρ α}
  {event : Event ι ρ χ}

/-- One event leaves every task safe. -/
theorem Config.AllSafe.exec (hfits : Fits rules I change) (hI : I c.shared)
    (hsafe : c.AllSafe rules Q)
    (hcall : ∀ request, event = .call request → ∀ i s, I s →
      Safe (rules i) (Q request i) (prog request i) s)
    (hallowed : ∀ i, (rules i).Allowed c'.shared) (h : exec prog change c event = some c') :
  I c'.shared ∧ c'.AllSafe rules Q
  := by
  cases event with
  | call request =>
    cases h
    refine ⟨hI, ?_⟩
    intro i request' task htask
    rw [List.getElem?_append] at htask
    split at htask
    next => apply hsafe i request' task htask
    next hge =>
      rw [List.getElem?_singleton] at htask
      split at htask
      next hzero =>
        cases htask
        obtain rfl : i = c.tasks.length := by omega
        apply hcall request rfl c.tasks.length c.shared hI
      next => cases htask
  | run i input =>
    rw [Tasks.exec] at h
    split at h
    next request _ action cont htask =>
      split at h
      next shared b hact =>
        cases h
        obtain ⟨hguar, hnext⟩ := hsafe i request _ htask c.shared
          ((rules i).rely_refl c.shared) input shared b hact (hallowed i)
        refine ⟨hfits.keeps hI hguar, ?_⟩
        intro j request' task htask'
        rw [List.getElem?_set] at htask'
        split at htask'
        next heq =>
          subst heq
          split at htask'
          next =>
            obtain ⟨rfl, rfl⟩ := Prod.mk.inj (Option.some.inj htask')
            exact hnext
          next => cases htask'
        next hne =>
          apply (hsafe j request' task htask').rely (hfits.guar hne hI hguar)
      next => cases h
    next => cases h
  | outside x =>
    rw [Tasks.exec] at h
    split at h
    next shared hchange =>
      cases h
      obtain ⟨hrely, hI'⟩ := hfits.outside hI hchange hallowed
      refine ⟨hI', ?_⟩
      intro i request task htask
      apply (hsafe i request task htask).rely (hrely i)
    next => cases h

/-- No event leads to a state that is not allowed. -/
def Keeps (prog : ρ → ℕ → Task ι σ α) (change : χ → σ → Option σ) (A : σ → Prop)
    (c : Config ι σ ρ α) (event : Event ι ρ χ) : Prop :=
  ∀ c', exec prog change c event = some c' → A c'.shared

instance decidableKeeps {prog : ρ → ℕ → Task ι σ α} {change : χ → σ → Option σ} {A : σ → Prop}
    [DecidablePred A] (c : Config ι σ ρ α) (event : Event ι ρ χ) :
    Decidable (Keeps prog change A c event) :=
  match h : exec prog change c event with
  | none => isTrue fun _ h' => absurd (h.symm.trans h') nofun
  | some c' => decidable_of_iff (A c'.shared)
      ⟨fun hA _ h' => Option.some.inj (h.symm.trans h') ▸ hA, fun hall => hall c' h⟩

variable {events : List (Event ι ρ χ)}

/-- In every run from an empty pool through allowed states, all tasks keep their rules, if the
programs of the requests do. -/
theorem safe_of_run {A : σ → Prop} (hfits : Fits rules I change)
    (hallowed : ∀ i s, A s → (rules i).Allowed s) (hI : I s) (hcall : ∀ request, Event.call
      request ∈ events → ∀ i s, I s → Safe (rules i) (Q request i) (prog request i) s)
    (hkeeps : Run.Along (exec prog change) (Keeps prog change A) events ⟨s, []⟩)
    (hrun : events.foldlM (exec prog change) ⟨s, []⟩ = some c) :
  I c.shared ∧ c.AllSafe rules Q
  := by
  have hsteps := hkeeps.and_forall (Q := fun event => ∀ request, event = .call request → ∀ i s,
    I s → Safe (rules i) (Q request i) (prog request i) s) fun event hevent request heq =>
      hcall request (heq ▸ hevent)
  apply Run.Along.induction (I := fun c => I c.shared ∧ c.AllSafe rules Q) _ hsteps _ hrun
  · rintro c event c' ⟨hkeep, hreq⟩ ⟨hI, hsafe⟩ hexec
    apply hsafe.exec hfits hI hreq _ hexec
    intro i
    apply hallowed i c'.shared (hkeep c' hexec)
  · refine ⟨hI, ?_⟩
    intro i request task htask
    cases htask

/-- The rules of tasks that rely on nothing and keep `I`. -/
def keeping (A I : σ → Prop) : Rules σ where
  Allowed := A
  Rely _ _ := True
  Guar s t := I s → I t
  rely_refl _ := trivial
  rely_trans _ _ := trivial

/-- A property that every action of the programs keeps, whatever the others do, holds throughout a
run. -/
theorem invariant_of_run {C : σ → σ → Prop} {B : σ → Prop} (hC : ∀ s t, I s → C s t → B t → I t)
    (houtside : ∀ x s t, I s → change x s = some t → I t) (hI : I s)
    (hcall : ∀ request, Event.call request ∈ events → ∀ i, Does C (prog request i))
    (hkeeps : Run.Along (exec prog change) (Keeps prog change B) events ⟨s, []⟩)
    (hrun : events.foldlM (exec prog change) ⟨s, []⟩ = some c) :
  I c.shared
  := by
  have hfits : Fits (fun _ => keeping B I) I change := by
    constructor
    · intros
      trivial
    · intro i s t hs hguar
      exact hguar hs
    · intro x s t hs hchange _
      exact ⟨fun _ => trivial, houtside x s t hs hchange⟩
  have hsafe : ∀ request, Event.call request ∈ events → ∀ i s, I s →
      Safe (keeping B I) (fun _ _ => True) (prog request i) s := by
    intro request hrequest i s _
    apply (hcall request hrequest i).safe (P := fun _ => True) _ _ trivial
    · exact fun _ _ _ _ => trivial
    · intro s t _ hst hB
      exact ⟨fun hs => hC s t hs hst hB, trivial⟩
  exact (safe_of_run (Q := fun _ _ _ _ => True) hfits (fun _ _ hB => hB) hI hsafe hkeeps hrun).1

/-- What is known of a task that is done. -/
theorem Config.AllSafe.done (hsafe : c.AllSafe rules Q) {i : ℕ} {request : ρ} {a : α}
    (htask : c.tasks[i]? = some (request, .done a)) :
  Q request i a c.shared
  := hsafe i request _ htask c.shared ((rules i).rely_refl c.shared)

end Pools

end Tasks
