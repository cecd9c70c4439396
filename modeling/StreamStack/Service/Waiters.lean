import StreamStack.Lib.Run

/-!
# Waiting for appends

A call that waits for data past an offset looks at the entry of the name and at the confirmed
offset, and then parks until it is notified. An append is notified after it was confirmed, and a
close after the entry was marked. The looks and the parking are separate steps, so a notification
that comes between them finds no one to wake, and the call that parks after it stays parked. In the
runs of the service itself a wake-up is an input, so nothing there rests on when it comes.
-/

namespace Service.Waiters

open List

/-! ### Calls and notifications -/

inductive Phase where
  | entering
  /-- The entry was not closed. -/
  | admitted
  /-- The confirmed offset was not past the offset waited for. -/
  | behind
  | parked
  | answered (woken : Bool)
deriving DecidableEq, Repr

/-- A call of `wait_appended`. -/
structure Call where
  start : ℕ
  phase : Phase
deriving DecidableEq, Repr

structure State where
  closed : Bool := false
  confirmOffset : ℕ := 0
  /-- The parked calls are the queue of the name. -/
  calls : List Call := []
  /-- The offsets after confirmed appends that are still to be notified. -/
  unsent : List ℕ := []
  /-- The close is still to be notified. -/
  closing : Bool := false
  /-- The greatest offset that was notified. -/
  notified : ℕ := 0
  /-- The close was notified. -/
  closeNotified : Bool := false
deriving DecidableEq, Repr

inductive Event where
  | enter (start : ℕ)
  | lookEntry (i : ℕ)
  | lookConfirmed (i : ℕ)
  | park (i : ℕ)
  | timeout (i : ℕ)
  | confirm (next : ℕ)
  | notifyAppend (next : ℕ)
  | close
  | notifyClosed
deriving DecidableEq, Repr

/-- A call goes on from a phase. -/
def State.move (s : State) (i : ℕ) (from_ : Phase) (next : Call → Phase) : Option State :=
  match s.calls[i]? with
  | none => none
  | some call =>
    if call.phase = from_ then
      some { s with calls := s.calls.set i { call with phase := next call } }
    else none

/-- Wake the parked calls that are concerned. -/
def wake (concerned : Call → Bool) (calls : List Call) : List Call :=
  calls.map fun call =>
    if call.phase = .parked ∧ concerned call then { call with phase := .answered true } else call

def State.notifyAppend (s : State) (next : ℕ) : State :=
  { s with
    calls := wake (fun call => next > call.start) s.calls
    unsent := s.unsent.erase next
    notified := max s.notified next }

def State.notifyClosed (s : State) : State :=
  { s with calls := wake (fun _ => true) s.calls, closing := false, closeNotified := true }

def step (s : State) : Event → Option State
  | .enter start => some { s with calls := s.calls ++ [⟨start, .entering⟩] }
  | .lookEntry i =>
    s.move i .entering fun _ => if s.closed then .answered true else .admitted
  | .lookConfirmed i =>
    s.move i .admitted fun call => if s.confirmOffset > call.start then .answered true else .behind
  | .park i => s.move i .behind fun _ => .parked
  | .timeout i => s.move i .parked fun _ => .answered false
  | .confirm next =>
    some { s with confirmOffset := max s.confirmOffset next, unsent := next :: s.unsent }
  | .notifyAppend next =>
    if next ∈ s.unsent then some (s.notifyAppend next) else none
  | .close => some { s with closed := true, closing := true }
  | .notifyClosed =>
    if s.closing then some s.notifyClosed else none

/-- A notification that concerns the call was delivered. -/
def State.Told (s : State) (call : Call) : Prop :=
  call.start < s.notified ∨ s.closeNotified = true
deriving Decidable

/-- A notification comes when no call that it concerns is between its looks and its parking. A call
that has yet to look at the confirmed offset does not park when that is past the offset it waits
for. -/
def Timely (s : State) : Event → Prop
  | .notifyAppend next => ∀ call ∈ s.calls, call.phase = .behind → next ≤ call.start
  | .notifyClosed => ∀ call ∈ s.calls,
      call.phase ≠ .behind ∧ (call.phase = .admitted → call.start < s.confirmOffset)
  | _ => True

/-! ### No call is lost in between -/

/-- What a call knows in its phase. -/
def Knows (s : State) (call : Call) : Prop :=
  match call.phase with
  | .entering | .answered _ => True
  | .admitted => s.closeNotified = false ∨ call.start < s.confirmOffset
  | .behind | .parked => ¬ s.Told call

structure Inv (s : State) : Prop where
  notified : s.notified ≤ s.confirmOffset
  unsent : ∀ next ∈ s.unsent, next ≤ s.confirmOffset
  closing : s.closing = true ∨ s.closeNotified = true → s.closed = true
  calls : ∀ call ∈ s.calls, Knows s call

/-- A call that goes on keeps the invariant if it knows what its new phase says. -/
theorem Inv.move {s s' : State} {i : ℕ} {phase : Phase} {next : Call → Phase} (h : Inv s)
    (hknows : ∀ call ∈ s.calls, call.phase = phase →
      Knows s { call with phase := next call })
    (hstep : s.move i phase next = some s') :
  Inv s'
  := by
  unfold State.move at hstep
  split at hstep
  · cases hstep
  next call hcall =>
    split at hstep
    next hphase =>
      cases hstep
      refine ⟨h.notified, h.unsent, h.closing, ?_⟩
      intro other hother
      rcases mem_or_eq_of_mem_set hother with hother | rfl
      · exact h.calls other hother
      · exact hknows call (mem_of_getElem? hcall) hphase
    · cases hstep

theorem mem_wake {concerned : Call → Bool} {calls : List Call} {call : Call}
    (h : call ∈ wake concerned calls) :
  call.phase = .answered true ∨ call ∈ calls ∧ (call.phase = .parked → concerned call = false)
  := by
  obtain ⟨other, hother, rfl⟩ := mem_map.mp h
  split
  · exact Or.inl rfl
  next hno => exact Or.inr ⟨hother, by simpa using hno⟩

theorem Inv.step {s s' : State} {event : Event} (h : Inv s) (htimely : Timely s event)
    (hstep : step s event = some s') :
  Inv s'
  := by
  cases event with
  | enter start =>
    cases hstep
    refine ⟨h.notified, h.unsent, h.closing, ?_⟩
    intro call hcall
    rcases mem_append.mp hcall with hcall | hcall
    · exact h.calls call hcall
    · rw [mem_singleton.mp hcall]
      trivial
  | lookEntry i =>
    apply h.move _ hstep
    intro call hcall hphase
    cases hclosed : s.closed with
    | true => trivial
    | false =>
      refine .inl (Bool.eq_false_iff.mpr ?_)
      intro hnotified
      rw [h.closing (Or.inr hnotified)] at hclosed
      cases hclosed
  | lookConfirmed i =>
    apply h.move _ hstep
    intro call hcall hphase
    have hopen := h.calls call hcall
    have hnotified := h.notified
    rw [Knows, hphase] at hopen
    by_cases hpast : s.confirmOffset > call.start
    · simp [Knows, hpast]
    · have hopen := hopen.resolve_right hpast
      simp only [Knows, hpast, if_false, State.Told, hopen, Bool.false_eq_true, or_false]
      omega
  | park i =>
    apply h.move _ hstep
    intro call hcall hphase
    have := h.calls call hcall
    rwa [Knows, hphase] at this
  | timeout i =>
    apply h.move _ hstep
    intros
    trivial
  | confirm next =>
    cases hstep
    refine ⟨h.notified.trans (le_max_left _ _), ?_, h.closing, ?_⟩
    · exact forall_mem_cons.mpr
        ⟨le_max_right _ _, fun n hn => (h.unsent n hn).trans (le_max_left _ _)⟩
    · intro call hcall
      have hknows := h.calls call hcall
      unfold Knows at hknows ⊢
      cases hphase : call.phase with
      | admitted =>
        rw [hphase] at hknows
        exact hknows.imp_right fun hlt => lt_of_lt_of_le hlt (le_max_left _ _)
      | _ =>
        rw [hphase] at hknows
        exact hknows
  | notifyAppend next =>
    obtain ⟨hunsent, hstep⟩ := Option.ite_none_right_eq_some.mp hstep
    cases hstep
    refine ⟨max_le h.notified (h.unsent next hunsent),
      fun n hn => h.unsent n (mem_of_mem_erase hn), h.closing, ?_⟩
    intro call hcall
    rcases mem_wake hcall with hwoken | ⟨hmem, hparked⟩
    · rw [Knows, hwoken]
      trivial
    · have hknows := h.calls call hmem
      have hbehind := htimely call hmem
      cases hphase : call.phase <;> simp_all [Knows, State.Told, State.notifyAppend]
  | close =>
    cases hstep
    exact ⟨h.notified, h.unsent, fun _ => rfl, h.calls⟩
  | notifyClosed =>
    obtain ⟨hclosing, hstep⟩ := Option.ite_none_right_eq_some.mp hstep
    cases hstep
    refine ⟨h.notified, h.unsent, fun _ => h.closing (Or.inl hclosing), ?_⟩
    intro call hcall
    rcases mem_wake hcall with hwoken | ⟨hmem, hparked⟩
    · rw [Knows, hwoken]
      trivial
    · obtain ⟨hbehind, hadmitted⟩ := htimely call hmem
      cases hphase : call.phase <;> simp_all [Knows, State.notifyClosed]

variable {s s' : State} {call : Call} {i : ℕ}

instance decidableTimely (s : State) : DecidablePred (Timely s) :=
  fun event => by cases event <;> dsimp only [Timely] <;> infer_instance

end Service.Waiters
