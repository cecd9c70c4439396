import StreamStack.Metadata.Fencing

/-!
# Ownership transfers

A transfer is recorded while the stream is opened on its source. It is completed at the epoch the
stream was closed at, and then the stream belongs to the target. Transfers, openings, closings and
completions can be proposed by any node and arrive in any order, so what a completion relies on is
a matter of the whole history of commands.
-/

namespace Metadata

open OrdMap Run List

variable {s s' : MetadataState} {command : MetadataCommand} {result : MetadataResult}
  {streamId : UInt64}

/-! ### One command, one pending transfer -/

/-- What a command can do to the pending transfer of a stream. -/
inductive PendingStep (streamId : UInt64) (command : MetadataCommand) (s : MetadataState) :
    Option PendingTransfer → Option PendingTransfer → Prop where
  | kept (pending : Option PendingTransfer) : PendingStep streamId command s pending pending
  | recorded (pending : PendingTransfer) (row : StreamRow)
      (isTransfer : command = .transferStream streamId pending.fromNode pending.toNode)
      (stored : s.streams[streamId]? = some row) (opened : row.state = .opened)
      (source : row.nodeId = pending.fromNode) :
      PendingStep streamId command s none (some pending)
  | completed (pending : PendingTransfer) (epoch : Int64)
      (isComplete : command = .completeTransfer streamId epoch) :
      PendingStep streamId command s (some pending) none
  | dropped (pending : Option PendingTransfer) (nodeId : Int32) (nodeEpoch epoch : Int64)
      (isDelete : command = .deleteStream nodeId nodeEpoch streamId epoch) :
      PendingStep streamId command s pending none

theorem SameControl.pendingStep (h : SameControl s s') :
  PendingStep streamId command s s.pendingTransfers[streamId]? s'.pendingTransfers[streamId]?
  := by
  rw [h.pendingTransfers]
  apply PendingStep.kept

theorem pendingStep_of_eq (h : s'.pendingTransfers = s.pendingTransfers) :
  PendingStep streamId command s s.pendingTransfers[streamId]? s'.pendingTransfers[streamId]?
  := by
  rw [h]
  apply PendingStep.kept

variable {id : UInt64} {compact : Bool}

theorem advanceEndOffset_sameNodes {startOffset endOffset : UInt64}
    (hok : advanceEndOffset s id startOffset endOffset compact = .ok s') :
  SameNodes s s'
  := by
  simp only [advanceEndOffset, ok_of_do] at hok
  obtain ⟨row, -, hok⟩ := hok
  split at hok
  · simp only [ok_of_do, ok_of_return] at hok
    obtain ⟨-, -, -, -, rfl⟩ := hok
    exact ⟨rfl, rfl⟩
  · simp only [ok_of_do, ok_of_return] at hok
    obtain ⟨-, -, rfl⟩ := hok
    exact ⟨rfl, rfl⟩

/-- A fold of steps that leave nodes and transfers alone leaves them alone. -/
theorem SameNodes.foldlM {γ : Type} {f : MetadataState → γ → Except Fault MetadataState}
    (hf : ∀ t x t', f t x = .ok t' → SameNodes t t') {l : List γ} (h : l.foldlM f s = .ok s') :
  SameNodes s s'
  := by
  apply foldlM_ok_induction (I := SameNodes s) _ ⟨rfl, rfl⟩ h
  intro t x t' _ ht hstep
  exact ht.trans (hf t x t' hstep)

variable {nodeId : Int32} {nowMs : Int64}
  {request : CommitStreamSetObjectRequest} {dataTimeMs : Int64}

theorem commitSetObject_sameNodes
    (hok : commitSetObject s nodeId request nowMs dataTimeMs compact = .ok s') :
  SameNodes s s'
  := by
  unfold commitSetObject at hok
  split at hok
  case isFalse =>
      cases hok
      exact ⟨rfl, rfl⟩
  case isTrue =>
      simp only [ok_of_do, ok_of_return] at hok
      obtain ⟨-, -, s₂, hfold, rfl⟩ := hok
      have hranges := SameNodes.foldlM (fun _ _ _ => advanceEndOffset_sameNodes) hfold
      obtain ⟨hpending, hnodes⟩ :=
        (commitPrepared_sameControl s request.objectId).toSameNodes.trans hranges
      exact ⟨hpending, hnodes⟩

theorem commitStreamObject_sameNodes {so : StreamObject}
    (hok : commitStreamObject nowMs dataTimeMs compact s so = .ok s') :
  SameNodes s s'
  := by
  simp only [commitStreamObject, ok_of_do, ok_of_return] at hok
  obtain ⟨-, -, s₂, hadvance, rfl⟩ := hok
  have hmoved := advanceEndOffset_sameNodes hadvance
  obtain ⟨hpending, hnodes⟩ :=
    (commitPrepared_sameControl s so.objectId).toSameNodes.trans hmoved
  exact ⟨hpending, hnodes⟩

variable {nodeEpoch : Int64}

theorem commitStreamSetObject_sameNodes
    (hok : commitStreamSetObject s nodeId nodeEpoch request nowMs = .ok (s', result)) :
  SameNodes s s'
  := by
  simp only [commitStreamSetObject, ok_of_do, ok_of_return, Prod.mk.injEq] at hok
  obtain ⟨-, -, -, -, dataTimeMs, -, s₁, hcompact, s₂, hset, s₃, hobjects, rfl, -⟩ := hok
  have hsame := SameControl.foldlM (fun _ _ _ => destroyCompacted_sameControl) hcompact
  have hall := SameNodes.foldlM (fun _ _ _ => commitStreamObject_sameNodes) hobjects
  exact (hsame.toSameNodes.trans (commitSetObject_sameNodes hset)).trans hall

variable {epoch : Int64}

/-- Deleting a stream drops its pending transfer. -/
theorem deleteStream_pending
    (hok : applyInner s (.deleteStream nodeId nodeEpoch id epoch) = .ok (s', result)) :
  s' = s ∧ s.streams[id]? = none ∨ s'.pendingTransfers = s.pendingTransfers.erase id
  := by
  cases applyInner_handled hok with
  | absent hnone => exact .inl ⟨rfl, hnone⟩
  | deleted row stored closed destroyed =>
    right
    exact (SameControl.foldlM (fun _ _ _ => destroyStreamObject_sameControl)
      destroyed).pendingTransfers

/-- Recording a transfer leaves the rows alone. -/
theorem transferStream_streams {fromNode toNode : Int32}
    (hok : applyInner s (.transferStream id fromNode toNode) = .ok (s', result)) :
  s'.streams = s.streams
  := by
  cases applyInner_handled hok with
  | retransferred | transferred => rfl

/-- Every command moves the pending transfer of a stream only as it may. -/
theorem applyInner_pendingStep (hok : applyInner s command = .ok (s', result)) :
  PendingStep streamId command s s.pendingTransfers[streamId]? s'.pendingTransfers[streamId]?
  := by
  cases applyInner_handled hok with
  | registered | replaced | created | createdAll | placed | reopened | opened | trimmed | reclosed
  | closed | absent | prepared | put | putAgain | putNew | removed | retransferred =>
    exact pendingStep_of_eq rfl
  | deleted row stored closed destroyed =>
    have hsame := SameControl.foldlM (fun _ _ _ => destroyStreamObject_sameControl) destroyed
    rw [hsame.pendingTransfers, MetadataState.withoutStream, lookup_erase]
    split
    next hid =>
      subst hid
      exact PendingStep.dropped _ _ _ _ rfl
    next => apply PendingStep.kept
  | committed ok => exact pendingStep_of_eq (commitStreamSetObject_sameNodes ok).pendingTransfers
  | compacted ok => apply (compactStreamObject_sameControl ok).pendingStep
  | expired ok => apply (expirePreparedObjects_sameControl ok).pendingStep
  | cleaned => apply (SameControl.foldl cleanDestroyedObject_sameControl _ _).pendingStep
  | transferred row unrecorded stored opened source =>
    rw [lookup_insert]
    split
    next heq =>
      subst heq
      rw [unrecorded]
      exact PendingStep.recorded _ row rfl stored opened source
    next => apply PendingStep.kept
  | completed row pending recorded =>
    rw [lookup_erase]
    split
    next heq =>
      subst heq
      rw [recorded]
      exact PendingStep.completed pending _ rfl
    next => apply PendingStep.kept

/-- Only a registration changes the epoch at which a node is registered. -/
theorem nodeEpochCheck_of_applyInner (hok : applyInner s command = .ok (s', result))
    (hagain : ∀ epoch address slots, command = .registerNode nodeId epoch address slots →
      epoch = nodeEpoch) (h : nodeEpochCheck s nodeId nodeEpoch = .ok ()) :
  nodeEpochCheck s' nodeId nodeEpoch = .ok ()
  := by
  have hkept (hnodes : s'.nodes = s.nodes) : nodeEpochCheck s' nodeId nodeEpoch = .ok () := by
    rw [nodeEpochCheck, hnodes]
    exact h
  cases applyInner_handled hok with
  | @registered id _ _ _ address kept =>
    by_cases hid : id = nodeId
    · subst hid
      simp [nodeEpochCheck, reject, hagain _ _ _ rfl]
    · rw [nodeEpochCheck, lookup_insert, if_neg hid]
      exact h
  | replaced | created | createdAll | placed | reopened | opened | trimmed | reclosed | closed
  | absent | prepared | put | putAgain | putNew | removed | retransferred | transferred
  | completed => exact hkept rfl
  | deleted row stored closed destroyed =>
    exact hkept (SameControl.foldlM (fun _ _ _ => destroyStreamObject_sameControl) destroyed).nodes
  | committed ok => exact hkept (commitStreamSetObject_sameNodes ok).nodes
  | compacted ok => exact hkept (compactStreamObject_sameControl ok).nodes
  | expired ok => exact hkept (expirePreparedObjects_sameControl ok).nodes
  | cleaned => exact hkept (SameControl.foldl cleanDestroyedObject_sameControl _ _).nodes

/-! ### Histories -/

/-- A command as it was applied: the state it found, its result and the state it left. -/
structure Event where
  before : MetadataState
  command : MetadataCommand
  result : Except MetadataError MetadataResult
  after : MetadataState

/-- The events of a run of commands, in order. -/
inductive Ran (init : MetadataState) : List Event → MetadataState → Prop where
  | start : Ran init [] init
  | step {history : List Event} {s s' : MetadataState} {command : MetadataCommand}
      {result : Except MetadataError MetadataResult} (ran : Ran init history s)
      (happly : apply s command = some (s', result)) :
      Ran init (history ++ [⟨s, command, result, s'⟩]) s'

variable {init : MetadataState}

/-- Every sequence of commands that can be applied has its history. -/
theorem exists_ran {commands : List MetadataCommand} (h : applyAll init commands = some s) :
  ∃ history, Ran init history s ∧ history.map Event.command = commands
  := by
  induction commands using List.reverseRecOn generalizing s with
  | nil =>
    cases h
    exact ⟨[], Ran.start, rfl⟩
  | append_singleton commands command ih =>
    rw [applyAll, foldlM_append, Option.bind_eq_bind, Option.bind_eq_some_iff] at h
    obtain ⟨t, hbefore, hlast⟩ := h
    simp only [foldlM_cons, foldlM_nil, bind_pure] at hlast
    obtain ⟨⟨t', result⟩, happly, rfl⟩ := Option.map_eq_some_iff.mp hlast
    obtain ⟨history, hran, hcommands⟩ := ih hbefore
    refine ⟨history ++ [⟨t, command, result, t'⟩], hran.step happly, ?_⟩
    rw [map_append, hcommands]
    rfl

variable {history : List Event}

/-- A run from the empty state keeps its ids below the next one. -/
theorem Ran.idsBelow (h : Ran init history s) (hinit : IdsBelow init) :
  IdsBelow s
  := by
  induction h with
  | start => exact hinit
  | step _ happly ih =>
    apply ((Since.refl ih).apply ih happly).below

/-- The event records a transfer where none was pending. -/
structure Event.Records (e : Event) (streamId : UInt64) (pending : PendingTransfer) : Prop where
  command : e.command = .transferStream streamId pending.fromNode pending.toNode
  result : ∃ value, e.result = .ok value
  before : e.before.pendingTransfers[streamId]? = none
  after : e.after.pendingTransfers[streamId]? = some pending

/-- The transfer is pending when the event comes and when it has passed. -/
structure Event.Keeps (e : Event) (streamId : UInt64) (pending : PendingTransfer) : Prop where
  before : e.before.pendingTransfers[streamId]? = some pending
  after : e.after.pendingTransfers[streamId]? = some pending

/-- The event is a successful close of the stream at an epoch. -/
def Event.Closes (e : Event) (streamId : UInt64) (epoch : Int64) : Prop :=
  (∃ nodeId nodeEpoch, e.command = .closeStream nodeId nodeEpoch streamId epoch) ∧
    ∃ value, e.result = .ok value

/-- The event is a successful opening of the stream. -/
def Event.Opens (e : Event) (streamId : UInt64) : Prop :=
  (∃ nodeId nodeEpoch epoch, e.command = .openStream nodeId nodeEpoch streamId epoch) ∧
    ∃ value, e.result = .ok value

/-! ### What a pending transfer and a closed row tell of the past -/

/-- The stream was closed at an epoch and has not been opened since. -/
def ClosedIn (streamId : UInt64) (epoch : Int64) (events : List Event) : Prop :=
  ∃ between close after, events = between ++ close :: after ∧ close.Closes streamId epoch ∧
    ∀ e ∈ after, ¬ e.Opens streamId

theorem ClosedIn.snoc {events : List Event} (h : ClosedIn streamId epoch events) {e : Event}
    (he : ¬ e.Opens streamId) :
  ClosedIn streamId epoch (events ++ [e])
  := by
  obtain ⟨between, close, after, rfl, hclose, hafter⟩ := h
  refine ⟨between, close, after ++ [e], by simp, hclose, ?_⟩
  intro e' he'
  rcases mem_append.mp he' with he' | he'
  · apply hafter e' he'
  · rw [mem_singleton.mp he']
    exact he

/-- The transfer was recorded, is pending since, and if the stream is closed now then it was closed
after the recording and not opened again. -/
structure Traced (streamId : UInt64) (pending : PendingTransfer) (history : List Event)
    (s : MetadataState) : Prop where
  recording : ∃ before recording since, history = before ++ recording :: since ∧
    recording.Records streamId pending ∧ (∀ e ∈ since, e.Keeps streamId pending) ∧
    ∃ row, s.streams[streamId]? = some row ∧
      (row.state = .closed → ClosedIn streamId row.epoch since)

variable {pending : PendingTransfer}

/-- An event that keeps the transfer extends its trace, if the new row is as it should be. -/
theorem Traced.snoc {e : Event} (h : Traced streamId pending history s)
    (he : e.Keeps streamId pending) (hrow : ∀ row since, s.streams[streamId]? = some row →
      (row.state = .closed → ClosedIn streamId row.epoch since) →
      ∃ row', s'.streams[streamId]? = some row' ∧
        (row'.state = .closed → ClosedIn streamId row'.epoch (since ++ [e]))) :
  Traced streamId pending (history ++ [e]) s'
  := by
  obtain ⟨before, recording, since, rfl, hrecords, hkeeps, row, hstored, hclosed⟩ := h.recording
  refine ⟨before, recording, since ++ [e], by simp, hrecords, ?_, hrow row since hstored hclosed⟩
  intro e' he'
  rcases mem_append.mp he' with he' | he'
  · apply hkeeps e' he'
  · rw [mem_singleton.mp he']
    exact he

/-- A successful open leaves the row opened. -/
theorem opened_of_openStream
    (hok : applyInner s (.openStream nodeId nodeEpoch streamId epoch) = .ok (s', result)) :
  ∃ row, s'.streams[streamId]? = some row ∧ row.state = .opened
  := by
  cases applyInner_handled hok with
  | reopened row stored opened => exact ⟨row, stored, opened⟩
  | opened row =>
    rw [lookup_insert, if_pos rfl]
    exact ⟨_, rfl, rfl⟩

/-- A successful command that leaves the transfer pending moves the row as the trace needs. -/
theorem row_of_applyInner {row : StreamRow} {since : List Event} (hbelow : IdsBelow s)
    (hok : applyInner s command = .ok (s', result))
    (hpending : s'.pendingTransfers[streamId]? = some pending)
    (hrow : s.streams[streamId]? = some row)
    (hclosed : row.state = .closed → ClosedIn streamId row.epoch since) :
  ∃ row', s'.streams[streamId]? = some row' ∧ (row'.state = .closed →
    ClosedIn streamId row'.epoch (since ++ [⟨s, command, .ok result, s'⟩]))
  := by
  have hmove := (applyInner_rowsStep hbelow hok).row streamId
  rw [hrow] at hmove
  generalize hafter : s'.streams[streamId]? = after at hmove
  cases hmove with
  | kept _ row' epoch state nodeId endOffset =>
    refine ⟨row', rfl, ?_⟩
    intro hstate
    rw [epoch]
    apply (hclosed (state.symm.trans hstate)).snoc
    rintro ⟨⟨nodeId, nodeEpoch, epoch, hopen⟩, -⟩
    dsimp only at hopen
    subst hopen
    obtain ⟨row₁, hrow₁, hopened⟩ := opened_of_openStream hok
    cases hafter.symm.trans hrow₁
    cases hstate.symm.trans hopened
  | opened _ nodeId nodeEpoch epoch isOpen =>
    refine ⟨_, rfl, ?_⟩
    intro hstate
    cases hstate
  | closed _ nodeId nodeEpoch isClose =>
    refine ⟨_, rfl, ?_⟩
    intro _
    refine ⟨since, _, [], rfl, ⟨⟨nodeId, nodeEpoch, isClose⟩, result, rfl⟩, ?_⟩
    intro e he
    cases he
  | deleted _ nodeId nodeEpoch isDelete =>
    subst isDelete
    rcases deleteStream_pending hok with ⟨-, hnone⟩ | hpendings
    · cases hnone.symm.trans hrow
    · rw [hpendings, lookup_erase, if_pos rfl] at hpending
      cases hpending

/-- One applied command extends the trace of a transfer that is pending after it. -/
theorem traced_step {result : Except MetadataError MetadataResult} (hbelow : IdsBelow s)
    (htraced : ∀ pending, s.pendingTransfers[streamId]? = some pending →
      Traced streamId pending history s) (happly : apply s command = some (s', result))
    (hpending : s'.pendingTransfers[streamId]? = some pending) :
  Traced streamId pending (history ++ [⟨s, command, result, s'⟩]) s'
  := by
  rcases apply_cases happly with ⟨value, hok, rfl⟩ | ⟨rfl, error, rfl⟩
  case inr =>
      -- a command that fails is no opening
      apply (htraced pending hpending).snoc ⟨hpending, hpending⟩
      intro row since hrow hclosed
      refine ⟨row, hrow, ?_⟩
      intro hstate
      apply (hclosed hstate).snoc
      rintro ⟨-, value, hvalue⟩
      cases hvalue
  case inl =>
      have hmove : PendingStep streamId command s _ _ := applyInner_pendingStep hok
      generalize hbefore : s.pendingTransfers[streamId]? = before at hmove
      rw [hpending] at hmove
      cases hmove with
      | kept =>
        apply (htraced pending hbefore).snoc ⟨hbefore, hpending⟩
        intro row since hrow hclosed
        apply row_of_applyInner hbelow hok hpending hrow hclosed
      | recorded _ row isTransfer stored opened source =>
        subst isTransfer
        refine ⟨history, _, [], rfl, ⟨rfl, ⟨value, rfl⟩, hbefore, hpending⟩, ?_, row, ?_, ?_⟩
        · intro e he
          cases he
        · rw [transferStream_streams hok]
          exact stored
        · intro hstate
          cases opened.symm.trans hstate

theorem Ran.traced (h : Ran .new history s)
    (hpending : s.pendingTransfers[streamId]? = some pending) :
  Traced streamId pending history s
  := by
  induction h generalizing pending with
  | start => simp [MetadataState.new] at hpending
  | step ran happly ih =>
    apply traced_step (ran.idsBelow idsBelow_new) (fun pending => ih) happly hpending

/-- Without a new recording nothing becomes pending. -/
theorem Ran.not_pending (h : Ran init history s) (hinit : init.pendingTransfers[streamId]? = none)
    (hno : ∀ e ∈ history, ∀ pending, ¬ e.Records streamId pending) :
  s.pendingTransfers[streamId]? = none
  := by
  induction h with
  | start => exact hinit
  | @step history t t' command result ran happly ih =>
    have ht := ih fun e he => hno e (mem_append_left _ he)
    rcases apply_cases happly with ⟨value, hok, rfl⟩ | ⟨rfl, -⟩
    · have hmove : PendingStep streamId command t _ _ := applyInner_pendingStep hok
      rw [ht] at hmove
      generalize hafter : t'.pendingTransfers[streamId]? = after at hmove
      cases hmove with
      | kept => rfl
      | recorded pending row isTransfer =>
        apply absurd _ (hno _ (mem_append_right _ mem_cons_self) pending)
        exact ⟨isTransfer, ⟨value, rfl⟩, ht, hafter⟩
      | dropped => rfl
    · exact ht

/-- A completion for which nothing is pending is refused. -/
theorem completeTransfer_of_not_pending {result : Except MetadataError MetadataResult}
    (hnone : s.pendingTransfers[streamId]? = none)
    (happly : apply s (.completeTransfer streamId epoch) = some (s', result)) :
  s' = s
  := by
  rcases apply_cases happly with ⟨value, hok, -⟩ | ⟨rfl, -⟩
  · cases applyInner_handled hok with
    | completed row pending recorded => cases hnone.symm.trans recorded
  · rfl

/-- A completion that succeeds ends a transfer that was recorded, is pending since, and whose stream
was closed at the epoch of the completion after the recording and has not been opened again. It
moves the stream to the target, removes the record and changes nothing else, and a second one
changes nothing unless a transfer was recorded in between. -/
theorem completeTransfer_not_stale {commands : List MetadataCommand} {epoch : Int64}
    (hrun : applyAll .new commands = some s)
    (happly : apply s (.completeTransfer streamId epoch) = some (s', .ok result)) :
  (∃ history row pending before recording between close after,
    Ran .new history s ∧ history.map Event.command = commands ∧
    history = before ++ recording :: (between ++ close :: after) ∧
    recording.Records streamId pending ∧
    (∀ e ∈ between ++ close :: after, e.Keeps streamId pending) ∧
    close.Closes streamId epoch ∧ (∀ e ∈ after, ¬ e.Opens streamId) ∧
    s.streams[streamId]? = some row ∧
    s' = { s with
      streams := s.streams.insert streamId { row with nodeId := pending.toNode }
      pendingTransfers := s.pendingTransfers.erase streamId }) ∧
  ∀ (later : List Event) (t t' : MetadataState) (outcome : Except MetadataError MetadataResult),
    Ran s' later t → (∀ e ∈ later, ∀ pending, ¬ e.Records streamId pending) →
    apply t (.completeTransfer streamId epoch) = some (t', outcome) → t' = t
  := by
  have hok : applyInner s (.completeTransfer streamId epoch) = .ok (s', result) := by
    rcases apply_cases happly with ⟨value, hok, heq⟩ | ⟨-, error, heq⟩
    · cases heq
      exact hok
    · cases heq
  cases applyInner_handled hok with
  | completed row pending hpending hrow hclosed =>
    constructor
    · obtain ⟨history, hran, hcommands⟩ := exists_ran hrun
      obtain ⟨before, recording, since, heq, hrecords, hkeeps, row', hrow', hpast⟩ :=
        (hran.traced hpending).recording
      cases hrow.symm.trans hrow'
      obtain ⟨between, close, after, rfl, hclose, hafter⟩ := hpast hclosed
      exact ⟨history, row, pending, before, recording, between, close, after, hran, hcommands, heq,
        hrecords, hkeeps, hclose, hafter, hrow, rfl⟩
    · intro later t t' outcome hlater hno hagain
      apply completeTransfer_of_not_pending _ hagain
      apply hlater.not_pending _ hno
      rw [lookup_erase, if_pos rfl]

/-- A stream opened on node 1 whose transfer to node 2 is recorded and that is closed then. -/
def releasedRun : List MetadataCommand :=
  [.registerNode 1 1 "" 1, .registerNode 2 1 "" 1, .createStream 1 1, .openStream 1 1 0 1,
    .transferStream 0 1 2, .closeStream 1 1 0 1]

theorem completeTransfer_not_stale_releasedRun :
  ∃ s s' result, applyAll .new releasedRun = some s ∧
    apply s (.completeTransfer 0 1) = some (s', .ok result) ∧
    ∃ t outcome, apply s' (.completeTransfer 0 1) = some (t, outcome) ∧ t = s'
  := by
  obtain ⟨s, hs, ⟨s', result⟩, happly, hresult, ⟨t, outcome⟩, hagain, -⟩ : ∃ s,
      applyAll .new releasedRun = some s ∧
      ∃ done, apply s (.completeTransfer 0 1) = some done ∧ done.2.isOk ∧
      ∃ again, apply done.1 (.completeTransfer 0 1) = some again ∧ True := by
    decide +kernel
  cases result with
  | error => cases hresult
  | ok result =>
    have hlast := (completeTransfer_not_stale hs happly).2 [] s' t outcome Ran.start
    refine ⟨s, s', result, hs, happly, t, outcome, hagain, hlast ?_ hagain⟩
    intro e he
    cases he

end Metadata
