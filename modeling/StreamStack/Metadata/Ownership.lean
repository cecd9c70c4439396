import StreamStack.Metadata.Fencing

/-!
# Who moves the end of a stream

A commit is fenced by the epoch of the node that proposes it, while its ranges are compared with
the end offsets of the streams. The row of a stream also says on which node it is opened, and a
commit does not read that: data that was written before the stream moved to another node is still
accepted after the move, as long as nobody has moved the end of the stream.
-/

namespace Metadata

open OrdMap Run

variable {s s' : MetadataState}

/-- The end offset after the ranges of a stream, which is where the last of them ends. -/
def lastEnd (ranges : List (UInt64 × UInt64)) (endOffset : UInt64) : UInt64 :=
  (ranges.getLast?.map Prod.snd).getD endOffset

theorem lastEnd_of_advance {ranges : List (UInt64 × UInt64)} {endOffset endOffset' : UInt64}
    (h : ranges.foldlM (advance false) endOffset = some endOffset') :
  endOffset' = lastEnd ranges endOffset
  := by
  induction ranges generalizing endOffset with
  | nil => exact (Option.some.inj h).symm
  | cons range ranges ih =>
    rw [List.foldlM_cons] at h
    obtain ⟨mid, hmid, h⟩ := Option.bind_eq_some_iff.mp h
    rw [advance, if_neg Bool.false_ne_true] at hmid
    split at hmid
    next =>
      cases hmid
      rw [ih h, lastEnd, lastEnd, List.getLast?_cons]
      cases ranges.getLast? with
      | none => rfl
      | some last => rfl
    next => cases hmid

/-- The stream is opened on the node. -/
def StreamRow.OpenedOn (row : StreamRow) (nodeId : Int32) : Prop :=
  row.state = .opened ∧ row.nodeId = nodeId

/-- Every stream that the request moves forward is opened on the node. -/
def CommitStreamSetObjectRequest.OwnedBy (request : CommitStreamSetObjectRequest)
    (s : MetadataState) (nodeId : Int32) : Prop :=
  ∀ (streamId : UInt64) (row : StreamRow), s.streams[streamId]? = some row →
    row.endOffset < lastEnd (request.rangesOf streamId) row.endOffset → row.OpenedOn nodeId

/-- A commit of new data moves the ends of streams opened on the proposing node only, exactly if
the request asks for no other move: the handler itself does not compare the node with the row. -/
theorem advances_owned_iff {nodeId : Int32} {nodeEpoch : Int64}
    {request : CommitStreamSetObjectRequest} {nowMs : Int64} {result : MetadataResult}
    (hnew : request.compactedObjectIds = [])
    (hok : apply s (.commitStreamSetObject nodeId nodeEpoch request nowMs) = some (s', .ok result)) :
  (∀ (streamId : UInt64) (row row' : StreamRow), s.streams[streamId]? = some row →
      s'.streams[streamId]? = some row' → row.endOffset < row'.endOffset →
      row.OpenedOn nodeId) ↔
    request.OwnedBy s nodeId
  := by
  have hend (streamId : UInt64) (row : StreamRow) (hrow : s.streams[streamId]? = some row) :
      s'.streams[streamId]? =
        some { row with endOffset := lastEnd (request.rangesOf streamId) row.endOffset } := by
    rcases apply_cases hok with ⟨value, hinner, -⟩ | ⟨-, e, he⟩
    · obtain ⟨-, -, hmoved⟩ := commitStreamSetObject_advanced streamId hinner
      obtain ⟨endOffset, hadvance, hrow'⟩ := hmoved row hrow
      rw [hnew] at hadvance
      rw [hrow', lastEnd_of_advance hadvance]
    · cases he
  constructor
  · intro h streamId row hrow hlt
    exact h streamId row _ hrow (hend streamId row hrow) hlt
  · intro h streamId row row' hrow hrow' hlt
    cases (hend streamId row hrow).symm.trans hrow'
    exact h streamId row hrow hlt

/-- A stream that node 1 opens, and for which it prepares an object. -/
def ownedRun : List MetadataCommand :=
  [.registerNode 1 1 "" 1, .registerNode 2 1 "" 1, .createStream 1 1, .openStream 1 1 0 1,
    .prepareObject 1 1 1 100 0]

/-- The same run, after which the stream moves to node 2. -/
def movedRun : List MetadataCommand :=
  ownedRun ++ [.closeStream 1 1 0 1, .openStream 2 1 0 2]

/-- The offsets 0 to 10 of the stream in one object. -/
def ownedRequest : CommitStreamSetObjectRequest where
  objectId := 0
  objectSize := 100
  attributes := 0
  streamRanges := [⟨0, 1, 0, 10, 100⟩]
  streamObjects := []
  compactedObjectIds := []

theorem advances_owned_iff_ownedRun :
  ∃ s s', applyAll .new ownedRun = some s ∧ ownedRequest.compactedObjectIds = [] ∧
    apply s (.commitStreamSetObject 1 1 ownedRequest 0) = some (s', .ok .unit) ∧
    ((∀ (streamId : UInt64) (row row' : StreamRow), s.streams[streamId]? = some row →
        s'.streams[streamId]? = some row' → row.endOffset < row'.endOffset → row.OpenedOn 1) ↔
      ownedRequest.OwnedBy s 1)
  := by
  obtain ⟨s, hs, ⟨s', result⟩, hok, rfl⟩ : ∃ s, applyAll .new ownedRun = some s ∧
      ∃ r, apply s (.commitStreamSetObject 1 1 ownedRequest 0) = some r ∧ r.2 = .ok .unit := by
    decide +kernel
  exact ⟨s, s', hs, rfl, hok, advances_owned_iff rfl hok⟩

/-- Node 1 moves the end of a stream that is opened on node 2. -/
theorem advances_owned_movedRun :
  ∃ s s', applyAll .new movedRun = some s ∧
    apply s (.commitStreamSetObject 1 1 ownedRequest 0) = some (s', .ok .unit) ∧
    ∃ row row' : StreamRow, s.streams[(0 : UInt64)]? = some row ∧
      s'.streams[(0 : UInt64)]? = some row' ∧ row.endOffset < row'.endOffset ∧
      row.OpenedOn 2 ∧ ¬ row.OpenedOn 1
  := by
  obtain ⟨s, hs, ⟨s', result⟩, hok, rfl, row, hrow, hopened, hnode, row', hrow', hlt⟩ : ∃ s,
      applyAll .new movedRun = some s ∧
      ∃ r, apply s (.commitStreamSetObject 1 1 ownedRequest 0) = some r ∧ r.2 = .ok .unit ∧
      ∃ row, s.streams[(0 : UInt64)]? = some row ∧ row.state = .opened ∧ row.nodeId = 2 ∧
      ∃ row', r.1.streams[(0 : UInt64)]? = some row' ∧ row.endOffset < row'.endOffset := by
    decide +kernel
  refine ⟨s, s', hs, hok, row, row', hrow, hrow', hlt, ⟨hopened, hnode⟩, ?_⟩
  rintro ⟨-, hother⟩
  rw [hnode] at hother
  cases hother

end Metadata
