import StreamStack.Lib.Run
import StreamStack.Metadata.Apply

/-!
# What the handlers do

A command that succeeds either finds its work done and leaves the state alone, or changes it in one
way. The handlers are inverted once here, so that what the commands keep is read off their changes.
The handlers of committed and compacted objects, which are folds of smaller steps, stay as they are.
-/

namespace Metadata

open OrdMap Run

variable {s s' : MetadataState}

@[simp]
theorem reject_ok_iff {c : Prop} [Decidable c] {e : MetadataError} {u : Unit} :
  reject c e = .ok u ↔ ¬ c
  := by
  unfold reject
  split
  next hc => simp [hc]
  next hc => simp [hc]

theorem requireStream_ok {streamId : UInt64} {row : StreamRow}
    (h : requireStream s streamId = .ok row) :
  s.streams[streamId]? = some row
  := by
  unfold requireStream at h
  split at h
  next stream hs =>
    cases h
    exact hs
  next => cases h

theorem requireOpenedStream_ok {streamId : UInt64} {epoch : Int64} {row : StreamRow}
    (h : requireOpenedStream s streamId epoch = .ok row) :
  s.streams[streamId]? = some row
  := by
  simp only [requireOpenedStream, ok_of_do, ok_of_return] at h
  obtain ⟨row, hrow, -, -, -, -, rfl⟩ := h
  exact requireStream_ok hrow

/-- The state without the row of a stream and what refers to it. -/
def MetadataState.withoutStream (s : MetadataState) (streamId : UInt64) : MetadataState :=
  { removePlacedStream { s with streams := s.streams.erase streamId } streamId with
    pendingTransfers := s.pendingTransfers.erase streamId }

/-- What a command that succeeds makes of the state. -/
inductive Handled (s : MetadataState) :
    MetadataCommand → MetadataState → MetadataResult → Prop where
  | registered {nodeId nodeEpoch httpAddress slots} (address : String)
      (kept : address = httpAddress ∨ ∃ node, s.nodes[nodeId]? = some node ∧
        address = node.httpAddress) :
      Handled s (.registerNode nodeId nodeEpoch httpAddress slots)
        { s with nodes := s.nodes.insert nodeId ⟨nodeId, nodeEpoch, address, slots⟩ } .unit
  | created {nodeId nodeEpoch} (nextStreamId : UInt64)
      (next : checkedAdd s.nextStreamId 1 = .ok nextStreamId) :
      Handled s (.createStream nodeId nodeEpoch) { s with
        nextStreamId
        streams := s.streams.insert s.nextStreamId (createdRow s.nextStreamId) }
        (.id s.nextStreamId)
  | createdAll {nodeId nodeEpoch count} (nextStreamId : UInt64)
      (next : checkedAdd s.nextStreamId count.toUInt64 = .ok nextStreamId) :
      Handled s (.createStreams nodeId nodeEpoch count) { s with
        nextStreamId
        streams := (idRange s.nextStreamId count).foldl
          (fun m streamId => m.insert streamId (createdRow streamId)) s.streams }
        (.id s.nextStreamId)
  | replaced {streamId result} : Handled s (.placeStream streamId) s result
  | placed {streamId} (row : StreamRow) (winner : Int32) (score : UInt64)
      (stored : s.streams[streamId]? = some row) (unplaced : row.nodeId = -1)
      (closed : row.state = .closed) (unopened : row.epoch = -1)
      (found : s.nodes.toList.foldl (placeRound s) none = some (winner, score)) :
      Handled s (.placeStream streamId) { s with
        streams := s.streams.insert streamId { row with nodeId := winner }
        placedByNode := s.placedByNode.insert (winner, streamId) () } (nodeIdResult winner)
  | reopened {nodeEpoch streamId} (row : StreamRow) (stored : s.streams[streamId]? = some row)
      (opened : row.state = .opened) :
      Handled s (.openStream row.nodeId nodeEpoch streamId row.epoch) s
        (.stream row.toStreamMetadata)
  | opened {nodeId nodeEpoch streamId epoch} (row : StreamRow)
      (stored : s.streams[streamId]? = some row) (closed : row.state = .closed)
      (newer : row.epoch < epoch) :
      Handled s (.openStream nodeId nodeEpoch streamId epoch) { s with
        streams := s.streams.insert streamId { row with epoch, state := .opened, nodeId }
        placedByNode := s.placedByNode.erase (row.nodeId, streamId)
        openingByNode := s.openingByNode.insert (nodeId, streamId) () }
        (.stream { row with epoch, state := .opened, nodeId }.toStreamMetadata)
  | trimmed {nodeId nodeEpoch streamId epoch newStartOffset} (row : StreamRow)
      (stored : s.streams[streamId]? = some row) (start : row.startOffset ≤ newStartOffset)
      (stop : newStartOffset ≤ row.endOffset) :
      Handled s (.trimStream nodeId nodeEpoch streamId epoch newStartOffset) { s with
        streams := s.streams.insert streamId { row with startOffset := newStartOffset } } .unit
  | reclosed {nodeId nodeEpoch streamId epoch} :
      Handled s (.closeStream nodeId nodeEpoch streamId epoch) s .unit
  | closed {nodeId nodeEpoch streamId} (row : StreamRow)
      (stored : s.streams[streamId]? = some row) (opened : row.state = .opened) :
      Handled s (.closeStream nodeId nodeEpoch streamId row.epoch) { s with
        streams := s.streams.insert streamId { row with state := .closed }
        openingByNode := s.openingByNode.erase (row.nodeId, streamId) } .unit
  | absent {nodeId nodeEpoch streamId epoch} (none : s.streams[streamId]? = none) :
      Handled s (.deleteStream nodeId nodeEpoch streamId epoch) s .unit
  | deleted {nodeId nodeEpoch streamId s'} (row : StreamRow)
      (stored : s.streams[streamId]? = some row) (closed : row.state = .closed)
      (destroyed : ((rangeOf s.streamObjects (streamId, 0, 0) (streamId, u64Max, u64Max)).map
        Prod.fst).foldlM destroyStreamObject (s.withoutStream streamId) = .ok s') :
      Handled s (.deleteStream nodeId nodeEpoch streamId row.epoch) s' .unit
  | prepared {nodeId nodeEpoch count ttlMs nowMs} (nextObjectId : UInt64) (deadline : Int64)
      (next : checkedAdd s.nextObjectId count.toUInt64 = .ok nextObjectId) :
      Handled s (.prepareObject nodeId nodeEpoch count ttlMs nowMs) { s with
        nextObjectId
        prepared := (idRange s.nextObjectId count).foldl
          (fun m id => m.insert id deadline) s.prepared
        preparedByDeadline := (idRange s.nextObjectId count).foldl
          (fun m id => m.insert (deadline, id) ()) s.preparedByDeadline } (.id s.nextObjectId)
  | committed {nodeId nodeEpoch request nowMs s' result}
      (ok : commitStreamSetObject s nodeId nodeEpoch request nowMs = .ok (s', result)) :
      Handled s (.commitStreamSetObject nodeId nodeEpoch request nowMs) s' result
  | compacted {nodeId nodeEpoch request nowMs s' result}
      (ok : compactStreamObject s nodeId nodeEpoch request nowMs = .ok (s', result)) :
      Handled s (.compactStreamObject nodeId nodeEpoch request nowMs) s' result
  | expired {nowMs s' result} (ok : expirePreparedObjects s nowMs = .ok (s', result)) :
      Handled s (.expirePreparedObjects nowMs) s' result
  | cleaned {objectIds} :
      Handled s (.cleanDestroyedObjects objectIds) (objectIds.foldl cleanDestroyedObject s) .unit
  | put {key value} :
      Handled s (.putKv key value) { s with kv := s.kv.insert key value } (.value (some value))
  | putAgain {key value result} : Handled s (.putKvIfAbsent key value) s result
  | putNew {key value} :
      Handled s (.putKvIfAbsent key value) { s with kv := s.kv.insert key value }
        (.value (some value))
  | removed {key} :
      Handled s (.deleteKv key) { s with kv := s.kv.erase key } (.value s.kv[key]?)
  | retransferred {streamId fromNode toNode} :
      Handled s (.transferStream streamId fromNode toNode) s .unit
  | transferred {streamId fromNode toNode} (row : StreamRow)
      (unrecorded : s.pendingTransfers[streamId]? = none)
      (stored : s.streams[streamId]? = some row) (opened : row.state = .opened)
      (source : row.nodeId = fromNode) :
      Handled s (.transferStream streamId fromNode toNode) { s with
        pendingTransfers := s.pendingTransfers.insert streamId { fromNode, toNode } } .unit
  | completed {streamId} (row : StreamRow) (pending : PendingTransfer)
      (recorded : s.pendingTransfers[streamId]? = some pending)
      (stored : s.streams[streamId]? = some row) (closed : row.state = .closed) :
      Handled s (.completeTransfer streamId row.epoch) { s with
        streams := s.streams.insert streamId { row with nodeId := pending.toNode }
        pendingTransfers := s.pendingTransfers.erase streamId } .unit

theorem applyInner_handled {command : MetadataCommand} {result : MetadataResult}
    (hok : applyInner s command = .ok (s', result)) :
  Handled s command s' result
  := by
  cases command with
  | registerNode nodeId nodeEpoch httpAddress slots =>
    simp only [applyInner, registerNode, ok_of_do, ok_of_return, Prod.mk.injEq] at hok
    obtain ⟨-, -, rfl, rfl⟩ := hok
    apply Handled.registered
    -- an empty address keeps the one the node had
    split
    next hempty =>
      cases hnode : s.nodes[nodeId]? with
      | none => exact .inl (String.isEmpty_iff.mp hempty).symm
      | some node => exact .inr ⟨node, rfl, rfl⟩
    next => exact .inl rfl
  | createStream =>
    simp only [applyInner, createStream, ok_of_do, ok_of_return, Prod.mk.injEq] at hok
    obtain ⟨-, -, next, hnext, rfl, rfl⟩ := hok
    exact Handled.created next hnext
  | createStreams =>
    simp only [applyInner, createStreams, ok_of_do, ok_of_return, Prod.mk.injEq] at hok
    obtain ⟨-, -, -, -, -, -, next, hnext, rfl, rfl⟩ := hok
    exact Handled.createdAll next hnext
  | placeStream =>
    simp only [applyInner, placeStream, ok_of_do] at hok
    obtain ⟨row, hrow, hok⟩ := hok
    split at hok
    next =>
      obtain ⟨rfl, -⟩ := Prod.mk.inj (ok_of_return.mp hok)
      exact Handled.replaced
    next hnode =>
      simp only [ok_of_do, reject_ok_iff, not_or, not_not] at hok
      obtain ⟨-, ⟨hclosed, hepoch⟩, hok⟩ := hok
      split at hok
      next => simp at hok
      next winner score hfound =>
        obtain ⟨rfl, rfl⟩ := Prod.mk.inj (ok_of_return.mp hok)
        exact Handled.placed row winner score (requireStream_ok hrow) (not_not.mp hnode) hclosed
          hepoch hfound
  | openStream =>
    simp only [applyInner, openStream, ok_of_do, reject_ok_iff] at hok
    obtain ⟨-, -, row, hrow, -, hfence, hok⟩ := hok
    split at hok
    next heq =>
      split at hok
      next hopen =>
        obtain ⟨rfl, rfl⟩ := Prod.mk.inj (ok_of_return.mp hok)
        obtain ⟨hopen, rfl⟩ := hopen
        subst heq
        exact Handled.reopened row (requireStream_ok hrow) hopen
      next => simp at hok
    next hne =>
      simp only [ok_of_do, reject_ok_iff, ok_of_return, Prod.mk.injEq] at hok
      obtain ⟨-, hstate, rfl, rfl⟩ := hok
      apply Handled.opened row (requireStream_ok hrow)
      · cases hs : row.state with
        | closed => rfl
        | opened => exact absurd hs hstate
      · exact Int64.lt_of_le_of_ne (Int64.not_lt.mp hfence) hne
  | trimStream =>
    simp only [applyInner, trimStream, ok_of_do, reject_ok_iff, ok_of_return, Prod.mk.injEq] at hok
    obtain ⟨-, -, row, hrow, -, hstart, -, hend, rfl, rfl⟩ := hok
    exact Handled.trimmed row (requireOpenedStream_ok hrow) (UInt64.not_lt.mp hstart)
      (UInt64.not_lt.mp hend)
  | closeStream =>
    simp only [applyInner, closeStream, ok_of_do] at hok
    obtain ⟨-, -, row, hrow, hok⟩ := hok
    split at hok
    next =>
      obtain ⟨rfl, rfl⟩ := Prod.mk.inj (ok_of_return.mp hok)
      exact Handled.reclosed
    next =>
      simp only [ok_of_do, reject_ok_iff, not_not, ok_of_return, Prod.mk.injEq] at hok
      obtain ⟨-, hopen, -, rfl, rfl, rfl⟩ := hok
      exact Handled.closed row (requireStream_ok hrow) hopen
  | deleteStream =>
    simp only [applyInner, deleteStream, ok_of_do] at hok
    obtain ⟨-, -, hok⟩ := hok
    split at hok
    next hnone =>
      obtain ⟨rfl, rfl⟩ := Prod.mk.inj (ok_of_return.mp hok)
      exact Handled.absent hnone
    next row hrow =>
      simp only [ok_of_do, reject_ok_iff, not_not, ok_of_return, Prod.mk.injEq] at hok
      obtain ⟨-, hclosed, -, rfl, _, hfold, rfl, rfl⟩ := hok
      exact Handled.deleted row hrow hclosed hfold
  | prepareObject =>
    simp only [applyInner, prepareObject, ok_of_do, ok_of_return, Prod.mk.injEq] at hok
    obtain ⟨-, -, -, -, next, hnext, deadline, -, rfl, rfl⟩ := hok
    exact Handled.prepared next deadline hnext
  | commitStreamSetObject => exact Handled.committed hok
  | compactStreamObject => exact Handled.compacted hok
  | expirePreparedObjects => exact Handled.expired hok
  | cleanDestroyedObjects =>
    cases hok
    exact Handled.cleaned
  | putKv =>
    cases hok
    exact Handled.put
  | putKvIfAbsent =>
    simp only [applyInner, putKvIfAbsent] at hok
    split at hok
    · cases hok
      exact Handled.putAgain
    · cases hok
      exact Handled.putNew
  | deleteKv =>
    cases hok
    exact Handled.removed
  | transferStream =>
    simp only [applyInner, transferStream, ok_of_do] at hok
    obtain ⟨row, hrow, hok⟩ := hok
    split at hok
    next =>
      split at hok
      next =>
        obtain ⟨rfl, rfl⟩ := Prod.mk.inj (ok_of_return.mp hok)
        exact Handled.retransferred
      next => simp at hok
    next hnone =>
      simp only [ok_of_do, reject_ok_iff, not_or, not_not, ok_of_return, Prod.mk.injEq] at hok
      obtain ⟨-, -, -, -, -, ⟨hopened, hnode⟩, rfl, rfl⟩ := hok
      exact Handled.transferred row hnone (requireStream_ok hrow) hopened hnode
  | completeTransfer =>
    simp only [applyInner, completeTransfer] at hok
    split at hok
    next => simp at hok
    next pending hpending =>
      simp only [ok_of_do, reject_ok_iff, not_not, ok_of_return, Prod.mk.injEq] at hok
      obtain ⟨row, hrow, -, hclosed, -, rfl, rfl, rfl⟩ := hok
      exact Handled.completed row pending hpending (requireStream_ok hrow) hclosed

end Metadata
