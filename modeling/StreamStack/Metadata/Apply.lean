import StreamStack.Metadata.State

/-!
# Applying a command

The transition function of the metadata state. Every handler takes the state a command finds
and gives the state it leaves together with its result. A handler may also fail: with an
error, which `apply` turns into an unchanged state, or by overflowing an id counter or a
deadline, which aborts the program.
-/

namespace Metadata

/-- How a handler fails to produce a state: by returning an error, or by an integer overflow,
where the program panics. -/
inductive Fault where
  | error (e : MetadataError)
  | overflow
deriving DecidableEq, Repr

/-- The outcome of a handler. -/
abbrev Outcome : Type := Except Fault (MetadataState × MetadataResult)

/-- Fail with the error `e` when `c` holds. -/
def reject (c : Prop) [Decidable c] (e : MetadataError) : Except Fault Unit :=
  if c then .error (.error e) else .ok ()

def checkedAdd (a b : UInt64) : Except Fault UInt64 :=
  if a.toNat + b.toNat < 2 ^ 64 then .ok (a + b) else .error .overflow

def checkedAddI64 (a b : Int64) : Except Fault Int64 :=
  if -2 ^ 63 ≤ a.toInt + b.toInt ∧ a.toInt + b.toInt < 2 ^ 63 then .ok (a + b)
  else .error .overflow

/-- The ids `first, first + 1, …` of a batch of `count`. -/
def idRange (first : UInt64) (count : UInt32) : List UInt64 :=
  (List.range count.toNat).map fun i => first + UInt64.ofNat i

/-- The rows of `m` with keys from `lo` to `hi`, both included. -/
def rangeOf {κ ν : Type} [Ord κ] [Std.TransOrd κ] (m : OrdMap κ ν) (lo hi : κ) : List (κ × ν) :=
  m.toList.filter fun e => (compare lo e.1).isLE && (compare e.1 hi).isLE

def u64Max : UInt64 := 18446744073709551615

/-! ### Nodes and streams -/

/-- An older epoch may not register over a newer one. -/
def registerFence (s : MetadataState) (nodeId : Int32) (nodeEpoch : Int64) : Except Fault Unit :=
  match s.nodes[nodeId]? with
  | some node =>
    reject (node.epoch > nodeEpoch) (.nodeEpochMismatch nodeId
      s!"node {nodeId} epoch {node.epoch} fences register with epoch {nodeEpoch}")
  | none => .ok ()

def registerNode (s : MetadataState) (nodeId : Int32) (nodeEpoch : Int64) (httpAddress : String)
    (slots : UInt32) : Outcome := do
  registerFence s nodeId nodeEpoch
  let httpAddress :=
    if httpAddress.isEmpty then ((s.nodes[nodeId]?).map NodeRow.httpAddress).getD ""
    else httpAddress
  return ({ s with
    nodes := s.nodes.insert nodeId { nodeId, epoch := nodeEpoch, httpAddress, slots } }, .unit)

def nodeEpochCheck (s : MetadataState) (nodeId : Int32) (nodeEpoch : Int64) :
    Except Fault Unit :=
  match s.nodes[nodeId]? with
  | none => .error (.error (.nodeEpochMismatch nodeId s!"node {nodeId} is not registered"))
  | some node =>
    reject (node.epoch ≠ nodeEpoch) (.nodeEpochMismatch nodeId
      s!"node {nodeId} epoch mismatch current={node.epoch} request={nodeEpoch}")

/-- The row of a stream that was just created. -/
def createdRow (streamId : UInt64) : StreamRow where
  streamId := streamId
  epoch := -1
  startOffset := 0
  endOffset := 0
  state := .closed
  nodeId := -1

def createStream (s : MetadataState) (nodeId : Int32) (nodeEpoch : Int64) : Outcome := do
  nodeEpochCheck s nodeId nodeEpoch
  let streamId := s.nextStreamId
  let nextStreamId ← checkedAdd s.nextStreamId 1
  return ({ s with nextStreamId, streams := s.streams.insert streamId (createdRow streamId) },
    .id streamId)

def maxCreateStreams : UInt32 := 4096

def createStreams (s : MetadataState) (nodeId : Int32) (nodeEpoch : Int64) (count : UInt32) :
    Outcome := do
  nodeEpochCheck s nodeId nodeEpoch
  reject (count = 0) (.unexpected "create count must be positive")
  reject (count > maxCreateStreams)
    (.unexpected s!"create count {count} exceeds {maxCreateStreams}")
  let first := s.nextStreamId
  let nextStreamId ← checkedAdd first count.toUInt64
  let streams := (idRange first count).foldl
    (fun m streamId => m.insert streamId (createdRow streamId)) s.streams
  return ({ s with nextStreamId, streams }, .id first)

def requireStream (s : MetadataState) (streamId : UInt64) : Except Fault StreamRow :=
  match s.streams[streamId]? with
  | some stream => .ok stream
  | none => .error (.error (.streamNotExist streamId))

/-- The number of streams listed for a node in an index keyed by node. -/
def nodeCount (m : OrdMap (Int32 × UInt64) Unit) (nodeId : Int32) : UInt64 :=
  UInt64.ofNat (rangeOf m (nodeId, 0) (nodeId, u64Max)).length

/-- The load of a node per slot, in thousandths; the arithmetic wraps as it does in a release
build. -/
def nodeScore (s : MetadataState) (nodeId : Int32) (node : NodeRow) : UInt64 :=
  (nodeCount s.openingByNode nodeId + nodeCount s.placedByNode nodeId) * 1000
    / node.slots.toUInt64

/-- One round of the search for the least loaded node. -/
def placeRound (s : MetadataState) (winner : Option (Int32 × UInt64)) (e : Int32 × NodeRow) :
    Option (Int32 × UInt64) :=
  let (nodeId, node) := e
  if node.slots < 1 then winner
  else
    let score := nodeScore s nodeId node
    match winner with
    | none => some (nodeId, score)
    | some (bestId, bestScore) =>
      if score < bestScore ∨ (score = bestScore ∧ nodeId < bestId) then some (nodeId, score)
      else winner

/-- A node id as an unsigned result. -/
def nodeIdResult (nodeId : Int32) : MetadataResult := .id nodeId.toInt64.toUInt64

def placeStream (s : MetadataState) (streamId : UInt64) : Outcome := do
  let stream ← requireStream s streamId
  if stream.nodeId ≠ -1 then
    return (s, nodeIdResult stream.nodeId)
  else
    reject (stream.state ≠ .closed ∨ stream.epoch ≠ -1) (.unexpected
      s!"stream {streamId} cannot be placed in state {stream.state.debug} epoch {stream.epoch}")
    match s.nodes.toList.foldl (placeRound s) none with
    | none => throw (.error (.nodeEpochMismatch (-1)
        "no registered nodes with slots >= 1 for stream placement"))
    | some (winner, _) =>
      return ({ s with
        streams := s.streams.insert streamId { stream with nodeId := winner }
        placedByNode := s.placedByNode.insert (winner, streamId) () }, nodeIdResult winner)

def openStream (s : MetadataState) (nodeId : Int32) (nodeEpoch : Int64) (streamId : UInt64)
    (epoch : Int64) : Outcome := do
  nodeEpochCheck s nodeId nodeEpoch
  let stream ← requireStream s streamId
  reject (stream.epoch > epoch) (.streamFenced streamId epoch
    s!"stream {streamId} epoch {stream.epoch} fences request epoch {epoch}")
  if stream.epoch = epoch then
    if stream.state = .opened ∧ stream.nodeId = nodeId then
      return (s, .stream stream.toStreamMetadata)
    else
      throw (.error (.streamFenced streamId epoch
        s!"stream {streamId} epoch {epoch} already used"))
  else
    reject (stream.state = .opened) (.streamNotClosed streamId)
    let opened := { stream with epoch, state := .opened, nodeId }
    return ({ s with
      streams := s.streams.insert streamId opened
      placedByNode := s.placedByNode.erase (stream.nodeId, streamId)
      openingByNode := s.openingByNode.insert (nodeId, streamId) () },
      .stream opened.toStreamMetadata)

/-- The error of a request at an epoch that is not the current one. -/
def expiredEpoch (stream : StreamRow) (streamId : UInt64) (epoch : Int64) : MetadataError :=
  .expiredEpoch streamId epoch
    s!"stream {streamId} epoch {epoch} is not equal to current epoch {stream.epoch}"

def requireOpenedStream (s : MetadataState) (streamId : UInt64) (epoch : Int64) :
    Except Fault StreamRow := do
  let stream ← requireStream s streamId
  reject (stream.state ≠ .opened) (.unexpected s!"stream {streamId} is not opened")
  reject (stream.epoch ≠ epoch) (expiredEpoch stream streamId epoch)
  return stream

def trimStream (s : MetadataState) (nodeId : Int32) (nodeEpoch : Int64) (streamId : UInt64)
    (epoch : Int64) (newStartOffset : UInt64) : Outcome := do
  nodeEpochCheck s nodeId nodeEpoch
  let stream ← requireOpenedStream s streamId epoch
  reject (newStartOffset < stream.startOffset) (.unexpected
    s!"stream {streamId} new start offset {newStartOffset} is less than current start offset {stream.startOffset}")
  reject (newStartOffset > stream.endOffset) (.unexpected
    s!"stream {streamId} new start offset {newStartOffset} is greater than current end offset {stream.endOffset}")
  return ({ s with
    streams := s.streams.insert streamId { stream with startOffset := newStartOffset } }, .unit)

def closeStream (s : MetadataState) (nodeId : Int32) (nodeEpoch : Int64) (streamId : UInt64)
    (epoch : Int64) : Outcome := do
  nodeEpochCheck s nodeId nodeEpoch
  let stream ← requireStream s streamId
  if stream.state = .closed ∧ stream.epoch = epoch then
    return (s, .unit)
  else
    reject (stream.state ≠ .opened) (.unexpected s!"stream {streamId} is not opened")
    reject (stream.epoch ≠ epoch) (expiredEpoch stream streamId epoch)
    return ({ s with
      streams := s.streams.insert streamId { stream with state := .closed }
      openingByNode := s.openingByNode.erase (stream.nodeId, streamId) }, .unit)

def transferStream (s : MetadataState) (streamId : UInt64) (fromNode toNode : Int32) :
    Outcome := do
  let stream ← requireStream s streamId
  match s.pendingTransfers[streamId]? with
  | some pending =>
    if pending.fromNode = fromNode ∧ pending.toNode = toNode then
      return (s, .unit)
    else
      throw (.error (.unexpected
        s!"stream {streamId} already transferring from {pending.fromNode} to {pending.toNode}"))
  | none =>
    reject (fromNode = toNode) (.unexpected
      s!"stream {streamId} transfer target equals source {fromNode}")
    reject (¬ (s.nodes[toNode]?).any fun node => node.slots ≥ 1) (.nodeEpochMismatch toNode
      s!"transfer target {toNode} is not a registered node with slots")
    reject (stream.state ≠ .opened ∨ stream.nodeId ≠ fromNode) (.unexpected
      s!"stream {streamId} is not opened on node {fromNode}, state {stream.state.debug} node {stream.nodeId}")
    return ({ s with
      pendingTransfers := s.pendingTransfers.insert streamId { fromNode, toNode } }, .unit)

def completeTransfer (s : MetadataState) (streamId : UInt64) (epoch : Int64) : Outcome := do
  match s.pendingTransfers[streamId]? with
  | none => throw (.error (.redundant s!"no pending transfer for stream {streamId}"))
  | some pending =>
    let stream ← requireStream s streamId
    reject (stream.state ≠ .closed) (.streamNotClosed streamId)
    reject (stream.epoch ≠ epoch) (expiredEpoch stream streamId epoch)
    return ({ s with
      streams := s.streams.insert streamId { stream with nodeId := pending.toNode }
      pendingTransfers := s.pendingTransfers.erase streamId }, .unit)

/-! ### Objects -/

/-- Queue an object for destruction; an object that is queued already keeps its place. -/
def markDestroyed (s : MetadataState) (objectId : UInt64) (op : CompactOperations) :
    Except Fault MetadataState :=
  match s.destroyedById[objectId]? with
  | some seq => return { s with markDestroyed := s.markDestroyed.insert seq (objectId, op) }
  | none => do
      let seq := s.nextDestroyedSeq
      let nextDestroyedSeq ← checkedAdd s.nextDestroyedSeq 1
      return { s with
        nextDestroyedSeq
        markDestroyed := s.markDestroyed.insert seq (objectId, op)
        destroyedById := s.destroyedById.insert objectId seq }

def removePlacedStream (s : MetadataState) (streamId : UInt64) : MetadataState :=
  let keys := s.placedByNode.keys.filter fun key => key.2 = streamId
  { s with placedByNode := keys.foldl (fun m key => m.erase key) s.placedByNode }

/-- Drop one stream object of a deleted stream. -/
def destroyStreamObject (s : MetadataState) (key : StreamOffsetKey) :
    Except Fault MetadataState :=
  markDestroyed { s with
    streamObjects := s.streamObjects.erase key
    streamObjectIds := s.streamObjectIds.erase key.2.2 } key.2.2 .delete

def deleteStream (s : MetadataState) (nodeId : Int32) (nodeEpoch : Int64) (streamId : UInt64)
    (epoch : Int64) : Outcome := do
  nodeEpochCheck s nodeId nodeEpoch
  match s.streams[streamId]? with
  | none => return (s, .unit)
  | some stream =>
    reject (stream.state ≠ .closed) (.streamNotClosed streamId)
    reject (stream.epoch ≠ epoch) (expiredEpoch stream streamId epoch)
    let s := { s with streams := s.streams.erase streamId }
    let s := removePlacedStream s streamId
    let s := { s with pendingTransfers := s.pendingTransfers.erase streamId }
    let keys := (rangeOf s.streamObjects (streamId, 0, 0) (streamId, u64Max, u64Max)).map Prod.fst
    let s ← keys.foldlM destroyStreamObject s
    return (s, .unit)

def prepareObject (s : MetadataState) (nodeId : Int32) (nodeEpoch : Int64) (count : UInt32)
    (ttlMs nowMs : Int64) : Outcome := do
  nodeEpochCheck s nodeId nodeEpoch
  reject (count = 0) (.unexpected "prepare count must be positive")
  let first := s.nextObjectId
  let nextObjectId ← checkedAdd s.nextObjectId count.toUInt64
  let deadline ← checkedAddI64 nowMs (max ttlMs 0)
  let ids := idRange first count
  return ({ s with
    nextObjectId
    prepared := ids.foldl (fun m id => m.insert id deadline) s.prepared
    preparedByDeadline := ids.foldl (fun m id => m.insert (deadline, id) ()) s.preparedByDeadline },
    .id first)

def commitPrepared (s : MetadataState) (objectId : UInt64) : MetadataState :=
  match s.prepared[objectId]? with
  | some deadline => { s with
      prepared := s.prepared.erase objectId
      preparedByDeadline := s.preparedByDeadline.erase (deadline, objectId) }
  | none => s

def advanceEndOffset (s : MetadataState) (streamId startOffset endOffset : UInt64)
    (compact : Bool) : Except Fault MetadataState := do
  let stream ← requireStream s streamId
  if compact then
    reject (stream.endOffset < endOffset) (.unexpected
      s!"stream {streamId} end offset {stream.endOffset} is lesser than request {endOffset}")
    reject (stream.startOffset > startOffset) (.unexpected
      s!"stream {streamId} start offset {stream.startOffset} is greater than request {startOffset}")
    return s
  else
    reject (stream.endOffset ≠ startOffset) (.unexpected
      s!"stream {streamId} end offset {stream.endOffset} is not equal to start offset of request {startOffset}")
    return { s with streams := s.streams.insert streamId { stream with endOffset } }

def markDestroyObjects (s : MetadataState) (ids : List UInt64) (ops : List CompactOperations) :
    Except Fault MetadataState := do
  if ids.isEmpty then
    return s
  else if ops.isEmpty then
    ids.foldlM (fun s id => markDestroyed s id .delete) s
  else
    reject (ops.length ≠ ids.length) (.unexpected
      s!"mark destroy ids size {ids.length} does not match operations size {ops.length}")
    (ids.zip ops).foldlM (fun s e => markDestroyed s e.1 e.2) s

/-- Whether an object is a committed object of a stream. -/
def streamObjectCommitted (s : MetadataState) (streamId objectId : UInt64) : Bool :=
  (s.streamObjectIds[objectId]?).any fun key => key.1 = streamId

/-- Refuse to register an object under a second identity; the same key again is allowed. -/
def checkObjectIdFree (s : MetadataState) (objectId : UInt64) (newKey : Option StreamOffsetKey) :
    Except Fault Unit := do
  reject (s.streamSetObjects.contains objectId) (.unexpected
    s!"object {objectId} is already a committed stream-set object")
  match s.streamObjectIds[objectId]? with
  | some existing =>
    reject (newKey ≠ some existing) (.unexpected
      s!"object {objectId} is already committed as stream object ({existing.1}, {existing.2.1}, {existing.2.2})")
  | none => return ()

def redundantCommitCheck (s : MetadataState) (request : CommitStreamSetObjectRequest) :
    Except Fault Unit :=
  if request.objectId ≠ noopObjectId then
    reject (s.streamSetObjects.contains request.objectId)
      (.redundant s!"object {request.objectId} already committed")
  else if request.streamObjects.isEmpty then
    .ok ()
  else
    reject (request.streamObjects.all fun so => streamObjectCommitted s so.streamId so.objectId)
      (.redundant "all stream objects in commit already committed")

def insertStreamObject (s : MetadataState)
    (streamId objectId startOffset endOffset objectSize : UInt64) (attributes : UInt32)
    (dataTimeMs nowMs : Int64) : MetadataState :=
  let key : StreamOffsetKey := (streamId, startOffset, objectId)
  { s with
    streamObjects := s.streamObjects.insert key { object := {
      objectId
      objectType := .stream
      offsetRanges := [{ streamId, startOffset, endOffset }]
      objectSize
      attributes
      committedTimestampMs := nowMs
      dataTimestampMs := dataTimeMs } }
    streamObjectIds := s.streamObjectIds.insert objectId key }

def removeStreamSetObject (s : MetadataState) (objectId : UInt64) : MetadataState :=
  match s.streamSetObjects[objectId]? with
  | some row => { s with
      streamSetObjects := s.streamSetObjects.erase objectId
      ssoRanges := row.object.offsetRanges.foldl
        (fun m range => m.erase (range.streamId, range.startOffset, objectId)) s.ssoRanges
      ssoByNode := s.ssoByNode.erase (row.nodeId, objectId) }
  | none => s

/-- The earliest data time of the compacted objects, each of which must be committed. -/
def compactedDataTime (s : MetadataState) (dataTimeMs : Int64) (id : UInt64) :
    Except Fault Int64 :=
  match s.streamSetObjects[id]? with
  | some owned => .ok (min dataTimeMs owned.object.dataTimestampMs)
  | none => .error (.error (.unexpected s!"compacted stream-set object {id} not found"))

/-- Remove one compacted stream-set object and queue it for destruction. -/
def destroyCompacted (s : MetadataState) (id : UInt64) : Except Fault MetadataState :=
  markDestroyed (removeStreamSetObject s id) id .delete

/-- The stream-set object a commit registers. -/
def committedObject (request : CommitStreamSetObjectRequest) (nowMs dataTimeMs : Int64) :
    S3ObjectMetadata where
  objectId := request.objectId
  objectType := .streamSet
  offsetRanges := request.streamRanges.map fun r => ⟨r.streamId, r.startOffset, r.endOffset⟩
  objectSize := request.objectSize
  attributes := request.attributes
  committedTimestampMs := nowMs
  dataTimestampMs := dataTimeMs

/-- Register the stream-set object of a commit. -/
def insertStreamSetObject (s : MetadataState) (nodeId : Int32)
    (request : CommitStreamSetObjectRequest) (nowMs dataTimeMs : Int64) : MetadataState :=
  { s with
    ssoRanges := request.streamRanges.foldl
      (fun m range => m.insert (range.streamId, range.startOffset, request.objectId) range.endOffset)
      s.ssoRanges
    ssoByNode := s.ssoByNode.insert (nodeId, request.objectId) ()
    streamSetObjects := s.streamSetObjects.insert request.objectId
      { nodeId, object := committedObject request nowMs dataTimeMs } }

/-- Commit the stream-set object of a request, if it has one. -/
def commitSetObject (s : MetadataState) (nodeId : Int32) (request : CommitStreamSetObjectRequest)
    (nowMs dataTimeMs : Int64) (compact : Bool) : Except Fault MetadataState :=
  if request.objectId ≠ noopObjectId then do
    checkObjectIdFree s request.objectId none
    let s := commitPrepared s request.objectId
    let s ← request.streamRanges.foldlM
      (fun s range => advanceEndOffset s range.streamId range.startOffset range.endOffset compact) s
    return insertStreamSetObject s nodeId request nowMs dataTimeMs
  else .ok s

/-- Commit one of the stream objects of a request. -/
def commitStreamObject (nowMs dataTimeMs : Int64) (compact : Bool) (s : MetadataState)
    (so : StreamObject) : Except Fault MetadataState := do
  checkObjectIdFree s so.objectId (some (so.streamId, so.startOffset, so.objectId))
  let s := commitPrepared s so.objectId
  let s ← advanceEndOffset s so.streamId so.startOffset so.endOffset compact
  return insertStreamObject s so.streamId so.objectId so.startOffset so.endOffset so.objectSize
    so.attributes dataTimeMs nowMs

def commitStreamSetObject (s : MetadataState) (nodeId : Int32) (nodeEpoch : Int64)
    (request : CommitStreamSetObjectRequest) (nowMs : Int64) : Outcome := do
  nodeEpochCheck s nodeId nodeEpoch
  redundantCommitCheck s request
  let compact := !request.compactedObjectIds.isEmpty
  let dataTimeMs ← request.compactedObjectIds.foldlM (compactedDataTime s) nowMs
  let s ← request.compactedObjectIds.foldlM destroyCompacted s
  let s ← commitSetObject s nodeId request nowMs dataTimeMs compact
  let s ← request.streamObjects.foldlM (commitStreamObject nowMs dataTimeMs compact) s
  return (s, .unit)

/-- Drop a compaction source that is a committed object of the stream. -/
def removeSourceObject (streamId : UInt64) (s : MetadataState) (sourceId : UInt64) :
    MetadataState :=
  match s.streamObjectIds[sourceId]? with
  | some key =>
    if key.1 = streamId then
      { s with
        streamObjects := s.streamObjects.erase key
        streamObjectIds := s.streamObjectIds.erase sourceId }
    else s
  | none => s

/-- The object replacing the sources, if there is one, must be free. -/
def checkReplacement (s : MetadataState) (request : CompactStreamObjectRequest) :
    Except Fault Unit :=
  if request.objectId ≠ noopObjectId then
    checkObjectIdFree s request.objectId
      (some (request.streamId, request.startOffset, request.objectId))
  else .ok ()

def compactStreamObject (s : MetadataState) (nodeId : Int32) (nodeEpoch : Int64)
    (request : CompactStreamObjectRequest) (nowMs : Int64) : Outcome := do
  nodeEpochCheck s nodeId nodeEpoch
  let streamId := request.streamId
  reject (request.objectId ≠ noopObjectId ∧ streamObjectCommitted s streamId request.objectId)
    (.redundant s!"compact object {request.objectId} already committed for stream {streamId}")
  let stream ← requireStream s streamId
  reject (stream.epoch ≠ request.streamEpoch.toInt64)
    (.expiredEpoch streamId request.streamEpoch.toInt64
      s!"stream {streamId} epoch {stream.epoch} is not equal to request {request.streamEpoch}")
  reject (stream.endOffset < request.endOffset) (.unexpected
    s!"stream {streamId} end offset {stream.endOffset} is lesser than request {request.endOffset}")
  reject (stream.startOffset > request.startOffset) (.unexpected
    s!"stream {streamId} start offset {stream.startOffset} is greater than request {request.startOffset}")
  checkReplacement s request
  let s := commitPrepared s request.objectId
  let s := if request.objectId ≠ noopObjectId then
      insertStreamObject s streamId request.objectId request.startOffset request.endOffset
        request.objectSize request.attributes nowMs nowMs
    else s
  let s := request.sourceObjectIds.foldl (removeSourceObject streamId) s
  let s ← markDestroyObjects s request.sourceObjectIds request.operations
  return (s, .unit)

/-- Forget one prepared object, given by its entry in the index by deadline. -/
def dropPrepared (s : MetadataState) (e : Int64 × UInt64) : MetadataState :=
  { s with
    preparedByDeadline := s.preparedByDeadline.erase e
    prepared := s.prepared.erase e.2 }

def expirePreparedObjects (s : MetadataState) (nowMs : Int64) : Outcome :=
  let expired := (s.preparedByDeadline.toList.filter
    fun e => (compare e.1 (nowMs, u64Max)).isLE).map Prod.fst
  .ok (expired.foldl dropPrepared s, .count (UInt64.ofNat expired.length))

/-- Take one object out of the destruction queue. -/
def cleanDestroyedObject (s : MetadataState) (id : UInt64) : MetadataState :=
  match s.destroyedById[id]? with
  | some seq => { s with
      destroyedById := s.destroyedById.erase id
      markDestroyed := s.markDestroyed.erase seq }
  | none => s

def cleanDestroyedObjects (s : MetadataState) (objectIds : List UInt64) : Outcome :=
  .ok (objectIds.foldl cleanDestroyedObject s, .unit)

/-! ### Key-value pairs -/

def putKv (s : MetadataState) (key : String) (value : List UInt8) : Outcome :=
  .ok ({ s with kv := s.kv.insert key value }, .value (some value))

def putKvIfAbsent (s : MetadataState) (key : String) (value : List UInt8) : Outcome :=
  match s.kv[key]? with
  | some existing => .ok (s, .value (some existing))
  | none => .ok ({ s with kv := s.kv.insert key value }, .value (some value))

def deleteKv (s : MetadataState) (key : String) : Outcome :=
  .ok ({ s with kv := s.kv.erase key }, .value s.kv[key]?)

/-! ### Dispatch -/

def applyInner (s : MetadataState) : MetadataCommand → Outcome
  | .registerNode nodeId nodeEpoch httpAddress slots =>
    registerNode s nodeId nodeEpoch httpAddress slots
  | .placeStream streamId => placeStream s streamId
  | .createStream nodeId nodeEpoch => createStream s nodeId nodeEpoch
  | .openStream nodeId nodeEpoch streamId epoch => openStream s nodeId nodeEpoch streamId epoch
  | .trimStream nodeId nodeEpoch streamId epoch newStartOffset =>
    trimStream s nodeId nodeEpoch streamId epoch newStartOffset
  | .closeStream nodeId nodeEpoch streamId epoch => closeStream s nodeId nodeEpoch streamId epoch
  | .deleteStream nodeId nodeEpoch streamId epoch => deleteStream s nodeId nodeEpoch streamId epoch
  | .prepareObject nodeId nodeEpoch count ttlMs nowMs =>
    prepareObject s nodeId nodeEpoch count ttlMs nowMs
  | .commitStreamSetObject nodeId nodeEpoch request nowMs =>
    commitStreamSetObject s nodeId nodeEpoch request nowMs
  | .compactStreamObject nodeId nodeEpoch request nowMs =>
    compactStreamObject s nodeId nodeEpoch request nowMs
  | .expirePreparedObjects nowMs => expirePreparedObjects s nowMs
  | .cleanDestroyedObjects objectIds => cleanDestroyedObjects s objectIds
  | .putKv key value => putKv s key value
  | .putKvIfAbsent key value => putKvIfAbsent s key value
  | .deleteKv key => deleteKv s key
  | .transferStream streamId fromNode toNode => transferStream s streamId fromNode toNode
  | .completeTransfer streamId epoch => completeTransfer s streamId epoch
  | .createStreams nodeId nodeEpoch count => createStreams s nodeId nodeEpoch count

/-- Apply one command: an error leaves the state as it was, and an integer overflow gives no
state at all. -/
def apply (s : MetadataState) (command : MetadataCommand) :
    Option (MetadataState × Except MetadataError MetadataResult) :=
  match applyInner s command with
  | .ok (s', result) => some (s', .ok result)
  | .error (.error e) => some (s, .error e)
  | .error .overflow => none

/-- Apply commands one after the other, discarding their results. -/
def applyAll (s : MetadataState) (commands : List MetadataCommand) : Option MetadataState :=
  commands.foldlM (fun s command => (apply s command).map Prod.fst) s

theorem applyAll_append (s : MetadataState) (first rest : List MetadataCommand) :
  applyAll s (first ++ rest) = (applyAll s first).bind fun t => applyAll t rest
  := List.foldlM_append

end Metadata
