import StreamStack.Lib.OrdMap

/-!
# The metadata state and its commands

The replicated control plane of the metadata crate: compact rows in ordered maps, the
secondary indexes beside them, the eighteen commands that change them, and the results and
errors of applying a command. Integers have the width they have in the source.
-/

namespace Metadata

/-! ### Objects -/

/-- The id standing for "no object". -/
def noopObjectId : UInt64 := 18446744073709551615

inductive StreamState where
  | closed
  | opened
deriving DecidableEq, Repr

inductive S3ObjectType where
  | streamSet
  | stream
deriving DecidableEq, Repr

/-- How an object consumed by a compaction is disposed of. -/
inductive CompactOperations where
  | delete
  | keepData
  | deepDelete
deriving DecidableEq, Repr

/-- The offsets of one stream inside an object. -/
structure StreamOffsetRange where
  streamId : UInt64
  startOffset : UInt64
  endOffset : UInt64
deriving DecidableEq, Repr

/-- A committed object, as the metadata plane describes it. -/
structure S3ObjectMetadata where
  objectId : UInt64
  objectType : S3ObjectType
  offsetRanges : List StreamOffsetRange
  objectSize : UInt64
  attributes : UInt32
  committedTimestampMs : Int64
  dataTimestampMs : Int64
deriving DecidableEq, Repr

/-- A stream's range in a stream-set object about to be committed. -/
structure ObjectStreamRange where
  streamId : UInt64
  epoch : UInt64
  startOffset : UInt64
  endOffset : UInt64
  size : UInt64
deriving DecidableEq, Repr

/-- A single-stream object about to be committed. -/
structure StreamObject where
  objectId : UInt64
  objectSize : UInt64
  streamId : UInt64
  startOffset : UInt64
  endOffset : UInt64
  attributes : UInt32
deriving DecidableEq, Repr

structure CommitStreamSetObjectRequest where
  objectId : UInt64
  objectSize : UInt64
  attributes : UInt32
  streamRanges : List ObjectStreamRange
  streamObjects : List StreamObject
  compactedObjectIds : List UInt64
deriving DecidableEq, Repr

structure CompactStreamObjectRequest where
  objectId : UInt64
  objectSize : UInt64
  streamId : UInt64
  streamEpoch : UInt64
  startOffset : UInt64
  endOffset : UInt64
  sourceObjectIds : List UInt64
  operations : List CompactOperations
  attributes : UInt32
deriving DecidableEq, Repr

/-! ### Rows -/

/-- The control-plane row of a stream; a stream that was never opened has epoch `-1`. -/
structure StreamRow where
  streamId : UInt64
  epoch : Int64
  startOffset : UInt64
  endOffset : UInt64
  state : StreamState
  nodeId : Int32
deriving DecidableEq, Repr

structure NodeRow where
  nodeId : Int32
  epoch : Int64
  httpAddress : String
  slots : UInt32
deriving DecidableEq, Repr

/-- An ownership transfer in flight. -/
structure PendingTransfer where
  fromNode : Int32
  toNode : Int32
deriving DecidableEq, Repr

/-- A stream-set object with the node that committed it. -/
structure StreamSetObjectRow where
  nodeId : Int32
  object : S3ObjectMetadata
deriving DecidableEq, Repr

structure StreamObjectRow where
  object : S3ObjectMetadata
deriving DecidableEq, Repr

/-- Stream id, start offset and object id, in this order. -/
abbrev StreamOffsetKey : Type := UInt64 × UInt64 × UInt64

-- named, so that every definition over these keys refers to one proof
instance transOrdOffsetKey : Std.TransOrd StreamOffsetKey := inferInstance
instance transOrdNodeKey : Std.TransOrd (Int32 × UInt64) := inferInstance
instance transOrdDeadlineKey : Std.TransOrd (Int64 × UInt64) := inferInstance

/-- The replicated metadata state. -/
structure MetadataState where
  nextStreamId : UInt64 := 0
  streams : OrdMap UInt64 StreamRow := ∅
  nodes : OrdMap Int32 NodeRow := ∅
  openingByNode : OrdMap (Int32 × UInt64) Unit := ∅
  placedByNode : OrdMap (Int32 × UInt64) Unit := ∅
  pendingTransfers : OrdMap UInt64 PendingTransfer := ∅
  nextObjectId : UInt64 := 0
  prepared : OrdMap UInt64 Int64 := ∅
  preparedByDeadline : OrdMap (Int64 × UInt64) Unit := ∅
  streamSetObjects : OrdMap UInt64 StreamSetObjectRow := ∅
  ssoRanges : OrdMap StreamOffsetKey UInt64 := ∅
  ssoByNode : OrdMap (Int32 × UInt64) Unit := ∅
  streamObjects : OrdMap StreamOffsetKey StreamObjectRow := ∅
  streamObjectIds : OrdMap UInt64 StreamOffsetKey := ∅
  markDestroyed : OrdMap UInt64 (UInt64 × CompactOperations) := ∅
  destroyedById : OrdMap UInt64 UInt64 := ∅
  nextDestroyedSeq : UInt64 := 0
  kv : OrdMap String (List UInt8) := ∅
deriving DecidableEq

/-- The empty state. -/
def MetadataState.new : MetadataState := {}

/-! ### Commands, results and errors -/

/-- A command of the replicated metadata log. -/
inductive MetadataCommand where
  | registerNode (nodeId : Int32) (nodeEpoch : Int64) (httpAddress : String) (slots : UInt32)
  | placeStream (streamId : UInt64)
  | createStream (nodeId : Int32) (nodeEpoch : Int64)
  | openStream (nodeId : Int32) (nodeEpoch : Int64) (streamId : UInt64) (epoch : Int64)
  | trimStream (nodeId : Int32) (nodeEpoch : Int64) (streamId : UInt64) (epoch : Int64)
      (newStartOffset : UInt64)
  | closeStream (nodeId : Int32) (nodeEpoch : Int64) (streamId : UInt64) (epoch : Int64)
  | deleteStream (nodeId : Int32) (nodeEpoch : Int64) (streamId : UInt64) (epoch : Int64)
  | prepareObject (nodeId : Int32) (nodeEpoch : Int64) (count : UInt32) (ttlMs nowMs : Int64)
  | commitStreamSetObject (nodeId : Int32) (nodeEpoch : Int64)
      (request : CommitStreamSetObjectRequest) (nowMs : Int64)
  | compactStreamObject (nodeId : Int32) (nodeEpoch : Int64)
      (request : CompactStreamObjectRequest) (nowMs : Int64)
  | expirePreparedObjects (nowMs : Int64)
  | cleanDestroyedObjects (objectIds : List UInt64)
  | putKv (key : String) (value : List UInt8)
  | putKvIfAbsent (key : String) (value : List UInt8)
  | deleteKv (key : String)
  | transferStream (streamId : UInt64) (fromNode toNode : Int32)
  | completeTransfer (streamId : UInt64) (epoch : Int64)
  | createStreams (nodeId : Int32) (nodeEpoch : Int64) (count : UInt32)
deriving DecidableEq, Repr

/-- A stream as the engine sees it: the epoch is unsigned. -/
structure StreamMetadata where
  streamId : UInt64
  epoch : UInt64
  startOffset : UInt64
  endOffset : UInt64
  state : StreamState
  nodeId : Int32
deriving DecidableEq, Repr

def StreamRow.toStreamMetadata (row : StreamRow) : StreamMetadata where
  streamId := row.streamId
  epoch := (max row.epoch 0).toUInt64
  startOffset := row.startOffset
  endOffset := row.endOffset
  state := row.state
  nodeId := row.nodeId

inductive MetadataResult where
  | unit
  | id (id : UInt64)
  | count (n : UInt64)
  | stream (metadata : StreamMetadata)
  | value (value : Option (List UInt8))
deriving DecidableEq, Repr

inductive MetadataError where
  | streamNotExist (streamId : UInt64)
  | streamNotClosed (streamId : UInt64)
  | streamFenced (streamId : UInt64) (epoch : Int64) (message : String)
  | expiredEpoch (streamId : UInt64) (epoch : Int64) (message : String)
  | nodeEpochMismatch (nodeId : Int32) (message : String)
  | redundant (message : String)
  | unexpected (message : String)
deriving DecidableEq, Repr

/-- The debug form of a stream state in messages. -/
def StreamState.debug : StreamState → String
  | .closed => "Closed"
  | .opened => "Opened"

end Metadata
