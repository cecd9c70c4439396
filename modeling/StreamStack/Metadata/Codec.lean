import StreamStack.Lib.Wire
import StreamStack.Metadata.State

/-!
# The command codec

A log entry is a version byte, the number of commands in 32 bits, and the commands one after
the other. A command is its type byte followed by its fields. A batch that is short enough for
the 32-bit counts is read back from its bytes. Single commands and results have a version byte of
their own.
-/

namespace Metadata

namespace Codec

open Wire

def codecVersion : UInt8 := 0

inductive CodecError where
  | unsupportedVersion (version : UInt8)
  | unknownCommand (code : UInt8)
  | unknownResult (tag : UInt8)
  | corrupt (message : String)
deriving DecidableEq, Repr

/-! ### Writing -/

/-- The byte that tells the commands apart. -/
def typeCode : MetadataCommand → UInt8
  | .createStream .. => 1
  | .openStream .. => 2
  | .trimStream .. => 3
  | .closeStream .. => 4
  | .deleteStream .. => 5
  | .prepareObject .. => 6
  | .commitStreamSetObject .. => 7
  | .compactStreamObject .. => 8
  | .expirePreparedObjects .. => 9
  | .registerNode .. => 10
  | .cleanDestroyedObjects .. => 11
  | .putKv .. => 12
  | .putKvIfAbsent .. => 13
  | .deleteKv .. => 14
  | .transferStream .. => 15
  | .completeTransfer .. => 16
  | .createStreams .. => 17
  | .placeStream .. => 18

def operationCode : CompactOperations → UInt8
  | .delete => 0
  | .keepData => 1
  | .deepDelete => 2

/-- A list: its length in 32 bits, then its items. -/
def putList {α : Type} (put : α → List UInt8) (l : List α) : List UInt8 :=
  putU32 (UInt32.ofNat l.length) ++ l.flatMap put

/-- Bytes behind their number. -/
def putBlob (bytes : List UInt8) : List UInt8 :=
  putU32 (UInt32.ofNat bytes.length) ++ bytes

def putStr (s : String) : List UInt8 := putBlob (utf8 s)

def putObjectRange (r : ObjectStreamRange) : List UInt8 :=
  putU64 r.streamId ++ (putU64 r.epoch ++ (putU64 r.startOffset ++ (putU64 r.endOffset ++
  putU64 r.size)))

def putStreamObject (o : StreamObject) : List UInt8 :=
  putU64 o.objectId ++ (putU64 o.objectSize ++ (putU64 o.streamId ++ (putU64 o.startOffset ++
  (putU64 o.endOffset ++ putU32 o.attributes))))

def putCommitRequest (request : CommitStreamSetObjectRequest) : List UInt8 :=
  putU64 request.objectId ++ (putU64 request.objectSize ++ (putU32 request.attributes ++
  (putList putObjectRange request.streamRanges ++
  (putList putStreamObject request.streamObjects ++ putList putU64 request.compactedObjectIds))))

def putCompactRequest (request : CompactStreamObjectRequest) : List UInt8 :=
  putU64 request.objectId ++ (putU64 request.objectSize ++ (putU64 request.streamId ++
  (putU64 request.streamEpoch ++ (putU64 request.startOffset ++ (putU64 request.endOffset ++
  (putU32 request.attributes ++ (putList putU64 request.sourceObjectIds ++
  putList (fun op => putU8 (operationCode op)) request.operations)))))))

/-- The fields of a command, in the order of the wire. -/
def putFields : MetadataCommand → List UInt8
  | .registerNode nodeId nodeEpoch httpAddress slots =>
    putI32 nodeId ++ (putI64 nodeEpoch ++ (putStr httpAddress ++ putU32 slots))
  | .createStream nodeId nodeEpoch => putI32 nodeId ++ putI64 nodeEpoch
  | .openStream nodeId nodeEpoch streamId epoch
  | .closeStream nodeId nodeEpoch streamId epoch
  | .deleteStream nodeId nodeEpoch streamId epoch =>
    putI32 nodeId ++ (putI64 nodeEpoch ++ (putU64 streamId ++ putI64 epoch))
  | .trimStream nodeId nodeEpoch streamId epoch newStartOffset =>
    putI32 nodeId ++ (putI64 nodeEpoch ++ (putU64 streamId ++ (putI64 epoch ++
    putU64 newStartOffset)))
  | .prepareObject nodeId nodeEpoch count ttlMs nowMs =>
    putI32 nodeId ++ (putI64 nodeEpoch ++ (putU32 count ++ (putI64 ttlMs ++ putI64 nowMs)))
  | .commitStreamSetObject nodeId nodeEpoch request nowMs =>
    putI32 nodeId ++ (putI64 nodeEpoch ++ (putI64 nowMs ++ putCommitRequest request))
  | .compactStreamObject nodeId nodeEpoch request nowMs =>
    putI32 nodeId ++ (putI64 nodeEpoch ++ (putI64 nowMs ++ putCompactRequest request))
  | .expirePreparedObjects nowMs => putI64 nowMs
  | .cleanDestroyedObjects objectIds => putList putU64 objectIds
  | .putKv key value | .putKvIfAbsent key value => putStr key ++ putBlob value
  | .deleteKv key => putStr key
  | .transferStream streamId fromNode toNode =>
    putU64 streamId ++ (putI32 fromNode ++ putI32 toNode)
  | .completeTransfer streamId epoch => putU64 streamId ++ putI64 epoch
  | .createStreams nodeId nodeEpoch count => putI32 nodeId ++ (putI64 nodeEpoch ++ putU32 count)
  | .placeStream streamId => putU64 streamId

/-- A command without the version. -/
def putCommandBody (command : MetadataCommand) : List UInt8 :=
  putU8 (typeCode command) ++ putFields command

def encodeCommand (command : MetadataCommand) : List UInt8 :=
  putU8 codecVersion ++ putCommandBody command

/-- Several commands behind one version. -/
def encodeBatch (commands : List MetadataCommand) : List UInt8 :=
  putU8 codecVersion ++ putList putCommandBody commands

def stateCode : StreamState → UInt8
  | .closed => 0
  | .opened => 1

def putStreamMetadata (metadata : StreamMetadata) : List UInt8 :=
  putU64 metadata.streamId ++ (putU64 metadata.epoch ++ (putU64 metadata.startOffset ++
  (putU64 metadata.endOffset ++ (putU8 (stateCode metadata.state) ++ putI32 metadata.nodeId))))

/-- The tag of a result and its fields. -/
def putResult : MetadataResult → List UInt8
  | .unit => putU8 0
  | .id id => putU8 1 ++ putU64 id
  | .count n => putU8 2 ++ putU64 n
  | .stream metadata => putU8 3 ++ putStreamMetadata metadata
  | .value (some value) => putU8 5 ++ putBlob value
  | .value none => putU8 6

def encodeResult (result : MetadataResult) : List UInt8 := putU8 codecVersion ++ putResult result

/-! ### Reading -/

/-- A reader whose failures are those of the codec. -/
abbrev Reader : Type → Type := Get CodecError

def getU8 : Reader UInt8 := Wire.getU8 (.corrupt "truncated reading u8")

def getU32 : Reader UInt32 := Wire.getU32 (.corrupt "truncated reading u32")

def getI32 : Reader Int32 := Wire.getI32 (.corrupt "truncated reading i32")

def getU64 : Reader UInt64 := Wire.getU64 (.corrupt "truncated reading u64")

def getI64 : Reader Int64 := Wire.getI64 (.corrupt "truncated reading i64")

/-- A count and as many items. -/
def getList {α : Type} (item : Reader α) : Reader (List α) := do
  let count ← getU32
  getMany count.toNat item

/-- The detail that the source adds after the colon is the decoder's own text. -/
def getStr : Reader String := do
  let len ← getU32
  let bytes ← Wire.take len.toNat (.corrupt "string truncated")
  match ofUtf8 bytes with
  | some s => return s
  | none => fail (.corrupt "invalid utf-8: ")

def getBlob : Reader (List UInt8) := do
  let len ← getU32
  Wire.take len.toNat (.corrupt "blob truncated")

def getOperation : Reader CompactOperations := do
  let code ← getU8
  if code = 0 then return .delete
  else if code = 1 then return .keepData
  else if code = 2 then return .deepDelete
  else fail (.corrupt s!"compact operation {code}")

def getObjectRange : Reader ObjectStreamRange := do
  return ⟨← getU64, ← getU64, ← getU64, ← getU64, ← getU64⟩

def getStreamObject : Reader StreamObject := do
  return ⟨← getU64, ← getU64, ← getU64, ← getU64, ← getU64, ← getU32⟩

def getCommitRequest : Reader CommitStreamSetObjectRequest := do
  return ⟨← getU64, ← getU64, ← getU32, ← getList getObjectRange, ← getList getStreamObject,
    ← getList getU64⟩

/-- The attributes are written before the two lists. -/
def getCompactRequest : Reader CompactStreamObjectRequest := do
  let objectId ← getU64
  let objectSize ← getU64
  let streamId ← getU64
  let streamEpoch ← getU64
  let startOffset ← getU64
  let endOffset ← getU64
  let attributes ← getU32
  let sourceObjectIds ← getList getU64
  let operations ← getList getOperation
  return ⟨objectId, objectSize, streamId, streamEpoch, startOffset, endOffset, sourceObjectIds,
    operations, attributes⟩

/-- The fields of the command with a code. -/
def getFields (code : UInt8) : Reader MetadataCommand := do
  if code = 1 then return .createStream (← getI32) (← getI64)
  else if code = 2 then return .openStream (← getI32) (← getI64) (← getU64) (← getI64)
  else if code = 3 then
    return .trimStream (← getI32) (← getI64) (← getU64) (← getI64) (← getU64)
  else if code = 4 then return .closeStream (← getI32) (← getI64) (← getU64) (← getI64)
  else if code = 5 then return .deleteStream (← getI32) (← getI64) (← getU64) (← getI64)
  else if code = 6 then
    return .prepareObject (← getI32) (← getI64) (← getU32) (← getI64) (← getI64)
  else if code = 7 then
    let nodeId ← getI32
    let nodeEpoch ← getI64
    let nowMs ← getI64
    let request ← getCommitRequest
    return .commitStreamSetObject nodeId nodeEpoch request nowMs
  else if code = 8 then
    let nodeId ← getI32
    let nodeEpoch ← getI64
    let nowMs ← getI64
    let request ← getCompactRequest
    return .compactStreamObject nodeId nodeEpoch request nowMs
  else if code = 9 then return .expirePreparedObjects (← getI64)
  else if code = 10 then return .registerNode (← getI32) (← getI64) (← getStr) (← getU32)
  else if code = 11 then return .cleanDestroyedObjects (← getList getU64)
  else if code = 12 then return .putKv (← getStr) (← getBlob)
  else if code = 13 then return .putKvIfAbsent (← getStr) (← getBlob)
  else if code = 14 then return .deleteKv (← getStr)
  else if code = 15 then return .transferStream (← getU64) (← getI32) (← getI32)
  else if code = 16 then return .completeTransfer (← getU64) (← getI64)
  else if code = 17 then return .createStreams (← getI32) (← getI64) (← getU32)
  else if code = 18 then return .placeStream (← getU64)
  else fail (.unknownCommand code)

def getCommandBody : Reader MetadataCommand := do
  let code ← getU8
  getFields code

/-- Only one version is read. -/
def checkVersion (version : UInt8) : Reader Unit :=
  if version = codecVersion then return () else fail (.unsupportedVersion version)

def getBatch : Reader (List MetadataCommand) := do
  let version ← getU8
  checkVersion version
  getList getCommandBody

/-- Bytes left over after the last command are an error. -/
def decodeBatch (bytes : List UInt8) : Except CodecError (List MetadataCommand) :=
  runAll (fun n => .corrupt s!"{n} trailing bytes") getBatch bytes

def getCommand : Reader MetadataCommand := do
  let version ← getU8
  checkVersion version
  getCommandBody

def decodeCommand (bytes : List UInt8) : Except CodecError MetadataCommand :=
  runAll (fun n => .corrupt s!"{n} trailing bytes") getCommand bytes

def getState : Reader StreamState := do
  let code ← getU8
  if code = 0 then return .closed
  else if code = 1 then return .opened
  else fail (.corrupt s!"stream state {code}")

def getStreamMetadata : Reader StreamMetadata := do
  return ⟨← getU64, ← getU64, ← getU64, ← getU64, ← getState, ← getI32⟩

/-- The value of a key, as a result carries it. -/
def getValue : Reader (List UInt8) := do
  let len ← getU32
  Wire.take len.toNat (.corrupt "value truncated")

/-- The fields of the result with a tag. The tag 4 is reserved. -/
def getResultFields (tag : UInt8) : Reader MetadataResult := do
  if tag = 0 then return .unit
  else if tag = 1 then return .id (← getU64)
  else if tag = 2 then return .count (← getU64)
  else if tag = 3 then return .stream (← getStreamMetadata)
  else if tag = 5 then return .value (some (← getValue))
  else if tag = 6 then return .value none
  else fail (.unknownResult tag)

def getResult : Reader MetadataResult := do
  let version ← getU8
  checkVersion version
  let tag ← getU8
  getResultFields tag

def decodeResult (bytes : List UInt8) : Except CodecError MetadataResult :=
  runAll (fun n => .corrupt s!"{n} trailing bytes") getResult bytes

/-! ### Reading back what was written -/

/-- The counts of a command fit 32 bits. -/
def Writable : MetadataCommand → Prop
  | .registerNode _ _ httpAddress _ => httpAddress.utf8ByteSize < 2 ^ 32
  | .commitStreamSetObject _ _ request _ => request.streamRanges.length < 2 ^ 32 ∧
      request.streamObjects.length < 2 ^ 32 ∧ request.compactedObjectIds.length < 2 ^ 32
  | .compactStreamObject _ _ request _ => request.sourceObjectIds.length < 2 ^ 32 ∧
      request.operations.length < 2 ^ 32
  | .cleanDestroyedObjects objectIds => objectIds.length < 2 ^ 32
  | .putKv key value | .putKvIfAbsent key value =>
    key.utf8ByteSize < 2 ^ 32 ∧ value.length < 2 ^ 32
  | .deleteKv key => key.utf8ByteSize < 2 ^ 32
  | _ => True

instance decidableWritable : DecidablePred Writable :=
  fun command => by cases command <;> dsimp only [Writable] <;> infer_instance

/-- A list that its count can tell is read back. -/
theorem reads_list {α : Type} {item : Reader α} {put : α → List UInt8} {l : List α}
    (hlen : l.length < 2 ^ 32) (hitem : ∀ x ∈ l, Reads item (put x) x) :
  Reads (getList item) (putList put l) l
  := by
  apply (Reads.getU32 _ _).bind
  rw [UInt32.toNat_ofNat_of_lt' hlen]
  apply Reads.getMany l hitem

/-- Bytes that their count can tell are read back. -/
theorem reads_blob {bytes : List UInt8} (hlen : bytes.length < 2 ^ 32) :
  Reads getBlob (putBlob bytes) bytes
  := by
  apply (Reads.getU32 _ _).bind
  rw [UInt32.toNat_ofNat_of_lt' hlen]
  apply Reads.take

theorem reads_str {str : String} (hlen : str.utf8ByteSize < 2 ^ 32) :
  Reads getStr (putStr str) str
  := by
  rw [← length_utf8] at hlen
  apply (Reads.getU32 _ _).bind
  rw [UInt32.toNat_ofNat_of_lt' hlen]
  apply (Reads.take (utf8 str) _).bind_nil
  rw [ofUtf8_utf8]
  apply Reads.pure

theorem reads_operation (op : CompactOperations) :
  Reads getOperation (putU8 (operationCode op)) op
  := by
  apply (Reads.getU8 _ _).bind_nil
  cases op with
  | delete => apply Reads.pure
  | keepData => apply Reads.pure
  | deepDelete => apply Reads.pure

theorem reads_objectRange (r : ObjectStreamRange) :
  Reads getObjectRange (putObjectRange r) r
  := by
  apply (Reads.getU64 _ _).bind
  apply (Reads.getU64 _ _).bind
  apply (Reads.getU64 _ _).bind
  apply (Reads.getU64 _ _).bind
  apply (Reads.getU64 _ _).bind_pure

theorem reads_streamObject (o : StreamObject) :
  Reads getStreamObject (putStreamObject o) o
  := by
  apply (Reads.getU64 _ _).bind
  apply (Reads.getU64 _ _).bind
  apply (Reads.getU64 _ _).bind
  apply (Reads.getU64 _ _).bind
  apply (Reads.getU64 _ _).bind
  apply (Reads.getU32 _ _).bind_pure

theorem reads_ids {ids : List UInt64} (hlen : ids.length < 2 ^ 32) :
  Reads (getList getU64) (putList putU64 ids) ids
  := reads_list hlen fun id _ => Reads.getU64 id _

/-- A request whose lists fit their counts is read back. -/
theorem reads_commitRequest {request : CommitStreamSetObjectRequest}
    (hranges : request.streamRanges.length < 2 ^ 32)
    (hobjects : request.streamObjects.length < 2 ^ 32)
    (hids : request.compactedObjectIds.length < 2 ^ 32) :
  Reads getCommitRequest (putCommitRequest request) request
  := by
  apply (Reads.getU64 _ _).bind
  apply (Reads.getU64 _ _).bind
  apply (Reads.getU32 _ _).bind
  apply (reads_list hranges fun r _ => reads_objectRange r).bind
  apply (reads_list hobjects fun o _ => reads_streamObject o).bind
  apply (reads_ids hids).bind_pure

theorem reads_compactRequest {request : CompactStreamObjectRequest}
    (hids : request.sourceObjectIds.length < 2 ^ 32)
    (hops : request.operations.length < 2 ^ 32) :
  Reads getCompactRequest (putCompactRequest request) request
  := by
  apply (Reads.getU64 _ _).bind
  apply (Reads.getU64 _ _).bind
  apply (Reads.getU64 _ _).bind
  apply (Reads.getU64 _ _).bind
  apply (Reads.getU64 _ _).bind
  apply (Reads.getU64 _ _).bind
  apply (Reads.getU32 _ _).bind
  apply (reads_ids hids).bind
  apply (reads_list hops fun op _ => reads_operation op).bind_pure

/-- The fields shared by opening, closing and deleting a stream. -/
theorem reads_streamFields (make : Int32 → Int64 → UInt64 → Int64 → MetadataCommand)
    (nodeId : Int32) (nodeEpoch : Int64) (streamId : UInt64) (epoch : Int64) :
  Reads (do return make (← getI32) (← getI64) (← getU64) (← getI64))
    (putI32 nodeId ++ (putI64 nodeEpoch ++ (putU64 streamId ++ putI64 epoch)))
    (make nodeId nodeEpoch streamId epoch)
  := by
  apply (Reads.getI32 _ _).bind
  apply (Reads.getI64 _ _).bind
  apply (Reads.getU64 _ _).bind
  apply (Reads.getI64 _ _).bind_pure

/-- The fields of a command are read back under its code. -/
theorem reads_fields {command : MetadataCommand} (h : Writable command) :
  Reads (getFields (typeCode command)) (putFields command) command
  := by
  cases command with
  | createStream =>
    apply (Reads.getI32 _ _).bind
    apply (Reads.getI64 _ _).bind_pure
  | openStream => exact reads_streamFields .openStream _ _ _ _
  | closeStream => exact reads_streamFields .closeStream _ _ _ _
  | deleteStream => exact reads_streamFields .deleteStream _ _ _ _
  | trimStream =>
    apply (Reads.getI32 _ _).bind
    apply (Reads.getI64 _ _).bind
    apply (Reads.getU64 _ _).bind
    apply (Reads.getI64 _ _).bind
    apply (Reads.getU64 _ _).bind_pure
  | prepareObject =>
    apply (Reads.getI32 _ _).bind
    apply (Reads.getI64 _ _).bind
    apply (Reads.getU32 _ _).bind
    apply (Reads.getI64 _ _).bind
    apply (Reads.getI64 _ _).bind_pure
  | commitStreamSetObject =>
    apply (Reads.getI32 _ _).bind
    apply (Reads.getI64 _ _).bind
    apply (Reads.getI64 _ _).bind
    apply (reads_commitRequest h.1 h.2.1 h.2.2).bind_pure
  | compactStreamObject =>
    apply (Reads.getI32 _ _).bind
    apply (Reads.getI64 _ _).bind
    apply (Reads.getI64 _ _).bind
    apply (reads_compactRequest h.1 h.2).bind_pure
  | expirePreparedObjects => apply (Reads.getI64 _ _).bind_pure
  | registerNode =>
    apply (Reads.getI32 _ _).bind
    apply (Reads.getI64 _ _).bind
    apply (reads_str h).bind
    apply (Reads.getU32 _ _).bind_pure
  | cleanDestroyedObjects => apply (reads_ids h).bind_pure
  | putKv =>
    apply (reads_str h.1).bind
    apply (reads_blob h.2).bind_pure
  | putKvIfAbsent =>
    apply (reads_str h.1).bind
    apply (reads_blob h.2).bind_pure
  | deleteKv => apply (reads_str h).bind_pure
  | transferStream =>
    apply (Reads.getU64 _ _).bind
    apply (Reads.getI32 _ _).bind
    apply (Reads.getI32 _ _).bind_pure
  | completeTransfer =>
    apply (Reads.getU64 _ _).bind
    apply (Reads.getI64 _ _).bind_pure
  | createStreams =>
    apply (Reads.getI32 _ _).bind
    apply (Reads.getI64 _ _).bind
    apply (Reads.getU32 _ _).bind_pure
  | placeStream => apply (Reads.getU64 _ _).bind_pure

/-- A batch whose counts fit is read back from its bytes. -/
theorem decodeBatch_encodeBatch {commands : List MetadataCommand}
    (hlen : commands.length < 2 ^ 32) (h : ∀ command ∈ commands, Writable command) :
  decodeBatch (encodeBatch commands) = .ok commands
  := by
  apply Reads.runAll
  apply (Reads.getU8 _ _).bind
  apply (Reads.pure ()).nil_bind
  apply reads_list hlen
  intro command hmem
  apply (Reads.getU8 _ _).bind
  apply reads_fields (h command hmem)

end Codec

end Metadata
