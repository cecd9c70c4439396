import StreamStack.Lib.Wire
import StreamStack.Metadata.Reachable

/-!
# Snapshots

A snapshot is a version byte followed by the primary rows of the state, section by section and
in key order. The secondary indexes are not stored: decoding rebuilds them while it reads the
rows they index. A reachable state survives the round trip, so a node may start from a snapshot
of a prefix of the log and apply the rest.
-/

namespace Metadata

open OrdMap Run Wire List

namespace Snapshot

def snapshotVersion : UInt8 := 0

inductive SnapshotError where
  | unsupportedVersion (version : UInt8)
  | corrupt (message : String)
deriving DecidableEq, Repr

/-! ### Writing -/

def streamStateCode : StreamState → UInt8
  | .closed => 0
  | .opened => 1

def objectTypeCode : S3ObjectType → UInt8
  | .streamSet => 0
  | .stream => 1

def operationCode : CompactOperations → UInt8
  | .delete => 0
  | .keepData => 1
  | .deepDelete => 2

/-- A string behind the number of its bytes. -/
def putStr (s : String) : List UInt8 :=
  putU32 (UInt32.ofNat (utf8 s).length) ++ utf8 s

def putRange (range : StreamOffsetRange) : List UInt8 :=
  putU64 range.streamId ++ (putU64 range.startOffset ++ putU64 range.endOffset)

def putObject (object : S3ObjectMetadata) : List UInt8 :=
  putU64 object.objectId ++ (putU8 (objectTypeCode object.objectType) ++
  (putU64 object.objectSize ++ (putU32 object.attributes ++
  (putI64 object.committedTimestampMs ++ (putI64 object.dataTimestampMs ++
  (putU32 (UInt32.ofNat object.offsetRanges.length) ++ object.offsetRanges.flatMap putRange))))))

/-- A section of a map: the number of rows, then the rows in key order. -/
def putSection {κ ν : Type} [Ord κ] [Std.TransOrd κ] (put : κ × ν → List UInt8)
    (m : OrdMap κ ν) : List UInt8 :=
  putU64 (UInt64.ofNat m.toList.length) ++ m.toList.flatMap put

/-- A row of a stream. The key is one of its fields. -/
def putStream (e : UInt64 × StreamRow) : List UInt8 :=
  putU64 e.2.streamId ++ (putI64 e.2.epoch ++ (putU64 e.2.startOffset ++ (putU64 e.2.endOffset ++
  (putU8 (streamStateCode e.2.state) ++ putI32 e.2.nodeId))))

def putNode (e : Int32 × NodeRow) : List UInt8 :=
  putI32 e.2.nodeId ++ (putI64 e.2.epoch ++ (putStr e.2.httpAddress ++ putU32 e.2.slots))

def putPrepared (e : UInt64 × Int64) : List UInt8 :=
  putU64 e.1 ++ putI64 e.2

/-- The object carries the ranges that the index is made of. -/
def putStreamSetObject (e : UInt64 × StreamSetObjectRow) : List UInt8 :=
  putI32 e.2.nodeId ++ putObject e.2.object

def putStreamObject (e : StreamOffsetKey × StreamObjectRow) : List UInt8 :=
  putObject e.2.object

/-- A place in the queue of destroyed objects. -/
def putDestroyed (e : UInt64 × UInt64 × CompactOperations) : List UInt8 :=
  putU64 e.1 ++ (putU64 e.2.1 ++ putU8 (operationCode e.2.2))

/-- A key with its value. -/
def putPair (e : String × List UInt8) : List UInt8 :=
  putStr e.1 ++ (putU32 (UInt32.ofNat e.2.length) ++ e.2)

def putTransfer (e : UInt64 × PendingTransfer) : List UInt8 :=
  putU64 e.1 ++ (putI32 e.2.fromNode ++ putI32 e.2.toNode)

/-- The counters and the primary rows, one section after the other. -/
def encode (s : MetadataState) : List UInt8 :=
  putU8 snapshotVersion ++ (putU64 s.nextStreamId ++ (putSection putStream s.streams ++
  (putSection putNode s.nodes ++ (putU64 s.nextObjectId ++ (putSection putPrepared s.prepared ++
  (putSection putStreamSetObject s.streamSetObjects ++
  (putSection putStreamObject s.streamObjects ++ (putSection putDestroyed s.markDestroyed ++
  (putU64 s.nextDestroyedSeq ++ (putSection putPair s.kv ++
  putSection putTransfer s.pendingTransfers))))))))))

/-! ### Reading -/

/-- A reader whose failures are those of a snapshot. -/
abbrev Reader : Type → Type := Get SnapshotError

def getU8 : Reader UInt8 := Wire.getU8 (.corrupt "truncated reading u8")

def getU32 : Reader UInt32 := Wire.getU32 (.corrupt "truncated reading u32")

def getI32 : Reader Int32 := Wire.getI32 (.corrupt "truncated reading i32")

def getU64 : Reader UInt64 := Wire.getU64 (.corrupt "truncated reading u64")

def getI64 : Reader Int64 := Wire.getI64 (.corrupt "truncated reading i64")

/-- The detail that the source adds after the colon is the decoder's own text. -/
def getStr : Reader String := do
  let len ← getU32
  let bytes ← Wire.take len.toNat (.corrupt "string truncated")
  match ofUtf8 bytes with
  | some s => return s
  | none => fail (.corrupt "invalid utf-8: ")

def getStreamState : Reader StreamState := do
  let code ← getU8
  if code = 0 then return .closed
  else if code = 1 then return .opened
  else fail (.corrupt s!"stream state {code}")

def getObjectType : Reader S3ObjectType := do
  let code ← getU8
  if code = 0 then return .streamSet
  else if code = 1 then return .stream
  else fail (.corrupt s!"object type {code}")

def getOperation : Reader CompactOperations := do
  let code ← getU8
  if code = 0 then return .delete
  else if code = 1 then return .keepData
  else if code = 2 then return .deepDelete
  else fail (.corrupt s!"compact operation {code}")

def getRange : Reader StreamOffsetRange := do
  let streamId ← getU64
  let startOffset ← getU64
  let endOffset ← getU64
  return { streamId, startOffset, endOffset }

def getObject : Reader S3ObjectMetadata := do
  let objectId ← getU64
  let objectType ← getObjectType
  let objectSize ← getU64
  let attributes ← getU32
  let committedTimestampMs ← getI64
  let dataTimestampMs ← getI64
  let rangeCount ← getU32
  let offsetRanges ← getMany rangeCount.toNat getRange
  return ⟨objectId, objectType, offsetRanges, objectSize, attributes, committedTimestampMs,
    dataTimestampMs⟩

/-- Read a section: the number of rows, then the rows, each added to the state. -/
def getSection (row : MetadataState → Reader MetadataState) (s : MetadataState) :
    Reader MetadataState := do
  let count ← getU64
  iterate count.toNat row s

/-- A stream row enters at most one of the two indexes by node. -/
def addStream (s : MetadataState) (row : StreamRow) : MetadataState :=
  let s := { s with streams := s.streams.insert row.streamId row }
  if row.state = .opened then
    { s with openingByNode := s.openingByNode.insert (row.nodeId, row.streamId) () }
  else if row.state = .closed ∧ row.epoch = -1 ∧ row.nodeId ≠ -1 then
    { s with placedByNode := s.placedByNode.insert (row.nodeId, row.streamId) () }
  else s

/-- Read a row of a stream and enter it into the two indexes of nodes. -/
def getStream (s : MetadataState) : Reader MetadataState := do
  let streamId ← getU64
  let epoch ← getI64
  let startOffset ← getU64
  let endOffset ← getU64
  let state ← getStreamState
  let nodeId ← getI32
  return addStream s { streamId, epoch, startOffset, endOffset, state, nodeId }

def getNode (s : MetadataState) : Reader MetadataState := do
  let nodeId ← getI32
  let epoch ← getI64
  let httpAddress ← getStr
  let slots ← getU32
  return { s with nodes := s.nodes.insert nodeId { nodeId, epoch, httpAddress, slots } }

/-- Read a prepared object and enter its deadline. -/
def getPrepared (s : MetadataState) : Reader MetadataState := do
  let id ← getU64
  let deadline ← getI64
  return { s with
    prepared := s.prepared.insert id deadline
    preparedByDeadline := s.preparedByDeadline.insert (deadline, id) () }

/-- Enter an object with its ranges and its owner. -/
def addStreamSetObject (s : MetadataState) (nodeId : Int32) (object : S3ObjectMetadata) :
    MetadataState :=
  { s with
    ssoRanges := object.offsetRanges.foldl
      (fun m r => m.insert (r.streamId, r.startOffset, object.objectId) r.endOffset) s.ssoRanges
    ssoByNode := s.ssoByNode.insert (nodeId, object.objectId) ()
    streamSetObjects := s.streamSetObjects.insert object.objectId { nodeId, object } }

def getStreamSetObject (s : MetadataState) : Reader MetadataState := do
  let nodeId ← getI32
  let object ← getObject
  return addStreamSetObject s nodeId object

/-- A stream object has exactly one range, which is part of its key. -/
def addStreamObject (s : MetadataState) (object : S3ObjectMetadata) : Reader MetadataState :=
  match object.offsetRanges with
  | [range] =>
    let key : StreamOffsetKey := (range.streamId, range.startOffset, object.objectId)
    return { s with
      streamObjectIds := s.streamObjectIds.insert object.objectId key
      streamObjects := s.streamObjects.insert key { object } }
  | _ => fail (.corrupt "stream object must have exactly one range")

def getStreamObject (s : MetadataState) : Reader MetadataState := do
  let object ← getObject
  addStreamObject s object

/-- Read a place in the queue and enter the id of its object. -/
def getDestroyed (s : MetadataState) : Reader MetadataState := do
  let seq ← getU64
  let objectId ← getU64
  let op ← getOperation
  return { s with
    markDestroyed := s.markDestroyed.insert seq (objectId, op)
    destroyedById := s.destroyedById.insert objectId seq }

def getPair (s : MetadataState) : Reader MetadataState := do
  let key ← getStr
  let len ← getU32
  let value ← Wire.take len.toNat (.corrupt "kv value truncated")
  return { s with kv := s.kv.insert key value }

def getTransfer (s : MetadataState) : Reader MetadataState := do
  let streamId ← getU64
  let fromNode ← getI32
  let toNode ← getI32
  return { s with pendingTransfers := s.pendingTransfers.insert streamId { fromNode, toNode } }

/-- Only one version is read. -/
def checkVersion (version : UInt8) : Reader Unit :=
  if version = snapshotVersion then return () else fail (.unsupportedVersion version)

/-- Read the sections in the order in which they were written. -/
def getState : Reader MetadataState := do
  let version ← getU8
  checkVersion version
  let nextStreamId ← getU64
  let s ← getSection getStream { MetadataState.new with nextStreamId }
  let s ← getSection getNode s
  let nextObjectId ← getU64
  let s ← getSection getPrepared { s with nextObjectId }
  let s ← getSection getStreamSetObject s
  let s ← getSection getStreamObject s
  let s ← getSection getDestroyed s
  let nextDestroyedSeq ← getU64
  let s ← getSection getPair { s with nextDestroyedSeq }
  getSection getTransfer s

/-- Bytes left over after the last section are an error. -/
def decode (bytes : List UInt8) : Except SnapshotError MetadataState :=
  runAll (fun n => .corrupt s!"{n} trailing bytes") getState bytes

/-! ### Reading back what was written -/

/-- A count below 2³² is read back. -/
theorem reads_count {n : ℕ} (h : n < 2 ^ 32) :
  Reads getU32 (putU32 (UInt32.ofNat n)) (UInt32.ofNat n) ∧ (UInt32.ofNat n).toNat = n
  := by
  constructor
  · apply Reads.getU32
  · apply UInt32.toNat_ofNat_of_lt' h

theorem reads_str {str : String} (h : str.utf8ByteSize < 2 ^ 32) :
  Reads getStr (putStr str) str
  := by
  rw [← length_utf8] at h
  obtain ⟨hcount, hlen⟩ := reads_count h
  apply hcount.bind
  rw [hlen]
  apply (Reads.take (utf8 str) _).bind_nil
  rw [ofUtf8_utf8]
  apply Reads.pure

theorem reads_streamState (state : StreamState) :
  Reads getStreamState (putU8 (streamStateCode state)) state
  := by
  apply (Reads.getU8 _ _).bind_nil
  cases state with
  | closed => apply Reads.pure
  | opened => apply Reads.pure

theorem reads_objectType (objectType : S3ObjectType) :
  Reads getObjectType (putU8 (objectTypeCode objectType)) objectType
  := by
  apply (Reads.getU8 _ _).bind_nil
  cases objectType with
  | streamSet => apply Reads.pure
  | stream => apply Reads.pure

theorem reads_operation (op : CompactOperations) :
  Reads getOperation (putU8 (operationCode op)) op
  := by
  apply (Reads.getU8 _ _).bind_nil
  cases op with
  | delete => apply Reads.pure
  | keepData => apply Reads.pure
  | deepDelete => apply Reads.pure

theorem reads_range (range : StreamOffsetRange) :
  Reads getRange (putRange range) range
  := by
  apply (Reads.getU64 _ _).bind
  apply (Reads.getU64 _ _).bind
  apply (Reads.getU64 _ _).bind_pure

/-- An object whose ranges fit their count is read back. -/
theorem reads_object {object : S3ObjectMetadata} (h : object.offsetRanges.length < 2 ^ 32) :
  Reads getObject (putObject object) object
  := by
  obtain ⟨hcount, hlen⟩ := reads_count h
  apply (Reads.getU64 _ _).bind
  apply (reads_objectType _).bind
  apply (Reads.getU64 _ _).bind
  apply (Reads.getU32 _ _).bind
  apply (Reads.getI64 _ _).bind
  apply (Reads.getI64 _ _).bind
  apply hcount.bind
  rw [hlen]
  apply Reads.bind_nil
  · apply Reads.getMany
    intro range _
    apply reads_range
  · apply Reads.pure

variable {ν : Type}

/-- A section is read row by row, in key order. -/
theorem reads_section {κ : Type} [Ord κ] [Std.TransOrd κ] {put : κ × ν → List UInt8}
    {row : MetadataState → Reader MetadataState} {upd : MetadataState → κ × ν → MetadataState}
    {m : OrdMap κ ν} (hsize : m.size < 2 ^ 64)
    (hrow : ∀ t, ∀ e ∈ m.toList, Reads (row t) (put e) (upd t e)) (s : MetadataState) :
  Reads (getSection row s) (putSection put m) (m.toList.foldl upd s)
  := by
  rw [← Std.ExtTreeMap.length_toList] at hsize
  apply (Reads.getU64 _ _).bind
  rw [UInt64.toNat_ofNat_of_lt' hsize]
  apply Reads.iterate m.toList hrow

/-! ### What fits a snapshot -/

/-- The lengths a snapshot stores in 32 bits, and the row counts that no id bounds, fit their
fields. A count of rows is a machine word in the program. -/
structure Fits (s : MetadataState) : Prop where
  addresses : ∀ (id : Int32) (node : NodeRow), s.nodes[id]? = some node →
    node.httpAddress.utf8ByteSize < 2 ^ 32
  ranges : ∀ (id : UInt64) (row : StreamSetObjectRow), s.streamSetObjects[id]? = some row →
    row.object.offsetRanges.length < 2 ^ 32
  pairs : ∀ (key : String) (value : List UInt8), s.kv[key]? = some value →
    key.utf8ByteSize < 2 ^ 32 ∧ value.length < 2 ^ 32
  pairCount : s.kv.size < 2 ^ 64
  streamObjectCount : s.streamObjects.size < 2 ^ 64

/-- There are no more rows than ids below a bound. -/
theorem size_lt_of_ids_lt {m : OrdMap UInt64 ν} {n : UInt64}
    (h : ∀ (id : UInt64) (v : ν), m[id]? = some v → id < n) :
  m.size < 2 ^ 64
  := by
  have hle : m.size ≤ ((List.range n.toNat).map UInt64.ofNat).length := by
    apply size_le_of_keys_mem
    intro id v hv
    rw [mem_map]
    use id.toNat
    rw [mem_range, UInt64.ofNat_toNat]
    exact ⟨UInt64.lt_iff_toNat_lt.mp (h id v hv), rfl⟩
  rw [length_map, length_range] at hle
  have hn := n.toNat_lt
  omega

theorem size_nodes_lt (m : OrdMap Int32 ν) :
  m.size < 2 ^ 64
  := by
  have hle : m.size ≤ ((List.range (2 ^ 32)).map fun n => (UInt32.ofNat n).toInt32).length := by
    apply size_le_of_keys_mem
    intro id v _
    rw [mem_map]
    use id.toUInt32.toNat
    rw [mem_range, UInt32.ofNat_toNat]
    exact ⟨id.toUInt32.toNat_lt, rfl⟩
  rw [length_map, length_range] at hle
  omega

/-! ### The sections of a reachable state -/

section Sections

variable {N : Prop} {P : Nat → Prop} {s : MetadataState}

theorem mem_rows {κ : Type} [Ord κ] [Std.TransOrd κ] [Std.LawfulEqOrd κ] {m : OrdMap κ ν}
    {e : κ × ν} (he : e ∈ m.toList) :
  m[e.1]? = some e.2
  := Std.ExtTreeMap.mem_toList_iff_getElem?_eq_some.mp he

/-- Inserting all rows of a map into an empty one gives the map. -/
theorem foldl_rows {κ : Type} [Ord κ] [Std.TransOrd κ] [Std.LawfulEqOrd κ] [DecidableEq κ]
    (m : OrdMap κ ν) :
  m.toList.foldl (fun m e => m.insert e.1 e.2) ∅ = m
  := ofEntries_toList m

/-- The stream rows and the two indexes by node. -/
def insertStream (t : MetadataState) (e : UInt64 × StreamRow) : MetadataState :=
  { t with
    streams := t.streams.insert e.1 e.2
    openingByNode := (openingEntries e.1 e.2).foldl (fun m e => m.insert e.1 e.2) t.openingByNode
    placedByNode := (placedEntries e.1 e.2).foldl (fun m e => m.insert e.1 e.2) t.placedByNode }

theorem addStream_eq (t : MetadataState) (row : StreamRow) :
  addStream t row = insertStream t (row.streamId, row)
  := by
  unfold addStream insertStream openingEntries placedEntries
  cases hstate : row.state with
  | opened => simp
  | closed =>
    by_cases hplaced : row.epoch = -1 ∧ row.nodeId ≠ -1
    · simp [hplaced]
    · simp only [true_and, if_neg hplaced]
      rfl

/-- Entering streams one by one fills the map and its two indexes. -/
theorem foldl_insertStream (l : List (UInt64 × StreamRow)) (t : MetadataState) :
  l.foldl insertStream t = { t with
    streams := l.foldl (fun m e => m.insert e.1 e.2) t.streams
    openingByNode := (l.flatMap fun e => openingEntries e.1 e.2).foldl
      (fun m e => m.insert e.1 e.2) t.openingByNode
    placedByNode := (l.flatMap fun e => placedEntries e.1 e.2).foldl
      (fun m e => m.insert e.1 e.2) t.placedByNode }
  := by
  induction l generalizing t with
  | nil => rfl
  | cons e l ih =>
    rw [foldl_cons, ih]
    simp only [insertStream, flatMap_cons, foldl_append, foldl_cons]

variable {t : MetadataState}

/-- The streams are read back, and with them the indexes of nodes. -/
theorem reads_streams (h : Inv N P s) (hstreams : t.streams = ∅) (hopening : t.openingByNode = ∅)
    (hplaced : t.placedByNode = ∅) :
  Reads (getSection getStream t) (putSection putStream s.streams) { t with
    streams := s.streams
    openingByNode := s.openingByNode
    placedByNode := derive placedEntries s.streams }
  := by
  have hfold := foldl_insertStream s.streams.toList t
  rw [hstreams, hopening, hplaced, foldl_rows] at hfold
  rw [h.streams.opening]
  apply hfold ▸ reads_section _ _ t
  · apply size_lt_of_ids_lt
    intro id row hrow
    exact (h.streams.rows id row hrow).2.1
  · intro t e he
    obtain ⟨id, row⟩ := e
    obtain rfl := (h.streams.rows id row (mem_rows he)).1
    rw [← addStream_eq]
    apply (Reads.getU64 _ _).bind
    apply (Reads.getI64 _ _).bind
    apply (Reads.getU64 _ _).bind
    apply (Reads.getU64 _ _).bind
    apply (reads_streamState _).bind
    apply (Reads.getI32 _ _).bind_pure

/-- The nodes are read back. -/
theorem reads_nodes (h : Inv N P s) (hfits : Fits s) (hnodes : t.nodes = ∅) :
  Reads (getSection getNode t) (putSection putNode s.nodes) { t with nodes := s.nodes }
  := by
  have hfold := foldl_part MetadataState.nodes (fun v t => { t with nodes := v })
    (fun _ _ => rfl) (fun _ _ _ => rfl) (fun _ => rfl) (fun m e => m.insert e.1 e.2)
    s.nodes.toList t
  rw [hnodes, foldl_rows] at hfold
  apply hfold ▸ reads_section (size_nodes_lt _) _ t
  intro t e he
  obtain ⟨id, node⟩ := e
  have hnode := mem_rows he
  obtain rfl := (h.streams.nodes id node hnode).1
  apply (Reads.getI32 _ _).bind
  apply (Reads.getI64 _ _).bind
  apply (reads_str (hfits.addresses _ _ hnode)).bind
  apply (Reads.getU32 _ _).bind_pure

/-- The keys are read back with their values. -/
theorem reads_pairs (hfits : Fits s) (hkv : t.kv = ∅) :
  Reads (getSection getPair t) (putSection putPair s.kv) { t with kv := s.kv }
  := by
  have hfold := foldl_part MetadataState.kv (fun v t => { t with kv := v })
    (fun _ _ => rfl) (fun _ _ _ => rfl) (fun _ => rfl) (fun m e => m.insert e.1 e.2)
    s.kv.toList t
  rw [hkv, foldl_rows] at hfold
  apply hfold ▸ reads_section hfits.pairCount _ t
  intro t e he
  obtain ⟨hkey, hvalue⟩ := hfits.pairs _ _ (mem_rows he)
  obtain ⟨hcount, hlen⟩ := reads_count hvalue
  apply (reads_str hkey).bind
  apply hcount.bind
  rw [hlen]
  apply (Reads.take _ _).bind_pure

/-- The pending transfers are read back. -/
theorem reads_transfers (h : Inv N P s) (hpending : t.pendingTransfers = ∅) :
  Reads (getSection getTransfer t) (putSection putTransfer s.pendingTransfers)
    { t with pendingTransfers := s.pendingTransfers }
  := by
  have hfold := foldl_part MetadataState.pendingTransfers
    (fun v t => { t with pendingTransfers := v }) (fun _ _ => rfl) (fun _ _ _ => rfl)
    (fun _ => rfl) (fun m e => m.insert e.1 e.2) s.pendingTransfers.toList t
  rw [hpending, foldl_rows] at hfold
  apply hfold ▸ reads_section _ _ t
  · apply size_lt_of_ids_lt
    intro id p hp
    obtain ⟨row, hrow, -⟩ := h.streams.pending id p hp
    exact (h.streams.rows id row hrow).2.1
  · intro t e _
    apply (Reads.getU64 _ _).bind
    apply (Reads.getI32 _ _).bind
    apply (Reads.getI32 _ _).bind_pure

/-- Rows inserted next to the entries of their index rebuild the map and the derived index. -/
theorem foldl_indexed {κ κ' ν' : Type} [Ord κ] [Std.TransOrd κ] [Std.LawfulEqOrd κ] [DecidableEq κ]
    [Ord κ'] [Std.TransOrd κ'] [Std.LawfulEqOrd κ'] [DecidableEq κ'] (f : κ → ν → List (κ' × ν'))
    (m : OrdMap κ ν) :
  m.toList.foldl (fun p e => (p.1.insert e.1 e.2,
    (f e.1 e.2).foldl (fun m e => m.insert e.1 e.2) p.2)) (∅, ∅) = (m, derive f m)
  := by
  apply (foldl_pair (fun (m : OrdMap κ ν) (e : κ × ν) => m.insert e.1 e.2)
    (fun (m : OrdMap κ' ν') (e : κ × ν) => (f e.1 e.2).foldl (fun m e => m.insert e.1 e.2) m)
    m.toList ∅ ∅).trans
  rw [foldl_rows, derive, ofEntries, entries, foldl_flatMap]

/-- The prepared objects are read back, and with them the index of deadlines. -/
theorem reads_prepareds (h : Inv N P s) (hprepared : t.prepared = ∅)
    (hindex : t.preparedByDeadline = ∅) :
  Reads (getSection getPrepared t) (putSection putPrepared s.prepared) { t with
    prepared := s.prepared
    preparedByDeadline := s.preparedByDeadline }
  := by
  have hfold := foldl_part (fun t : MetadataState => (t.prepared, t.preparedByDeadline))
    (fun v t => { t with prepared := v.1, preparedByDeadline := v.2 })
    (fun _ _ => rfl) (fun _ _ _ => rfl) (fun _ => rfl)
    (fun p e => (p.1.insert e.1 e.2,
      (deadlineEntries e.1 e.2).foldl (fun m e => m.insert e.1 e.2) p.2)) s.prepared.toList t
  rw [hprepared, hindex, foldl_indexed, ← h.prepared.index] at hfold
  apply hfold ▸ reads_section _ _ t
  · exact size_lt_of_ids_lt h.prepared.fresh
  · intro t e _
    apply (Reads.getU64 _ _).bind
    apply (Reads.getI64 _ _).bind_pure

/-- The stream-set objects are read back, and with them the ranges and owners. -/
theorem reads_streamSetObjects (h : Inv N P s) (hfits : Fits s)
    (hobjects : t.streamSetObjects = ∅) (hranges : t.ssoRanges = ∅) (hnodes : t.ssoByNode = ∅) :
  Reads (getSection getStreamSetObject t) (putSection putStreamSetObject s.streamSetObjects)
    { t with
      streamSetObjects := s.streamSetObjects
      ssoRanges := s.ssoRanges
      ssoByNode := s.ssoByNode }
  := by
  have hfold := foldl_part
    (fun t : MetadataState => ((t.streamSetObjects, t.ssoRanges), t.ssoByNode))
    (fun v t => { t with streamSetObjects := v.1.1, ssoRanges := v.1.2, ssoByNode := v.2 })
    (fun _ _ => rfl) (fun _ _ _ => rfl) (fun _ => rfl)
    (fun p e => ((p.1.1.insert e.1 e.2,
        (rangeEntries e.1 e.2).foldl (fun m e => m.insert e.1 e.2) p.1.2),
      (ownerEntries e.1 e.2).foldl (fun m e => m.insert e.1 e.2) p.2)) s.streamSetObjects.toList t
  have hparts := foldl_pair
    (fun (p : OrdMap UInt64 StreamSetObjectRow × OrdMap StreamOffsetKey UInt64)
      (e : UInt64 × StreamSetObjectRow) => (p.1.insert e.1 e.2,
        (rangeEntries e.1 e.2).foldl (fun m e => m.insert e.1 e.2) p.2))
    (fun (m : OrdMap (Int32 × UInt64) Unit) (e : UInt64 × StreamSetObjectRow) =>
      (ownerEntries e.1 e.2).foldl (fun m e => m.insert e.1 e.2) m)
    s.streamSetObjects.toList (∅, ∅) ∅
  have howner : s.streamSetObjects.toList.foldl (fun (m : OrdMap (Int32 × UInt64) Unit) e =>
      (ownerEntries e.1 e.2).foldl (fun m e => m.insert e.1 e.2) m) ∅ = s.ssoByNode := by
    rw [h.setObjects.byNode, derive, ofEntries, entries, foldl_flatMap]
  rw [foldl_indexed, howner, ← h.setObjects.ranges] at hparts
  rw [hobjects, hranges, hnodes, hparts] at hfold
  apply hfold ▸ reads_section _ _ t
  · apply size_lt_of_ids_lt (n := noopObjectId)
    intro id row hrow
    have hne := (h.setObjects.rows id row hrow).2.1
    rw [UInt64.lt_iff_toNat_lt]
    have hlt := id.toNat_lt
    have hmax : id.toNat ≠ noopObjectId.toNat := fun heq => hne (UInt64.toNat_inj.mp heq)
    have hnoop : noopObjectId.toNat = 2 ^ 64 - 1 := rfl
    omega
  · intro t e he
    obtain ⟨id, row⟩ := e
    have hrow := mem_rows he
    obtain rfl := (h.setObjects.rows id row hrow).1
    apply (Reads.getI32 _ _).bind
    have hobject := (reads_object (hfits.ranges _ _ hrow)).bind_pure
      (f := addStreamSetObject t row.nodeId)
    simpa [addStreamSetObject, rangeEntries, ownerEntries, foldl_map] using hobject

/-- The index of a stream object's id. -/
def idEntries (key : StreamOffsetKey) (_ : StreamObjectRow) : List (UInt64 × StreamOffsetKey) :=
  [(key.2.2, key)]

/-- The ids of stream objects form a derived index. -/
theorem streamObjectIds_eq (h : Inv N P s) :
  s.streamObjectIds = derive idEntries s.streamObjects
  := by
  apply eq_derive_of_inverse
  intro id key
  rw [h.streamObjects.ids, mem_iff_lookup]
  constructor
  · rintro ⟨⟨row, hrow⟩, rfl⟩
    exact ⟨key, row, hrow, mem_singleton.mpr rfl⟩
  · rintro ⟨k, row, hrow, hmem⟩
    obtain ⟨rfl, rfl⟩ := Prod.mk.inj (mem_singleton.mp hmem)
    exact ⟨⟨row, hrow⟩, rfl⟩

/-- The stream objects are read back, and with them the index of their ids. -/
theorem reads_streamObjects (h : Inv N P s) (hfits : Fits s) (hobjects : t.streamObjects = ∅)
    (hids : t.streamObjectIds = ∅) :
  Reads (getSection getStreamObject t) (putSection putStreamObject s.streamObjects) { t with
    streamObjects := s.streamObjects
    streamObjectIds := s.streamObjectIds }
  := by
  have hfold := foldl_part (fun t : MetadataState => (t.streamObjects, t.streamObjectIds))
    (fun v t => { t with streamObjects := v.1, streamObjectIds := v.2 })
    (fun _ _ => rfl) (fun _ _ _ => rfl) (fun _ => rfl)
    (fun p e => (p.1.insert e.1 e.2,
      (idEntries e.1 e.2).foldl (fun m e => m.insert e.1 e.2) p.2)) s.streamObjects.toList t
  rw [hobjects, hids, foldl_indexed, ← streamObjectIds_eq h] at hfold
  apply hfold ▸ reads_section hfits.streamObjectCount _ t
  intro t e he
  obtain ⟨⟨streamId, startOffset, objectId⟩, ⟨object⟩⟩ := e
  obtain ⟨hid, endOffset, hrange⟩ := h.streamObjects.rows _ _ (mem_rows he)
  simp only at hid hrange
  have hlen : object.offsetRanges.length < 2 ^ 32 := by
    rw [hrange, length_singleton]
    norm_num
  apply (reads_object hlen).bind_nil
  rw [addStreamObject, hrange, hid]
  apply Reads.pure

/-- The index of a queued object's id. -/
def seqEntries (seq : UInt64) (e : UInt64 × CompactOperations) : List (UInt64 × UInt64) :=
  [(e.1, seq)]

/-- The ids of destroyed objects form a derived index. -/
theorem destroyedById_eq (h : Inv N P s) :
  s.destroyedById = derive seqEntries s.markDestroyed
  := by
  apply eq_derive_of_inverse
  intro id seq
  rw [h.destroyed.ids]
  constructor
  · rintro ⟨op, hop⟩
    exact ⟨seq, (id, op), hop, mem_singleton.mpr rfl⟩
  · rintro ⟨n, ⟨i, op⟩, hop, hmem⟩
    obtain ⟨rfl, rfl⟩ := Prod.mk.inj (mem_singleton.mp hmem)
    exact ⟨op, hop⟩

/-- The queue of destroyed objects is read back, and with it the index of ids. -/
theorem reads_destroyeds (h : Inv N P s) (hqueue : t.markDestroyed = ∅)
    (hids : t.destroyedById = ∅) :
  Reads (getSection getDestroyed t) (putSection putDestroyed s.markDestroyed) { t with
    markDestroyed := s.markDestroyed
    destroyedById := s.destroyedById }
  := by
  have hfold := foldl_part (fun t : MetadataState => (t.markDestroyed, t.destroyedById))
    (fun v t => { t with markDestroyed := v.1, destroyedById := v.2 })
    (fun _ _ => rfl) (fun _ _ _ => rfl) (fun _ => rfl)
    (fun p e => (p.1.insert e.1 e.2,
      (seqEntries e.1 e.2).foldl (fun m e => m.insert e.1 e.2) p.2)) s.markDestroyed.toList t
  rw [hqueue, hids, foldl_indexed, ← destroyedById_eq h] at hfold
  apply hfold ▸ reads_section _ _ t
  · exact size_lt_of_ids_lt h.destroyed.fresh
  · intro t e _
    apply (Reads.getU64 _ _).bind
    apply (Reads.getU64 _ _).bind
    apply (reads_operation _).bind_pure

/-- A snapshot is read to its end, and the index of placed streams is built again. -/
theorem reads_state (h : Inv N P s) (hfits : Fits s) :
  Reads getState (encode s) { s with placedByNode := derive placedEntries s.streams }
  := by
  apply (Reads.getU8 _ _).bind
  apply (Reads.pure ()).nil_bind
  apply (Reads.getU64 _ _).bind
  apply (reads_streams h rfl rfl rfl).bind
  apply (reads_nodes h hfits rfl).bind
  apply (Reads.getU64 _ _).bind
  apply (reads_prepareds h rfl rfl).bind
  apply (reads_streamSetObjects h hfits rfl rfl rfl).bind
  apply (reads_streamObjects h hfits rfl rfl).bind
  apply (reads_destroyeds h rfl rfl).bind
  apply (Reads.getU64 _ _).bind
  apply (reads_pairs hfits rfl).bind
  exact reads_transfers h rfl

/-- A state that satisfies the invariant is read back from its snapshot. -/
theorem decode_encode (h : Inv True P s) (hfits : Fits s) :
  decode (encode s) = .ok s
  := by
  apply Reads.runAll
  have hreads := reads_state h hfits
  rw [← h.streams.placed trivial] at hreads
  exact hreads

/-- Bounded lengths in the commands bound the lengths in the state. -/
theorem Fits.of_inv (h : Inv N (· < 2 ^ 32) s) (hpairs : s.kv.size < 2 ^ 64)
    (hobjects : s.streamObjects.size < 2 ^ 64) :
  Fits s
  where
  addresses id node hnode := (h.streams.nodes id node hnode).2.2
  ranges id row hrow := (h.setObjects.rows id row hrow).2.2
  pairs := h.kv
  pairCount := hpairs
  streamObjectCount := hobjects

/-- Every state that commands lead to is read back from its snapshot, indexes included.
Starting from the snapshot of a prefix of a log and applying the rest is applying the log. -/
theorem decode_encode_of_applyAll {commands : List MetadataCommand}
    (hid : ∀ command ∈ commands, command.NodeIdNonneg)
    (hrun : applyAll .new commands = some s) (hfits : Fits s) :
  decode (encode s) = .ok s ∧ ∀ rest,
    (decode (encode s)).toOption.bind (fun t => applyAll t rest) = applyAll .new (commands ++ rest)
  := by
  have hdecode := decode_encode (inv_of_applyAll (fun _ => hid) hrun) hfits
  refine ⟨hdecode, ?_⟩
  intro rest
  rw [hdecode, applyAll_append, hrun]
  rfl

/-- A snapshot can hold the state of the run. -/
theorem fits_transferringRun :
  ∃ s, applyAll .new transferringRun = some s ∧ 0 ∈ s.pendingTransfers ∧ Fits s
  := by
  have hid : ∀ command ∈ transferringRun, command.NodeIdNonneg := by
    simp [transferringRun, MetadataCommand.NodeIdNonneg]
  have hlengths : ∀ command ∈ transferringRun, command.Lengths (· < 2 ^ 32) := by
    simp [transferringRun, MetadataCommand.Lengths]
  obtain ⟨s, hs, hpairs, hobjects, hpending⟩ : ∃ s, applyAll .new transferringRun = some s ∧
      s.kv.size < 2 ^ 64 ∧ s.streamObjects.size < 2 ^ 64 ∧ 0 ∈ s.pendingTransfers := by
    decide +kernel
  have hinv := applyAll_inv (inv_new True _) (fun _ => hid) hlengths hs
  exact ⟨s, hs, hpending, Fits.of_inv hinv hpairs hobjects⟩

theorem decode_encode_transferringRun :
  ∃ s, applyAll .new transferringRun = some s ∧ 0 ∈ s.pendingTransfers ∧
    decode (encode s) = .ok s ∧
    (decode (encode s)).toOption.bind
        (fun t => applyAll t [.closeStream 1 10 0 0, .completeTransfer 0 0])
      = applyAll .new (transferringRun ++ [.closeStream 1 10 0 0, .completeTransfer 0 0])
  := by
  have hid : ∀ command ∈ transferringRun, command.NodeIdNonneg := by
    simp [transferringRun, MetadataCommand.NodeIdNonneg]
  obtain ⟨s, hs, hpending, hfits⟩ := fits_transferringRun
  obtain ⟨hdecode, hrest⟩ := decode_encode_of_applyAll hid hs hfits
  exact ⟨s, hs, hpending, hdecode, hrest _⟩

end Sections

/-! ### Damaged snapshots -/

instance : Stable getU8 := Stable.getU8 _

instance : Stable getU32 := Stable.getU32 _

instance : Stable getI32 := Stable.getI32 _

instance : Stable getU64 := Stable.getU64 _

instance : Stable getI64 := Stable.getI64 _

instance : Stable getStr := by
  have hdecoded (bytes : List UInt8) : Stable (match ofUtf8 bytes with
      | some s => return s
      | none => fail (.corrupt "invalid utf-8: ") : Reader String) := by
    cases ofUtf8 bytes with
    | some s => apply Stable.pure
    | none => apply Stable.fail
  unfold getStr
  infer_instance

instance : Stable getObject := by
  unfold getObject getObjectType getRange
  infer_instance

instance (s : MetadataState) (object : S3ObjectMetadata) : Stable (addStreamObject s object) := by
  unfold addStreamObject
  split
  · apply Stable.pure
  · apply Stable.fail

instance (row : MetadataState → Reader MetadataState) [∀ s, Stable (row s)] (s : MetadataState) :
    Stable (getSection row s) := by
  unfold getSection
  infer_instance

instance (s : MetadataState) : Stable (getStream s) := by
  unfold getStream getStreamState
  infer_instance

instance (s : MetadataState) : Stable (getNode s) := by
  unfold getNode
  infer_instance

instance (s : MetadataState) : Stable (getPrepared s) := by
  unfold getPrepared
  infer_instance

instance (s : MetadataState) : Stable (getStreamSetObject s) := by
  unfold getStreamSetObject
  infer_instance

instance (s : MetadataState) : Stable (getStreamObject s) := by
  unfold getStreamObject
  infer_instance

instance (s : MetadataState) : Stable (getDestroyed s) := by
  unfold getDestroyed getOperation
  infer_instance

instance (s : MetadataState) : Stable (getPair s) := by
  unfold getPair
  infer_instance

instance (s : MetadataState) : Stable (getTransfer s) := by
  unfold getTransfer
  infer_instance

instance : Stable getState := by
  unfold getState checkVersion
  -- a section a step, which keeps the search for instances short
  repeat refine @Stable.bind _ _ _ _ _ inferInstance fun _ => ?_
  infer_instance

/-- Every snapshot of a state that commands lead to is rejected when bytes are missing at its end
or follow it. -/
theorem decode_damaged {commands : List MetadataCommand} {s : MetadataState}
    (hrun : applyAll .new commands = some s) (hfits : Fits s) :
  (∀ bytes more, more ≠ [] → encode s = bytes ++ more → ∃ e, decode bytes = .error e) ∧
    ∀ more, more ≠ [] → ∃ e, decode (encode s ++ more) = .error e
  := by
  have hreads := reads_state (inv_of_applyAll (N := False) nofun hrun) hfits
  constructor
  · intro bytes more hmore heq
    rw [heq] at hreads
    exact hreads.runAll_of_append hmore _
  · intro more hmore
    exact ⟨_, hreads.runAll_append _ hmore⟩

theorem decode_damaged_transferringRun :
  ∃ s, applyAll .new transferringRun = some s ∧
    (∃ e, decode (encode s).dropLast = .error e) ∧ ∃ e, decode (encode s ++ [0]) = .error e
  := by
  obtain ⟨s, hs, -, hfits⟩ := fits_transferringRun
  obtain ⟨hcut, hlonger⟩ := decode_damaged hs hfits
  have hne : encode s ≠ [] := cons_ne_nil _ _
  refine ⟨s, hs, hcut _ [(encode s).getLast hne] ?_ ?_, hlonger [0] ?_⟩
  · apply cons_ne_nil
  · exact (dropLast_append_getLast hne).symm
  · apply cons_ne_nil

end Snapshot

end Metadata
