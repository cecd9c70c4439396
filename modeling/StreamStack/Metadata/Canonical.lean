import StreamStack.Metadata.Codec

/-!
# Accepted bytes are the bytes of what they decode to

Commands, batches and results whose counts fit 32 bits are read back from their bytes, and bytes
that are accepted are the encoding of the value they are read as. There is one encoding of a value
then, and no encoding is a part of another: whatever is cut off or added is rejected.
-/

namespace Metadata

namespace Codec

open Wire

/-! ### The parts of commands -/

variable {α : Type}

/-- A list was written with its length in front. -/
theorem exact_list {item : Reader α} {put : α → List UInt8} {P : α → Prop}
    (h : Exact item fun x bs => bs = put x ∧ P x) :
  Exact (getList item) fun l bs => bs = putList put l ∧ l.length < 2 ^ 32 ∧ ∀ x ∈ l, P x
  := by
  apply (Exact.getU32 _).bind
  rintro count _ rfl
  apply (Exact.getMany h count.toNat).weaken
  rintro l _ ⟨rfl, hlen, hl⟩
  have hcount : UInt32.ofNat l.length = count := by rw [hlen, UInt32.ofNat_toNat]
  refine ⟨?_, ?_, hl⟩
  · rw [putList, hcount]
  · rw [hlen]
    exact count.toNat_lt

/-- Items that every encoding of is allowed for. -/
theorem exact_all {item : Reader α} {put : α → List UInt8} (h : Exact item fun x bs => bs = put x) :
  Exact (getList item) fun l bs => bs = putList put l ∧ l.length < 2 ^ 32
  := by
  have hitem : Exact item fun x bs => bs = put x ∧ True := h.weaken fun _ _ hbs => ⟨hbs, trivial⟩
  apply (exact_list hitem).weaken
  rintro l bs ⟨hbs, hlen, -⟩
  exact ⟨hbs, hlen⟩

theorem exact_bytes (short : CodecError) :
  Exact (do let len ← getU32; Wire.take len.toNat short)
    fun bytes bs => bs = putBlob bytes ∧ bytes.length < 2 ^ 32
  := by
  apply (Exact.getU32 _).bind
  rintro len _ rfl
  apply (Exact.take len.toNat short).weaken
  rintro _ bytes ⟨rfl, hlen⟩
  have hcount : UInt32.ofNat bytes.length = len := by rw [hlen, UInt32.ofNat_toNat]
  constructor
  · rw [putBlob, hcount]
  · rw [hlen]
    exact len.toNat_lt

/-- A string was written with its length in front, and is valid. -/
theorem exact_str :
  Exact getStr fun s bs => bs = putStr s ∧ s.utf8ByteSize < 2 ^ 32
  := by
  apply (Exact.getU32 _).bind
  rintro len _ rfl
  apply (Exact.take len.toNat _).bind
  rintro _ bytes ⟨rfl, hlen⟩
  split
  next s hs =>
    apply Exact.pure
    have hbytes := utf8_of_ofUtf8 hs
    have hcount : UInt32.ofNat bytes.length = len := by rw [hlen, UInt32.ofNat_toNat]
    rw [putStr, hbytes, putBlob, hcount, List.append_nil, ← length_utf8, hbytes, hlen]
    exact ⟨rfl, len.toNat_lt⟩
  next => apply Exact.fail

/-- The reader for one code, or one of those for other codes. -/
theorem exact_code {W : α → List UInt8 → Prop} {code c : UInt8} {p q : Reader α}
    (hp : code = c → Exact p W) (hq : Exact q W) :
  Exact (if code = c then p else q) W
  := by
  split
  next h => exact hp h
  next => exact hq

theorem exact_operation :
  Exact getOperation fun op bs => bs = putU8 (operationCode op)
  := by
  apply (Exact.getU8 _).bind
  rintro code _ rfl
  apply exact_code (fun h => Exact.pure (h ▸ rfl))
  apply exact_code (fun h => Exact.pure (h ▸ rfl))
  apply exact_code (fun h => Exact.pure (h ▸ rfl))
  apply Exact.fail

theorem exact_state :
  Exact getState fun state bs => bs = putU8 (stateCode state)
  := by
  apply (Exact.getU8 _).bind
  rintro code _ rfl
  apply exact_code (fun h => Exact.pure (h ▸ rfl))
  apply exact_code (fun h => Exact.pure (h ▸ rfl))
  apply Exact.fail

theorem exact_objectRange :
  Exact getObjectRange fun r bs => bs = putObjectRange r
  := by
  apply (Exact.getU64 _).bind
  rintro streamId _ rfl
  apply (Exact.getU64 _).bind
  rintro epoch _ rfl
  apply (Exact.getU64 _).bind
  rintro startOffset _ rfl
  apply (Exact.getU64 _).bind
  rintro endOffset _ rfl
  apply (Exact.getU64 _).last
  rintro size _ rfl
  rfl

theorem exact_streamObject :
  Exact getStreamObject fun o bs => bs = putStreamObject o
  := by
  apply (Exact.getU64 _).bind
  rintro objectId _ rfl
  apply (Exact.getU64 _).bind
  rintro objectSize _ rfl
  apply (Exact.getU64 _).bind
  rintro streamId _ rfl
  apply (Exact.getU64 _).bind
  rintro startOffset _ rfl
  apply (Exact.getU64 _).bind
  rintro endOffset _ rfl
  apply (Exact.getU32 _).last
  rintro attributes _ rfl
  rfl

theorem exact_ids :
  Exact (getList getU64) fun ids bs => bs = putList putU64 ids ∧ ids.length < 2 ^ 32
  := exact_all (Exact.getU64 _)

theorem exact_commitRequest :
  Exact getCommitRequest fun request bs => bs = putCommitRequest request ∧
    request.streamRanges.length < 2 ^ 32 ∧ request.streamObjects.length < 2 ^ 32 ∧
    request.compactedObjectIds.length < 2 ^ 32
  := by
  apply (Exact.getU64 _).bind
  rintro objectId _ rfl
  apply (Exact.getU64 _).bind
  rintro objectSize _ rfl
  apply (Exact.getU32 _).bind
  rintro attributes _ rfl
  apply (exact_all exact_objectRange).bind
  rintro streamRanges _ ⟨rfl, hranges⟩
  apply (exact_all exact_streamObject).bind
  rintro streamObjects _ ⟨rfl, hobjects⟩
  apply exact_ids.last
  rintro compactedObjectIds _ ⟨rfl, hids⟩
  exact ⟨rfl, hranges, hobjects, hids⟩

theorem exact_compactRequest :
  Exact getCompactRequest fun request bs => bs = putCompactRequest request ∧
    request.sourceObjectIds.length < 2 ^ 32 ∧ request.operations.length < 2 ^ 32
  := by
  apply (Exact.getU64 _).bind
  rintro objectId _ rfl
  apply (Exact.getU64 _).bind
  rintro objectSize _ rfl
  apply (Exact.getU64 _).bind
  rintro streamId _ rfl
  apply (Exact.getU64 _).bind
  rintro streamEpoch _ rfl
  apply (Exact.getU64 _).bind
  rintro startOffset _ rfl
  apply (Exact.getU64 _).bind
  rintro endOffset _ rfl
  apply (Exact.getU32 _).bind
  rintro attributes _ rfl
  apply exact_ids.bind
  rintro sourceObjectIds _ ⟨rfl, hids⟩
  apply (exact_all exact_operation).last
  rintro operations _ ⟨rfl, hops⟩
  exact ⟨rfl, hids, hops⟩

/-! ### Commands -/

/-- The bytes are the fields of the command, which has the code. -/
def FieldsOf (code : UInt8) (command : MetadataCommand) (bs : List UInt8) : Prop :=
  typeCode command = code ∧ bs = putFields command ∧ Writable command

section

variable {W : MetadataCommand → List UInt8 → Prop}

/-- Most commands begin with a node and its epoch. -/
theorem exact_nodeFields {rest : Int32 → Int64 → Reader MetadataCommand}
    (h : ∀ nodeId nodeEpoch, Exact (rest nodeId nodeEpoch) fun command bs =>
      W command (putI32 nodeId ++ (putI64 nodeEpoch ++ bs))) :
  Exact (do
    let nodeId ← getI32
    let nodeEpoch ← getI64
    rest nodeId nodeEpoch) W
  := by
  apply (Exact.getI32 _).bind
  rintro nodeId _ rfl
  apply (Exact.getI64 _).bind
  rintro nodeEpoch _ rfl
  exact h nodeId nodeEpoch

/-- The fields shared by opening, closing and deleting a stream. -/
theorem exact_streamFields (make : Int32 → Int64 → UInt64 → Int64 → MetadataCommand)
    (h : ∀ nodeId nodeEpoch streamId epoch, W (make nodeId nodeEpoch streamId epoch)
      (putI32 nodeId ++ (putI64 nodeEpoch ++ (putU64 streamId ++ putI64 epoch)))) :
  Exact (do return make (← getI32) (← getI64) (← getU64) (← getI64)) W
  := by
  apply exact_nodeFields
  intro nodeId nodeEpoch
  apply (Exact.getU64 _).bind
  rintro streamId _ rfl
  apply (Exact.getI64 _).last
  rintro epoch _ rfl
  exact h nodeId nodeEpoch streamId epoch

/-- The fields shared by the two commands that carry a request. -/
theorem exact_requestFields {α : Type} {get : Reader α} {V : α → List UInt8 → Prop}
    (hget : Exact get V) (make : Int32 → Int64 → α → Int64 → MetadataCommand)
    (h : ∀ nodeId nodeEpoch nowMs request bs, V request bs →
      W (make nodeId nodeEpoch request nowMs)
        (putI32 nodeId ++ (putI64 nodeEpoch ++ (putI64 nowMs ++ bs)))) :
  Exact (do
    let nodeId ← getI32
    let nodeEpoch ← getI64
    let nowMs ← getI64
    let request ← get
    return make nodeId nodeEpoch request nowMs) W
  := by
  apply exact_nodeFields
  intro nodeId nodeEpoch
  apply (Exact.getI64 _).bind
  rintro nowMs _ rfl
  apply hget.last
  intro request bs hrequest
  exact h nodeId nodeEpoch nowMs request bs hrequest

/-- The fields shared by the two ways to store a key. -/
theorem exact_kvFields (make : String → List UInt8 → MetadataCommand)
    (h : ∀ key value, key.utf8ByteSize < 2 ^ 32 → value.length < 2 ^ 32 →
      W (make key value) (putStr key ++ putBlob value)) :
  Exact (do return make (← getStr) (← getBlob)) W
  := by
  apply exact_str.bind
  rintro key _ ⟨rfl, hkey⟩
  apply (exact_bytes _).last
  rintro value _ ⟨rfl, hvalue⟩
  exact h key value hkey hvalue

end

theorem exact_trimFields :
  Exact (do return .trimStream (← getI32) (← getI64) (← getU64) (← getI64) (← getU64)) (FieldsOf 3)
  := by
  apply exact_nodeFields
  intro nodeId nodeEpoch
  apply (Exact.getU64 _).bind
  rintro streamId _ rfl
  apply (Exact.getI64 _).bind
  rintro epoch _ rfl
  apply (Exact.getU64 _).last
  rintro newStartOffset _ rfl
  exact ⟨rfl, rfl, trivial⟩

theorem exact_prepareFields :
  Exact (do return .prepareObject (← getI32) (← getI64) (← getU32) (← getI64) (← getI64))
    (FieldsOf 6)
  := by
  apply exact_nodeFields
  intro nodeId nodeEpoch
  apply (Exact.getU32 _).bind
  rintro count _ rfl
  apply (Exact.getI64 _).bind
  rintro ttlMs _ rfl
  apply (Exact.getI64 _).last
  rintro nowMs _ rfl
  exact ⟨rfl, rfl, trivial⟩

theorem exact_registerFields :
  Exact (do return .registerNode (← getI32) (← getI64) (← getStr) (← getU32)) (FieldsOf 10)
  := by
  apply exact_nodeFields
  intro nodeId nodeEpoch
  apply exact_str.bind
  rintro httpAddress _ ⟨rfl, hwritable⟩
  apply (Exact.getU32 _).last
  rintro slots _ rfl
  exact ⟨rfl, rfl, hwritable⟩

theorem exact_transferFields :
  Exact (do return .transferStream (← getU64) (← getI32) (← getI32)) (FieldsOf 15)
  := by
  apply (Exact.getU64 _).bind
  rintro streamId _ rfl
  apply (Exact.getI32 _).bind
  rintro fromNode _ rfl
  apply (Exact.getI32 _).last
  rintro toNode _ rfl
  exact ⟨rfl, rfl, trivial⟩

theorem exact_createAllFields :
  Exact (do return .createStreams (← getI32) (← getI64) (← getU32)) (FieldsOf 17)
  := by
  apply exact_nodeFields
  intro nodeId nodeEpoch
  apply (Exact.getU32 _).last
  rintro count _ rfl
  exact ⟨rfl, rfl, trivial⟩

/-- The fields of a command determine it together with its code. -/
theorem exact_fields (code : UInt8) :
  Exact (getFields code) (FieldsOf code)
  := by
  apply exact_code
  · rintro rfl
    apply (Exact.getI32 _).bind
    rintro nodeId _ rfl
    apply (Exact.getI64 _).last
    rintro nodeEpoch _ rfl
    exact ⟨rfl, rfl, trivial⟩
  apply exact_code
  · rintro rfl
    exact exact_streamFields .openStream fun _ _ _ _ => ⟨rfl, rfl, trivial⟩
  apply exact_code
  · rintro rfl
    exact exact_trimFields
  apply exact_code
  · rintro rfl
    exact exact_streamFields .closeStream fun _ _ _ _ => ⟨rfl, rfl, trivial⟩
  apply exact_code
  · rintro rfl
    exact exact_streamFields .deleteStream fun _ _ _ _ => ⟨rfl, rfl, trivial⟩
  apply exact_code
  · rintro rfl
    exact exact_prepareFields
  apply exact_code
  · rintro rfl
    apply exact_requestFields exact_commitRequest
    rintro _ _ _ request _ ⟨rfl, hwritable⟩
    exact ⟨rfl, rfl, hwritable⟩
  apply exact_code
  · rintro rfl
    apply exact_requestFields exact_compactRequest
    rintro _ _ _ request _ ⟨rfl, hwritable⟩
    exact ⟨rfl, rfl, hwritable⟩
  apply exact_code
  · rintro rfl
    apply (Exact.getI64 _).last
    rintro nowMs _ rfl
    exact ⟨rfl, rfl, trivial⟩
  apply exact_code
  · rintro rfl
    exact exact_registerFields
  apply exact_code
  · rintro rfl
    apply exact_ids.last
    rintro objectIds _ ⟨rfl, hwritable⟩
    exact ⟨rfl, rfl, hwritable⟩
  apply exact_code
  · rintro rfl
    exact exact_kvFields .putKv fun _ _ hkey hvalue => ⟨rfl, rfl, hkey, hvalue⟩
  apply exact_code
  · rintro rfl
    exact exact_kvFields .putKvIfAbsent fun _ _ hkey hvalue => ⟨rfl, rfl, hkey, hvalue⟩
  apply exact_code
  · rintro rfl
    apply exact_str.last
    rintro key _ ⟨rfl, hwritable⟩
    exact ⟨rfl, rfl, hwritable⟩
  apply exact_code
  · rintro rfl
    exact exact_transferFields
  apply exact_code
  · rintro rfl
    apply (Exact.getU64 _).bind
    rintro streamId _ rfl
    apply (Exact.getI64 _).last
    rintro epoch _ rfl
    exact ⟨rfl, rfl, trivial⟩
  apply exact_code
  · rintro rfl
    exact exact_createAllFields
  apply exact_code
  · rintro rfl
    apply (Exact.getU64 _).last
    rintro streamId _ rfl
    exact ⟨rfl, rfl, trivial⟩
  apply Exact.fail

/-- A command that is read was written so. -/
theorem exact_commandBody :
  Exact getCommandBody fun command bs => bs = putCommandBody command ∧ Writable command
  := by
  apply (Exact.getU8 _).bind
  rintro code _ rfl
  apply (exact_fields code).weaken
  rintro command _ ⟨rfl, rfl, hwritable⟩
  exact ⟨rfl, hwritable⟩

theorem exact_version (version : UInt8) :
  Exact (checkVersion version) fun _ bs => version = codecVersion ∧ bs = []
  := by
  unfold checkVersion
  split
  next h => exact Exact.pure ⟨h, rfl⟩
  next => apply Exact.fail

/-- What follows the version byte. -/
theorem exact_versioned {p : Reader α} {W : α → List UInt8 → Prop}
    (h : Exact p fun x bs => W x (putU8 codecVersion ++ bs)) :
  Exact (do let version ← getU8; checkVersion version; p) W
  := by
  apply (Exact.getU8 _).bind
  rintro version _ rfl
  apply (exact_version version).bind
  rintro ⟨⟩ _ ⟨rfl, rfl⟩
  exact h

theorem reads_versioned {p : Reader α} {bs : List UInt8} {x : α} (h : Reads p bs x) :
  Reads (do let version ← getU8; checkVersion version; p) (putU8 codecVersion ++ bs) x
  := by
  apply (Reads.getU8 _ _).bind
  apply (Reads.pure ()).nil_bind
  exact h

/-- A command that is written is read. -/
theorem reads_commandBody {command : MetadataCommand} (h : Writable command) :
  Reads getCommandBody (putCommandBody command) command
  := by
  apply (Reads.getU8 _ _).bind
  apply reads_fields h

/-! ### Results -/

/-- The count of a result fits 32 bits. -/
def WritableResult : MetadataResult → Prop
  | .value (some value) => value.length < 2 ^ 32
  | _ => True

theorem exact_streamMetadata :
  Exact getStreamMetadata fun metadata bs => bs = putStreamMetadata metadata
  := by
  apply (Exact.getU64 _).bind
  rintro streamId _ rfl
  apply (Exact.getU64 _).bind
  rintro epoch _ rfl
  apply (Exact.getU64 _).bind
  rintro startOffset _ rfl
  apply (Exact.getU64 _).bind
  rintro endOffset _ rfl
  apply exact_state.bind
  rintro state _ rfl
  apply (Exact.getI32 _).last
  rintro nodeId _ rfl
  rfl

/-- A result that is read was written so, after its tag. -/
theorem exact_resultFields (tag : UInt8) :
  Exact (getResultFields tag) fun result bs =>
    putU8 tag ++ bs = putResult result ∧ WritableResult result
  := by
  apply exact_code
  · rintro rfl
    exact Exact.pure ⟨List.append_nil _, trivial⟩
  apply exact_code
  · rintro rfl
    apply (Exact.getU64 _).last
    rintro id _ rfl
    exact ⟨rfl, trivial⟩
  apply exact_code
  · rintro rfl
    apply (Exact.getU64 _).last
    rintro n _ rfl
    exact ⟨rfl, trivial⟩
  apply exact_code
  · rintro rfl
    apply exact_streamMetadata.last
    rintro metadata _ rfl
    exact ⟨rfl, trivial⟩
  apply exact_code
  · rintro rfl
    apply (exact_bytes _).last
    rintro value _ ⟨rfl, hwritable⟩
    exact ⟨rfl, hwritable⟩
  apply exact_code
  · rintro rfl
    exact Exact.pure ⟨List.append_nil _, trivial⟩
  apply Exact.fail

theorem reads_streamMetadata (metadata : StreamMetadata) :
  Reads getStreamMetadata (putStreamMetadata metadata) metadata
  := by
  have hstate : Reads getState (putU8 (stateCode metadata.state)) metadata.state := by
    apply (Reads.getU8 _ _).bind_nil
    cases metadata.state with
    | closed => apply Reads.pure
    | opened => apply Reads.pure
  apply (Reads.getU64 _ _).bind
  apply (Reads.getU64 _ _).bind
  apply (Reads.getU64 _ _).bind
  apply (Reads.getU64 _ _).bind
  apply hstate.bind
  apply (Reads.getI32 _ _).bind_pure

/-- The tag of a result and what follows it. -/
theorem reads_result {result : MetadataResult} (h : WritableResult result) :
  Reads (do let tag ← getU8; getResultFields tag) (putResult result) result
  := by
  cases result with
  | unit =>
    apply (Reads.getU8 _ _).bind_nil
    apply Reads.pure
  | id id =>
    apply (Reads.getU8 _ _).bind
    apply (Reads.getU64 _ _).bind_pure
  | count n =>
    apply (Reads.getU8 _ _).bind
    apply (Reads.getU64 _ _).bind_pure
  | stream metadata =>
    apply (Reads.getU8 _ _).bind
    apply (reads_streamMetadata metadata).bind_pure
  | value value =>
    cases value with
    | none =>
      apply (Reads.getU8 _ _).bind_nil
      apply Reads.pure
    | some value =>
      apply (Reads.getU8 _ _).bind
      apply Reads.bind_pure (f := fun v => MetadataResult.value (some v))
      apply (Reads.getU32 _ _).bind
      rw [UInt32.toNat_ofNat_of_lt' h]
      apply Reads.take

/-! ### Codecs -/

/-- The counts of the commands and their number fit 32 bits. -/
def WritableBatch (commands : List MetadataCommand) : Prop :=
  commands.length < 2 ^ 32 ∧ ∀ command ∈ commands, Writable command

/-- Commands, batches and results have one encoding each. -/
theorem command_canonical :
  Canonical encodeCommand decodeCommand Writable
  := by
  apply canonical_of_reader (p := getCommand)
  · intro bytes
    rfl
  · intro command h
    exact reads_versioned (reads_commandBody h)
  · apply exact_versioned
    apply exact_commandBody.weaken
    rintro command _ ⟨rfl, hwritable⟩
    exact ⟨rfl, hwritable⟩

theorem batch_canonical :
  Canonical encodeBatch decodeBatch WritableBatch
  := by
  apply canonical_of_reader (p := getBatch)
  · intro bytes
    rfl
  · rintro commands ⟨hlen, h⟩
    apply reads_versioned
    apply reads_list hlen
    exact fun command hmem => reads_commandBody (h command hmem)
  · apply exact_versioned
    apply (exact_list exact_commandBody).weaken
    rintro commands _ ⟨rfl, hlen, h⟩
    exact ⟨rfl, hlen, h⟩

theorem result_canonical :
  Canonical encodeResult decodeResult WritableResult
  := by
  apply canonical_of_reader (p := getResult)
  · intro bytes
    rfl
  · intro result h
    exact reads_versioned (reads_result h)
  · apply exact_versioned
    apply (Exact.getU8 _).bind
    rintro tag _ rfl
    apply (exact_resultFields tag).weaken
    rintro result bs ⟨hbs, hwritable⟩
    rw [hbs]
    exact ⟨rfl, hwritable⟩

/-- The codecs of single commands, of log entries and of results are canonical. -/
theorem codecs_canonical :
  Canonical encodeCommand decodeCommand Writable ∧
    Canonical encodeBatch decodeBatch WritableBatch ∧
    Canonical encodeResult decodeResult WritableResult
  := ⟨command_canonical, batch_canonical, result_canonical⟩

end Codec

end Metadata
