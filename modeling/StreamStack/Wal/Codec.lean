import StreamStack.Lib.Wire

/-!
# The bytes of a log object

A log object is a header followed by the framed records of one bulk. The frame of a record is a
header with the length, the offset and a checksum of the body, and a checksum of its own; the body
is the encoded record batch. What is written is read back: the readers return the header, the frame
header and the batch whose bytes they are given.

The checksum is a parameter. Nothing depends on it but that the same bytes have the same checksum.
-/

namespace Wal

open Wire List

/-! ### Errors -/

inductive CodecError where
  | bufferTooShort (need found : Nat)
  | invalidMagic (expected actual : Nat)
  | crcMismatch (expected computed : UInt32)
deriving DecidableEq, Repr

inductive WalError where
  | recovery (message : String)
  | codec (e : CodecError)
deriving DecidableEq, Repr

/-- A number as it is printed in base 16. -/
def hex (n : Nat) : String := "0x" ++ String.ofList (Nat.toDigits 16 n)

/-! ### Record batches -/

/-- A record batch. -/
structure StreamRecordBatch where
  streamId : UInt64
  epoch : UInt64
  baseOffset : UInt64
  count : Int32
  payload : List UInt8
deriving DecidableEq, Repr

namespace StreamRecordBatch

def magicV0 : UInt8 := 0x22

def headerSize : Nat := 33

def encoded (r : StreamRecordBatch) : List UInt8 :=
  [magicV0] ++ putBeU64 r.streamId ++ putBeU64 r.epoch ++ putBeU64 r.baseOffset ++
    putBeI32 r.count ++ putBeU32 (UInt32.ofNat r.payload.length) ++ r.payload

theorem length_encoded (r : StreamRecordBatch) :
  r.encoded.length = headerSize + r.payload.length
  := by
  simp [encoded, headerSize]
  omega

/-- The header fields that follow the magic. -/
def header (short : CodecError) : Get CodecError (UInt64 × UInt64 × UInt64 × Int32 × Int32) := do
  let streamId ← getBeU64 short
  let epoch ← getBeU64 short
  let baseOffset ← getBeU64 short
  let count ← getBeI32 short
  let payloadLen ← getBeI32 short
  return (streamId, epoch, baseOffset, count, payloadLen)

/-- An encoded batch at the front of a buffer, and what follows it. -/
def parse (buf : List UInt8) : Except CodecError (StreamRecordBatch × List UInt8) :=
  let short : CodecError := .bufferTooShort headerSize buf.length
  match buf with
  | [] => .error short
  | magic :: rest =>
    if buf.length < headerSize then .error short
    else if magic ≠ magicV0 then .error (.invalidMagic magicV0.toNat magic.toNat)
    else do
      let ((streamId, epoch, baseOffset, count, payloadLen), rest) ← header short rest
      if payloadLen < 0 then .error short
      else
        let size := payloadLen.toInt.toNat
        if rest.length < size then .error (.bufferTooShort (headerSize + size) buf.length)
        else .ok (⟨streamId, epoch, baseOffset, count, rest.take size⟩, rest.drop size)

/-- The length of the payload fits its field. -/
def Fits (r : StreamRecordBatch) : Prop := r.payload.length < 2 ^ 31

theorem reads_header (r : StreamRecordBatch) (short : CodecError) :
  Reads (header short)
    (putBeU64 r.streamId ++ (putBeU64 r.epoch ++ (putBeU64 r.baseOffset ++
      (putBeI32 r.count ++ putBeU32 (UInt32.ofNat r.payload.length)))))
    (r.streamId, r.epoch, r.baseOffset, r.count, (UInt32.ofNat r.payload.length).toInt32)
  := by
  apply (Reads.getBeU64 r.streamId short).bind
  apply (Reads.getBeU64 r.epoch short).bind
  apply (Reads.getBeU64 r.baseOffset short).bind
  apply (Reads.getBeI32 r.count short).bind
  apply Reads.bind_pure
  exact Reads.getBeI32 (UInt32.ofNat r.payload.length).toInt32 short

theorem toInt_payloadLen {n : Nat} (h : n < 2 ^ 31) :
  (UInt32.ofNat n).toInt32.toInt = n
  := by
  have hlt : n < 2 ^ 32 := by omega
  rw [Int32.toInt, UInt32.toBitVec_toInt32]
  rw [BitVec.toInt_eq_toNat_of_lt]
  · simp
    omega
  · simp
    omega

/-- A batch is read back from its encoding. -/
theorem parse_encoded {r : StreamRecordBatch} (h : r.Fits) (rest : List UInt8) :
  parse (r.encoded ++ rest) = .ok (r, rest)
  := by
  have hbuf : r.encoded ++ rest = magicV0 ::
      ((putBeU64 r.streamId ++ (putBeU64 r.epoch ++ (putBeU64 r.baseOffset ++ (putBeI32 r.count ++
        putBeU32 (UInt32.ofNat r.payload.length))))) ++ (r.payload ++ rest)) := by
    simp [encoded]
  have hlong : ¬ (r.encoded ++ rest).length < headerSize := by
    rw [length_append, length_encoded]
    omega
  have hsize : (UInt32.ofNat r.payload.length).toInt32.toInt = r.payload.length :=
    toInt_payloadLen h
  have hnonneg : ¬ (UInt32.ofNat r.payload.length).toInt32 < 0 := by
    rw [Int32.lt_iff_toInt_lt, hsize]
    simp
  have hpayload : ¬ (r.payload ++ rest).length < r.payload.length := by
    rw [length_append]
    omega
  rw [hbuf] at hlong ⊢
  simp only [parse, if_neg hlong, ne_eq, not_true_eq_false, if_false, reads_header r _ _]
  simp only [bind, Except.bind, if_neg hnonneg, hsize, Int.toNat_natCast, if_neg hpayload,
    take_left, drop_left]

end StreamRecordBatch

/-! ### Frames -/

section

variable (crc32 : List UInt8 → UInt32)

/-- The checksum of the log: the sign bit is cleared. -/
def walCrc32 (data : List UInt8) : UInt32 := crc32 data &&& 0x7FFFFFFF

/-- The header in front of a record body. The offset is that of the body. -/
structure WalRecordHeader where
  magic : UInt32
  bodyLength : UInt32
  bodyOffset : UInt64
  bodyCrc : UInt32
deriving DecidableEq, Repr

def walRecordHeaderSize : Nat := 24

def recordDataMagic : UInt32 := 0x87654321

def recordEmptyMagic : UInt32 := 0x76543210

namespace WalRecordHeader

def data (offset : Nat) (bodyLength : Nat) (bodyCrc : UInt32) : WalRecordHeader where
  magic := recordDataMagic
  bodyLength := UInt32.ofNat bodyLength
  bodyOffset := UInt64.ofNat (offset + walRecordHeaderSize)
  bodyCrc

/-- The bytes that the checksum of the header covers. -/
def fields (h : WalRecordHeader) : List UInt8 :=
  putBeU32 h.magic ++ (putBeU32 h.bodyLength ++ (putBeU64 h.bodyOffset ++ putBeU32 h.bodyCrc))

def marshal (h : WalRecordHeader) : List UInt8 :=
  h.fields ++ putBeU32 (walCrc32 crc32 h.fields)

theorem length_fields (h : WalRecordHeader) :
  h.fields.length = 20
  := by
  simp [fields]

theorem length_marshal (h : WalRecordHeader) :
  (h.marshal crc32).length = walRecordHeaderSize
  := by
  simp [marshal, length_fields, walRecordHeaderSize]

def getFields (short : CodecError) : Get CodecError (WalRecordHeader × UInt32) := do
  let magic ← getBeU32 short
  let bodyLength ← getBeU32 short
  let bodyOffset ← getBeU64 short
  let bodyCrc ← getBeU32 short
  let headerCrc ← getBeU32 short
  return (⟨magic, bodyLength, bodyOffset, bodyCrc⟩, headerCrc)

def unmarshal (buf : List UInt8) : Except CodecError WalRecordHeader :=
  let short : CodecError := .bufferTooShort walRecordHeaderSize buf.length
  if buf.length < walRecordHeaderSize then .error short
  else do
    let ((h, storedCrc), _) ← getFields short buf
    let computedCrc := walCrc32 crc32 (buf.take 20)
    if storedCrc ≠ computedCrc then .error (.crcMismatch storedCrc computedCrc)
    else if h.magic ≠ recordDataMagic ∧ h.magic ≠ recordEmptyMagic then
      .error (.invalidMagic recordDataMagic.toNat h.magic.toNat)
    else .ok h

theorem reads_getFields (h : WalRecordHeader) (headerCrc : UInt32) (short : CodecError) :
  Reads (getFields short) (h.fields ++ putBeU32 headerCrc) (h, headerCrc)
  := by
  simp only [fields, append_assoc]
  apply (Reads.getBeU32 h.magic short).bind
  apply (Reads.getBeU32 h.bodyLength short).bind
  apply (Reads.getBeU64 h.bodyOffset short).bind
  apply (Reads.getBeU32 h.bodyCrc short).bind
  apply Reads.bind_pure
  apply Reads.getBeU32

/-- A header of a data record is read back from the front of its record. -/
theorem unmarshal_marshal {h : WalRecordHeader} (hmagic : h.magic = recordDataMagic)
    (rest : List UInt8) :
  unmarshal crc32 (h.marshal crc32 ++ rest) = .ok h
  := by
  have hlong : ¬ (h.marshal crc32 ++ rest).length < walRecordHeaderSize := by
    rw [length_append, length_marshal]
    omega
  have htake : (h.marshal crc32 ++ rest).take 20 = h.fields := by
    rw [marshal, append_assoc, ← length_fields h, take_left]
  simp only [unmarshal, if_neg hlong, htake]
  rw [marshal, reads_getFields]
  simp [bind, Except.bind, hmagic]

end WalRecordHeader

/-- A record at its offset in the log. -/
structure Frame where
  offset : Nat
  record : StreamRecordBatch
deriving DecidableEq, Repr

namespace Frame

/-- The size of the record in the log. -/
def size (f : Frame) : Nat := f.record.encoded.length + walRecordHeaderSize

def header (f : Frame) : WalRecordHeader :=
  .data f.offset f.record.encoded.length (walCrc32 crc32 f.record.encoded)

def bytes (f : Frame) : List UInt8 := (f.header crc32).marshal crc32 ++ f.record.encoded

theorem length_bytes (f : Frame) :
  (f.bytes crc32).length = f.size
  := by
  rw [bytes, length_append, WalRecordHeader.length_marshal, size]
  omega

variable {f : Frame} (h : f.record.encoded.length < 2 ^ 31)
include h

theorem toNat_bodyLength :
  (f.header crc32).bodyLength.toNat = f.record.encoded.length
  := by
  simp [header, WalRecordHeader.data]
  omega

theorem parse_body :
  StreamRecordBatch.parse f.record.encoded = .ok (f.record, [])
  := by
  have hfits : f.record.Fits := by
    rw [StreamRecordBatch.length_encoded] at h
    rw [StreamRecordBatch.Fits]
    omega
  have hparse := StreamRecordBatch.parse_encoded hfits []
  rwa [append_nil] at hparse

end Frame

end

/-! ### Object headers -/

def walHeaderMagicV0 : UInt32 := 0x12345678

def walHeaderSizeV0 : Nat := 40

def walHeaderMagicV1 : UInt32 := 0xEDCBA987

def walHeaderSizeV1 : Nat := 48

def maxWalHeaderSize : Nat := walHeaderSizeV1

/-- The trim offset of a log that was never trimmed. -/
def trimOffsetNone : Int := -1

structure WalObjectHeader where
  magic : UInt32
  startOffset : UInt64
  bodyLength : UInt64
  stickyRecordLength : UInt64
  nodeId : UInt32
  epoch : UInt64
  trimOffset : Int64
deriving DecidableEq, Repr

namespace WalObjectHeader

def v1 (startOffset bodyLength nodeId epoch : Nat) (trimOffset : Int) : WalObjectHeader where
  magic := walHeaderMagicV1
  startOffset := UInt64.ofNat startOffset
  bodyLength := UInt64.ofNat bodyLength
  stickyRecordLength := 0
  nodeId := UInt32.ofNat nodeId
  epoch := UInt64.ofNat epoch
  trimOffset := Int64.ofInt trimOffset

def size (h : WalObjectHeader) : Nat :=
  if h.magic = walHeaderMagicV1 then walHeaderSizeV1 else walHeaderSizeV0

/-- The fields of both versions. -/
def fields (h : WalObjectHeader) : List UInt8 :=
  putBeU32 h.magic ++ (putBeU64 h.startOffset ++ (putBeU64 h.bodyLength ++
    (putBeU64 h.stickyRecordLength ++ (putBeU32 h.nodeId ++ putBeU64 h.epoch))))

def marshal (h : WalObjectHeader) : List UInt8 :=
  h.fields ++ if h.magic = walHeaderMagicV1 then putBeI64 h.trimOffset else []

def getFields (short : WalError) : Get WalError WalObjectHeader := do
  let magic ← getBeU32 short
  let startOffset ← getBeU64 short
  let bodyLength ← getBeU64 short
  let stickyRecordLength ← getBeU64 short
  let nodeId ← getBeU32 short
  let epoch ← getBeU64 short
  let trimOffset ← if magic = walHeaderMagicV1 then getBeI64 short
    else pure (Int64.ofInt trimOffsetNone)
  return ⟨magic, startOffset, bodyLength, stickyRecordLength, nodeId, epoch, trimOffset⟩

def unmarshal (buf : List UInt8) : Except WalError WalObjectHeader := do
  let noMagic : WalError := .recovery
    ("Insufficient bytes to read magic code, Recovered: [" ++ toString buf.length ++
      "] expect: [4]")
  if buf.length < 4 then .error noMagic
  else
    let (magic, _) ← getBeU32 noMagic buf
    let size ← if magic = walHeaderMagicV0 then .ok walHeaderSizeV0
      else if magic = walHeaderMagicV1 then .ok walHeaderSizeV1
      else .error (.recovery
        ("WALHeader magic code not match, Recovered: [" ++ hex magic.toNat ++ "]"))
    let short : WalError := .recovery
      ("WALHeader does not have enough bytes, Recovered: [" ++ toString buf.length ++
        "] expect: [" ++ toString size ++ "]")
    if buf.length < size then .error short
    else (getFields short buf).map Prod.fst

variable {h : WalObjectHeader} (hmagic : h.magic = walHeaderMagicV1)

include hmagic

theorem reads_getFields (short : WalError) :
  Reads (getFields short) h.marshal h
  := by
  simp only [marshal, fields, append_assoc, if_pos hmagic]
  apply (Reads.getBeU32 h.magic short).bind
  apply (Reads.getBeU64 h.startOffset short).bind
  apply (Reads.getBeU64 h.bodyLength short).bind
  apply (Reads.getBeU64 h.stickyRecordLength short).bind
  apply (Reads.getBeU32 h.nodeId short).bind
  apply (Reads.getBeU64 h.epoch short).bind
  rw [if_pos hmagic]
  apply Reads.bind_pure
  apply Reads.getBeI64

theorem length_marshal :
  h.marshal.length = walHeaderSizeV1
  := by
  simp [marshal, fields, hmagic, walHeaderSizeV1]

/-- A header of the current version is read back from the front of an object. -/
theorem unmarshal_marshal (rest : List UInt8) :
  unmarshal (h.marshal ++ rest) = .ok h
  := by
  have hlen : (h.marshal ++ rest).length = walHeaderSizeV1 + rest.length := by
    rw [length_append, length_marshal hmagic]
  have hlong : ¬ (h.marshal ++ rest).length < 4 := by
    rw [hlen, walHeaderSizeV1]
    omega
  have hlong' : ¬ (h.marshal ++ rest).length < walHeaderSizeV1 := by
    omega
  have hmagicRead (short : WalError) : ∃ tail,
      getBeU32 short (h.marshal ++ rest) = .ok (walHeaderMagicV1, tail) := by
    simp only [marshal, fields, append_assoc, ← hmagic]
    exact ⟨_, Reads.getBeU32 h.magic short _⟩
  have hv0 : walHeaderMagicV1 ≠ walHeaderMagicV0 := by decide
  unfold unmarshal
  rw [if_neg hlong]
  obtain ⟨tail, htail⟩ := hmagicRead (.recovery
    ("Insufficient bytes to read magic code, Recovered: [" ++
      toString (h.marshal ++ rest).length ++ "] expect: [4]"))
  rw [htail]
  simp only [bind, Except.bind, if_neg hv0, if_true, if_neg hlong', reads_getFields hmagic _ rest]
  rfl

end WalObjectHeader

/-! ### Objects -/

/-- What a log object holds: its header and the records of one bulk. -/
structure ObjectData where
  header : WalObjectHeader
  frames : List Frame
deriving DecidableEq, Repr

def ObjectData.bytes (crc32 : List UInt8 → UInt32) (o : ObjectData) : List UInt8 :=
  o.header.marshal ++ o.frames.flatMap (Frame.bytes crc32)

end Wal
