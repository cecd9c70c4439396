import StreamStack.Wal.Codec
import StreamStack.Object.Index

/-!
# The bytes of objects

An object is a row of data blocks, an index with one entry for each block, and a footer. A data
block is a header with the number of its records and the number of their bytes, and the records. An
entry of the index has a fixed size. What is encoded is decoded again.
-/

namespace Object

open Wire List
open Wal (StreamRecordBatch)

inductive ObjectError where
  | codec (e : Wal.CodecError)
  | invalidFormat (reason : String)
  | orderingViolation (reason : String)
deriving DecidableEq, Repr

/-! ### Index entries -/

namespace DataBlockIndex

def encode (index : DataBlockIndex) : List UInt8 :=
  putBeU64 index.streamId ++ putBeU64 index.startOffset ++ putBeU32 index.endOffsetDelta ++
    putBeU32 index.recordCount ++ putBeU64 index.startPosition ++ putBeU32 index.size

theorem length_encode (index : DataBlockIndex) :
  index.encode.length = blockIndexSize
  := by
  simp [encode, blockIndexSize]

def getFields (blockId : Int32) (short : ObjectError) : Get ObjectError DataBlockIndex := do
  let streamId ← getBeU64 short
  let startOffset ← getBeU64 short
  let endOffsetDelta ← getBeU32 short
  let recordCount ← getBeU32 short
  let startPosition ← getBeU64 short
  let size ← getBeU32 short
  return ⟨blockId, streamId, startOffset, endOffsetDelta, recordCount, startPosition, size⟩

/-- The entry at the front of a buffer. -/
def decode (blockId : Int32) (buf : List UInt8) : Except ObjectError DataBlockIndex :=
  let short : ObjectError :=
    .invalidFormat s!"index entry needs {blockIndexSize} bytes, have {buf.length}"
  if buf.length < blockIndexSize then .error short
  else (getFields blockId short buf).map Prod.fst

theorem reads_getFields (index : DataBlockIndex) (blockId : Int32) (short : ObjectError) :
  Reads (getFields blockId short) index.encode { index with blockId }
  := by
  simp only [encode, append_assoc]
  apply (Reads.getBeU64 index.streamId short).bind
  apply (Reads.getBeU64 index.startOffset short).bind
  apply (Reads.getBeU32 index.endOffsetDelta short).bind
  apply (Reads.getBeU32 index.recordCount short).bind
  apply (Reads.getBeU64 index.startPosition short).bind
  apply Reads.bind_pure
  apply Reads.getBeU32

/-- An entry is read back; its block id is the one that the reader gives. -/
theorem decode_encode (index : DataBlockIndex) (blockId : Int32) (rest : List UInt8) :
  decode blockId (index.encode ++ rest) = .ok { index with blockId }
  := by
  have hlong : ¬ (index.encode ++ rest).length < blockIndexSize := by
    rw [length_append, length_encode]
    omega
  rw [decode, if_neg hlong, reads_getFields index blockId _ rest]
  rfl

end DataBlockIndex

/-! ### Index blocks -/

/-- The bytes of an index. -/
def encodeIndex (entries : List DataBlockIndex) : List UInt8 :=
  entries.flatMap DataBlockIndex.encode

theorem length_encodeIndex (entries : List DataBlockIndex) :
  (encodeIndex entries).length = blockIndexSize * entries.length
  := by
  induction entries with
  | nil => rfl
  | cons e entries ih =>
    rw [encodeIndex, flatMap_cons, length_append, DataBlockIndex.length_encode,
      ← encodeIndex, ih, length_cons, Nat.mul_succ]
    omega

/-- The entries of an index, each with its place as its block id. -/
def parseIndex (data : List UInt8) : Except ObjectError (List DataBlockIndex) :=
  if data.length % blockIndexSize ≠ 0 then
    .error (.invalidFormat
      s!"index block length {data.length} not a multiple of {blockIndexSize}")
  else
    (List.range (data.length / blockIndexSize)).mapM fun i =>
      DataBlockIndex.decode (Int32.ofNat i) (data.drop (i * blockIndexSize))

/-- The entries as they are read, from a place on. -/
def numbered (start : Nat) (entries : List DataBlockIndex) : List DataBlockIndex :=
  entries.mapIdx fun i e => { e with blockId := Int32.ofNat (start + i) }

theorem numbered_cons (start : Nat) (e : DataBlockIndex) (entries : List DataBlockIndex) :
  numbered start (e :: entries) =
    { e with blockId := Int32.ofNat start } :: numbered (start + 1) entries
  := by
  have hshift : (fun i (e : DataBlockIndex) => { e with blockId := Int32.ofNat (start + (i + 1)) }) =
      fun i e => { e with blockId := Int32.ofNat (start + 1 + i) } := by
    funext i e
    rw [Nat.add_right_comm, Nat.add_assoc]
  rw [numbered, mapIdx_cons, numbered, hshift, Nat.add_zero]

theorem mapM_decode (done rest : List DataBlockIndex) :
  (List.range' done.length rest.length).mapM (fun i =>
    DataBlockIndex.decode (Int32.ofNat i) ((encodeIndex (done ++ rest)).drop (i * blockIndexSize))) =
    .ok (numbered done.length rest)
  := by
  -- the entries before `rest` have been read
  induction rest generalizing done with
  | nil => rfl
  | cons e rest ih =>
    have hdrop : (encodeIndex (done ++ e :: rest)).drop (done.length * blockIndexSize) =
        e.encode ++ encodeIndex rest := by
      rw [encodeIndex, flatMap_append, ← encodeIndex, Nat.mul_comm,
        ← length_encodeIndex done, drop_left, flatMap_cons]
      rfl
    have hrest := ih (done ++ [e])
    rw [length_append, length_singleton, append_assoc,
      singleton_append] at hrest
    rw [length_cons, range'_succ, mapM_cons, hdrop,
      DataBlockIndex.decode_encode, hrest, numbered_cons]
    rfl

/-- An index is read back. -/
theorem parseIndex_encodeIndex (entries : List DataBlockIndex) :
  parseIndex (encodeIndex entries) = .ok (numbered 0 entries)
  := by
  have hmod : ¬ blockIndexSize * entries.length % blockIndexSize ≠ 0 := by
    rw [Nat.mul_mod_right]
    exact fun h => h rfl
  rw [parseIndex, length_encodeIndex, if_neg hmod, Nat.mul_div_cancel_left _ (by decide),
    range_eq_range']
  exact mapM_decode [] entries

/-! ### Data blocks -/

def dataBlockMagic : UInt8 := 0x5A

def dataBlockDefaultFlag : UInt8 := 0x02

def blockHeaderSize : Nat := 10

/-- The bytes of a data block. -/
def encodeDataBlock (records : List StreamRecordBatch) : List UInt8 :=
  let data := records.flatMap StreamRecordBatch.encoded
  [dataBlockMagic, dataBlockDefaultFlag] ++ putBeU32 (UInt32.ofNat records.length) ++
    putBeU32 (UInt32.ofNat data.length) ++ data

theorem length_encodeDataBlock (records : List StreamRecordBatch) :
  (encodeDataBlock records).length =
    blockHeaderSize + (records.flatMap StreamRecordBatch.encoded).length
  := by
  simp [encodeDataBlock, blockHeaderSize]
  omega

/-- The fields of a header after the magic and the flag. -/
def getHeader (short : ObjectError) : Get ObjectError (UInt32 × UInt32) := do
  let recordCount ← getBeU32 short
  let dataLength ← getBeU32 short
  return (recordCount, dataLength)

theorem reads_getHeader (recordCount dataLength : UInt32) (short : ObjectError) :
  Reads (getHeader short) (putBeU32 recordCount ++ putBeU32 dataLength) (recordCount, dataLength)
  := by
  apply (Reads.getBeU32 recordCount short).bind
  apply Reads.bind_pure
  apply Reads.getBeU32

/-- Decode a region that holds whole data blocks. -/
def decodeDataBlock (buf : List UInt8) : Except ObjectError (List StreamRecordBatch) :=
  if buf.isEmpty then .ok []
  else
    let short : ObjectError := .invalidFormat
      s!"data block header needs {blockHeaderSize} bytes, have {buf.length}"
    if buf.length < blockHeaderSize then .error short
    else
      let magic := buf.headD 0
      if magic ≠ dataBlockMagic then
        .error (.invalidFormat s!"data block magic mismatch: {Wal.hex magic.toNat}")
      else
        match getHeader short (buf.drop 2) with
        | .error e => .error e
        | .ok ((recordCount, dataLength), rest) =>
          if buf.length < blockHeaderSize + dataLength.toNat then
            .error (.invalidFormat (s!"data block truncated: need " ++
              s!"{blockHeaderSize + dataLength.toNat} bytes, have {buf.length}"))
          else
            match getMany recordCount.toNat StreamRecordBatch.parse
              (rest.take dataLength.toNat) with
            | .error e => .error (.codec e)
            | .ok (records, trailing) =>
              if ¬ trailing.isEmpty then
                .error (.invalidFormat
                  s!"{trailing.length} trailing bytes after records in data block")
              else (decodeDataBlock (buf.drop (blockHeaderSize + dataLength.toNat))).map
                (records ++ ·)
termination_by buf.length
decreasing_by
  rw [length_drop]
  have hpos : buf.length ≠ 0 := by
    intro h
    simp_all
  unfold blockHeaderSize
  omega

variable {records : List StreamRecordBatch}

theorem reads_records (h : ∀ r ∈ records, r.Fits) :
  Reads (getMany records.length StreamRecordBatch.parse)
    (records.flatMap StreamRecordBatch.encoded) records
  := by
  apply Reads.getMany
  intro r hr rest
  exact StreamRecordBatch.parse_encoded (h r hr) rest

theorem length_le_encoded (records : List StreamRecordBatch) :
  records.length ≤ (records.flatMap StreamRecordBatch.encoded).length
  := by
  induction records with
  | nil => exact Nat.le_refl _
  | cons r records ih =>
    rw [flatMap_cons, length_append, StreamRecordBatch.length_encoded,
      length_cons, StreamRecordBatch.headerSize]
    omega

variable (h : ∀ r ∈ records, r.Fits) (hsize : (encodeDataBlock records).length < 2 ^ 32)

include h hsize

/-- The records of a data block are read back, and then those of what follows it. -/
theorem decodeDataBlock_append (rest : List UInt8) :
  decodeDataBlock (encodeDataBlock records ++ rest) = (decodeDataBlock rest).map (records ++ ·)
  := by
  rw [length_encodeDataBlock] at hsize
  have hlength := length_le_encoded records
  have hcount : (UInt32.ofNat records.length).toNat = records.length :=
    UInt32.toNat_ofNat_of_lt' (show records.length < 2 ^ 32 by omega)
  have hdata : (UInt32.ofNat (records.flatMap StreamRecordBatch.encoded).length).toNat =
      (records.flatMap StreamRecordBatch.encoded).length :=
    UInt32.toNat_ofNat_of_lt'
      (show (records.flatMap StreamRecordBatch.encoded).length < 2 ^ 32 by omega)
  have hheader := reads_getHeader (UInt32.ofNat records.length)
    (UInt32.ofNat (records.flatMap StreamRecordBatch.encoded).length)
  have hrecords := reads_records h []
  rw [append_nil] at hrecords
  generalize hbytes : records.flatMap StreamRecordBatch.encoded = data at *
  have hbuf : encodeDataBlock records ++ rest = dataBlockMagic :: dataBlockDefaultFlag ::
      ((putBeU32 (UInt32.ofNat records.length) ++ putBeU32 (UInt32.ofNat data.length)) ++
        (data ++ rest)) := by
    simp [encodeDataBlock, hbytes]
  have htotal : (encodeDataBlock records ++ rest).length =
      blockHeaderSize + data.length + rest.length := by
    rw [length_append, length_encodeDataBlock, hbytes]
  have hskip : (encodeDataBlock records ++ rest).drop (blockHeaderSize + data.length) = rest := by
    rw [← hbytes, ← length_encodeDataBlock, drop_left]
  rw [decodeDataBlock, if_neg (by rw [hbuf]; nofun), if_neg (by rw [htotal]; omega),
    if_neg (by rw [hbuf]; exact fun h => h rfl)]
  have hdrop : (encodeDataBlock records ++ rest).drop 2 =
      (putBeU32 (UInt32.ofNat records.length) ++ putBeU32 (UInt32.ofNat data.length)) ++
        (data ++ rest) := by
    rw [hbuf]
    rfl
  rw [hdrop, hheader]
  dsimp only
  rw [hdata, hcount, if_neg (by rw [htotal]; omega), take_left, hrecords]
  dsimp only
  rw [if_neg (fun h => h rfl), hskip]

/-- The records of one data block are read back. -/
theorem decodeDataBlock_encodeDataBlock :
  decodeDataBlock (encodeDataBlock records) = .ok records
  := by
  have happend := decodeDataBlock_append h hsize []
  have hnil : decodeDataBlock [] = .ok [] := by
    rw [decodeDataBlock]
    rfl
  rw [append_nil, hnil] at happend
  rw [happend, Except.map, append_nil]

end Object
