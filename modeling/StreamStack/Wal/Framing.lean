import StreamStack.Wal.Codec

/-!
# Reading framed records one after another

`decodeRecord` takes the framed record off the front of a buffer, or fails and leaves the buffer as
it is. Applied again and again to framed records that were written one after another it returns
these records; where the bytes are cut off it returns those that are there in full, and fails on
what is left.
-/

namespace Wal

open Wire List Wal.Frame WalRecordHeader

section

variable (crc32 : List UInt8 → UInt32)

/-- The record at the front of a buffer, and the buffer after it. -/
def decodeRecord (buf : List UInt8) : Except CodecError (StreamRecordBatch × List UInt8) := do
  let header ← unmarshal crc32 buf
  if header.magic ≠ recordDataMagic then
    .error (.invalidMagic recordDataMagic.toNat header.magic.toNat)
  else
    let total := walRecordHeaderSize + header.bodyLength.toNat
    if buf.length < total then .error (.bufferTooShort total buf.length)
    else
      let body := (buf.take total).drop walRecordHeaderSize
      let computed := walCrc32 crc32 body
      if computed ≠ header.bodyCrc then .error (.crcMismatch header.bodyCrc computed)
      else
        let (record, bodyBuf) ← StreamRecordBatch.parse body
        if ¬ bodyBuf.isEmpty then
          .error (.bufferTooShort header.bodyLength.toNat
            (header.bodyLength.toNat - bodyBuf.length))
        else .ok (record, buf.drop total)

/-- Take records off the front of a buffer until one fails, and what is left then. -/
def decodeRecords : Nat → List UInt8 → List StreamRecordBatch × List UInt8
  | 0, buf => ([], buf)
  | fuel + 1, buf =>
    match decodeRecord crc32 buf with
    | .error _ => ([], buf)
    | .ok (record, rest) =>
      let (records, left) := decodeRecords fuel rest
      (record :: records, left)

variable {f : Frame} {frames : List Frame}

/-- A framed record is taken off the front. -/
theorem decodeRecord_bytes (h : f.record.encoded.length < 2 ^ 31) (rest : List UInt8) :
  decodeRecord crc32 (f.bytes crc32 ++ rest) = .ok (f.record, rest)
  := by
  have hunmarshal : unmarshal crc32 (f.bytes crc32 ++ rest) =
      .ok (f.header crc32) := by
    rw [bytes, append_assoc]
    exact unmarshal_marshal crc32 rfl _
  have hmagic : ¬ (f.header crc32).magic ≠ recordDataMagic := fun hne => hne rfl
  have htotal : walRecordHeaderSize + (f.header crc32).bodyLength.toNat =
      (f.bytes crc32).length := by
    rw [toNat_bodyLength crc32 h, length_bytes, size, Nat.add_comm]
  have hlong : ¬ (f.bytes crc32 ++ rest).length < (f.bytes crc32).length := by
    rw [length_append]
    omega
  have hbody : (f.bytes crc32).drop walRecordHeaderSize = f.record.encoded := by
    rw [bytes, ← length_marshal crc32 (f.header crc32), drop_left]
  have hcrc : ¬ walCrc32 crc32 f.record.encoded ≠ (f.header crc32).bodyCrc := fun hne => hne rfl
  simp only [decodeRecord, hunmarshal, bind, Except.bind, if_neg hmagic, htotal, if_neg hlong,
    take_left, hbody, if_neg hcrc, parse_body h, drop_left]
  rfl

/-- A framed record that is cut off is not decoded: the header is too short, or it tells that the
body is. -/
theorem decodeRecord_cut (h : f.record.encoded.length < 2 ^ 31) {part : List UInt8}
    (hpart : part <+: f.bytes crc32) (hcut : part.length < f.size) :
  ∃ e, decodeRecord crc32 part = .error e
  := by
  by_cases hheader : part.length < walRecordHeaderSize
  · refine ⟨.bufferTooShort walRecordHeaderSize part.length, ?_⟩
    rw [decodeRecord, unmarshal, if_pos hheader]
    rfl
  · -- the header is there in full
    obtain ⟨body, rfl⟩ : (f.header crc32).marshal crc32 <+: part := by
      apply prefix_of_prefix_length_le (prefix_append _ _) hpart
      rw [length_marshal]
      omega
    have hmagic : ¬ (f.header crc32).magic ≠ recordDataMagic := fun hne => hne rfl
    have hshort : ((f.header crc32).marshal crc32 ++ body).length <
        walRecordHeaderSize + f.record.encoded.length := by
      rw [Nat.add_comm]
      exact hcut
    refine ⟨.bufferTooShort (walRecordHeaderSize + f.record.encoded.length)
      ((f.header crc32).marshal crc32 ++ body).length, ?_⟩
    simp only [decodeRecord, unmarshal_marshal crc32 (h := f.header crc32) rfl,
      bind, Except.bind, if_neg hmagic, toNat_bodyLength crc32 h, if_pos hshort]

/-- The records in front of bytes that cannot be decoded are returned, and these bytes left. -/
theorem decodeRecords_append (hsize : ∀ f ∈ frames, f.record.encoded.length < 2 ^ 31)
    (left : List UInt8) (hleft : ∃ e, decodeRecord crc32 left = .error e) {fuel : Nat}
    (hfuel : (frames.flatMap (bytes crc32)).length ≤ fuel) :
  decodeRecords crc32 fuel (frames.flatMap (bytes crc32) ++ left) =
    (frames.map Frame.record, left)
  := by
  induction frames generalizing fuel with
  | nil =>
    obtain ⟨e, he⟩ := hleft
    cases fuel with
    | zero => rfl
    | succ fuel => simp [decodeRecords, he]
  | cons f frames ih =>
    rw [forall_mem_cons] at hsize
    rw [flatMap_cons, length_append, length_bytes, size, walRecordHeaderSize] at hfuel
    obtain ⟨fuel, rfl⟩ := Nat.exists_eq_add_of_lt (show 0 < fuel by omega)
    rw [flatMap_cons, append_assoc, Nat.zero_add, decodeRecords,
      decodeRecord_bytes crc32 hsize.1]
    simp only [ih hsize.2 (show _ ≤ fuel by omega), map_cons]

/-- A strict prefix of framed records ends inside one of them. -/
theorem exists_cut {part : List UInt8} (hpart : part <+: frames.flatMap (bytes crc32))
    (hne : part ≠ frames.flatMap (bytes crc32)) :
  ∃ done f rest left, frames = done ++ f :: rest ∧
    part = done.flatMap (bytes crc32) ++ left ∧
    left <+: f.bytes crc32 ∧ left.length < f.size
  := by
  induction frames generalizing part with
  | nil => exact absurd (prefix_nil.mp hpart) hne
  | cons f frames ih =>
    rw [flatMap_cons] at hpart hne
    rcases Nat.lt_or_ge part.length f.size with hlt | hle
    · refine ⟨[], f, frames, part, rfl, rfl, ?_, hlt⟩
      apply prefix_of_prefix_length_le hpart (prefix_append _ _)
      rw [length_bytes]
      exact hlt.le
    · obtain ⟨tail, rfl⟩ : f.bytes crc32 <+: part := by
        apply prefix_of_prefix_length_le (prefix_append _ _) hpart
        rwa [length_bytes]
      rw [prefix_append_right_inj] at hpart
      rw [ne_eq, append_cancel_left_eq] at hne
      obtain ⟨done, g, rest, left, rfl, rfl, hleft⟩ := ih hpart hne
      refine ⟨f :: done, g, rest, left, rfl, ?_, hleft⟩
      rw [flatMap_cons, append_assoc]

end

/-- Decoding again and again returns exactly the framed records; on bytes that are cut off it
returns those before the cut, fails on what is left of the one at the cut, and leaves that. -/
theorem decodeRecords_bytes (crc32 : List UInt8 → UInt32) {frames : List Frame}
    (hsize : ∀ f ∈ frames, f.record.encoded.length < 2 ^ 31) :
  (∀ fuel, (frames.flatMap (bytes crc32)).length ≤ fuel →
    decodeRecords crc32 fuel (frames.flatMap (bytes crc32)) =
      (frames.map Frame.record, [])) ∧
  ∀ part, part <+: frames.flatMap (bytes crc32) →
    part ≠ frames.flatMap (bytes crc32) →
    ∃ done f rest left, frames = done ++ f :: rest ∧
      part = done.flatMap (bytes crc32) ++ left ∧
      left <+: f.bytes crc32 ∧ left.length < f.size ∧
      (∀ fuel, part.length ≤ fuel →
        decodeRecords crc32 fuel part = (done.map Frame.record, left)) ∧
      ∃ e, decodeRecord crc32 left = .error e
  := by
  constructor
  · intro fuel hfuel
    have hdecode := decodeRecords_append crc32 hsize [] ⟨_, rfl⟩ hfuel
    rwa [append_nil] at hdecode
  · intro part hpart hne
    obtain ⟨done, f, rest, left, rfl, rfl, hleft, hcut⟩ := exists_cut crc32 hpart hne
    rw [forall_mem_append, forall_mem_cons] at hsize
    have herror := decodeRecord_cut crc32 hsize.2.1 hleft hcut
    refine ⟨done, f, rest, left, rfl, rfl, hleft, hcut, ?_, herror⟩
    intro fuel hfuel
    apply decodeRecords_append crc32 hsize.1 left herror
    rw [length_append] at hfuel
    omega

/-- Two records, one after the other. -/
def twoFrames : List Frame := [⟨0, 1, 2, 3, 1, [5]⟩, ⟨58, 1, 2, 4, 1, []⟩]

/-- They are decoded, and of the first 60 bytes what is before the cut. -/
theorem decodeRecords_twoFrames :
  decodeRecords (fun _ => 7) 200 (twoFrames.flatMap (bytes fun _ => 7)) =
      (twoFrames.map Frame.record, []) ∧
    ∃ done f left, done ++ [f] <+: twoFrames ∧
      (twoFrames.flatMap (bytes fun _ => 7)).take 60 = done.flatMap (bytes fun _ => 7) ++ left ∧
      decodeRecords (fun _ => 7) 60 ((twoFrames.flatMap (bytes fun _ => 7)).take 60) =
        (done.map Frame.record, left) ∧ ∃ e, decodeRecord (fun _ => 7) left = .error e
  := by
  have hdecode := decodeRecords_bytes (fun _ => 7) (by decide : ∀ f ∈ twoFrames, _)
  refine ⟨hdecode.1 200 (by decide), ?_⟩
  have hpart : (twoFrames.flatMap (bytes fun _ => 7)).take 60 <+:
      twoFrames.flatMap (bytes fun _ => 7) := by
    apply take_prefix
  obtain ⟨done, f, rest, left, hframes, hcut, -, -, hdone, herror⟩ := hdecode.2 _ hpart (by decide)
  refine ⟨done, f, left, ⟨rest, ?_⟩, hcut, hdone 60 (by decide), herror⟩
  rw [hframes, append_assoc]
  rfl

end Wal
