import StreamStack.Object.Writer

/-!
# The object reader

A reader fetches the footer and the index of an object, and then the bytes of the blocks that it
needs. An object that the writer has closed parses with the size that the writer reports. Its index
has one entry for each block that was written, in the same order; the entries lie side by side over
the data, and the bytes of each are decoded to the records of its block.
-/

namespace Object

open Wire Run Spans List
open Wal (StreamRecordBatch)

/-! ### Reading -/

/-- The bytes of an object from `start` to `stop`. -/
def rangeRead (data : List UInt8) (start stop : Nat) : List UInt8 := (data.take stop).drop start

theorem rangeRead_append (before data after : List UInt8) :
  rangeRead (before ++ data ++ after) before.length (before.length + data.length) = data
  := by
  rw [rangeRead, ← length_append, take_left, drop_left]

/-- The footer and the index of a plain object. -/
structure BasicObjectInfo where
  dataBlockSize : UInt64
  indexBlock : List DataBlockIndex
deriving DecidableEq, Repr

namespace ObjectReader

/-- Fetch and parse the footer and the index. -/
def basicObjectInfo (data : List UInt8) (objectSize : UInt64) :
    Except ObjectError BasicObjectInfo :=
  if objectSize < UInt64.ofNat footerSize then
    .error (.invalidFormat s!"object size {objectSize} smaller than footer")
  else
    let footer := rangeRead data (objectSize.toNat - footerSize) objectSize.toNat
    if footer.length ≠ footerSize then
      .error (.invalidFormat s!"footer read returned {footer.length} bytes")
    else
      let magic := UInt64.ofNat (ofBeBytes (rangeRead footer 40 48))
      if magic ≠ footerMagic then
        .error (.invalidFormat s!"footer magic mismatch: {Wal.hex magic.toNat}")
      else
        let indexPosition := UInt64.ofNat (ofBeBytes (rangeRead footer 0 8))
        let indexSize := (UInt32.ofNat (ofBeBytes (rangeRead footer 8 12))).toUInt64
        if indexPosition + indexSize + UInt64.ofNat footerSize ≠ objectSize then
          .error (.invalidFormat (s!"footer geometry: index at {indexPosition}+{indexSize}" ++
            s!" + footer != size {objectSize}"))
        else do
          let indexBlock ← parseIndex
            (rangeRead data indexPosition.toNat (indexPosition + indexSize).toNat)
          return ⟨indexPosition, indexBlock⟩

/-- Fetch the bytes of a block. -/
def readBlock (data : List UInt8) (index : DataBlockIndex) : List UInt8 :=
  rangeRead data index.startPosition.toNat index.endPosition.toNat

end ObjectReader

/-! ### The footer -/

theorem length_footer (indexPosition : UInt64) (indexSize : UInt32) :
  (footer indexPosition indexSize).length = footerSize
  := by
  simp [footer, footerSize]

theorem ofBeBytes_putBeU64 (x : UInt64) :
  UInt64.ofNat (ofBeBytes (putBeU64 x)) = x
  := by
  rw [putBeU64, ofBeBytes_beBytes x.toNat_lt, UInt64.ofNat_toNat]

theorem ofBeBytes_putBeU32 (x : UInt32) :
  UInt32.ofNat (ofBeBytes (putBeU32 x)) = x
  := by
  rw [putBeU32, ofBeBytes_beBytes x.toNat_lt, UInt32.ofNat_toNat]

/-- The fields of a footer are read back. -/
theorem rangeRead_footer (indexPosition : UInt64) (indexSize : UInt32) :
  rangeRead (footer indexPosition indexSize) 40 48 = putBeU64 footerMagic ∧
    rangeRead (footer indexPosition indexSize) 0 8 = putBeU64 indexPosition ∧
    rangeRead (footer indexPosition indexSize) 8 12 = putBeU32 indexSize
  := by
  have hpos := length_putBeU64 indexPosition
  have hsize := length_putBeU32 indexSize
  have hmagic := length_putBeU64 footerMagic
  refine ⟨?_, ?_, ?_⟩
  · have hread := rangeRead_append (putBeU64 indexPosition ++ putBeU32 indexSize ++
      List.replicate 28 0) (putBeU64 footerMagic) []
    simp only [length_append, hpos, hsize, hmagic, length_replicate,
      append_nil] at hread
    exact hread
  · have hread := rangeRead_append [] (putBeU64 indexPosition)
      (putBeU32 indexSize ++ List.replicate 28 0 ++ putBeU64 footerMagic)
    simp only [length_nil, hpos, nil_append, ← append_assoc] at hread
    exact hread
  · have hread := rangeRead_append (putBeU64 indexPosition) (putBeU32 indexSize)
      (List.replicate 28 0 ++ putBeU64 footerMagic)
    simp only [hpos, hsize, ← append_assoc] at hread
    exact hread

/-- An object of data, an index and a footer parses with its size. -/
theorem basicObjectInfo_object (data : List UInt8) (entries : List DataBlockIndex)
    (position size : UInt64) (hposition : position.toNat = data.length)
    (hindex : blockIndexSize * entries.length < 2 ^ 32)
    (hsize : size.toNat = data.length + blockIndexSize * entries.length + footerSize) :
  ObjectReader.basicObjectInfo
    (data ++ encodeIndex entries ++
      footer position (UInt32.ofNat (encodeIndex entries).length)) size =
    .ok ⟨position, numbered 0 entries⟩
  := by
  have hlength := length_encodeIndex entries
  have hfield : (UInt32.ofNat (encodeIndex entries).length).toNat = (encodeIndex entries).length :=
    UInt32.toNat_ofNat_of_lt' (hlength ▸ hindex)
  have hlong : ¬ size < UInt64.ofNat footerSize := by
    rw [UInt64.lt_iff_toNat_lt, hsize, UInt64.toNat_ofNat_of_lt' (by decide)]
    omega
  generalize hfooter : footer position (UInt32.ofNat (encodeIndex entries).length) = tail
  obtain ⟨hmagic, hpos, hcount⟩ := rangeRead_footer position
    (UInt32.ofNat (encodeIndex entries).length)
  have htail := length_footer position (UInt32.ofNat (encodeIndex entries).length)
  rw [hfooter] at hmagic hpos hcount htail
  have hread : rangeRead (data ++ encodeIndex entries ++ tail) (size.toNat - footerSize)
      size.toNat = tail := by
    have hread := rangeRead_append (data ++ encodeIndex entries) tail []
    rw [append_nil, htail, length_append, hlength, ← hsize] at hread
    rw [show size.toNat - footerSize = data.length + blockIndexSize * entries.length by omega]
    exact hread
  have hend : (position + (UInt32.ofNat (encodeIndex entries).length).toUInt64).toNat =
      data.length + (encodeIndex entries).length := by
    have hlt := size.toNat_lt
    rw [UInt64.toNat_add, UInt32.toNat_toUInt64, hfield, hposition, Nat.mod_eq_of_lt]
    rw [hlength]
    omega
  have hgeometry : ¬ position + (UInt32.ofNat (encodeIndex entries).length).toUInt64 +
      UInt64.ofNat footerSize ≠ size := by
    rw [not_not, ← UInt64.toNat_inj, UInt64.toNat_add, hend, hsize,
      UInt64.toNat_ofNat_of_lt' (by decide), hlength]
    apply Nat.mod_eq_of_lt
    rw [← hsize]
    exact size.toNat_lt
  have hentries : rangeRead (data ++ encodeIndex entries ++ tail) position.toNat
      (position + (UInt32.ofNat (encodeIndex entries).length).toUInt64).toNat =
        encodeIndex entries := by
    rw [hend, hposition]
    exact rangeRead_append data (encodeIndex entries) tail
  rw [ObjectReader.basicObjectInfo, if_neg hlong, hread]
  dsimp only
  rw [if_neg (not_not_intro htail), hmagic, hpos, hcount, ofBeBytes_putBeU64, ofBeBytes_putBeU64,
    ofBeBytes_putBeU32, if_neg (not_not_intro rfl), if_neg hgeometry, hentries,
    parseIndex_encodeIndex]
  rfl

/-! ### The entries -/

/-- An entry describes a block: its stream and offsets, and the bytes that hold its records. -/
structure Describes (object : List UInt8) (e : DataBlockIndex) (g : Group) : Prop where
  streamId : e.streamId = g.1
  startOffset : e.startOffset.toNat = (g.2.1.head g.2.2).lo
  endOffset : e.endOffset.toNat = (g.2.1.getLast g.2.2).hi
  size : e.size.toNat = g.block.size
  decoded : decodeDataBlock (ObjectReader.readBlock object e) = .ok g.2.1

/-- The fields of a block fit the fields of its entry. -/
structure DataBlock.Fits (b : DataBlock) : Prop where
  size : b.size < 2 ^ 32
  span : b.endOffset.toNat - b.startOffset.toNat < 2 ^ 32

instance (b : DataBlock) : Decidable b.Fits :=
  decidable_of_iff (b.size < 2 ^ 32 ∧ b.endOffset.toNat - b.startOffset.toNat < 2 ^ 32)
    ⟨fun ⟨hsize, hspan⟩ => ⟨hsize, hspan⟩, fun ⟨hsize, hspan⟩ => ⟨hsize, hspan⟩⟩

/-- The records of a valid group end after they start. -/
theorem Group.lo_le_hi {g : Group} (h : g.call.Valid) :
  (g.2.1.head g.2.2).lo ≤ (g.2.1.getLast g.2.2).hi
  := by
  obtain ⟨a, hlaid⟩ := h.laid
  have hreach := (hlaid.le_reach h.lo_le_hi).2 _ (head_mem g.2.2)
  have hlast : reach StreamRecordBatch.hi a g.call.2 = (g.2.1.getLast g.2.2).hi := by
    rw [reach, call, getLast?_eq_some_getLast g.2.2]
    rfl
  rw [hlast] at hreach
  exact (h.lo_le_hi _ (head_mem g.2.2)).trans hreach

theorem describes_block (before after : List UInt8) {position : UInt64} {g : Group}
    (blockId : Int32) (hvalid : g.call.Valid) (hfits : g.block.Fits)
    (hposition : position.toNat = before.length)
    (hbound : before.length + g.block.size < 2 ^ 64) :
  Describes (before ++ g.block.encoded ++ after)
    { blockId
      streamId := g.block.streamId
      startOffset := g.block.startOffset
      endOffsetDelta := (g.block.endOffset - g.block.startOffset).toUInt32
      recordCount := g.block.recordCount
      startPosition := position
      size := UInt32.ofNat g.block.size } g
  := by
  have hsize : (UInt32.ofNat g.block.size).toNat = g.block.size :=
    UInt32.toNat_ofNat_of_lt' hfits.size
  have hle : g.block.startOffset.toNat ≤ g.block.endOffset.toNat := Group.lo_le_hi hvalid
  have hspan := hfits.span
  have hdelta : (g.block.endOffset - g.block.startOffset).toNat =
      g.block.endOffset.toNat - g.block.startOffset.toNat :=
    UInt64.toNat_sub_of_le _ _ (UInt64.le_iff_toNat_le.mpr hle)
  refine ⟨rfl, rfl, ?_, hsize, ?_⟩
  · have hend := g.block.endOffset.toNat_lt
    change (g.block.startOffset + (g.block.endOffset - g.block.startOffset).toUInt32.toUInt64).toNat
      = g.block.endOffset.toNat
    rw [UInt64.toNat_add, UInt32.toNat_toUInt64, UInt64.toNat_toUInt32, hdelta,
      Nat.mod_eq_of_lt hspan, Nat.add_sub_of_le hle]
    exact Nat.mod_eq_of_lt hend
  · have hread : rangeRead (before ++ g.block.encoded ++ after) position.toNat
        (position + (UInt32.ofNat g.block.size).toUInt64).toNat = g.block.encoded := by
      rw [UInt64.toNat_add, UInt32.toNat_toUInt64, hsize, hposition, Nat.mod_eq_of_lt hbound]
      exact rangeRead_append before g.block.encoded after
    change decodeDataBlock (rangeRead (before ++ g.block.encoded ++ after) position.toNat
        (position + (UInt32.ofNat g.block.size).toUInt64).toNat) = _
    rw [hread]
    exact decodeDataBlock_encodeDataBlock (fun r hr => (hvalid.records r hr).fits) hfits.size

/-- The bytes of blocks. -/
def dataSize (blocks : List DataBlock) : Nat := (blocks.map DataBlock.size).sum

theorem length_flatMap_encoded (blocks : List DataBlock) :
  (blocks.flatMap DataBlock.encoded).length = dataSize blocks
  := by
  rw [length_flatMap]
  rfl

variable {groups : List Group}

/-- The entries of blocks that are stored one after the other describe them. -/
theorem describes_blocks (before after : List UInt8) (position : UInt64) (start : Nat)
    (hvalid : ∀ g ∈ groups, g.call.Valid) (hfits : ∀ g ∈ groups, g.block.Fits)
    (hposition : position.toNat = before.length)
    (hbound : before.length + dataSize (groups.map Group.block) < 2 ^ 64) :
  List.Forall₂
    (Describes (before ++ (groups.map Group.block).flatMap DataBlock.encoded ++ after))
    (numbered start (blockIndexes position (groups.map Group.block))) groups
  := by
  induction groups generalizing before position start with
  | nil => exact List.Forall₂.nil
  | cons g groups ih =>
    rw [map_cons, blockIndexes, numbered_cons, flatMap_cons]
    have htotal : dataSize ((g :: groups).map Group.block) =
        g.block.size + dataSize (groups.map Group.block) := by
      rw [dataSize, map_cons, map_cons, sum_cons]
      rfl
    rw [htotal] at hbound
    apply List.Forall₂.cons
    · have hhead := describes_block before
        ((groups.map Group.block).flatMap DataBlock.encoded ++ after) (Int32.ofNat start)
        (hvalid g mem_cons_self) (hfits g mem_cons_self) hposition (by omega)
      rw [← append_assoc before, append_assoc (before ++ g.block.encoded)]
      exact hhead
    · have hsize : (UInt64.ofNat g.block.size).toNat = g.block.size := by
        apply UInt64.toNat_ofNat_of_lt'
        have hlt := (hfits g mem_cons_self).size
        exact Nat.lt_trans hlt (by decide)
      have hnext : (position + UInt64.ofNat g.block.size).toNat =
          (before ++ g.block.encoded).length := by
        rw [UInt64.toNat_add, hsize, hposition, length_append]
        apply Nat.mod_eq_of_lt
        omega
      have hrest := ih (before ++ g.block.encoded) _ (start + 1)
        (fun g' hg' => hvalid g' (mem_cons_of_mem g hg'))
        (fun g' hg' => hfits g' (mem_cons_of_mem g hg')) hnext (by
          rw [length_append]
          change before.length + g.block.size + _ < _
          omega)
      rw [append_assoc before] at hrest
      exact hrest

variable {blocks : List DataBlock}

/-- The entries of blocks that are stored one after the other lie side by side. -/
theorem blockIndexes_laid (position : UInt64) (start : Nat) (hfits : ∀ b ∈ blocks, b.Fits)
    (hbound : position.toNat + dataSize blocks < 2 ^ 64) :
  Laid (fun e : DataBlockIndex => e.startPosition.toNat) (fun e => e.endPosition.toNat)
      position.toNat (numbered start (blockIndexes position blocks)) ∧
    reach (fun e : DataBlockIndex => e.endPosition.toNat) position.toNat
      (numbered start (blockIndexes position blocks)) = position.toNat + dataSize blocks
  := by
  induction blocks generalizing position start with
  | nil => exact ⟨trivial, rfl⟩
  | cons b blocks ih =>
    have htotal : dataSize (b :: blocks) = b.size + dataSize blocks := sum_cons
    rw [htotal] at hbound
    have hb := (hfits b mem_cons_self).size
    have hnext : (position + UInt64.ofNat b.size).toNat = position.toNat + b.size := by
      rw [UInt64.toNat_add, UInt64.toNat_ofNat_of_lt' (Nat.lt_trans hb (by decide))]
      apply Nat.mod_eq_of_lt
      omega
    have hend : (position + (UInt32.ofNat b.size).toUInt64).toNat = position.toNat + b.size := by
      rw [UInt64.toNat_add, UInt32.toNat_toUInt64, UInt32.toNat_ofNat_of_lt' hb]
      apply Nat.mod_eq_of_lt
      omega
    obtain ⟨hlaid, hreach⟩ := ih (position + UInt64.ofNat b.size) (start + 1)
      (fun b' hb' => hfits b' (mem_cons_of_mem b hb')) (by rw [hnext]; omega)
    rw [hnext] at hlaid hreach
    rw [blockIndexes, numbered_cons, reach_cons]
    change (_ ∧ Laid _ _ (position + (UInt32.ofNat b.size).toUInt64).toNat _) ∧
      reach _ (position + (UInt32.ofNat b.size).toUInt64).toNat _ = _
    rw [hend, hreach, htotal, Nat.add_assoc]
    exact ⟨⟨rfl, hlaid⟩, rfl⟩

/-! ### Closed objects -/

namespace ObjectWriter

/-- What was written fits the fields of the format. -/
structure Fits (w : ObjectWriter) : Prop where
  blocks : ∀ b ∈ w.completedBlocks ++ w.waitingUploadBlocks, b.Fits
  index : blockIndexSize * (w.completedBlocks ++ w.waitingUploadBlocks).length < 2 ^ 32

instance (w : ObjectWriter) : Decidable w.Fits :=
  decidable_of_iff ((∀ b ∈ w.completedBlocks ++ w.waitingUploadBlocks, b.Fits) ∧
      blockIndexSize * (w.completedBlocks ++ w.waitingUploadBlocks).length < 2 ^ 32)
    ⟨fun ⟨hblocks, hindex⟩ => ⟨hblocks, hindex⟩, fun ⟨hblocks, hindex⟩ => ⟨hblocks, hindex⟩⟩

theorem dataSize_le (hfits : ∀ b ∈ blocks, b.Fits) :
  dataSize blocks ≤ blocks.length * 2 ^ 32
  := by
  have hlength : blocks.length = (blocks.map DataBlock.size).length := by rw [length_map]
  rw [dataSize, hlength]
  apply sum_le_card_nsmul
  intro n hn
  obtain ⟨b, hb, rfl⟩ := mem_map.mp hn
  exact Nat.le_of_lt (hfits b hb).size

/-- The data, the index and the footer stay far below the size of an address. -/
theorem Fits.dataSize_lt {w : ObjectWriter} (h : w.Fits) :
  dataSize (w.completedBlocks ++ w.waitingUploadBlocks) < 2 ^ 60
  := by
  have hindex := h.index
  have hle := dataSize_le h.blocks
  rw [blockIndexSize] at hindex
  omega

theorem toNat_sum_sizes (blocks : List DataBlock) (h : dataSize blocks < 2 ^ 64) :
  (blocks.map fun b => UInt64.ofNat b.size).sum.toNat = dataSize blocks
  := by
  induction blocks with
  | nil => rfl
  | cons b blocks ih =>
    have htotal : dataSize (b :: blocks) = b.size + dataSize blocks := sum_cons
    rw [htotal] at h ⊢
    rw [map_cons, sum_cons, UInt64.toNat_add, ih (by omega),
      UInt64.toNat_ofNat_of_lt' (show b.size < 2 ^ 64 by omega)]
    apply Nat.mod_eq_of_lt
    exact h

theorem length_blockIndexes (position : UInt64) (blocks : List DataBlock) :
  (blockIndexes position blocks).length = blocks.length
  := by
  induction blocks generalizing position with
  | nil => rfl
  | cons b blocks ih => rw [blockIndexes, length_cons, ih, length_cons]

/-- A closed object parses with the reported size. Its entries lie side by side over the data and
describe the blocks that were written. -/
theorem Written.close {calls : List Call} {w : ObjectWriter} (h : Written calls groups w)
    (hfits : w.Fits) :
  w.close.object.length = w.close.objectSize.toNat ∧
    ∃ info, ObjectReader.basicObjectInfo w.close.object w.close.objectSize = .ok info ∧
      Laid (fun e : DataBlockIndex => e.startPosition.toNat) (fun e => e.endPosition.toNat) 0
        info.indexBlock ∧
      reach (fun e : DataBlockIndex => e.endPosition.toNat) 0 info.indexBlock =
        info.dataBlockSize.toNat ∧
      List.Forall₂ (Describes w.close.object) info.indexBlock groups
  := by
  have hsmall := hfits.dataSize_lt
  have hblocks := hfits.blocks
  have hindex := hfits.index
  have hobject : w.close.object = (groups.map Group.block).flatMap DataBlock.encoded ++
      encodeIndex (blockIndexes 0 (groups.map Group.block)) ++
      footer ((groups.map Group.block).map fun b => UInt64.ofNat b.size).sum (UInt32.ofNat
        (encodeIndex (blockIndexes 0 (groups.map Group.block))).length) := by
    rw [← h.blocks, object, ObjectWriter.close]
    rw [flatten_append, h.parts, flatten_singleton, flatMap_append]
    simp only [append_assoc]
  have hsize : w.close.objectSize =
      ((groups.map Group.block).map fun b => UInt64.ofNat b.size).sum +
        UInt64.ofNat (encodeIndex (blockIndexes 0 (groups.map Group.block))).length +
        UInt64.ofNat footerSize := by
    rw [← h.blocks]
    rfl
  rw [h.blocks] at hsmall hblocks hindex
  generalize hgroups : groups.map Group.block = blocks at *
  have hposition := toNat_sum_sizes blocks (by omega)
  have hlength : (encodeIndex (blockIndexes 0 blocks)).length = blockIndexSize * blocks.length := by
    rw [length_encodeIndex, length_blockIndexes]
  have hsizeNat : w.close.objectSize.toNat =
      dataSize blocks + blockIndexSize * blocks.length + footerSize := by
    rw [hsize, UInt64.toNat_add, UInt64.toNat_add, hposition, hlength,
      UInt64.toNat_ofNat_of_lt' (show blockIndexSize * blocks.length < 2 ^ 64 by omega),
      UInt64.toNat_ofNat_of_lt' (show footerSize < 2 ^ 64 by decide)]
    have hfooter : footerSize = 48 := rfl
    omega
  have hinfo := basicObjectInfo_object (blocks.flatMap DataBlock.encoded) (blockIndexes 0 blocks)
    (blocks.map fun b => UInt64.ofNat b.size).sum w.close.objectSize
    (by rw [hposition, length_flatMap_encoded])
    (by rw [length_blockIndexes]; exact hindex)
    (by rw [hsizeNat, length_flatMap_encoded, length_blockIndexes])
  rw [← hobject] at hinfo
  obtain ⟨hlaid, hreach⟩ := blockIndexes_laid 0 0 hblocks (by
    rw [UInt64.toNat_zero]
    omega)
  refine ⟨?_, _, hinfo, hlaid, ?_, ?_⟩
  · rw [hobject, length_append, length_append, length_flatMap_encoded, hlength,
      length_footer, hsizeNat]
  · rw [hposition]
    exact hreach.trans (Nat.zero_add _)
  · have hdescribes := describes_blocks [] (encodeIndex (blockIndexes 0 blocks) ++
      footer (blocks.map fun b => UInt64.ofNat b.size).sum
        (UInt32.ofNat (encodeIndex (blockIndexes 0 blocks)).length)) 0 0 h.valid
      (fun g hg => hblocks _ (hgroups ▸ mem_map_of_mem hg)) rfl (by
        rw [hgroups, length_nil]
        omega)
    rw [hgroups, nil_append, ← append_assoc, ← hobject] at hdescribes
    exact hdescribes

end ObjectWriter

end Object
