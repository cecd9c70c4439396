import StreamStack.Lib.Run
import StreamStack.Lib.Spans
import StreamStack.Object.Codec

/-!
# The object writer

Records are written one stream after the other. The records of a call are cut into data blocks when
their payloads have reached a threshold; what is counted towards it goes on from one call to the
next. Blocks are uploaded in parts. Closing the object writes what is left, the index and the
footer.
-/

open Spans

/-! ### Records -/

namespace Wal.StreamRecordBatch

/-- The offset after the last one of a batch. The count of a link record is negative. -/
def lastOffset (r : StreamRecordBatch) : UInt64 :=
  if 0 < r.count then r.baseOffset + r.count.toInt64.toUInt64
  else r.baseOffset - r.count.toInt64.toUInt64

/-- The length of the payload, as it is read back from its field. -/
def size (r : StreamRecordBatch) : Nat :=
  (UInt32.ofNat r.payload.length).toInt32.toInt64.toUInt64.toNat

/-- A batch with records whose offsets and payload fit their fields. -/
structure Valid (r : StreamRecordBatch) : Prop where
  positive : 0 < r.count
  bounded : r.baseOffset.toNat + r.count.toInt.toNat < 2 ^ 64
  fits : r.Fits

instance (r : StreamRecordBatch) : Decidable r.Valid :=
  decidable_of_iff
    (0 < r.count ∧ r.baseOffset.toNat + r.count.toInt.toNat < 2 ^ 64 ∧ r.payload.length < 2 ^ 31)
    ⟨fun ⟨hpositive, hbounded, hfits⟩ => ⟨hpositive, hbounded, hfits⟩,
      fun ⟨hpositive, hbounded, hfits⟩ => ⟨hpositive, hbounded, hfits⟩⟩

def lo (r : StreamRecordBatch) : Nat := r.baseOffset.toNat

def hi (r : StreamRecordBatch) : Nat := r.lastOffset.toNat

variable {r : StreamRecordBatch}

theorem Valid.hi_eq (h : r.Valid) :
  r.hi = r.lo + r.count.toInt.toNat
  := by
  have hpos : 0 < r.count.toInt := Int32.lt_iff_toInt_lt.mp h.positive
  have hcount : r.count.toInt64.toUInt64.toNat = r.count.toInt.toNat := by
    rw [Int64.toNat_toUInt64_of_le, Int64.toNatClampNeg, Int32.toInt_toInt64]
    rw [Int64.le_iff_toInt_le, Int32.toInt_toInt64]
    exact hpos.le
  have hbounded := h.bounded
  rw [hi, lastOffset, if_pos h.positive, UInt64.toNat_add, hcount, lo]
  exact Nat.mod_eq_of_lt hbounded

theorem Valid.lo_lt_hi (h : r.Valid) :
  r.lo < r.hi
  := by
  have hpos : 0 < r.count.toInt := Int32.lt_iff_toInt_lt.mp h.positive
  rw [h.hi_eq]
  omega

end Wal.StreamRecordBatch

namespace Object

open Wire Run
open List hiding take
open Wal (StreamRecordBatch)

/-! ### Blocks -/

/-- The records of a block; a block is never empty. -/
abbrev Records : Type := {l : List StreamRecordBatch // l ≠ []}

/-- A block that waits for its upload or was uploaded. -/
structure DataBlock where
  encoded : List UInt8
  streamId : UInt64
  epoch : UInt64
  startOffset : UInt64
  endOffset : UInt64
  recordCount : UInt32
deriving DecidableEq, Repr

namespace DataBlock

def new (streamId : UInt64) (records : Records) : DataBlock where
  encoded := encodeDataBlock records.1
  streamId
  epoch := (records.1.head records.2).epoch
  startOffset := (records.1.head records.2).baseOffset
  endOffset := (records.1.getLast records.2).lastOffset
  recordCount := UInt32.ofNat records.1.length

def size (b : DataBlock) : Nat := b.encoded.length

end DataBlock

/-- Cut records into blocks, with what is counted so far and the records of the open block. -/
def groupByBlock (blockSizeThreshold : Nat) :
    Nat → List StreamRecordBatch → List StreamRecordBatch → List Records × Nat
  | groupAcc, blockRecords, [] =>
    (if h : blockRecords = [] then [] else [⟨blockRecords, h⟩], groupAcc)
  | groupAcc, blockRecords, record :: records =>
    if groupAcc + record.size ≥ blockSizeThreshold then
      let (blocks, groupAcc) := groupByBlock blockSizeThreshold 0 [] records
      (⟨blockRecords ++ [record], append_ne_nil_of_right_ne_nil _ (cons_ne_nil _ _)⟩ ::
        blocks, groupAcc)
    else
      groupByBlock blockSizeThreshold (groupAcc + record.size) (blockRecords ++ [record]) records

/-! ### The writer -/

def minPartSize : Nat := 5 * 1024 * 1024

def footerMagic : UInt64 := 0x88E241B785F4CFF7

/-- A writer, with the parts it has uploaded. -/
structure ObjectWriter where
  parts : List (List UInt8) := []
  blockSizeThreshold : Nat
  partSizeThreshold : Nat
  minPartSize_le : minPartSize ≤ partSizeThreshold
  waitingUploadBlocks : List DataBlock := []
  waitingUploadSize : Nat := 0
  completedBlocks : List DataBlock := []
  groupAcc : Nat := 0
  objectSize : UInt64 := 0
  last : Option (UInt64 × UInt64) := none

/-- The index entries of blocks that are stored one after the other. -/
def blockIndexes : UInt64 → List DataBlock → List DataBlockIndex
  | _, [] => []
  | position, b :: blocks =>
    { blockId := -1
      streamId := b.streamId
      startOffset := b.startOffset
      endOffsetDelta := (b.endOffset - b.startOffset).toUInt32
      recordCount := b.recordCount
      startPosition := position
      size := UInt32.ofNat b.size } ::
      blockIndexes (position + UInt64.ofNat b.size) blocks

def footer (indexPosition : UInt64) (indexSize : UInt32) : List UInt8 :=
  putBeU64 indexPosition ++ putBeU32 indexSize ++ List.replicate 28 0 ++ putBeU64 footerMagic

namespace ObjectWriter

def openWriter (blockSizeThreshold partSizeThreshold : Nat) : ObjectWriter where
  blockSizeThreshold
  partSizeThreshold := max partSizeThreshold minPartSize
  minPartSize_le := Nat.le_max_right _ _

/-- The ordering check. Streams do not go backwards, and within a stream offsets do not. -/
def check (w : ObjectWriter) (streamId : UInt64) (records : List StreamRecordBatch) :
    Except ObjectError (Option (UInt64 × UInt64)) :=
  match records.head?, records.getLast? with
  | some firstRecord, some lastRecord =>
    let recordsEnd := lastRecord.lastOffset
    match w.last with
    | none => .ok (some (streamId, recordsEnd))
    | some (lastStreamId, lastEndOffset) =>
      if lastStreamId > streamId then
        .error (.orderingViolation
          s!"incoming streamId={streamId} is less than last streamId={lastStreamId}")
      else if lastStreamId = streamId ∧ firstRecord.baseOffset < lastEndOffset then
        .error (.orderingViolation (s!"streamId={streamId} " ++
          s!"startOffset={firstRecord.baseOffset} is less than lastEndOffset={lastEndOffset}"))
      else .ok (some (streamId, recordsEnd))
  | _, _ => .ok w.last

/-- The size of the next part, and the number of its blocks. -/
def nextPart (partSizeThreshold : Nat) : Nat → Nat → List DataBlock → Nat × Nat
  | partSize, take, [] => (partSize, take)
  | partSize, take, b :: blocks =>
    if partSize + b.size ≥ partSizeThreshold then (partSize + b.size, take + 1)
    else nextPart partSizeThreshold (partSize + b.size) (take + 1) blocks

theorem nextPart_take (threshold partSize take : Nat) (blocks : List DataBlock)
    (h : blocks ≠ []) :
  take < (nextPart threshold partSize take blocks).2
  := by
  induction blocks generalizing partSize take with
  | nil => exact absurd rfl h
  | cons b blocks ih =>
    unfold nextPart
    split
    · exact Nat.lt_succ_self _
    · cases blocks with
      | nil => exact Nat.lt_succ_self _
      | cons b' blocks =>
        exact Nat.lt_trans (Nat.lt_succ_self _) (ih _ _ (cons_ne_nil _ _))

/-- Upload parts as long as the waiting blocks fill one. -/
def tryUploadPart (w : ObjectWriter) : ObjectWriter :=
  let part := nextPart w.partSizeThreshold 0 0 w.waitingUploadBlocks
  if _h : part.1 < w.partSizeThreshold then w
  else
    let blocks := w.waitingUploadBlocks.take part.2
    tryUploadPart
      { w with
        parts := w.parts ++ [blocks.flatMap DataBlock.encoded]
        waitingUploadBlocks := w.waitingUploadBlocks.drop part.2
        waitingUploadSize := w.waitingUploadSize - (blocks.map DataBlock.size).sum
        completedBlocks := w.completedBlocks ++ blocks }
termination_by w.waitingUploadBlocks.length
decreasing_by
  have hne : w.waitingUploadBlocks ≠ [] := by
    intro hnil
    apply _h
    have hmin := w.minPartSize_le
    simp only [part, hnil, nextPart]
    exact Nat.lt_of_lt_of_le (by decide) hmin
  have htake := nextPart_take w.partSizeThreshold 0 0 _ hne
  have hlength := length_pos_iff.mpr hne
  rw [length_drop]
  omega

/-- Write records of a stream. -/
def write (w : ObjectWriter) (streamId : UInt64) (records : List StreamRecordBatch) :
    Except ObjectError ObjectWriter := do
  let last ← w.check streamId records
  let (groups, groupAcc) := groupByBlock w.blockSizeThreshold w.groupAcc [] records
  let blocks := groups.map (DataBlock.new streamId)
  let w := { w with
    last
    groupAcc
    waitingUploadBlocks := w.waitingUploadBlocks ++ blocks
    waitingUploadSize := w.waitingUploadSize + (blocks.map DataBlock.size).sum }
  return if w.waitingUploadSize ≥ w.partSizeThreshold then w.tryUploadPart else w

/-- Write the blocks that are left, the index and the footer. -/
def close (w : ObjectWriter) : ObjectWriter :=
  let completedBlocks := w.completedBlocks ++ w.waitingUploadBlocks
  let indexPosition := (completedBlocks.map fun b => UInt64.ofNat b.size).sum
  let index := encodeIndex (blockIndexes 0 completedBlocks)
  { w with
    parts := w.parts ++ [w.waitingUploadBlocks.flatMap DataBlock.encoded ++ index ++
      footer indexPosition (UInt32.ofNat index.length)]
    waitingUploadBlocks := []
    waitingUploadSize := 0
    completedBlocks
    objectSize := indexPosition + UInt64.ofNat index.length + UInt64.ofNat footerSize }

/-- What the object storage holds after the upload. -/
def object (w : ObjectWriter) : List UInt8 := w.parts.flatten

end ObjectWriter

/-! ### What a writer has written -/

/-- A call of `write`. -/
abbrev Call : Type := UInt64 × List StreamRecordBatch

/-- The records of a call are valid and follow one another without a gap. -/
structure Call.Valid (c : Call) : Prop where
  records : ∀ r ∈ c.2, r.Valid
  laid : ∃ a, Laid StreamRecordBatch.lo StreamRecordBatch.hi a c.2

theorem Call.Valid.lo_le_hi {c : Call} (h : c.Valid) :
  ∀ r ∈ c.2, r.lo ≤ r.hi
  := fun r hr => Nat.le_of_lt (h.records r hr).lo_lt_hi

/-- The records of a call with the stream they are written for. -/
def Call.tagged (c : Call) : List (UInt64 × StreamRecordBatch) := c.2.map fun r => (c.1, r)

/-- The records of a block with the stream they were written for. -/
abbrev Group : Type := UInt64 × Records

namespace Group

def block (g : Group) : DataBlock := DataBlock.new g.1 g.2

def call (g : Group) : Call := (g.1, g.2.1)

/-- One block comes before another: its stream is lower, or it is the same and its records come
before. -/
def Before (g g' : Group) : Prop :=
  g.1 < g'.1 ∨ g.1 = g'.1 ∧ ∀ r ∈ g.2.1, ∀ r' ∈ g'.2.1, r.hi ≤ r'.lo

end Group

theorem groupByBlock_flatten (threshold groupAcc : Nat)
    (blockRecords records : List StreamRecordBatch) :
  ((groupByBlock threshold groupAcc blockRecords records).1.map Subtype.val).flatten =
    blockRecords ++ records
  := by
  induction records generalizing groupAcc blockRecords with
  | nil =>
    unfold groupByBlock
    split
    next h =>
      rw [h]
      rfl
    next => rfl
  | cons record records ih =>
    unfold groupByBlock
    split
    · rw [map_cons, flatten_cons, ih, nil_append, append_assoc,
        singleton_append]
    · rw [ih, append_assoc, singleton_append]

namespace ObjectWriter

/-- Uploading parts moves blocks from the waiting ones to the completed ones. -/
theorem tryUploadPart_spec (w : ObjectWriter) :
  w.tryUploadPart.completedBlocks ++ w.tryUploadPart.waitingUploadBlocks =
      w.completedBlocks ++ w.waitingUploadBlocks ∧
    (w.parts.flatten = w.completedBlocks.flatMap DataBlock.encoded →
      w.tryUploadPart.parts.flatten =
        w.tryUploadPart.completedBlocks.flatMap DataBlock.encoded) ∧
    w.tryUploadPart.last = w.last
  := by
  fun_induction tryUploadPart w with
  | case1 w part h => exact ⟨rfl, fun h => h, rfl⟩
  | case2 w part h blocks ih =>
    obtain ⟨hblocks, hparts, hlast⟩ := ih
    refine ⟨?_, fun hflatten => hparts ?_, hlast⟩
    · rw [hblocks, append_assoc, take_append_drop]
    · rw [flatten_append, hflatten, flatten_singleton, flatMap_append]

/-- What was written: the blocks hold the records of the calls in their order, and each block comes
before the next. -/
structure Written (calls : List Call) (groups : List Group) (w : ObjectWriter) : Prop where
  blocks : w.completedBlocks ++ w.waitingUploadBlocks = groups.map Group.block
  parts : w.parts.flatten = w.completedBlocks.flatMap DataBlock.encoded
  records : (groups.map Group.call).flatMap Call.tagged = calls.flatMap Call.tagged
  valid : ∀ g ∈ groups, g.call.Valid
  sorted : groups.Pairwise Group.Before
  last : ∀ g ∈ groups, ∃ k e, w.last = some (k, e) ∧
    (g.1 < k ∨ g.1 = k ∧ ∀ r ∈ g.2.1, r.hi ≤ e.toNat)

theorem written_open (blockSizeThreshold partSizeThreshold : Nat) :
  Written [] [] (openWriter blockSizeThreshold partSizeThreshold)
  := ⟨rfl, rfl, rfl, nofun, List.Pairwise.nil, nofun⟩

variable {w : ObjectWriter} {records : List StreamRecordBatch} {last : Option (UInt64 × UInt64)}

theorem check_ok {streamId : UInt64} (h : w.check streamId records = .ok last) (hne : records ≠ []) :
  last = some (streamId, (records.getLast hne).lastOffset) ∧
    ∀ k e, w.last = some (k, e) → k ≤ streamId ∧
      (k = streamId → e ≤ (records.head hne).baseOffset)
  := by
  unfold check at h
  rw [head?_eq_some_head hne, getLast?_eq_some_getLast hne] at h
  dsimp only at h
  split at h
  next hnone =>
    refine ⟨(Except.ok.inj h).symm, fun k e hlast => ?_⟩
    rw [hnone] at hlast
    cases hlast
  next k e hsome =>
    split at h
    · cases h
    next hstream =>
      split at h
      · cases h
      next hoffset =>
        refine ⟨(Except.ok.inj h).symm, fun k' e' hlast => ?_⟩
        rw [hsome] at hlast
        cases hlast
        refine ⟨UInt64.not_lt.mp hstream, fun heq => ?_⟩
        by_contra hlt
        exact hoffset ⟨heq, UInt64.not_le.mp hlt⟩

theorem check_nil {streamId : UInt64} (h : w.check streamId [] = .ok last) :
  last = w.last
  := (Except.ok.inj h).symm

variable {calls : List Call} {groups : List Group}

theorem Written.tryUploadPart (h : Written calls groups w) :
  Written calls groups w.tryUploadPart
  := by
  obtain ⟨hblocks, hparts, hlast⟩ := w.tryUploadPart_spec
  refine ⟨hblocks.trans h.blocks, hparts h.parts, h.records, h.valid, h.sorted, ?_⟩
  rw [hlast]
  exact h.last

/-- The blocks of one call. -/
theorem groups_of_call {k : UInt64} {blocks : List Records} (hcall : Call.Valid (k, records))
    (hblocks : (blocks.map Subtype.val).flatten = records) :
  (∀ rs ∈ blocks, Group.call (k, rs) |>.Valid) ∧
    (blocks.map fun rs => ((k, rs) : Group)).Pairwise Group.Before ∧
    (∀ rs ∈ blocks, ∀ r ∈ rs.1, r ∈ records) ∧
    ((blocks.map fun rs => ((k, rs) : Group)).map Group.call).flatMap Call.tagged =
      Call.tagged (k, records)
  := by
  obtain ⟨a, hlaid⟩ := hcall.laid
  have hmem : ∀ rs ∈ blocks, ∀ r ∈ rs.1, r ∈ records := by
    intro rs hrs r hr
    rw [← hblocks]
    exact mem_flatten.mpr ⟨rs.1, mem_map_of_mem hrs, hr⟩
  have hpairwise := (hlaid.pairwise hcall.lo_le_hi).1
  rw [← hblocks] at hlaid
  rw [← hblocks, pairwise_flatten] at hpairwise
  refine ⟨fun rs hrs => ⟨fun r hr => hcall.records r (hmem rs hrs r hr), ?_⟩, ?_, hmem, ?_⟩
  · exact hlaid.of_mem_parts (mem_map_of_mem hrs)
  · apply pairwise_map.mpr
    apply (pairwise_map.mp hpairwise.2).imp
    exact fun h => .inr ⟨rfl, h⟩
  · rw [Call.tagged, ← hblocks, map_flatten, map_map, map_map, flatMap_def,
      map_map]
    rfl

theorem Written.write {w' : ObjectWriter} (h : Written calls groups w) {k : UInt64}
    (hcall : Call.Valid (k, records)) (hok : w.write k records = .ok w') :
  ∃ groups', Written (calls ++ [(k, records)]) groups' w'
  := by
  rw [ObjectWriter.write, ok_of_do] at hok
  obtain ⟨last, hcheck, hok⟩ := hok
  have hflatten := groupByBlock_flatten w.blockSizeThreshold w.groupAcc [] records
  rw [nil_append] at hflatten
  revert hok hflatten
  rcases groupByBlock w.blockSizeThreshold w.groupAcc [] records with ⟨blocks, groupAcc⟩
  intro hok hflatten
  dsimp only at hok hflatten
  obtain ⟨hvalid, hsorted, hmem, htagged⟩ := groups_of_call hcall hflatten
  -- with no records there are no blocks, so there is a last record to compare with
  have hlast : ∀ rs ∈ blocks, (∃ e, last = some (k, e) ∧ ∀ r ∈ rs.1, r.hi ≤ e.toNat) ∧
      ∀ g ∈ groups, g.Before (k, rs) := by
    intro rs hrs
    have hne : records ≠ [] := ne_nil_of_mem (hmem rs hrs _ (head_mem rs.2))
    obtain ⟨hlast, hfrom⟩ := check_ok hcheck hne
    obtain ⟨a, hlaid⟩ := hcall.laid
    constructor
    · refine ⟨_, hlast, fun r hr => ?_⟩
      have hreach := (hlaid.le_reach hcall.lo_le_hi).2 r (hmem rs hrs r hr)
      rw [reach, getLast?_eq_some_getLast hne] at hreach
      exact hreach
    · intro g hg
      obtain ⟨k₀, e₀, hlast₀, hbefore⟩ := h.last g hg
      obtain ⟨hle, hstart⟩ := hfrom k₀ e₀ hlast₀
      rcases hbefore with hlt | ⟨rfl, hends⟩
      · exact .inl (UInt64.lt_of_lt_of_le hlt hle)
      · rcases UInt64.lt_or_eq_of_le hle with hlt | rfl
        · exact .inl hlt
        · refine .inr ⟨rfl, fun r hr r' hr' => ?_⟩
          have hfirst : (records.head hne).lo ≤ r'.lo := by
            have hhead : (records.head hne).lo = a := by
              revert hlaid
              cases records with
              | nil => exact absurd rfl hne
              | cons x l => exact fun hlaid => hlaid.1
            rw [hhead]
            exact (hlaid.pairwise hcall.lo_le_hi).2 r' (hmem rs hrs r' hr')
          have hoffset := UInt64.le_iff_toNat_le.mp (hstart rfl)
          exact ((hends r hr).trans hoffset).trans hfirst
  have hwritten : Written (calls ++ [(k, records)]) (groups ++ blocks.map fun rs => (k, rs))
      { w with
        last
        groupAcc
        waitingUploadBlocks := w.waitingUploadBlocks ++ blocks.map (DataBlock.new k)
        waitingUploadSize := w.waitingUploadSize +
          ((blocks.map (DataBlock.new k)).map DataBlock.size).sum } := by
    refine ⟨?_, h.parts, ?_, ?_, ?_, ?_⟩
    · rw [← append_assoc, h.blocks, map_append, map_map]
      rfl
    · rw [map_append, flatMap_append, h.records, htagged, flatMap_append,
        flatMap_singleton]
    · intro g hg
      rcases mem_append.mp hg with hg | hg
      · exact h.valid g hg
      · obtain ⟨rs, hrs, rfl⟩ := mem_map.mp hg
        exact hvalid rs hrs
    · refine pairwise_append.mpr ⟨h.sorted, hsorted, fun g hg g' hg' => ?_⟩
      obtain ⟨rs, hrs, rfl⟩ := mem_map.mp hg'
      exact (hlast rs hrs).2 g hg
    · intro g hg
      rcases mem_append.mp hg with hg | hg
      · cases hblocks : blocks with
        | nil =>
          rw [hblocks] at hflatten
          obtain rfl : [] = records := hflatten
          rw [check_nil hcheck]
          exact h.last g hg
        | cons rs rest =>
          have hrs : rs ∈ blocks := hblocks ▸ mem_cons_self
          obtain ⟨⟨e, heq, hends⟩, hbefore⟩ := hlast rs hrs
          refine ⟨k, e, heq, ?_⟩
          rcases hbefore g hg with hlt | ⟨hsame, horder⟩
          · exact .inl hlt
          · refine .inr ⟨hsame, fun r hr => ?_⟩
            have hhead := head_mem rs.2
            exact ((horder r hr _ hhead).trans (hcall.lo_le_hi _ (hmem rs hrs _ hhead))).trans
              (hends _ hhead)
      · obtain ⟨rs, hrs, rfl⟩ := mem_map.mp hg
        obtain ⟨⟨e, heq, hends⟩, -⟩ := hlast rs hrs
        exact ⟨k, e, heq, .inr ⟨rfl, hends⟩⟩
  rw [ok_of_return] at hok
  refine ⟨groups ++ blocks.map fun rs => (k, rs), ?_⟩
  rw [← hok]
  split
  · exact hwritten.tryUploadPart
  · exact hwritten

/-- Write the records of calls one after the other. -/
def writeAll (w : ObjectWriter) (calls : List Call) : Except ObjectError ObjectWriter :=
  calls.foldlM (fun w c => w.write c.1 c.2) w

theorem Written.writeAll {done : List Call} {w' : ObjectWriter} (h : Written done groups w)
    (hcalls : ∀ c ∈ calls, c.Valid) (hok : w.writeAll calls = .ok w') :
  ∃ groups', Written (done ++ calls) groups' w'
  := by
  induction calls generalizing done groups w with
  | nil =>
    obtain rfl := ok_of_return.mp hok
    rw [append_nil]
    exact ⟨groups, h⟩
  | cons c calls ih =>
    rw [ObjectWriter.writeAll, foldlM_cons, ok_of_do] at hok
    obtain ⟨w₁, hw₁, hok⟩ := hok
    obtain ⟨groups₁, h₁⟩ := h.write (hcalls c mem_cons_self) hw₁
    rw [append_cons]
    exact ih h₁ (fun c' hc' => hcalls c' (mem_cons_of_mem c hc')) hok

end ObjectWriter

end Object
