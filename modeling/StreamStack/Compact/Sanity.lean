import StreamStack.Compact.Fetch
import StreamStack.Metadata.State

/-!
# The sanity check

Before a request replaces stream-set objects, their compaction checks that the ranges it writes
cover every block that is still needed. The ranges of a stream are sorted and merged, and a block
has to lie within one of the merged ranges. As merged ranges do not touch, a block that has all its
offsets in some range lies within one of them.
-/

namespace Compact

open Metadata List

/-! ### The check -/

/-- The blocks of objects under the ids of the objects. The source keeps them in a hash map, whose
order is not fixed. -/
abbrev BlockMap : Type := List (UInt64 × List StreamDataBlock)

namespace BlockMap

def get? (m : BlockMap) (objectId : UInt64) : Option (List StreamDataBlock) :=
  (m.find? fun e => e.1 = objectId).map Prod.snd

theorem mem_of_get? {m : BlockMap} {objectId : UInt64} {blocks : List StreamDataBlock}
    (h : m.get? objectId = some blocks) :
  (objectId, blocks) ∈ m
  := by
  obtain ⟨⟨id, blocks'⟩, hfind, rfl⟩ := Option.map_eq_some_iff.mp h
  obtain rfl : id = objectId := by simpa using find?_some hfind
  exact mem_of_find?_eq_some hfind

end BlockMap

/-- The start offset of a stream; of several entries for it the last one counts. -/
def startOffsetOfStream (streams : List StreamMetadata) (streamId : UInt64) : Option UInt64 :=
  (streams.reverse.find? fun m => m.streamId = streamId).map StreamMetadata.startOffset

/-- Merge ranges that touch or overlap; they come sorted. -/
def mergeRanges (ranges : List (UInt64 × UInt64)) : List (UInt64 × UInt64) :=
  ranges.foldl (fun out range =>
    match out.getLast? with
    | some last =>
      if range.1 ≤ last.2 then out.dropLast ++ [(last.1, max last.2 range.2)]
      else out ++ [range]
    | none => [range]) []

/-- The ranges of a stream that a request writes. -/
def outputRanges (request : CommitStreamSetObjectRequest) (streamId : UInt64) :
    List (UInt64 × UInt64) :=
  ((request.streamRanges.filter fun r => r.streamId = streamId).map
      fun r => (r.startOffset, r.endOffset)) ++
    (request.streamObjects.filter fun o => o.streamId = streamId).map
      fun o => (o.startOffset, o.endOffset)

/-- Some block of a replaced object is not covered. -/
def isSanityCheckFailed (streams : List StreamMetadata) (m : BlockMap)
    (request : CommitStreamSetObjectRequest) : Bool :=
  request.compactedObjectIds.any fun objectId =>
    ((m.get? objectId).getD []).any fun block =>
      (startOffsetOfStream streams block.streamId).any fun start =>
        block.endOffset > start &&
        !(mergeRanges ((outputRanges request block.streamId).insertionSort
            fun a b => a.1 < b.1 ∨ (a.1 = b.1 ∧ a.2 ≤ b.2))).any
          fun range => range.1 ≤ block.startOffset && block.endOffset ≤ range.2

/-! ### Merged ranges -/

/-- Some range, from its start up to its end, has the offset. -/
def Holds (ranges : List (UInt64 × UInt64)) (x : UInt64) : Prop :=
  ∃ r ∈ ranges, r.1 ≤ x ∧ x < r.2

/-- What ranges are merged to: they hold the same offsets and do not touch. -/
structure Merged (ranges out : List (UInt64 × UInt64)) : Prop where
  holds : ∀ x, Holds out x ↔ Holds ranges x
  starts : ∀ r ∈ out, ∃ range ∈ ranges, range.1 = r.1
  apart : out.Pairwise fun r r' => r.2 < r'.1

variable {ranges out : List (UInt64 × UInt64)} {range last : UInt64 × UInt64}

theorem mergeRanges_snoc (ranges : List (UInt64 × UInt64)) (range : UInt64 × UInt64) :
  mergeRanges (ranges ++ [range]) =
    match (mergeRanges ranges).getLast? with
    | some last =>
      if range.1 ≤ last.2 then (mergeRanges ranges).dropLast ++ [(last.1, max last.2 range.2)]
      else mergeRanges ranges ++ [range]
    | none => [range]
  := by
  rw [mergeRanges, foldl_append]
  rfl

theorem holds_append (x : UInt64) :
  Holds (ranges ++ out) x ↔ Holds ranges x ∨ Holds out x
  := by
  simp only [Holds, mem_append, or_and_right, exists_or]

theorem holds_singleton (x : UInt64) :
  Holds [range] x ↔ range.1 ≤ x ∧ x < range.2
  := by
  simp only [Holds, mem_singleton, exists_eq_left]

/-- A range that starts after all merged ones is added. -/
theorem Merged.push (h : Merged ranges out) (hapart : ∀ r ∈ out, r.2 < range.1) :
  Merged (ranges ++ [range]) (out ++ [range])
  where
  holds x := by rw [holds_append, holds_append, h.holds x]
  starts := by
    intro r hr
    rcases mem_append.mp hr with hr | hr
    · obtain ⟨first, hfirst, hstart⟩ := h.starts r hr
      exact ⟨first, mem_append_left _ hfirst, hstart⟩
    · exact ⟨r, mem_append_right _ hr, rfl⟩
  apart := by
    refine pairwise_append.mpr ⟨h.apart, pairwise_singleton _ _, fun r hr r' hr' => ?_⟩
    cases mem_singleton.mp hr'
    exact hapart r hr

theorem lt_max_iff_or (x a b : UInt64) :
  x < max a b ↔ x < a ∨ x < b
  := by
  change x < (if a ≤ b then b else a) ↔ x < a ∨ x < b
  simp only [UInt64.lt_iff_toNat_lt, UInt64.le_iff_toNat_le]
  split
  · omega
  · omega

/-- A range that starts within the last one or at its end extends it. -/
theorem Merged.extend (h : Merged ranges (out ++ [last])) (hstart : last.1 ≤ range.1)
    (htouch : range.1 ≤ last.2) :
  Merged (ranges ++ [range]) (out ++ [(last.1, max last.2 range.2)])
  where
  holds x := by
    have hx := h.holds x
    rw [holds_append, holds_singleton] at hx ⊢
    rw [holds_append, holds_singleton, ← hx, lt_max_iff_or, or_assoc]
    apply or_congr_right
    simp only [UInt64.lt_iff_toNat_lt, UInt64.le_iff_toNat_le] at hstart htouch ⊢
    omega
  starts := by
    intro r hr
    rcases mem_append.mp hr with hr | hr
    · obtain ⟨first, hfirst, hstart⟩ := h.starts r (mem_append_left _ hr)
      exact ⟨first, mem_append_left _ hfirst, hstart⟩
    · cases mem_singleton.mp hr
      obtain ⟨first, hfirst, hstart⟩ := h.starts last (mem_append_right _ mem_cons_self)
      exact ⟨first, mem_append_left _ hfirst, hstart⟩
  apart := by
    have hapart := h.apart
    rw [pairwise_append] at hapart ⊢
    refine ⟨hapart.1, pairwise_singleton _ _, fun r hr r' hr' => ?_⟩
    cases mem_singleton.mp hr'
    exact hapart.2.2 r hr last mem_cons_self

theorem mergeRanges_merged (hsorted : ranges.Pairwise fun a b => a.1 ≤ b.1) :
  Merged ranges (mergeRanges ranges)
  := by
  induction ranges using reverseRecOn with
  | nil => exact ⟨fun _ => Iff.rfl, nofun, .nil⟩
  | append_singleton ranges range ih =>
    obtain ⟨hsorted, -, hlast⟩ := pairwise_append.mp hsorted
    have h := ih hsorted
    rw [mergeRanges_snoc]
    split
    next last hout =>
      obtain ⟨out, heq⟩ := getLast?_eq_some_iff.mp hout
      rw [heq] at h ⊢
      obtain ⟨first, hfirst, hstart⟩ := h.starts last (mem_append_right _ mem_cons_self)
      have hstarts := hlast first hfirst range mem_cons_self
      rw [hstart] at hstarts
      split
      next htouch =>
        rw [dropLast_concat]
        exact h.extend hstarts htouch
      next hafter =>
        apply h.push
        intro r hr
        rcases mem_append.mp hr with hr | hr
        · have hapart := (pairwise_append.mp h.apart).2.2 r hr last mem_cons_self
          exact UInt64.lt_of_lt_of_le hapart hstarts
        · cases mem_singleton.mp hr
          exact UInt64.not_le.mp hafter
    next hout =>
      rw [getLast?_eq_none_iff.mp hout] at h
      exact h.push nofun

/-- A block that has all its offsets in the ranges lies within one that they are merged to. -/
theorem Merged.within_iff (h : Merged ranges out) {s e : UInt64} (hblock : s < e) :
  (∃ r ∈ out, r.1 ≤ s ∧ e ≤ r.2) ↔ ∀ x, s ≤ x → x < e → Holds ranges x
  := by
  constructor
  · rintro ⟨r, hr, hs, he⟩ x hx hlt
    exact (h.holds x).mp ⟨r, hr, UInt64.le_trans hs hx, UInt64.lt_of_lt_of_le hlt he⟩
  · intro hall
    obtain ⟨r, hr, hs, hlt⟩ := (h.holds s).mpr (hall s (UInt64.le_refl s) hblock)
    refine ⟨r, hr, hs, UInt64.not_lt.mp fun hend => ?_⟩
    -- The end of the range is an offset of the block, and no other range has it.
    obtain ⟨r', hr', hs', hlt'⟩ := (h.holds r.2).mpr (hall r.2 (UInt64.le_of_lt hlt) hend)
    have hapart : r = r' ∨ r.2 < r'.1 ∨ r'.2 < r.1 := by
      obtain ⟨i, hi, rfl⟩ := getElem_of_mem hr
      obtain ⟨j, hj, rfl⟩ := getElem_of_mem hr'
      have hapart := pairwise_iff_getElem.mp h.apart
      rcases Nat.lt_trichotomy i j with hij | rfl | hij
      · exact .inr (.inl (hapart i j hi hj hij))
      · exact .inl rfl
      · exact .inr (.inr (hapart j i hj hi hij))
    simp only [UInt64.lt_iff_toNat_lt, UInt64.le_iff_toNat_le] at *
    rcases hapart with rfl | hbefore | hafter
    · omega
    · omega
    · omega

/-- A block lies within a merged range of sorted ranges when they have all its offsets. -/
theorem any_mergeRanges_iff (ranges : List (UInt64 × UInt64)) {s e : UInt64} (hblock : s < e) :
  ((mergeRanges (ranges.insertionSort fun a b => a.1 < b.1 ∨ (a.1 = b.1 ∧ a.2 ≤ b.2))).any
      fun range => range.1 ≤ s && e ≤ range.2) = true ↔
    ∀ x, s ≤ x → x < e → Holds ranges x
  := by
  have htotal : Std.Total fun a b : UInt64 × UInt64 => a.1 < b.1 ∨ (a.1 = b.1 ∧ a.2 ≤ b.2) := by
    refine ⟨fun a b => ?_⟩
    simp only [UInt64.lt_iff_toNat_lt, UInt64.le_iff_toNat_le, ← UInt64.toNat_inj]
    omega
  have htrans : IsTrans (UInt64 × UInt64) fun a b => a.1 < b.1 ∨ (a.1 = b.1 ∧ a.2 ≤ b.2) := by
    refine ⟨fun a b c => ?_⟩
    simp only [UInt64.lt_iff_toNat_lt, UInt64.le_iff_toNat_le, ← UInt64.toNat_inj]
    omega
  have hsorted := (pairwise_insertionSort (fun a b : UInt64 × UInt64 =>
      a.1 < b.1 ∨ (a.1 = b.1 ∧ a.2 ≤ b.2)) ranges).imp
    (S := fun a b => a.1 ≤ b.1) fun h => h.elim UInt64.le_of_lt fun h => h.1 ▸ UInt64.le_refl _
  have hwithin := (mergeRanges_merged hsorted).within_iff hblock
  simp only [Holds, mem_insertionSort] at hwithin
  simpa only [Holds, any_eq_true, Bool.and_eq_true, decide_eq_true_eq] using hwithin

variable {streams : List StreamMetadata} {m : BlockMap} {request : CommitStreamSetObjectRequest}

/-- The check passes exactly when every offset of every block that is still needed, in an object
that is replaced, is in some range that the request writes for its stream. -/
theorem isSanityCheckFailed_eq_false_iff
    (hblocks : ∀ objectId blocks, m.get? objectId = some blocks →
      ∀ b ∈ blocks, b.startOffset < b.endOffset) :
  isSanityCheckFailed streams m request = false ↔
    ∀ objectId ∈ request.compactedObjectIds, ∀ blocks, m.get? objectId = some blocks →
      ∀ b ∈ blocks, ∀ start, startOffsetOfStream streams b.streamId = some start →
        start < b.endOffset → ∀ x, b.startOffset ≤ x → x < b.endOffset →
          Holds (outputRanges request b.streamId) x
  := by
  rw [isSanityCheckFailed, any_eq_false]
  refine forall₂_congr fun objectId _ => ?_
  rw [Bool.not_eq_true, any_eq_false]
  cases hget : m.get? objectId with
  | none => simp
  | some blocks =>
    simp only [Option.getD_some, Option.some.injEq, forall_eq']
    refine forall₂_congr fun b hb => ?_
    rw [← any_mergeRanges_iff _ (hblocks objectId blocks hget b hb)]
    cases startOffsetOfStream streams b.streamId with
    | none => simp
    | some start => simp

/-- Replace an object with one block by two ranges that meet inside of the block. -/
def meetingRequest : CommitStreamSetObjectRequest :=
  ⟨9, 0, 0, [⟨1, 0, 3, 6, 0⟩, ⟨1, 0, 0, 3, 0⟩], [], [5]⟩

def meetingBlocks : BlockMap := [(5, [⟨5, ⟨0, 1, 2, 3, 3, 0, 60⟩⟩])]

theorem sanityCheck_meetingRequest :
  isSanityCheckFailed [⟨1, 0, 0, 6, .opened, 1⟩] meetingBlocks meetingRequest = false ∧
    ∀ x, 2 ≤ x → x < 5 → Holds (outputRanges meetingRequest 1) x
  := by
  have hpasses : isSanityCheckFailed [⟨1, 0, 0, 6, .opened, 1⟩] meetingBlocks meetingRequest =
      false := by decide +kernel
  refine ⟨hpasses, ?_⟩
  refine (isSanityCheckFailed_eq_false_iff fun objectId blocks hget b hb => ?_).mp hpasses 5
    mem_cons_self _ rfl _ mem_cons_self 0 (by decide +kernel) (by decide)
  cases mem_singleton.mp (BlockMap.mem_of_get? hget)
  cases mem_singleton.mp hb
  decide

end Compact
