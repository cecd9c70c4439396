import StreamStack.Lib.Bisect
import StreamStack.Object.Reader

/-!
# Looking up a range

The entries of an index are in the order of streams and offsets. The block with the first offset of
a range is found by binary search, and the blocks that continue it are taken until the range or the
limit on bytes is reached.
-/

namespace Object

open Spans List
open Wal (StreamRecordBatch)

/-! ### The lookup -/

/-- The result of a lookup. -/
structure FindIndexResult where
  fulfilled : Bool
  nextStartOffset : UInt64
  nextMaxBytes : Nat
  blocks : List DataBlockIndex
deriving DecidableEq, Repr

/-- A block is less when it ends before the offset, and greater when it starts after it. -/
def compareTo (streamId offset : UInt64) (e : DataBlockIndex) : Ordering :=
  if e.streamId < streamId ∨ (e.streamId = streamId ∧ e.endOffset ≤ offset) then .lt
  else if e.streamId > streamId ∨ (e.streamId = streamId ∧ e.startOffset > offset) then .gt
  else .eq

/-- The place of the block that contains an offset. -/
def search (entries : List DataBlockIndex) (streamId offset : UInt64) : Except Nat Nat :=
  Bisect.search (compareTo streamId offset) entries 0 (entries.length - 1)

/-- The bytes of the payloads of a block. -/
def recordPayloadSize (e : DataBlockIndex) : Nat :=
  e.size.toNat - e.recordCount.toNat * StreamRecordBatch.headerSize - blockHeaderSize

/-- Take blocks as long as they continue the range. Only a block that the range enters at its start
counts against the limit on bytes. -/
def findFrom (streamId endOffset : UInt64) :
    Bool → FindIndexResult → List DataBlockIndex → FindIndexResult
  | _, r, [] => r
  | matched, r, e :: entries =>
    if e.streamId = streamId then
      if r.nextStartOffset < e.startOffset then r
      else if e.endOffset ≤ r.nextStartOffset then findFrom streamId endOffset matched r entries
      else
        let matched := decide (r.nextStartOffset = e.startOffset)
        let r := { r with
          nextStartOffset := e.endOffset
          nextMaxBytes :=
            if matched then r.nextMaxBytes - min r.nextMaxBytes (recordPayloadSize e)
            else r.nextMaxBytes
          blocks := r.blocks ++ [e] }
        if (endOffset ≠ noopOffset ∧ r.nextStartOffset ≥ endOffset) ∨ r.nextMaxBytes = 0 then
          { r with fulfilled := true }
        else findFrom streamId endOffset matched r entries
    else if matched then r
    else findFrom streamId endOffset matched r entries

/-- The blocks for a range of a stream. -/
def find (entries : List DataBlockIndex) (streamId startOffset endOffset : UInt64)
    (maxBytes : Nat) : FindIndexResult :=
  match search entries streamId startOffset with
  | .error _ => ⟨false, startOffset, maxBytes, []⟩
  | .ok i => findFrom streamId endOffset false ⟨false, startOffset, maxBytes, []⟩ (entries.drop i)

/-! ### Ordered entries -/

namespace DataBlockIndex

def lo (e : DataBlockIndex) : Nat := e.startOffset.toNat

def hi (e : DataBlockIndex) : Nat := e.endOffset.toNat

/-- One entry comes before another. -/
def Before (e e' : DataBlockIndex) : Prop :=
  e.streamId < e'.streamId ∨ e.streamId = e'.streamId ∧ e.hi ≤ e'.lo
deriving Decidable

end DataBlockIndex

/-- The entries are in order and none is empty. -/
structure Ordered (entries : List DataBlockIndex) : Prop where
  sorted : entries.Pairwise DataBlockIndex.Before
  nonempty : ∀ e ∈ entries, e.lo < e.hi

variable {e : DataBlockIndex} {entries : List DataBlockIndex}

theorem Ordered.tail (h : Ordered (e :: entries)) :
  Ordered entries
  := ⟨h.sorted.of_cons, fun e' he' => h.nonempty e' (mem_cons_of_mem e he')⟩

theorem Ordered.right {p q : List DataBlockIndex} (h : Ordered (p ++ q)) :
  Ordered q
  := ⟨(pairwise_append.mp h.sorted).2.1,
    fun e he => h.nonempty e (mem_append_right p he)⟩

/-- The entries after the first one are of the same stream, further on, or of later streams. -/
theorem Ordered.after_head (h : Ordered (e :: entries)) :
  ∀ e' ∈ entries, e.streamId ≤ e'.streamId ∧ (e'.streamId = e.streamId → e.hi ≤ e'.lo)
  := by
  intro e' he'
  rcases (pairwise_cons.mp h.sorted).1 e' he' with hlt | ⟨heq, hends⟩
  · refine ⟨UInt64.le_of_lt hlt, fun heq => ?_⟩
    rw [heq] at hlt
    exact absurd hlt (UInt64.lt_irrefl _)
  · exact ⟨heq ▸ UInt64.le_refl _, fun _ => hends⟩

/-- The entry contains the offset. -/
def Contains (streamId : UInt64) (offset : Nat) (e : DataBlockIndex) : Prop :=
  e.streamId = streamId ∧ e.lo ≤ offset ∧ offset < e.hi

variable {streamId offset : UInt64}

theorem compareTo_lt_iff :
  compareTo streamId offset e = .lt ↔
    e.streamId.toNat < streamId.toNat ∨ e.streamId.toNat = streamId.toNat ∧ e.hi ≤ offset.toNat
  := by
  unfold compareTo DataBlockIndex.hi
  simp only [UInt64.lt_iff_toNat_lt, UInt64.le_iff_toNat_le, ← UInt64.toNat_inj]
  split
  next h => exact ⟨fun _ => h, fun _ => rfl⟩
  next h =>
    refine ⟨fun heq => ?_, fun hlt => absurd hlt h⟩
    split at heq
    · cases heq
    · cases heq

theorem compareTo_gt_iff (he : e.lo < e.hi) :
  compareTo streamId offset e = .gt ↔
    streamId.toNat < e.streamId.toNat ∨ e.streamId.toNat = streamId.toNat ∧ offset.toNat < e.lo
  := by
  unfold DataBlockIndex.lo DataBlockIndex.hi at he
  unfold compareTo DataBlockIndex.lo
  simp only [UInt64.lt_iff_toNat_lt, UInt64.le_iff_toNat_le, ← UInt64.toNat_inj, gt_iff_lt]
  split
  next h =>
    refine ⟨nofun, fun hgt => ?_⟩
    omega
  next =>
    split
    next h => exact ⟨fun _ => h, fun _ => rfl⟩
    next h => exact ⟨nofun, fun hgt => absurd hgt h⟩

theorem compareTo_eq_iff (he : e.lo < e.hi) :
  compareTo streamId offset e = .eq ↔ Contains streamId offset.toNat e
  := by
  have hlt := @compareTo_lt_iff e streamId offset
  have hgt := @compareTo_gt_iff e streamId offset he
  unfold Contains
  rw [← UInt64.toNat_inj]
  cases hcompare : compareTo streamId offset e with
  | lt =>
    have hless := hlt.mp hcompare
    exact ⟨nofun, fun h => by omega⟩
  | gt =>
    have hgreater := hgt.mp hcompare
    exact ⟨nofun, fun h => by omega⟩
  | eq =>
    have hless : ¬ compareTo streamId offset e = .lt := by rw [hcompare]; nofun
    have hgreater : ¬ compareTo streamId offset e = .gt := by rw [hcompare]; nofun
    rw [hlt] at hless
    rw [hgt] at hgreater
    exact ⟨fun _ => by omega, fun _ => rfl⟩

theorem Ordered.sorted_compareTo (h : Ordered entries) (streamId offset : UInt64) :
  Bisect.Sorted (compareTo streamId offset) entries
  := by
  apply h.sorted.imp_of_mem
  intro e e' he he' hbefore
  have hbefore' : e.streamId.toNat < e'.streamId.toNat ∨
      e.streamId.toNat = e'.streamId.toNat ∧ e.hi ≤ e'.lo := by
    unfold DataBlockIndex.Before at hbefore
    rw [UInt64.lt_iff_toNat_lt, ← UInt64.toNat_inj] at hbefore
    exact hbefore
  have hlo := h.nonempty e he
  have hlo' := h.nonempty e' he'
  rw [compareTo_lt_iff, compareTo_lt_iff, compareTo_gt_iff hlo, compareTo_gt_iff hlo']
  constructor
  · intro hlt
    omega
  · intro hgt
    omega

/-- An offset is in one entry only. -/
theorem Ordered.unique (h : Ordered entries) {offset i j : Nat} {e' : DataBlockIndex}
    (hi : entries[i]? = some e) (hj : entries[j]? = some e') (he : Contains streamId offset e)
    (he' : Contains streamId offset e') :
  i = j
  := by
  have hbefore : ∀ {i j : Nat} {e e' : DataBlockIndex}, entries[i]? = some e →
      entries[j]? = some e' → i < j → Contains streamId offset e →
      ¬ Contains streamId offset e' := by
    intro i j e e' hgeti hgetj hlt he he'
    obtain ⟨hi, rfl⟩ := List.getElem?_eq_some_iff.mp hgeti
    obtain ⟨hj, rfl⟩ := List.getElem?_eq_some_iff.mp hgetj
    rcases pairwise_iff_getElem.mp h.sorted i j hi hj hlt with hstream | ⟨-, hends⟩
    · rw [he.1, he'.1] at hstream
      exact UInt64.lt_irrefl _ hstream
    · have hstart := he'.2.1
      have hend := he.2.2
      omega
  rcases Nat.lt_trichotomy i j with hlt | heq | hlt
  · exact absurd he' (hbefore hi hj hlt he)
  · exact heq
  · exact absurd he (hbefore hj hi hlt he')

/-- The search finds the entry that contains the offset. -/
theorem search_contains (h : Ordered entries) {i : Nat} (hi : entries[i]? = some e)
    (he : Contains streamId offset.toNat e) :
  search entries streamId offset = .ok i
  := by
  obtain ⟨hlt, -⟩ := List.getElem?_eq_some_iff.mp hi
  have heq := (compareTo_eq_iff (h.nonempty e (mem_of_getElem? hi))).mpr he
  obtain ⟨j, e', hsearch, hj, heq'⟩ := Bisect.search_ok (h.sorted_compareTo streamId offset) hi heq
    (Int.le_refl 0) (Int.natCast_nonneg i) (show (i : Int) ≤ entries.length - 1 by omega)
    (show (entries.length : Int) - 1 < entries.length by omega)
  have he' := (compareTo_eq_iff (h.nonempty e' (mem_of_getElem? hj))).mp heq'
  rw [search, hsearch, h.unique hi hj he he']

/-! ### The blocks that are found -/

/-- Blocks of a stream that follow one another from a point. -/
structure Continues (streamId : UInt64) (a : Nat) (blocks : List DataBlockIndex) : Prop where
  stream : ∀ e ∈ blocks, e.streamId = streamId
  laid : Laid DataBlockIndex.lo DataBlockIndex.hi a blocks

theorem continues_nil (streamId : UInt64) (a : Nat) :
  Continues streamId a []
  := ⟨nofun, trivial⟩

theorem Continues.cons {blocks : List DataBlockIndex} (hstream : e.streamId = streamId)
    (h : Continues streamId e.hi blocks) :
  Continues streamId e.lo (e :: blocks)
  := by
  refine ⟨fun e' he' => ?_, rfl, h.laid⟩
  rcases mem_cons.mp he' with rfl | he'
  · exact hstream
  · exact h.stream e' he'

theorem Continues.left {a : Nat} {p q : List DataBlockIndex} (h : Continues streamId a (p ++ q)) :
  Continues streamId a p
  := ⟨fun e he => h.stream e (mem_append_left q he), (laid_append.mp h.laid).1⟩

/-- The bytes of payloads in blocks. -/
def payloadSize (entries : List DataBlockIndex) : Nat := (entries.map recordPayloadSize).sum

theorem payloadSize_cons (e : DataBlockIndex) (entries : List DataBlockIndex) :
  payloadSize (e :: entries) = recordPayloadSize e + payloadSize entries
  := by
  rw [payloadSize, map_cons, sum_cons]
  rfl

/-- The chain at the front: the blocks of a stream that continue it from an offset. -/
def chainFrom (streamId : UInt64) : Nat → List DataBlockIndex → List DataBlockIndex
  | _, [] => []
  | a, e :: entries =>
    if e.streamId = streamId ∧ e.lo = a then e :: chainFrom streamId e.hi entries else []

theorem chainFrom_spec (streamId : UInt64) (a : Nat) (entries : List DataBlockIndex) :
  chainFrom streamId a entries <+: entries ∧ Continues streamId a (chainFrom streamId a entries)
  := by
  induction entries generalizing a with
  | nil => exact ⟨prefix_refl [], continues_nil streamId a⟩
  | cons e entries ih =>
    rw [chainFrom]
    split
    next h =>
      obtain ⟨hstream, rfl⟩ := h
      exact ⟨(prefix_cons_inj e).mpr (ih e.hi).1, (ih e.hi).2.cons hstream⟩
    next => exact ⟨ nil_prefix, continues_nil streamId a⟩

/-- The entries lie at or after an offset of a stream. -/
structure From (streamId : UInt64) (a : Nat) (entries : List DataBlockIndex) : Prop where
  ordered : Ordered entries
  stream : ∀ e ∈ entries, streamId ≤ e.streamId
  start : ∀ e ∈ entries, e.streamId = streamId → a ≤ e.lo

theorem Ordered.from_head (h : Ordered (e :: entries)) :
  From e.streamId e.hi entries
  := ⟨h.tail, fun e' he' => (h.after_head e' he').1, fun e' he' => (h.after_head e' he').2⟩

/-- Behind an entry that does not continue the stream there is none that does. -/
theorem From.gap {a : Nat} (h : From streamId a (e :: entries))
    (hne : ¬ (e.streamId = streamId ∧ e.lo = a)) :
  ∀ e' ∈ e :: entries, e'.streamId = streamId → a < e'.lo
  := by
  intro e' he' hstream
  have hle := h.start e mem_cons_self
  rcases mem_cons.mp he' with rfl | he'
  · exact Nat.lt_of_le_of_ne (hle hstream) fun heq => hne ⟨hstream, heq.symm⟩
  · obtain ⟨hlater, hends⟩ := h.ordered.after_head e' he'
    rw [hstream] at hlater hends
    have hsame := UInt64.le_antisymm hlater (h.stream e mem_cons_self)
    exact Nat.lt_of_le_of_lt (hle hsame)
      (Nat.lt_of_lt_of_le (h.ordered.nonempty e mem_cons_self) (hends hsame.symm))

/-- No entry continues the chain. -/
theorem From.chainFrom_ends {a : Nat} (h : From streamId a entries) :
  ∀ e ∈ entries, e.streamId = streamId →
    e.lo ≠ reach DataBlockIndex.hi a (chainFrom streamId a entries)
  := by
  induction entries generalizing a with
  | nil => nofun
  | cons e entries ih =>
    intro e' he' hstream
    rw [chainFrom]
    split
    next hnext =>
      obtain ⟨rfl, rfl⟩ := hnext
      have hnonempty := h.ordered.nonempty
      rw [reach_cons]
      rcases mem_cons.mp he' with rfl | he'
      · obtain ⟨hfront, hcontinues⟩ := chainFrom_spec e'.streamId e'.hi entries
        have hreach := (hcontinues.laid.le_reach fun x hx =>
          (hnonempty x (mem_cons_of_mem e' (hfront.subset hx))).le).1
        exact Nat.ne_of_lt (Nat.lt_of_lt_of_le (hnonempty e' mem_cons_self) hreach)
      · exact ih h.ordered.from_head e' he' hstream
    next hne => exact Nat.ne_of_gt (h.gap hne e' he' hstream)

/-- Blocks from an offset on reach the end of the range or use up the bytes that are left. -/
def Enough (endOffset : UInt64) (r : FindIndexResult) (blocks : List DataBlockIndex) : Prop :=
  (endOffset ≠ noopOffset ∧
    endOffset.toNat ≤ reach DataBlockIndex.hi r.nextStartOffset.toNat blocks) ∨
  r.nextMaxBytes ≤ payloadSize blocks

/-- The lookup `r` went on with `taken` of a chain and ended as `r'`: it stopped at the first block
with which it had enough. -/
structure Cut (endOffset : UInt64) (r : FindIndexResult) (chain taken : List DataBlockIndex)
    (r' : FindIndexResult) : Prop where
  front : taken <+: chain
  blocks : r'.blocks = r.blocks ++ taken
  nextStartOffset :
    r'.nextStartOffset.toNat = reach DataBlockIndex.hi r.nextStartOffset.toNat taken
  nextMaxBytes : r'.nextMaxBytes = r.nextMaxBytes - payloadSize taken
  first : ∀ q, q <+: taken → q ≠ taken → ¬ Enough endOffset r q
  fulfilled : r'.fulfilled = true ↔ Enough endOffset r taken
  whole : ¬ Enough endOffset r taken → taken = chain

variable {endOffset : UInt64} {r : FindIndexResult}

theorem enough_nil_iff :
  Enough endOffset r [] ↔
    (endOffset ≠ noopOffset ∧ r.nextStartOffset ≥ endOffset) ∨ r.nextMaxBytes = 0
  := by
  rw [Enough, reach_nil, ge_iff_le, UInt64.le_iff_toNat_le]
  exact or_congr_right Nat.le_zero

/-- A lookup after one more block, with the bytes that are left then. -/
def FindIndexResult.add (r : FindIndexResult) (left : Nat) (e : DataBlockIndex) : FindIndexResult :=
  { r with nextStartOffset := e.endOffset, nextMaxBytes := left, blocks := r.blocks ++ [e] }

theorem enough_cons_iff (q : List DataBlockIndex) :
  Enough endOffset r (e :: q) ↔
    Enough endOffset (r.add (r.nextMaxBytes - recordPayloadSize e) e) q
  := by
  rw [Enough, Enough, reach_cons, payloadSize_cons]
  exact or_congr_right Nat.sub_le_iff_le_add'.symm

variable {chain : List DataBlockIndex}

theorem cut_nil {fulfilled : Bool} (h : fulfilled = true ↔ Enough endOffset r [])
    (hchain : ¬ Enough endOffset r [] → chain = []) :
  Cut endOffset r chain [] { r with fulfilled := fulfilled }
  where
  front := nil_prefix
  blocks := (append_nil _).symm
  nextStartOffset := rfl
  nextMaxBytes := rfl
  first := fun _ hq hne => absurd (prefix_nil.mp hq) hne
  fulfilled := h
  whole := fun hmore => (hchain hmore).symm

theorem Cut.cons {taken : List DataBlockIndex} {r' : FindIndexResult}
    (hmore : ¬ Enough endOffset r [])
    (h : Cut endOffset (r.add (r.nextMaxBytes - recordPayloadSize e) e) chain taken r') :
  Cut endOffset r (e :: chain) (e :: taken) r'
  where
  front := (prefix_cons_inj e).mpr h.front
  blocks := by rw [h.blocks, FindIndexResult.add, append_assoc, singleton_append]
  nextStartOffset := by
    rw [h.nextStartOffset, reach_cons]
    rfl
  nextMaxBytes := by
    rw [h.nextMaxBytes, payloadSize_cons, ← Nat.sub_sub]
    rfl
  first := by
    intro q hq hne
    cases q with
    | nil => exact hmore
    | cons e' q =>
      obtain ⟨rfl, hfront⟩ := cons_prefix_cons.mp hq
      rw [enough_cons_iff]
      exact h.first q hfront fun heq => hne (congrArg (e' :: ·) heq)
  fulfilled := h.fulfilled.trans (enough_cons_iff taken).symm
  whole := by
    rw [enough_cons_iff]
    exact fun hne => congrArg (e :: ·) (h.whole hne)

/-- Go on with a lookup, unless it has enough. -/
def goOn (streamId endOffset : UInt64) (matched : Bool) (r : FindIndexResult)
    (entries : List DataBlockIndex) : FindIndexResult :=
  if (endOffset ≠ noopOffset ∧ r.nextStartOffset ≥ endOffset) ∨ r.nextMaxBytes = 0 then
    { r with fulfilled := true }
  else findFrom streamId endOffset matched r entries

/-- The bytes that a block counts against the limit. -/
def charge (startOffset : UInt64) (e : DataBlockIndex) : Nat :=
  if startOffset = e.startOffset then recordPayloadSize e else 0

/-- The block with the next offset is taken. -/
theorem findFrom_contains (endOffset : UInt64) (entries : List DataBlockIndex) (matched : Bool)
    (he : Contains streamId r.nextStartOffset.toNat e) :
  ∃ matched', findFrom streamId endOffset matched r (e :: entries) =
    goOn streamId endOffset matched' (r.add (r.nextMaxBytes - charge r.nextStartOffset e) e) entries
  := by
  obtain ⟨hstream, hlo, hhi⟩ := he
  refine ⟨decide (r.nextStartOffset = e.startOffset), ?_⟩
  have hleft : (if decide (r.nextStartOffset = e.startOffset) = true then
      r.nextMaxBytes - min r.nextMaxBytes (recordPayloadSize e) else r.nextMaxBytes) =
      r.nextMaxBytes - charge r.nextStartOffset e := by
    rw [charge]
    by_cases heq : r.nextStartOffset = e.startOffset
    · rw [if_pos (decide_eq_true heq), if_pos heq]
      omega
    · rw [if_neg (by rwa [decide_eq_true_eq]), if_neg heq, Nat.sub_zero]
  rw [findFrom, if_pos hstream,
    if_neg (UInt64.not_lt.mpr (UInt64.le_iff_toNat_le.mpr hlo)),
    if_neg (UInt64.not_le.mpr (UInt64.lt_iff_toNat_lt.mpr hhi))]
  dsimp only
  rw [hleft]
  rfl

/-- Nothing is taken where no block of the stream starts at the next offset or before it. -/
theorem findFrom_gap (h : ∀ e ∈ entries, e.streamId = streamId → r.nextStartOffset.toNat < e.lo)
    (matched : Bool) :
  findFrom streamId endOffset matched r entries = r
  := by
  induction entries with
  | nil => rfl
  | cons e entries ih =>
    rw [findFrom]
    by_cases hstream : e.streamId = streamId
    · rw [if_pos hstream, if_pos (UInt64.lt_iff_toNat_lt.mpr (h e mem_cons_self hstream))]
    · rw [if_neg hstream, ih fun e' he' => h e' (mem_cons_of_mem e he'), ite_self]

/-- A lookup takes the chain from the next offset, up to the first block with which it has
enough. -/
theorem goOn_cut (endOffset : UInt64) (h : From streamId r.nextStartOffset.toNat entries)
    (hr : r.fulfilled = false) (matched : Bool) :
  ∃ taken, Cut endOffset r (chainFrom streamId r.nextStartOffset.toNat entries) taken
    (goOn streamId endOffset matched r entries)
  := by
  induction entries generalizing matched r with
  | nil =>
    refine ⟨[], ?_⟩
    rw [goOn]
    split
    next henough => exact cut_nil (iff_of_true rfl (enough_nil_iff.mpr henough)) fun _ => rfl
    next hmore =>
      rw [← enough_nil_iff] at hmore
      exact cut_nil (iff_of_false (by rw [hr]; nofun) hmore) fun _ => rfl
  | cons e entries ih =>
    rw [goOn]
    split
    next henough =>
      rw [← enough_nil_iff] at henough
      exact ⟨[], cut_nil (iff_of_true rfl henough) fun hmore => absurd henough hmore⟩
    next hmore =>
      rw [← enough_nil_iff] at hmore
      by_cases hnext : e.streamId = streamId ∧ e.lo = r.nextStartOffset.toNat
      · have hstart : r.nextStartOffset = e.startOffset := UInt64.toNat_inj.mp hnext.2.symm
        have hcontains : Contains streamId r.nextStartOffset.toNat e :=
          ⟨hnext.1, hnext.2.le, hnext.2 ▸ h.ordered.nonempty e mem_cons_self⟩
        obtain ⟨matched', heq⟩ := findFrom_contains endOffset entries matched hcontains
        rw [heq, charge, if_pos hstart, chainFrom, if_pos hnext]
        have hrest : From streamId e.hi entries := hnext.1 ▸ h.ordered.from_head
        obtain ⟨taken, hcut⟩ :=
          ih (r := r.add (r.nextMaxBytes - recordPayloadSize e) e) hrest hr matched'
        exact ⟨e :: taken, hcut.cons hmore⟩
      · rw [findFrom_gap (h.gap hnext), chainFrom, if_neg hnext]
        exact ⟨[], cut_nil (iff_of_false (by rw [hr]; nofun) hmore) fun _ => rfl⟩

/-- The longest chain of a stream's blocks after the block that contains an offset. -/
structure LongestChain (entries : List DataBlockIndex) (streamId : UInt64) (offset : Nat)
    (e : DataBlockIndex) (chain : List DataBlockIndex) : Prop where
  part : e :: chain <:+: entries
  contains : Contains streamId offset e
  continues : Continues streamId e.hi chain
  ends : ∀ e' ∈ entries, e'.streamId = streamId → e'.lo ≠ reach DataBlockIndex.hi e.hi chain

variable {startOffset : UInt64}

/-- A lookup takes the block with the first offset and the longest chain after it, up to the first
block with which it has enough. -/
theorem find_cut (h : Ordered entries) (he : e ∈ entries)
    (hcontains : Contains streamId startOffset.toNat e) (endOffset : UInt64) (maxBytes : Nat) :
  ∃ chain taken, LongestChain entries streamId startOffset.toNat e chain ∧
    Cut endOffset ⟨false, e.endOffset, maxBytes - charge startOffset e, [e]⟩ chain taken
      (find entries streamId startOffset endOffset maxBytes)
  := by
  obtain ⟨p, t, rfl⟩ := append_of_mem he
  have hget : (p ++ e :: t)[p.length]? = some e := by
    rw [getElem?_append_right (Nat.le_refl _), Nat.sub_self, getElem?_cons_zero]
  rw [find, search_contains h hget hcontains]
  dsimp only
  rw [drop_left]
  have hrest : From streamId e.hi t := hcontains.1 ▸ h.right.from_head
  obtain ⟨matched, heq⟩ := findFrom_contains (r := ⟨false, startOffset, maxBytes, []⟩) endOffset t
    false hcontains
  rw [heq]
  obtain ⟨⟨t', ht'⟩, hcontinues⟩ := chainFrom_spec streamId e.hi t
  have hchain : LongestChain (p ++ e :: t) streamId startOffset.toNat e
      (chainFrom streamId e.hi t) := by
    refine ⟨⟨p, t', ?_⟩, hcontains, hcontinues, ?_⟩
    · rw [append_assoc, cons_append, ht']
    · intro e' he' hstream
      have hreach := (hcontinues.laid.le_reach fun x hx => (h.right.nonempty x
        (mem_cons_of_mem e (ht' ▸ mem_append_left t' hx))).le).1
      have hlo := h.right.nonempty e mem_cons_self
      rcases mem_append.mp he' with hp | ht
      · rcases (pairwise_append.mp h.sorted).2.2 e' hp e mem_cons_self with hbefore | ⟨-, hends⟩
        · rw [hstream, hcontains.1] at hbefore
          exact absurd hbefore (UInt64.lt_irrefl _)
        · have hlo' := h.nonempty e' he'
          omega
      · rcases mem_cons.mp ht with rfl | ht
        · omega
        · exact hrest.chainFrom_ends e' ht hstream
  obtain ⟨taken, hcut⟩ := goOn_cut endOffset
    (r := ⟨false, e.endOffset, maxBytes - charge startOffset e, [e]⟩) hrest rfl matched
  exact ⟨_, taken, hchain, hcut⟩

/-- Where no block has the first offset nothing is found. -/
theorem find_none (h : Ordered entries)
    (hnone : ∀ e ∈ entries, ¬ Contains streamId startOffset.toNat e) (maxBytes : Nat) :
  find entries streamId startOffset endOffset maxBytes = ⟨false, startOffset, maxBytes, []⟩
  := by
  rw [find]
  cases hsearch : search entries streamId startOffset with
  | error _ => rfl
  | ok i =>
    obtain ⟨e, he, heq⟩ := Bisect.search_sound hsearch
    exact absurd ((compareTo_eq_iff (h.nonempty e he)).mp heq) (hnone e he)

/-- With no limit on bytes a lookup reaches any offset up to which there is no gap. -/
theorem LongestChain.reaches {taken : List DataBlockIndex} {maxBytes : Nat}
    (hchain : LongestChain entries streamId startOffset.toNat e chain) (h : Ordered entries)
    (hcut : Cut endOffset ⟨false, e.endOffset, maxBytes - charge startOffset e, [e]⟩ chain taken
      r) (hsize : payloadSize entries < maxBytes) (hcovered : ∀ x, startOffset.toNat ≤ x → x <
      endOffset.toNat → ∃ e' ∈ entries, Contains streamId x e') :
  endOffset.toNat ≤ reach DataBlockIndex.hi e.hi taken
  := by
  obtain ⟨hpart, ⟨hstream, hlo, hhi⟩, hcontinues, hends⟩ := hchain
  by_contra hlt
  have hmore : taken = chain := by
    apply hcut.whole
    rintro (⟨-, hend⟩ | hbytes)
    · exact hlt hend
    · obtain ⟨p, t, rfl⟩ := hpart
      obtain ⟨t', rfl⟩ := hcut.front
      simp only [payloadSize, map_append, sum_append, map_cons, sum_cons] at hsize hbytes
      have hcharge : charge startOffset e ≤ recordPayloadSize e := by
        unfold charge
        split
        · exact Nat.le_refl _
        · exact Nat.zero_le _
      omega
  subst hmore
  have hchain := hcontinues.cons hstream
  have hnonempty := fun x hx => (h.nonempty x (hpart.subset hx)).le
  obtain ⟨hfrom, hall⟩ := hchain.laid.le_reach hnonempty
  rw [reach_cons] at hfrom hall
  have hreach := hall e mem_cons_self
  generalize hx : reach DataBlockIndex.hi e.hi taken = x at *
  -- the entry at the end of the chain starts before it, so it also has the offset before that end
  obtain ⟨e', he', hstream', hlo', hhi'⟩ := hcovered x (by omega) (by omega)
  have hne := hends e' he' hstream'
  obtain ⟨c, hc, hclo, hchi⟩ := hchain.laid.covers (o := x - 1) (by omega) (by
    rw [reach_cons]
    omega)
  have hcontains : Contains streamId (x - 1) c := ⟨hchain.stream c hc, hclo, hchi⟩
  have hcontains' : Contains streamId (x - 1) e' := ⟨hstream', by omega, by omega⟩
  obtain ⟨i, hi⟩ := getElem?_of_mem (hpart.subset hc)
  obtain ⟨j, hj⟩ := getElem?_of_mem he'
  obtain rfl := h.unique hi hj hcontains hcontains'
  cases hi.symm.trans hj
  have hend := hall e' hc
  omega

/-- The blocks for a range whose first offset is in the index. The first one contains that offset
and the others continue it. -/
theorem find_spec (h : Ordered entries) (maxBytes : Nat)
    (hstart : ∃ e ∈ entries, Contains streamId startOffset.toNat e) :
  ∃ p e q t, entries = p ++ (e :: q) ++ t ∧
    (find entries streamId startOffset endOffset maxBytes).blocks = e :: q ∧
    Contains streamId startOffset.toNat e ∧ Continues streamId e.lo (e :: q) ∧
    (payloadSize entries < maxBytes →
      (∀ x, startOffset.toNat ≤ x → x < endOffset.toNat →
        ∃ e' ∈ entries, Contains streamId x e') →
      endOffset.toNat ≤ reach DataBlockIndex.hi e.lo (e :: q))
  := by
  obtain ⟨e, he, hcontains⟩ := hstart
  obtain ⟨chain, q, hchain, hcut⟩ := find_cut h he hcontains endOffset maxBytes
  obtain ⟨p, t, heq⟩ := hchain.part
  obtain ⟨q', rfl⟩ := hcut.front
  refine ⟨p, e, q, q' ++ t, ?_, hcut.blocks, hcontains,
    hchain.continues.left.cons hcontains.1, fun hsize hcovered => ?_⟩
  · rw [← heq, append_assoc, append_assoc, cons_append, cons_append, append_assoc]
  · rw [reach_cons]
    exact hchain.reaches h hcut hsize hcovered

/-- What a lookup returns. Nothing is found exactly when no block has the first offset. Otherwise it
is the block with that offset and the longest chain after it, cut after the first block with which
it has enough: the end of the range, or all of the bytes. -/
theorem find_longest_chain (h : Ordered entries) (streamId startOffset endOffset : UInt64)
    (maxBytes : Nat) :
  ((find entries streamId startOffset endOffset maxBytes).blocks = [] ↔
    ∀ e ∈ entries, ¬ Contains streamId startOffset.toNat e) ∧
  ((∀ e ∈ entries, ¬ Contains streamId startOffset.toNat e) →
    find entries streamId startOffset endOffset maxBytes = ⟨false, startOffset, maxBytes, []⟩) ∧
  ∀ e ∈ entries, Contains streamId startOffset.toNat e →
    ∃ chain taken, LongestChain entries streamId startOffset.toNat e chain ∧
      Cut endOffset ⟨false, e.endOffset, maxBytes - charge startOffset e, [e]⟩ chain taken
        (find entries streamId startOffset endOffset maxBytes)
  := by
  refine ⟨⟨fun hnil e he hcontains => ?_, fun hnone => ?_⟩, fun hnone => find_none h hnone maxBytes,
    fun e he hcontains => find_cut h he hcontains endOffset maxBytes⟩
  · obtain ⟨_, _, -, hcut⟩ := find_cut h he hcontains endOffset maxBytes
    rw [hcut.blocks] at hnil
    cases hnil
  · rw [find_none h hnone]

/-- Two blocks of a stream and, after a gap, a third one. -/
def gapEntries : List DataBlockIndex :=
  [⟨0, 7, 0, 5, 1, 0, 60⟩, ⟨1, 7, 5, 5, 1, 60, 60⟩, ⟨2, 7, 20, 5, 1, 120, 60⟩]

theorem find_longest_chain_gap :
  ∃ chain taken, LongestChain gapEntries 7 3 ⟨0, 7, 0, 5, 1, 0, 60⟩ chain ∧
    Cut 8 ⟨false, 5, 100, [⟨0, 7, 0, 5, 1, 0, 60⟩]⟩ chain taken (find gapEntries 7 3 8 100)
  :=
  (find_longest_chain ⟨by decide +kernel, by decide +kernel⟩ 7 3 8 100).2.2 _ mem_cons_self
    ⟨rfl, by decide, by decide⟩

/-- The greatest offset stands for no end: a lookup up to it is not fulfilled although the block it
found ends there. -/
theorem find_to_greatest_unfulfilled :
  Ordered [⟨0, 7, 18446744073709551614, 1, 1, 0, 60⟩] ∧
    find [⟨0, 7, 18446744073709551614, 1, 1, 0, 60⟩] 7 18446744073709551614 18446744073709551615
      100 = ⟨false, 18446744073709551615, 83, [⟨0, 7, 18446744073709551614, 1, 1, 0, 60⟩]⟩
  := ⟨⟨by decide +kernel, by decide +kernel⟩, by decide +kernel⟩

end Object
