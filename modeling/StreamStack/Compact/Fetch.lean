import StreamStack.Object.Reader

/-!
# Fetching blocks

A compaction reads the blocks of an object in the order of their positions. Blocks without a gap
between them are fetched together as long as they are smaller than a batch, and a block that is a
batch by itself is fetched in pieces. Positions are numbers here: those of an object that can be
stored are far from the end of a machine word.
-/

namespace Compact

open Object Spans List

/-- A data block with the object it is in. -/
structure StreamDataBlock where
  objectId : UInt64
  index : DataBlockIndex
deriving DecidableEq, Repr

namespace StreamDataBlock

def streamId (b : StreamDataBlock) : UInt64 := b.index.streamId
def startOffset (b : StreamDataBlock) : UInt64 := b.index.startOffset
def endOffset (b : StreamDataBlock) : UInt64 := b.index.endOffset
def blockStartPosition (b : StreamDataBlock) : UInt64 := b.index.startPosition
def start (b : StreamDataBlock) : ℕ := b.blockStartPosition.toNat
def size (b : StreamDataBlock) : ℕ := b.index.size.toNat
def stop (b : StreamDataBlock) : ℕ := b.start + b.size

end StreamDataBlock

structure FetchedBlock where
  block : StreamDataBlock
  data : List UInt8
deriving DecidableEq

/-! ### Reading -/

/-- Cut the bytes of a run into those of its blocks; `none` is the panic at a slice that is out of
bounds. -/
def sliceRun (bytes : List UInt8) : ℕ → List StreamDataBlock → Option (List FetchedBlock)
  | _, [] => some []
  | cursor, block :: blocks =>
    if cursor + block.size ≤ bytes.length then do
      let rest ← sliceRun bytes (cursor + block.size) blocks
      return ⟨block, rangeRead bytes cursor (cursor + block.size)⟩ :: rest
    else none

def readRun (data : List UInt8) (blocks : List StreamDataBlock) : Option (List FetchedBlock) := do
  let first ← blocks.head?
  let last ← blocks.getLast?
  sliceRun (rangeRead data first.start last.stop) 0 blocks

/-- Read a block that is too large in pieces. -/
def readChunks (data : List UInt8) (maxReadBatchSize blockEnd position : ℕ) : List UInt8 :=
  if position < blockEnd ∧ 0 < maxReadBatchSize then
    let stop := min blockEnd (position + maxReadBatchSize)
    rangeRead data position stop ++ readChunks data maxReadBatchSize blockEnd stop
  else []
termination_by blockEnd - position

/-- The blocks `run` wait to be fetched together, and `rest` are not looked at yet. -/
def readContinuous (data : List UInt8) (maxReadBatchSize : ℕ) (run : List StreamDataBlock)
    (current : ℕ) (rest : List StreamDataBlock) : Option (List FetchedBlock) :=
  match rest with
  | [] => if run = [] then some [] else readRun data run
  | block :: rest =>
    if 0 < maxReadBatchSize ∧ maxReadBatchSize ≤ current + block.size then
      if run = [] then do
        let fetched ← readContinuous data maxReadBatchSize [] 0 rest
        return ⟨block, readChunks data maxReadBatchSize block.stop block.start⟩ :: fetched
      else do
        let first ← readRun data run
        -- the block is looked at again as the first of a run
        let fetched ← readContinuous data maxReadBatchSize [] 0 (block :: rest)
        return first ++ fetched
    else readContinuous data maxReadBatchSize (run ++ [block]) (current + block.size) rest
termination_by 2 * rest.length + run.length
decreasing_by
  all_goals grind [length_eq_zero_iff]

/-- The blocks `run` have no gap between them, and the last of them ends at `offset`. -/
def readBlocksFrom (data : List UInt8) (maxReadBatchSize : ℕ) (run : List StreamDataBlock)
    (offset : Option ℕ) : List StreamDataBlock → Option (List FetchedBlock)
  | [] => if run = [] then some [] else readContinuous data maxReadBatchSize [] 0 run
  | block :: rest =>
    if offset.any fun expected => block.start ≠ expected then do
      let first ← readContinuous data maxReadBatchSize [] 0 run
      let fetched ← readBlocksFrom data maxReadBatchSize [block] (some block.stop) rest
      return first ++ fetched
    else readBlocksFrom data maxReadBatchSize (run ++ [block]) (some block.stop) rest

def readBlocks (data : List UInt8) (blocks : List StreamDataBlock) (maxReadBatchSize : ℕ) :
    Option (List FetchedBlock) :=
  readBlocksFrom data maxReadBatchSize [] none blocks

/-! ### The bytes -/

/-- A block with its bytes in the object. -/
def fetched (data : List UInt8) (block : StreamDataBlock) : FetchedBlock :=
  ⟨block, rangeRead data block.start block.stop⟩

variable {data : List UInt8} {blocks run rest : List StreamDataBlock} {p maxReadBatchSize : ℕ}

theorem start_le_stop : ∀ b ∈ blocks, b.start ≤ b.stop := fun b _ => Nat.le_add_right b.start b.size

variable {stop : ℕ}

theorem rangeRead_rangeRead {base cursor n : ℕ} (h : base + cursor + n ≤ stop) :
  rangeRead (rangeRead data base stop) cursor (cursor + n)
    = rangeRead data (base + cursor) (base + cursor + n)
  := by
  simp only [rangeRead, take_drop, drop_drop, take_take]
  congr 2
  omega

theorem length_rangeRead {start : ℕ} (h : stop ≤ data.length) :
  (rangeRead data start stop).length = stop - start
  := by
  rw [rangeRead, length_drop, length_take, min_eq_left h]

theorem rangeRead_append_rangeRead {a b c : ℕ} (hab : a ≤ b) (hbc : b ≤ c) :
  rangeRead data a b ++ rangeRead data b c = rangeRead data a c
  := by
  simp only [rangeRead, drop_take]
  rw [show c - a = (b - a) + (c - b) by omega, take_add, drop_drop,
    show a + (b - a) = b by omega]

theorem readChunks_eq (hmax : 0 < maxReadBatchSize) {position blockEnd : ℕ}
    (h : position ≤ blockEnd) :
  readChunks data maxReadBatchSize blockEnd position = rangeRead data position blockEnd
  := by
  fun_induction readChunks data maxReadBatchSize blockEnd position with
  | case1 position hlt stop ih =>
    rw [ih (min_le_left _ _)]
    apply rangeRead_append_rangeRead
    · omega
    · omega
  | case2 position hge =>
    obtain rfl : position = blockEnd := by omega
    simp [rangeRead]

theorem sliceRun_eq {base cursor : ℕ}
    (hlaid : Laid StreamDataBlock.start StreamDataBlock.stop (base + cursor) blocks)
    (hstop : reach StreamDataBlock.stop (base + cursor) blocks ≤ stop)
    (hdata : stop ≤ data.length) :
  sliceRun (rangeRead data base stop) cursor blocks = some (blocks.map (fetched data))
  := by
  induction blocks generalizing cursor with
  | nil => rfl
  | cons block blocks ih =>
    obtain ⟨hstart, hlaid⟩ := hlaid
    have hend : block.stop = base + (cursor + block.size) := by
      rw [StreamDataBlock.stop, hstart, Nat.add_assoc]
    rw [reach_cons, hend] at hstop
    rw [hend] at hlaid
    have hle := (hlaid.le_reach start_le_stop).1.trans hstop
    rw [sliceRun, if_pos, ih hlaid hstop]
    · rw [rangeRead_rangeRead (by omega), ← hstart]
      rfl
    · rw [length_rangeRead hdata]
      omega

theorem readRun_eq (hlaid : Laid StreamDataBlock.start StreamDataBlock.stop p run) (hne : run ≠ [])
    (hdata : ∀ b ∈ run, b.stop ≤ data.length) :
  readRun data run = some (run.map (fetched data))
  := by
  obtain ⟨last, hlast⟩ := getLast?_isSome.mpr hne |> Option.isSome_iff_exists.mp
  cases run with
  | nil => exact absurd rfl hne
  | cons first run =>
    rw [readRun, head?_cons, hlast]
    apply sliceRun_eq
    · rw [Nat.add_zero]
      exact ⟨rfl, hlaid.2⟩
    · rw [reach, hlast]
      apply Nat.le_refl
    · exact hdata last (mem_of_getLast? hlast)

theorem readContinuous_eq {current : ℕ}
    (hlaid : Laid StreamDataBlock.start StreamDataBlock.stop p (run ++ rest))
    (hdata : ∀ b ∈ run ++ rest, b.stop ≤ data.length) :
  readContinuous data maxReadBatchSize run current rest
    = some ((run ++ rest).map (fetched data))
  := by
  fun_induction readContinuous data maxReadBatchSize run current rest generalizing p with
  | case1 => rfl
  | case2 run current hne =>
    rw [append_nil] at hlaid hdata ⊢
    exact readRun_eq hlaid hne hdata
  | case3 current block rest hbatch ih =>
    rw [ih hlaid.2 fun b hb => hdata b (mem_cons_of_mem block hb)]
    rw [readChunks_eq hbatch.1 (start_le_stop block (mem_singleton_self block))]
    rfl
  | case4 run current block rest hbatch hne ih =>
    obtain ⟨hrun, hrest⟩ := laid_append.mp hlaid
    rw [readRun_eq hrun hne fun b hb => hdata b (mem_append_left _ hb),
      ih hrest fun b hb => hdata b (mem_append_right _ hb),
      @map_append _ _ _ run]
    rfl
  | case5 run current block rest hbatch ih =>
    rw [append_cons run block rest] at hlaid hdata ⊢
    exact ih hlaid hdata

theorem readBlocksFrom_eq (hlaid : Laid StreamDataBlock.start StreamDataBlock.stop p run)
    (hdata : ∀ b ∈ run ++ rest, b.stop ≤ data.length) (maxReadBatchSize : ℕ) :
  readBlocksFrom data maxReadBatchSize run (run.getLast?.map (·.stop)) rest
    = some ((run ++ rest).map (fetched data))
  := by
  induction rest generalizing p run with
  | nil =>
    rw [readBlocksFrom]
    split
    next hnil =>
      subst hnil
      rfl
    next =>
      rw [append_nil] at hdata ⊢
      exact readContinuous_eq hlaid hdata
  | cons block rest ih =>
    rw [readBlocksFrom]
    split
    next =>
      have hfirst : readContinuous data maxReadBatchSize [] 0 run = some (run.map (fetched data)) :=
        readContinuous_eq hlaid fun b hb => hdata b (mem_append_left _ hb)
      have hblock : Laid StreamDataBlock.start StreamDataBlock.stop block.start [block] :=
        ⟨rfl, trivial⟩
      have hnext := ih hblock fun b hb => hdata b (mem_append_right _ hb)
      rw [hfirst, map_append]
      simp only [getLast?_singleton, Option.map_some] at hnext
      rw [hnext]
      rfl
    next hcontinues =>
      have hrun : ∃ q, Laid StreamDataBlock.start StreamDataBlock.stop q (run ++ [block]) := by
        cases hlast : run.getLast? with
        | none =>
          rw [getLast?_eq_none_iff.mp hlast]
          exact ⟨block.start, rfl, trivial⟩
        | some last =>
          rw [hlast] at hcontinues
          have hstart : block.start = last.stop := by simpa using hcontinues
          refine ⟨p, laid_append.mpr ⟨hlaid, ?_, trivial⟩⟩
          rw [reach, hlast]
          exact hstart
      obtain ⟨q, hrun⟩ := hrun
      rw [append_cons run block rest] at hdata ⊢
      have hnext := ih hrun hdata
      rw [getLast?_concat, Option.map_some] at hnext
      exact hnext

/-- Whatever the size of a batch, each block is returned with its bytes, in the order of the
blocks. -/
theorem readBlocks_exact (hdata : ∀ b ∈ blocks, b.stop ≤ data.length) (maxReadBatchSize : ℕ) :
  readBlocks data blocks maxReadBatchSize = some (blocks.map fun b =>
    ⟨b, rangeRead data b.start b.stop⟩)
  := @readBlocksFrom_eq data [] blocks 0 trivial hdata maxReadBatchSize

/-- Two blocks side by side and one after a gap. -/
def spacedBlocks : List StreamDataBlock :=
  [⟨0, 0, 0, 0, 1, 1, 0, 2⟩, ⟨0, 1, 0, 1, 1, 1, 2, 2⟩, ⟨0, 2, 0, 2, 1, 1, 6, 4⟩]

theorem readBlocks_exact_spacedBlocks :
  (readBlocks [0, 1, 2, 3, 4, 5, 6, 7, 8, 9] spacedBlocks 3).map (List.map (·.data))
    = some [[0, 1], [2, 3], [6, 7, 8, 9]]
  := by
  rw [readBlocks_exact (by decide)]
  rfl

end Compact
