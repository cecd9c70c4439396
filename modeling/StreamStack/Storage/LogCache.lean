import StreamStack.Lib.OrdMap

/-!
# The log cache

The readable twin of the write-ahead log: an active block that receives confirmed records, and the
sealed blocks before it, oldest first. A block whose upload has committed is marked free. Free
blocks at the front are dropped when the cache is nearly full, and small neighbouring free blocks
are merged. Reads of the cache, and the positions that it remembers for them, are not modelled.

The cache of the source is one list of blocks whose last one is active. Here the active block is a
component of its own, so there always is one.
-/

namespace Storage

/-- The stream id that stands for all streams. -/
def matchAllStreams : Nat := 18446744073709551615

def i32Max : Nat := 2147483647

def maxBlocksCount : Nat := 64

def mergeBlockThreshold : Nat := 8

def defaultMaxBlockStreamCount : Nat := 10000

def u64Max : Nat := 18446744073709551615

/-! ### Records -/

/-- A batch of records of one stream. A count that is not positive marks a link record. -/
structure StreamRecordBatch where
  streamId : Nat
  baseOffset : Nat
  count : Int
  payload : List UInt8
deriving DecidableEq, Repr

namespace StreamRecordBatch

/-- The offset after the last record. -/
def lastOffset (r : StreamRecordBatch) : Nat := r.baseOffset + r.count.natAbs

def size (r : StreamRecordBatch) : Nat := r.payload.length

/-- The footprint of a batch in the cache. -/
def occupiedSize (r : StreamRecordBatch) : Nat := r.size + 48

end StreamRecordBatch

/-! ### One stream of a block -/

/-- The batches of one stream in a block, and the offsets that they span. -/
structure StreamCache where
  records : List StreamRecordBatch := []
  startOffset : Option Nat := none
  endOffset : Option Nat := none
deriving DecidableEq

namespace StreamCache

/-- A batch that would make the span of the stream exceed 31 bits is refused. -/
def add (c : StreamCache) (r : StreamRecordBatch) : Option StreamCache :=
  let start := c.startOffset.getD r.baseOffset
  -- the subtraction of the source wraps around, so an end below the start is refused as well
  if r.lastOffset < start ∨ i32Max < r.lastOffset - start then none
  else some { c with
    startOffset := some start
    endOffset := some r.lastOffset
    records := c.records ++ [r] }

end StreamCache

/-! ### Blocks -/

structure LogCacheBlock where
  blockId : Nat
  maxSize : Nat
  maxStreamCount : Nat
  map : OrdMap Nat StreamCache := ∅
  lastRecordOffset : Option Nat := none
  size : Nat := 0
  overflow : Bool := false
  free : Bool := false
deriving DecidableEq

namespace LogCacheBlock

def isFull (b : LogCacheBlock) : Bool :=
  b.overflow || b.maxSize ≤ b.size || b.maxStreamCount ≤ b.map.size

/-- The block after the attempt, and whether the batch was added. A batch that is refused for its
span leaves the entry of its stream and marks the block. -/
def put (b : LogCacheBlock) (r : StreamRecordBatch) : LogCacheBlock × Bool :=
  if b.isFull then (b, false)
  else
    let cache := (b.map[r.streamId]?).getD {}
    match cache.add r with
    | none => ({ b with map := b.map.insert r.streamId cache, overflow := true }, false)
    | some cache =>
      ({ b with map := b.map.insert r.streamId cache, size := b.size + r.occupiedSize }, true)

/-- The batches of every stream of the block. -/
def records (b : LogCacheBlock) : List (Nat × List StreamRecordBatch) :=
  b.map.toList.map fun e => (e.1, e.2.records)

def containsStream (b : LogCacheBlock) (streamId : Nat) : Bool :=
  streamId = matchAllStreams || b.map.contains streamId

/-- Some stream of both blocks does not continue from one to the other. -/
def isDiscontinuous (left right : LogCacheBlock) : Bool :=
  left.map.toList.any fun e =>
    (right.map[e.1]?).any fun c => e.2.endOffset ≠ c.startOffset

/-- Append the batches of a stream to those that a merged block has of it. -/
def mergeStream (map : OrdMap Nat StreamCache) (e : Nat × StreamCache) : OrdMap Nat StreamCache :=
  map.insert e.1 <| match map[e.1]? with
    | none => e.2
    | some c => { c with
        records := c.records ++ e.2.records
        endOffset := e.2.endOffset }

def mergeBlock (merged source : LogCacheBlock) : LogCacheBlock :=
  { merged with
    size := merged.size + source.size
    lastRecordOffset := source.lastRecordOffset.or merged.lastRecordOffset
    map := source.map.toList.foldl mergeStream merged.map }

end LogCacheBlock

/-! ### The cache -/

structure LogCache where
  capacity : Nat
  cacheBlockMaxSize : Nat
  maxCacheBlockStreamCount : Nat
  size : Nat := 0
  sealed : List LogCacheBlock := []
  active : LogCacheBlock
  nextBlockId : Nat
  lastRecordOffset : Option Nat := none
deriving DecidableEq

namespace LogCache

def new (capacity cacheBlockMaxSize maxCacheBlockStreamCount : Nat) : LogCache where
  capacity := capacity
  cacheBlockMaxSize := cacheBlockMaxSize
  maxCacheBlockStreamCount := maxCacheBlockStreamCount
  active := ⟨0, cacheBlockMaxSize, maxCacheBlockStreamCount, ∅, none, 0, false, false⟩
  nextBlockId := 1

/-- All blocks, oldest first. -/
def blocks (c : LogCache) : List LogCacheBlock := c.sealed ++ [c.active]

def overLimit (c : LogCache) (size blocks : Nat) : Bool :=
  c.capacity / 10 * 9 < size || maxBlocksCount < blocks

/-- Drop free blocks from the front while the cache is over its limit. The active block counts as
one more block. -/
def dropFree (c : LogCache) : Nat → List LogCacheBlock → Nat × List LogCacheBlock
  | size, [] => (size, [])
  | size, b :: bs =>
    if c.overLimit size (bs.length + 2) && b.free then c.dropFree (size - b.size) bs
    else (size, b :: bs)

def tryRealFree (c : LogCache) : LogCache :=
  let (size, sealed) := c.dropFree c.size c.sealed
  { c with size, sealed }

def put (c : LogCache) (r : StreamRecordBatch) : LogCache × Bool :=
  let c := c.tryRealFree
  let (active, added) := c.active.put r
  ({ c with active, size := if added then c.size + r.occupiedSize else c.size }, added)

/-- Merge neighbouring free blocks, from `left` on, while there are many blocks. -/
def mergeFrom (c : LogCache) : Nat → Nat → LogCacheBlock → List LogCacheBlock →
    Nat × List LogCacheBlock
  | nextId, _, left, [] => (nextId, [left])
  | nextId, count, left, right :: rest =>
    if count ≤ mergeBlockThreshold ∨ left.free = false ∨ right.free = false then
      (nextId, left :: right :: rest)
    else if c.cacheBlockMaxSize ≤ left.size + right.size ∨ left.isDiscontinuous right then
      let (nextId, rest) := c.mergeFrom nextId count right rest
      (nextId, left :: rest)
    else
      let empty : LogCacheBlock :=
        ⟨nextId, u64Max, defaultMaxBlockStreamCount, ∅, none, 0, false, true⟩
      c.mergeFrom (nextId + 1) (count - 1) ((empty.mergeBlock left).mergeBlock right) rest

def tryMerge (c : LogCache) : LogCache :=
  match c.sealed with
  | [] => c
  | left :: rest =>
    let (nextBlockId, sealed) := c.mergeFrom c.nextBlockId c.blocks.length left rest
    { c with nextBlockId, sealed }

/-- Mark a committed block as reclaimable. -/
def markFree (c : LogCache) (blockId : Nat) : LogCache :=
  let sealed := c.sealed.map fun b => if b.blockId = blockId then { b with free := true } else b
  ({ c with sealed }.tryRealFree).tryMerge

/-- Seal the active block: it takes the offset of the last confirmed record with it. -/
def archiveCurrentBlock (c : LogCache) : LogCacheBlock × LogCache :=
  let block := { c.active with
    lastRecordOffset := c.lastRecordOffset.or c.active.lastRecordOffset }
  (block, { c with
    sealed := c.sealed ++ [block]
    active := ⟨c.nextBlockId, c.cacheBlockMaxSize, c.maxCacheBlockStreamCount, ∅, none, 0, false,
      false⟩
    nextBlockId := c.nextBlockId + 1 })

def archiveCurrentBlockIfContains (c : LogCache) (streamId : Nat) :
    Option LogCacheBlock × LogCache :=
  let shouldArchive := if streamId = matchAllStreams then decide (0 < c.active.size)
    else c.active.containsStream streamId
  if shouldArchive then
    let (block, c) := c.archiveCurrentBlock
    (some block, c)
  else (none, c)

def setLastRecordOffset (c : LogCache) (offset : Nat) : LogCache :=
  { c with lastRecordOffset := some offset }

end LogCache

end Storage
