import StreamStack.Storage.Pipeline

/-!
# What the blocks of the cache hold

The specifications of putting records into blocks and of sealing them. A batch is refused by a full
block, or because of its span; in the second case its stream gets an entry without batches, and a
block with such an entry can never be uploaded. Such a block is called stuck, and so is a block
that can hold no stream at all. What matters later is that a confirmed record is held by a block or
that its block is stuck.
-/

namespace Storage

open OrdMap

variable {streamId : Nat}

namespace LogCacheBlock

/-- The batches of a stream in a block. -/
def recordsOf (b : LogCacheBlock) (streamId : Nat) : List StreamRecordBatch :=
  ((b.map[streamId]?).map StreamCache.records).getD []

/-- An entry without batches is left behind by a batch that was refused for its span. -/
def HasEmptyEntry (b : LogCacheBlock) : Prop :=
  ∃ (streamId : Nat) (c : StreamCache), b.map[streamId]? = some c ∧ c.records = []

def Stuck (b : LogCacheBlock) : Prop := b.maxStreamCount = 0 ∨ b.HasEmptyEntry

def Holds (b : LogCacheBlock) (r : StreamRecordBatch) : Prop :=
  r ∈ b.recordsOf r.streamId ∨ b.Stuck

/-- The invariant of a block. The size counts the batches, the overflow mark is set with an empty
entry and only with one while there are no batches, and a block with entries may have some. -/
structure Valid (b : LogCacheBlock) : Prop where
  size : b.size = 0 ↔ ∀ streamId, b.recordsOf streamId = []
  marked : b.HasEmptyEntry → b.overflow = true
  overflow : b.overflow = true → b.size = 0 → b.HasEmptyEntry
  count : ∀ (streamId : Nat) (c : StreamCache), b.map[streamId]? = some c → 0 < b.maxStreamCount

variable {b b' : LogCacheBlock} {r x : StreamRecordBatch} {added : Bool}

theorem recordsOf_of_lookup {c : StreamCache} (h : b.map[streamId]? = some c) :
  b.recordsOf streamId = c.records
  := by
  rw [recordsOf, h]
  rfl

/-- What putting a batch does: nothing in a full block, an empty or unchanged entry and the mark
when the batch is refused, and otherwise the batch is appended to its stream. A batch whose stream
has no entry is refused for its own span only. -/
theorem put_cases (h : b.put r = (b', added)) :
  (b.isFull = true ∧ b' = b ∧ added = false) ∨
    (b.isFull = false ∧ added = false ∧ (b.map[r.streamId]? = none → i32Max < r.count.natAbs) ∧
      ∃ c : StreamCache, c.records = b.recordsOf r.streamId ∧
      b' = { b with map := b.map.insert r.streamId c, overflow := true }) ∨
    (b.isFull = false ∧ added = true ∧ ∃ c : StreamCache,
      c.records = b.recordsOf r.streamId ++ [r] ∧
      b' = { b with map := b.map.insert r.streamId c, size := b.size + r.occupiedSize })
  := by
  have hcache : ((b.map[r.streamId]?).getD {}).records = b.recordsOf r.streamId := by
    cases hc : b.map[r.streamId]? with
    | none => simp [recordsOf, hc]
    | some c => simp [recordsOf, hc]
  unfold put at h
  split at h
  next hfull =>
    cases h
    exact .inl ⟨hfull, rfl, rfl⟩
  next hfull =>
    right
    rw [Bool.not_eq_true] at hfull
    simp only [StreamCache.add] at h
    split at h
    next hadd =>
      cases h
      refine .inl ⟨hfull, rfl, ?_, _, hcache, rfl⟩
      intro hnone
      simp only [hnone, Option.getD_none, StreamRecordBatch.lastOffset] at hadd
      split at hadd
      next hspan => omega
      next => cases hadd
    next c hadd =>
      cases h
      right
      refine ⟨hfull, rfl, c, ?_, rfl⟩
      split at hadd
      next => cases hadd
      next =>
        cases hadd
        rw [← hcache]

theorem recordsOf_insert (b : LogCacheBlock) (k streamId : Nat) (c : StreamCache) (n : Nat)
    (o : Bool) :
  ({ b with map := b.map.insert k c, size := n, overflow := o } : LogCacheBlock).recordsOf streamId
    = if k = streamId then c.records else b.recordsOf streamId
  := by
  simp only [recordsOf, lookup_insert]
  split <;> rfl

/-- The batches of a stream after a put. -/
theorem recordsOf_put (h : b.put r = (b', added)) (streamId : Nat) :
  b'.recordsOf streamId = if added = true ∧ r.streamId = streamId
    then b.recordsOf streamId ++ [r] else b.recordsOf streamId
  := by
  rcases put_cases h with ⟨-, rfl, rfl⟩ | ⟨-, rfl, -, c, hc, rfl⟩ | ⟨-, rfl, c, hc, rfl⟩
  · simp
  · rw [recordsOf_insert]
    split
    next heq =>
      subst heq
      simpa using hc
    next => simp
  · rw [recordsOf_insert]
    split
    next heq =>
      subst heq
      simpa using hc
    next heq => simp [heq]

theorem Stuck.isFull (hb : b.Valid) (h : b.Stuck) :
  b.isFull = true
  := by
  rcases h with hzero | hempty
  · simp [LogCacheBlock.isFull, hzero]
  · simp [LogCacheBlock.isFull, hb.marked hempty]

/-- A block with a batch or an entry can hold streams. -/
theorem Valid.count_pos (hb : b.Valid) (h : 0 < b.size ∨ streamId ∈ b.map) :
  0 < b.maxStreamCount
  := by
  rcases h with hsize | hmem
  · have hne : ¬ ∀ s, b.recordsOf s = [] := by
      rw [← hb.size]
      omega
    obtain ⟨s, hs⟩ := not_forall.mp hne
    cases hc : b.map[s]? with
    | none => simp [recordsOf, hc] at hs
    | some c => exact hb.count s c hc
  · obtain ⟨c, hc⟩ := (mem_iff_lookup _ _).mp hmem
    exact hb.count streamId c hc

/-- A put changes neither the number of the block nor its limits. -/
theorem put_same (h : b.put r = (b', added)) :
  b'.blockId = b.blockId ∧ b'.maxSize = b.maxSize ∧ b'.maxStreamCount = b.maxStreamCount ∧
    b'.lastRecordOffset = b.lastRecordOffset
  := by
  rcases put_cases h with ⟨-, rfl, -⟩ | ⟨-, -, -, c, -, rfl⟩ | ⟨-, -, c, -, rfl⟩
  · exact ⟨rfl, rfl, rfl, rfl⟩
  · exact ⟨rfl, rfl, rfl, rfl⟩
  · exact ⟨rfl, rfl, rfl, rfl⟩

/-- A stuck block stays as it is. -/
theorem put_of_stuck (hb : b.Valid) (h : b.Stuck) :
  b.put r = (b, false)
  := by
  rw [put, if_pos (h.isFull hb)]

theorem Holds.put (hb : b.Valid) (hx : b.Holds x) (h : b.put r = (b', added)) :
  b'.Holds x
  := by
  rcases hx with hx | hx
  · left
    rw [recordsOf_put h]
    split
    next => exact List.mem_append_left [r] hx
    next => exact hx
  · rw [put_of_stuck hb hx] at h
    cases h
    exact .inr hx

theorem holds_of_added (h : b.put r = (b', true)) :
  b'.Holds r
  := by
  left
  rw [recordsOf_put h, if_pos ⟨rfl, rfl⟩]
  simp

theorem count_pos_of_not_full (h : b.isFull = false) :
  0 < b.maxStreamCount
  := by
  simp only [isFull, Bool.or_eq_false_iff, decide_eq_false_iff_not] at h
  omega

theorem Valid.put (hb : b.Valid) (h : b.put r = (b', added)) :
  b'.Valid
  := by
  have hrecords := recordsOf_put h
  rcases put_cases h with ⟨-, rfl, -⟩ | ⟨hfull, rfl, -, c, hc, rfl⟩ | ⟨hfull, rfl, c, hc, rfl⟩
  · exact hb
  · have hcount := count_pos_of_not_full hfull
    simp only [Bool.false_eq_true, false_and, if_false] at hrecords
    constructor
    · simp only [hrecords]
      exact hb.size
    · intro _
      rfl
    · intro _ hsize
      use r.streamId, c
      rw [lookup_insert, if_pos rfl, hc]
      exact ⟨rfl, hb.size.mp hsize r.streamId⟩
    · intro streamId c' _
      exact hcount
  · have hcount := count_pos_of_not_full hfull
    have hover : b.overflow = false := by
      simp only [isFull, Bool.or_eq_false_iff] at hfull
      exact hfull.1.1
    constructor
    · constructor
      · intro hsize
        simp [StreamRecordBatch.occupiedSize] at hsize
      · intro hnone
        have := hnone r.streamId
        rw [hrecords, if_pos ⟨rfl, rfl⟩] at this
        simp at this
    · rintro ⟨streamId, c', hc', hempty⟩
      rcases lookup_insert_cases hc' with ⟨-, rfl⟩ | ⟨-, hc'⟩
      · simp [hc] at hempty
      · exact hb.marked ⟨streamId, c', hc', hempty⟩
    · intro hmark
      cases hover.symm.trans hmark
    · intro streamId c' _
      exact hcount

/-- A batch that a block without batches refuses leaves it stuck. -/
theorem stuck_of_refused (hb : b.Valid) (hpos : 0 < b.maxSize) (hsize : b.size = 0)
    (h : b.put r = (b', false)) :
  b'.Stuck
  := by
  rcases put_cases h with ⟨hfull, rfl, -⟩ | ⟨-, -, -, c, hc, rfl⟩ | ⟨-, hfalse, -⟩
  · simp only [isFull, Bool.or_eq_true, decide_eq_true_eq] at hfull
    rcases hfull with (hover | hmax) | hcount
    · exact .inr (hb.overflow hover hsize)
    · omega
    · by_cases hzero : b'.maxStreamCount = 0
      · exact .inl hzero
      · have hne : b'.map.toList ≠ [] := by
          rw [← List.length_pos_iff, Std.ExtTreeMap.length_toList]
          omega
        obtain ⟨e, he⟩ := List.exists_mem_of_ne_nil _ hne
        have he := Std.ExtTreeMap.mem_toList_iff_getElem?_eq_some.mp he
        refine .inr ⟨e.1, e.2, he, ?_⟩
        rw [← recordsOf_of_lookup he]
        exact hb.size.mp hsize e.1
  · refine .inr ⟨r.streamId, c, ?_, ?_⟩
    · rw [lookup_insert, if_pos rfl]
    · rw [hc]
      exact hb.size.mp hsize r.streamId
  · cases hfalse

/-- A batch with a small span does not make a block stuck. -/
theorem not_stuck_put (hb : ¬ b.Stuck) (hspan : r.count.natAbs ≤ i32Max)
    (h : b.put r = (b', added)) :
  ¬ b'.Stuck
  := by
  have hnew : ∀ {c : StreamCache} {size : Nat} {overflow : Bool}, c.records ≠ [] →
      ¬ Stuck { b with map := b.map.insert r.streamId c, size, overflow } := by
    rintro c size overflow hc (hzero | ⟨streamId, c', hc', hempty⟩)
    · exact hb (.inl hzero)
    · rcases lookup_insert_cases hc' with ⟨-, rfl⟩ | ⟨-, hc'⟩
      · exact hc hempty
      · exact hb (.inr ⟨streamId, c', hc', hempty⟩)
  rcases put_cases h with ⟨-, rfl, -⟩ | ⟨-, -, hnone, c, hc, rfl⟩ | ⟨-, -, c, hc, rfl⟩
  · exact hb
  · apply hnew
    rw [hc]
    cases hentry : b.map[r.streamId]? with
    | none =>
      have := hnone hentry
      omega
    | some c' =>
      rw [recordsOf_of_lookup hentry]
      intro hempty
      exact hb (.inr ⟨r.streamId, c', hentry, hempty⟩)
  · apply hnew
    simp [hc]

end LogCacheBlock

/-! ### Sealing -/

variable {archived : Option LogCacheBlock}

namespace LogCache

variable {c c' : LogCache} {r : StreamRecordBatch}

/-- The active block as it is sealed. -/
def sealedActive (c : LogCache) : LogCacheBlock :=
  { c.active with lastRecordOffset := c.lastRecordOffset.or c.active.lastRecordOffset }

/-- The block that becomes active when one is sealed. -/
def freshBlock (c : LogCache) : LogCacheBlock :=
  ⟨c.nextBlockId, c.cacheBlockMaxSize, c.maxCacheBlockStreamCount, ∅, none, 0, false, false⟩

theorem valid_freshBlock (c : LogCache) :
  c.freshBlock.Valid
  := by
  constructor
  · simp [freshBlock, LogCacheBlock.recordsOf]
  · rintro ⟨streamId, c', hc', -⟩
    simp [freshBlock] at hc'
  · intro hover
    cases hover
  · intro streamId c' hc'
    simp [freshBlock] at hc'

theorem recordsOf_freshBlock (c : LogCache) (streamId : Nat) :
  c.freshBlock.recordsOf streamId = []
  := by
  simp [freshBlock, LogCacheBlock.recordsOf]

/-- Sealing on behalf of a stream, or of all, does nothing or seals an active block that has an
entry. -/
theorem archive_cases (h : c.archiveCurrentBlockIfContains streamId = (archived, c')) :
  (archived = none ∧ c' = c ∧
      (streamId = matchAllStreams → c.active.size = 0) ∧
      (streamId ≠ matchAllStreams → c.active.map[streamId]? = none)) ∨
    (archived = some c.sealedActive ∧ (0 < c.active.size ∨ streamId ∈ c.active.map) ∧
      c' = { c with
        sealed := c.sealed ++ [c.sealedActive]
        active := c.freshBlock
        nextBlockId := c.nextBlockId + 1 })
  := by
  unfold archiveCurrentBlockIfContains at h
  by_cases hall : streamId = matchAllStreams
  · simp only [hall, if_true, decide_eq_true_eq] at h
    split at h
    next hsize =>
      cases h
      exact .inr ⟨rfl, .inl hsize, rfl⟩
    next hsize =>
      cases h
      refine .inl ⟨rfl, rfl, ?_, ?_⟩
      · intro _
        omega
      · intro hne
        exact absurd hall hne
  · simp only [hall, if_false, LogCacheBlock.containsStream, decide_false, Bool.false_or] at h
    split at h
    next hcontains =>
      cases h
      exact .inr ⟨rfl, .inr (Std.ExtTreeMap.contains_iff_mem.mp hcontains), rfl⟩
    next hcontains =>
      cases h
      refine .inl ⟨rfl, rfl, ?_, ?_⟩
      · intro heq
        exact absurd heq hall
      · intro _
        exact lookup_eq_none_of_not_contains hcontains

/-! ### What the maintenance of the cache leaves alone -/

/-- Everything but the sealed blocks and the numbers of blocks. -/
structure SameActive (c c' : LogCache) : Prop where
  active : c'.active = c.active
  lastRecordOffset : c'.lastRecordOffset = c.lastRecordOffset
  cacheBlockMaxSize : c'.cacheBlockMaxSize = c.cacheBlockMaxSize
  maxCacheBlockStreamCount : c'.maxCacheBlockStreamCount = c.maxCacheBlockStreamCount
  nextBlockId : c.nextBlockId ≤ c'.nextBlockId

theorem le_mergeFrom (c : LogCache) (nextId count : Nat) (left : LogCacheBlock)
    (rest : List LogCacheBlock) :
  nextId ≤ (c.mergeFrom nextId count left rest).1
  := by
  induction rest generalizing nextId count left with
  | nil => exact le_refl nextId
  | cons right rest ih =>
    unfold mergeFrom
    split
    next => exact le_refl nextId
    next =>
      split
      next => exact ih nextId count right
      next => exact Nat.le_trans (Nat.le_succ nextId) (ih (nextId + 1) (count - 1) _)

theorem sameActive_tryMerge (c : LogCache) :
  c.SameActive c.tryMerge
  := by
  unfold tryMerge
  split
  next => exact ⟨rfl, rfl, rfl, rfl, le_refl _⟩
  next left rest _ => exact ⟨rfl, rfl, rfl, rfl, c.le_mergeFrom _ _ left rest⟩

theorem sameActive_markFree (c : LogCache) (blockId : Nat) :
  c.SameActive (c.markFree blockId)
  := by
  have hmerge := sameActive_tryMerge (tryRealFree { c with
    sealed := c.sealed.map fun b => if b.blockId = blockId then { b with free := true } else b })
  exact ⟨hmerge.active, hmerge.lastRecordOffset, hmerge.cacheBlockMaxSize,
    hmerge.maxCacheBlockStreamCount, hmerge.nextBlockId⟩

/-- Putting a batch into the cache puts it into the active block. -/
theorem put_eq {added : Bool} (h : c.put r = (c', added)) :
  c.active.put r = (c'.active, added) ∧ c'.lastRecordOffset = c.lastRecordOffset ∧
    c'.cacheBlockMaxSize = c.cacheBlockMaxSize ∧ c'.nextBlockId = c.nextBlockId ∧
    c'.freshBlock = c.freshBlock
  := by
  cases h
  exact ⟨rfl, rfl, rfl, rfl, rfl⟩

end LogCache

/-! ### Confirmed records -/

/-- The record is added to the active block, or refused: then the active block is sealed unless it
has no batches, and the record is put once more. -/
theorem putConfirmed_cases {c c' : LogCache} {r : StreamRecordBatch} {offset : Nat} {added : Bool}
    (h : Sys.putConfirmed c r offset = (c', archived, added)) :
  (∃ c₁, c.put r = (c₁, true) ∧ archived = none ∧ added = true ∧
      c' = c₁.setLastRecordOffset offset) ∨
    ∃ c₁ c₂ c₃, c.put r = (c₁, false) ∧
      c₁.archiveCurrentBlockIfContains matchAllStreams = (archived, c₂) ∧ c₂.active.size = 0 ∧
      c₂.put r = (c₃, added) ∧ c' = c₃.setLastRecordOffset offset
  := by
  unfold Sys.putConfirmed at h
  rcases hfirst : c.put r with ⟨c₁, added₁⟩
  simp only [hfirst] at h
  cases added₁ with
  | true =>
    simp only [if_true] at h
    cases h
    exact .inl ⟨c₁, rfl, rfl, rfl, rfl⟩
  | false =>
    rcases harchive : c₁.archiveCurrentBlockIfContains matchAllStreams with ⟨archived₂, c₂⟩
    rcases hsecond : c₂.put r with ⟨c₃, added₃⟩
    simp only [harchive, hsecond, Bool.false_eq_true, if_false] at h
    cases h
    refine .inr ⟨c₁, c₂, c₃, rfl, harchive, ?_, hsecond, rfl⟩
    rcases LogCache.archive_cases harchive with ⟨-, rfl, hsize, -⟩ | ⟨-, -, rfl⟩
    · exact hsize rfl
    · rfl

end Storage
