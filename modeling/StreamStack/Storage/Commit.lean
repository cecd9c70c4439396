import StreamStack.Lib.Run
import StreamStack.Storage.Blocks

/-!
# Commits

What it means that a batch is committed, and what the commit of a block does: when the batches of
each stream stand in order, all of them are committed.
-/

namespace Storage

open OrdMap Run List

/-! ### Committed records -/

/-- The end offset of the stream in the metadata has passed a batch. -/
def Committed (rows : OrdMap Nat Row) (r : StreamRecordBatch) : Prop :=
  ∃ row, rows[r.streamId]? = some row ∧ r.lastOffset ≤ row.endOffset

instance decidableCommitted (rows : OrdMap Nat Row) (r : StreamRecordBatch) :
    Decidable (Committed rows r) :=
  decidable_of_iff ((rows[r.streamId]?).any fun row => r.lastOffset ≤ row.endOffset)
    (by simp [Committed, Option.any_eq_true])

/-- Rows stay and end offsets grow. -/
def RowsLe (rows rows' : OrdMap Nat Row) : Prop :=
  ∀ (streamId : Nat) (row : Row), rows[streamId]? = some row →
    ∃ row', rows'[streamId]? = some row' ∧ row.endOffset ≤ row'.endOffset

theorem RowsLe.refl (rows : OrdMap Nat Row) :
  RowsLe rows rows
  := fun _ row h => ⟨row, h, le_refl _⟩

variable {rows rows' : OrdMap Nat Row}

theorem RowsLe.trans {rows'' : OrdMap Nat Row} (h : RowsLe rows rows') (h' : RowsLe rows' rows'') :
  RowsLe rows rows''
  := by
  intro streamId row hrow
  obtain ⟨row', hrow', hle⟩ := h streamId row hrow
  obtain ⟨row'', hrow'', hle'⟩ := h' streamId row' hrow'
  exact ⟨row'', hrow'', Nat.le_trans hle hle'⟩

theorem Committed.mono {r : StreamRecordBatch} (h : Committed rows r) (hle : RowsLe rows rows') :
  Committed rows' r
  := by
  obtain ⟨row, hrow, hend⟩ := h
  obtain ⟨row', hrow', hle⟩ := hle r.streamId row hrow
  exact ⟨row', hrow', Nat.le_trans hend hle⟩

variable {streamId : Nat}

/-- A row may be replaced by one with a larger end offset. -/
theorem rowsLe_insert {row' : Row}
    (h : ∀ row, rows[streamId]? = some row → row.endOffset ≤ row'.endOffset) :
  RowsLe rows (rows.insert streamId row')
  := by
  intro k row hrow
  rw [lookup_insert]
  split
  next heq =>
    subst heq
    exact ⟨row', rfl, h row hrow⟩
  next => exact ⟨row, hrow, le_refl _⟩

/-! ### Sorted blocks -/

/-- If two batches are of one stream, the first ends before the second starts. -/
def Before (a b : StreamRecordBatch) : Prop := a.streamId = b.streamId → a.lastOffset ≤ b.baseOffset

/-- The batches of each stream stand in the order of their offsets. -/
def LogCacheBlock.Sorted (b : LogCacheBlock) : Prop :=
  ∀ streamId, (b.recordsOf streamId).Pairwise Before ∧
    ∀ r ∈ b.recordsOf streamId, r.streamId = streamId

variable {records : List StreamRecordBatch}

theorem lastOffset_le_getLast (hsorted : records.Pairwise Before)
    (hstream : ∀ r ∈ records, r.streamId = streamId) {last : StreamRecordBatch}
    (hlast : records.getLast? = some last) :
  ∀ r ∈ records, r.lastOffset ≤ last.lastOffset
  := by
  intro r hr
  obtain ⟨init, rfl⟩ := getLast?_eq_some_iff.mp hlast
  rcases mem_append.mp hr with hinit | hself
  · have hbefore := (pairwise_append.mp hsorted).2.2 r hinit last mem_cons_self
    have hle := hbefore (by rw [hstream r hr, hstream last (by simp)])
    simp only [StreamRecordBatch.lastOffset] at *
    omega
  · rw [mem_singleton.mp hself]

variable {range : CommitRange}

/-- The range of a sorted stream goes forward and ends after all of its batches. -/
theorem commitRange_spec (hsorted : records.Pairwise Before)
    (hstream : ∀ r ∈ records, r.streamId = streamId)
    (h : commitRange (streamId, records) = some range) :
  range.streamId = streamId ∧ range.startOffset ≤ range.endOffset ∧ records ≠ [] ∧
    ∀ r ∈ records, r.lastOffset ≤ range.endOffset
  := by
  obtain ⟨first, hfirst, h⟩ := Option.bind_eq_some_iff.mp h
  obtain ⟨last, hlast, h⟩ := Option.bind_eq_some_iff.mp h
  cases h
  have hle := lastOffset_le_getLast hsorted hstream hlast
  have hmem : first ∈ records := mem_of_mem_head? hfirst
  refine ⟨rfl, ?_, ne_nil_of_mem hmem, hle⟩
  have := hle first hmem
  simp only [StreamRecordBatch.lastOffset] at *
  omega

theorem advanceEndOffset_spec (hforward : range.startOffset ≤ range.endOffset)
    (h : advanceEndOffset rows range = some rows') :
  RowsLe rows rows' ∧ ∃ row, rows'[range.streamId]? = some row ∧ row.endOffset = range.endOffset
  := by
  unfold advanceEndOffset at h
  split at h
  next => cases h
  next row hrow =>
    split at h
    next heq =>
      cases h
      constructor
      · apply rowsLe_insert
        intro row' hrow'
        cases hrow.symm.trans hrow'
        simpa [heq] using hforward
      · rw [lookup_insert, if_pos rfl]
        exact ⟨_, rfl, rfl⟩
    next => cases h

/-- Ranges that are accepted one after the other all end below the end offsets. -/
theorem advanceEndOffsets_spec {ranges : List CommitRange}
    (hforward : ∀ range ∈ ranges, range.startOffset ≤ range.endOffset)
    (h : ranges.foldlM advanceEndOffset rows = some rows') :
  RowsLe rows rows' ∧ ∀ range ∈ ranges,
    ∃ row, rows'[range.streamId]? = some row ∧ range.endOffset ≤ row.endOffset
  := by
  induction ranges generalizing rows with
  | nil =>
    obtain rfl : rows = rows' := by simpa using h
    exact ⟨RowsLe.refl rows, nofun⟩
  | cons range ranges ih =>
    rw [foldlM_cons] at h
    obtain ⟨rows₁, hrows₁, h⟩ := Option.bind_eq_some_iff.mp h
    obtain ⟨hle₁, row₁, hrow₁, hend⟩ :=
      advanceEndOffset_spec (hforward range mem_cons_self) hrows₁
    obtain ⟨hle, hends⟩ := ih (fun r hr => hforward r (mem_cons_of_mem range hr)) h
    refine ⟨hle₁.trans hle, ?_⟩
    intro range' hmem
    rcases mem_cons.mp hmem with rfl | hmem
    · obtain ⟨row, hrow, hle⟩ := hle range'.streamId row₁ hrow₁
      exact ⟨row, hrow, hend ▸ hle⟩
    · exact hends range' hmem

theorem mem_records {b : LogCacheBlock} {e : Nat × List StreamRecordBatch} :
  e ∈ b.records ↔ ∃ c, b.map[e.1]? = some c ∧ c.records = e.2
  := by
  simp only [LogCacheBlock.records, mem_map]
  constructor
  · rintro ⟨⟨streamId, c⟩, hmem, rfl⟩
    exact ⟨c, Std.ExtTreeMap.mem_toList_iff_getElem?_eq_some.mp hmem, rfl⟩
  · rintro ⟨c, hc, hrecords⟩
    exact ⟨(e.1, c), Std.ExtTreeMap.mem_toList_iff_getElem?_eq_some.mpr hc, Prod.ext rfl hrecords⟩

/-- A commit that succeeds commits every batch of the block, and the block has no empty entry. -/
theorem commitStreamSetObject_spec {b : LogCacheBlock} (hsorted : b.Sorted)
    (h : commitStreamSetObject rows b = some rows') :
  RowsLe rows rows' ∧ (∀ r, r ∈ b.recordsOf r.streamId → Committed rows' r) ∧ ¬ b.HasEmptyEntry
  := by
  obtain ⟨ranges, hranges, h⟩ := Option.bind_eq_some_iff.mp h
  obtain ⟨hto, hof⟩ := mapM_some hranges
  -- the range of an entry of the block
  have hspec : ∀ (streamId : Nat) (c : StreamCache) (range : CommitRange),
      b.map[streamId]? = some c → commitRange (streamId, c.records) = some range →
      range.streamId = streamId ∧ range.startOffset ≤ range.endOffset ∧ c.records ≠ [] ∧
        ∀ r ∈ c.records, r.lastOffset ≤ range.endOffset := by
    intro streamId c range hc hrange
    have hsorted := hsorted streamId
    rw [LogCacheBlock.recordsOf_of_lookup hc] at hsorted
    exact commitRange_spec hsorted.1 hsorted.2 hrange
  have hentry : ∀ (streamId : Nat) (c : StreamCache), b.map[streamId]? = some c →
      ∃ range ∈ ranges, commitRange (streamId, c.records) = some range := by
    intro streamId c hc
    exact hto (streamId, c.records) (mem_records.mpr ⟨c, hc, rfl⟩)
  have hforward : ∀ range ∈ ranges, range.startOffset ≤ range.endOffset := by
    intro range hmem
    obtain ⟨⟨streamId, records⟩, he, hrange⟩ := hof range hmem
    obtain ⟨c, hc, rfl⟩ := mem_records.mp he
    exact (hspec streamId c range hc hrange).2.1
  obtain ⟨hle, hends⟩ := advanceEndOffsets_spec hforward h
  refine ⟨hle, ?_, ?_⟩
  · intro r hr
    cases hc : b.map[r.streamId]? with
    | none => simp [LogCacheBlock.recordsOf, hc] at hr
    | some c =>
      rw [LogCacheBlock.recordsOf_of_lookup hc] at hr
      obtain ⟨range, hmem, hrange⟩ := hentry r.streamId c hc
      obtain ⟨hstream, -, -, hlast⟩ := hspec r.streamId c range hc hrange
      obtain ⟨row, hrow, hend⟩ := hends range hmem
      rw [hstream] at hrow
      exact ⟨row, hrow, Nat.le_trans (hlast r hr) hend⟩
  · rintro ⟨streamId, c, hc, hempty⟩
    obtain ⟨range, -, hrange⟩ := hentry streamId c hc
    exact (hspec streamId c range hc hrange).2.2.1 hempty

end Storage
