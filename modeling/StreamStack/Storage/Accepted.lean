import StreamStack.Lib.Spans
import StreamStack.Storage.Close
import StreamStack.Storage.Trim

/-!
# Commits are accepted

The metadata accepts a range where the stream ends, so a commit is accepted when the batches of each
stream reach the commit worker without a gap and in order. What is ahead of the end of a stream are
its batches in the blocks on their way to a commit, then those in the active block, then those in
the log. They are laid end to end as long as nothing fails and no block overtakes an earlier one
with which it shares a stream.
-/

namespace Storage

open OrdMap Run Spans List

/-! ### What is ahead -/

/-- The batches of a stream in blocks, and after them in the log. -/
def ahead (blocks : List LogCacheBlock) (wal : List StreamRecordBatch) (streamId : Nat) :
    List StreamRecordBatch :=
  (blocks.flatMap fun b => b.recordsOf streamId) ++ wal.filter fun r => r.streamId = streamId

/-- The batches ahead of the end of each stream are laid end to end and reach its next offset. -/
structure LaidInv (ends nexts : Nat → Option Nat) (blocks : List LogCacheBlock)
    (wal : List StreamRecordBatch) : Prop where
  laid : ∀ streamId next, nexts streamId = some next → ∃ e, ends streamId = some e ∧
    Laid StreamRecordBatch.baseOffset StreamRecordBatch.lastOffset e (ahead blocks wal streamId) ∧
    reach StreamRecordBatch.lastOffset e (ahead blocks wal streamId) = next
  known : ∀ b ∈ blocks, ∀ streamId, b.recordsOf streamId ≠ [] → ∃ next, nexts streamId = some next

namespace Sys

variable (sys : Sys)

/-- The end of a stream in the metadata. -/
def ends (streamId : Nat) : Option Nat := (sys.rows[streamId]?).map Row.endOffset

/-- The next offset of an open stream. -/
def nexts (streamId : Nat) : Option Nat := (sys.streams[streamId]?).map S3Stream.nextOffset

/-- The blocks on their way to a commit, and the active one. -/
def held : List LogCacheBlock := sys.queue ++ [sys.cache.active]

end Sys

/-- The batches ahead are laid, nothing has failed, and every block can be uploaded. -/
structure AcceptInv (sys : Sys) : Prop where
  laid : LaidInv sys.ends sys.nexts sys.held sys.wal
  whole : ∀ b ∈ sys.queue, ¬ b.HasEmptyEntry
  uploads : ∀ (id : Nat) (task : TaskContext), sys.tasks[id]? = some task →
    task.uploadDone ≠ some false
  going : ¬ sys.Failing

variable {sys sys' : Sys} {ends nexts : Nat → Option Nat} {blocks blocks' : List LogCacheBlock}
  {wal : List StreamRecordBatch}

theorem ahead_append_active (blocks : List LogCacheBlock) (b : LogCacheBlock)
    (wal : List StreamRecordBatch) (streamId : Nat) :
  ahead (blocks ++ [b]) wal streamId =
    (blocks.flatMap fun b => b.recordsOf streamId) ++
      (b.recordsOf streamId ++ wal.filter fun r => r.streamId = streamId)
  := by
  simp [ahead, append_assoc]

/-- Blocks may be replaced by others with the same batches of each stream. -/
theorem LaidInv.setBlocks (h : LaidInv ends nexts blocks wal)
    (hsame : ∀ streamId, (blocks'.flatMap fun b => b.recordsOf streamId) =
      blocks.flatMap fun b => b.recordsOf streamId) :
  LaidInv ends nexts blocks' wal
  := by
  constructor
  · intro streamId next hnext
    obtain ⟨e, he, hlaid⟩ := h.laid streamId next hnext
    use e, he
    simpa only [ahead, hsame] using hlaid
  · intro b hb streamId hne
    obtain ⟨r, hr⟩ := exists_mem_of_ne_nil _ hne
    have hmem : r ∈ blocks'.flatMap fun b => b.recordsOf streamId :=
      mem_flatMap.mpr ⟨b, hb, hr⟩
    rw [hsame] at hmem
    obtain ⟨b₀, hb₀, hr₀⟩ := mem_flatMap.mp hmem
    apply h.known b₀ hb₀ streamId (ne_nil_of_mem hr₀)

variable {cache : LogCache} {streamId : Nat} {archived : Option LogCacheBlock}

theorem LaidInv.archive {cache' : LogCache} (h : LaidInv ends nexts (blocks ++ [cache.active]) wal)
    (harchive : cache.archiveCurrentBlockIfContains streamId = (archived, cache')) :
  LaidInv ends nexts (blocks ++ archived.toList ++ [cache'.active]) wal
  := by
  rcases LogCache.archive_cases harchive with ⟨rfl, rfl, -⟩ | ⟨rfl, -, rfl⟩
  · simpa using h
  · apply h.setBlocks
    intro k
    have hsealed : cache.sealedActive.recordsOf k = cache.active.recordsOf k := rfl
    simp [hsealed, LogCache.recordsOf_freshBlock]

variable {b : LogCacheBlock} {r : StreamRecordBatch} {b' : LogCacheBlock}

theorem LaidInv.put (h : LaidInv ends nexts (blocks ++ [b]) (r :: wal))
    (hput : b.put r = (b', true)) (hknown : ∃ next, nexts r.streamId = some next) :
  LaidInv ends nexts (blocks ++ [b']) wal
  := by
  have hrecords := LogCacheBlock.recordsOf_put hput
  constructor
  · intro streamId next hnext
    obtain ⟨e, he, hlaid⟩ := h.laid streamId next hnext
    use e, he
    rw [ahead_append_active] at hlaid ⊢
    rw [hrecords]
    by_cases hr : r.streamId = streamId
    · simpa [hr] using hlaid
    · simpa [hr] using hlaid
  · intro b₀ hb₀ streamId hne
    rcases mem_append.mp hb₀ with hb₀ | hb₀
    · apply h.known b₀ (mem_append_left _ hb₀) streamId hne
    · rw [mem_singleton] at hb₀
      subst hb₀
      rw [hrecords] at hne
      split at hne
      next hadded =>
        rw [← hadded.2]
        exact hknown
      next => apply h.known b (by simp) streamId hne

/-- A batch that is refused by the active block stays in the log. -/
theorem LaidInv.refused (h : LaidInv ends nexts (blocks ++ [b]) wal) (hput : b.put r = (b', false)) :
  LaidInv ends nexts (blocks ++ [b']) wal
  := by
  apply h.setBlocks
  intro k
  have hrecords : b'.recordsOf k = b.recordsOf k := by
    simp [LogCacheBlock.recordsOf_put hput]
  simp [hrecords]

/-! ### The first block -/

variable {rows : OrdMap Nat Row}

/-- Ranges of distinct streams that start where their streams end are accepted. -/
theorem advanceEndOffsets_accepts {ranges : List CommitRange}
    (hnodup : (ranges.map CommitRange.streamId).Nodup) (hstart : ∀ range ∈ ranges,
      (rows[range.streamId]?).map Row.endOffset = some range.startOffset) :
  ∃ rows', ranges.foldlM advanceEndOffset rows = some rows' ∧
    (∀ range ∈ ranges, (rows'[range.streamId]?).map Row.endOffset = some range.endOffset) ∧
    ∀ k : Nat, k ∉ ranges.map CommitRange.streamId → rows'[k]? = rows[k]?
  := by
  induction ranges generalizing rows with
  | nil => exact ⟨rows, rfl, nofun, fun _ _ => rfl⟩
  | cons range ranges ih =>
    obtain ⟨hfresh, hnodup⟩ := nodup_cons.mp hnodup
    obtain ⟨row, hrow, hend⟩ := Option.map_eq_some_iff.mp (hstart range mem_cons_self)
    have hother (range' : CommitRange) (hmem : range' ∈ ranges) :
        range.streamId ≠ range'.streamId := by
      intro heq
      apply hfresh
      rw [heq]
      apply mem_map_of_mem hmem
    have hstart' (range' : CommitRange) (hmem : range' ∈ ranges) :
        ((rows.insert range.streamId { row with endOffset := range.endOffset })[
          range'.streamId]?).map Row.endOffset = some range'.startOffset := by
      rw [lookup_insert, if_neg (hother range' hmem)]
      apply hstart range' (mem_cons_of_mem range hmem)
    obtain ⟨rows', hfold, hends, hrest⟩ := ih hnodup hstart'
    refine ⟨rows', ?_, ?_, ?_⟩
    · rw [foldlM_cons]
      apply Option.bind_eq_some_iff.mpr
      refine ⟨_, ?_, hfold⟩
      simp [advanceEndOffset, hrow, hend]
    · intro range' hmem
      rcases mem_cons.mp hmem with rfl | hmem
      · rw [hrest _ hfresh, lookup_insert, if_pos rfl]
        rfl
      · apply hends range' hmem
    · intro k hk
      rw [map_cons, mem_cons, not_or] at hk
      rw [hrest k hk.2, lookup_insert, if_neg (Ne.symm hk.1)]

theorem commitRanges_spec (hwhole : ¬ b.HasEmptyEntry) :
  ∃ ranges, commitRanges b = some ranges ∧
    ranges.map CommitRange.streamId = b.map.toList.map Prod.fst ∧
    ∀ range ∈ ranges, ∃ first last, (b.recordsOf range.streamId).head? = some first ∧
      (b.recordsOf range.streamId).getLast? = some last ∧ range.startOffset = first.baseOffset ∧
      range.endOffset = last.lastOffset
  := by
  have hentries : ∀ e ∈ b.map.toList, e.2.records = b.recordsOf e.1 ∧ e.2.records ≠ [] := by
    intro e he
    have he := Std.ExtTreeMap.mem_toList_iff_getElem?_eq_some.mp he
    refine ⟨(LogCacheBlock.recordsOf_of_lookup he).symm, ?_⟩
    intro hempty
    apply hwhole
    exact ⟨e.1, e.2, he, hempty⟩
  rw [commitRanges, LogCacheBlock.records]
  generalize b.map.toList = entries at hentries ⊢
  induction entries with
  | nil => exact ⟨[], rfl, rfl, fun _ h => absurd h not_mem_nil⟩
  | cons e entries ih =>
    obtain ⟨ranges, hranges, hids, hspec⟩ := ih fun x hx =>
      hentries x (mem_cons_of_mem e hx)
    obtain ⟨hrecords, hne⟩ := hentries e mem_cons_self
    have hfirst := head?_eq_some_head hne
    have hlast := getLast?_eq_some_getLast hne
    refine ⟨⟨e.1, (e.2.records.head hne).baseOffset, (e.2.records.getLast hne).lastOffset⟩ ::
      ranges, ?_, ?_, ?_⟩
    · rw [map_cons, mapM_cons, hranges]
      simp [commitRange, hfirst, hlast]
    · rw [map_cons, map_cons, hids]
    · intro range hmem
      rcases mem_cons.mp hmem with rfl | hmem
      · rw [← hrecords]
        exact ⟨_, _, hfirst, hlast, rfl, rfl⟩
      · apply hspec range hmem

theorem ahead_cons (b : LogCacheBlock) (blocks : List LogCacheBlock) (wal : List StreamRecordBatch)
    (k : Nat) :
  ahead (b :: blocks) wal k = b.recordsOf k ++ ahead blocks wal k
  := by
  simp [ahead, append_assoc]

/-- The ranges of the first block on its way are of distinct streams and start where these end. -/
theorem LaidInv.starts {ranges : List CommitRange} (hwhole : ¬ b.HasEmptyEntry)
    (hranges : commitRanges b = some ranges) (h : LaidInv ends nexts (b :: blocks) wal) :
  (ranges.map CommitRange.streamId).Nodup ∧
    ∀ range ∈ ranges, ends range.streamId = some range.startOffset
  := by
  obtain ⟨ranges', hranges', hids, hspec⟩ := commitRanges_spec hwhole
  obtain rfl : ranges' = ranges := Option.some.inj (hranges'.symm.trans hranges)
  refine ⟨?_, ?_⟩
  · rw [hids]
    apply nodup_keys_toList
  · intro range hmem
    obtain ⟨first, last, hfirst, -, hstart, -⟩ := hspec range hmem
    obtain ⟨records, hrecords⟩ := head?_eq_some_iff.mp hfirst
    obtain ⟨next, hnext⟩ := h.known b mem_cons_self range.streamId (by simp [hrecords])
    obtain ⟨e, he, hlaid, -⟩ := h.laid range.streamId next hnext
    rw [ahead_cons, hrecords] at hlaid
    rw [hstart, hlaid.1]
    exact he

/-- The first block on its way is accepted, and what follows is laid after it. -/
theorem LaidInv.commit (hwhole : ¬ b.HasEmptyEntry)
    (h : LaidInv (fun k => (rows[k]?).map Row.endOffset) nexts (b :: blocks) wal) :
  ∃ rows', commitStreamSetObject rows b = some rows' ∧
    LaidInv (fun k => (rows'[k]?).map Row.endOffset) nexts blocks wal
  := by
  obtain ⟨ranges, hranges, hids, hspec⟩ := commitRanges_spec hwhole
  obtain ⟨hnodup, hstart⟩ := h.starts hwhole hranges
  obtain ⟨rows', hfold, hends, hrest⟩ := advanceEndOffsets_accepts hnodup hstart
  refine ⟨rows', ?_, ?_, ?_⟩
  · rw [commitStreamSetObject, hranges]
    exact hfold
  · intro k next hnext
    obtain ⟨e, he, hlaid, hreach⟩ := h.laid k next hnext
    rw [ahead_cons, laid_append] at hlaid
    rw [ahead_cons, reach_append] at hreach
    refine ⟨reach StreamRecordBatch.lastOffset e (b.recordsOf k), ?_, hlaid.2, hreach⟩
    by_cases hk : k ∈ ranges.map CommitRange.streamId
    · obtain ⟨range, hmem, rfl⟩ := mem_map.mp hk
      obtain ⟨first, last, -, hlast, -, hend⟩ := hspec range hmem
      rw [hends range hmem, hend, reach, hlast]
      rfl
    · -- a stream without an entry keeps its end
      have hnone : b.map[k]? = none := by
        cases hentry : b.map[k]? with
        | none => rfl
        | some c =>
          rw [hids] at hk
          have hmem : (k, c) ∈ b.map.toList :=
            Std.ExtTreeMap.mem_toList_iff_getElem?_eq_some.mpr hentry
          exact absurd (mem_map_of_mem hmem) hk
      have hempty : b.recordsOf k = [] := by
        simp [LogCacheBlock.recordsOf, hnone]
      rw [hrest k hk, hempty]
      exact he
  · intro b₀ hb₀
    apply h.known b₀ (mem_cons_of_mem b hb₀)

/-! ### Steps -/

theorem nexts_setStream {stream : S3Stream} (hstream : sys.streams[streamId]? = some stream)
    (stream' : S3Stream) (hnext : stream'.nextOffset = stream.nextOffset) :
  (sys.setStream streamId stream').nexts = sys.nexts
  := by
  funext k
  rw [Sys.nexts, Sys.nexts, Sys.setStream, lookup_insert]
  split
  next heq =>
    subst heq
    rw [hstream, Option.map_some, Option.map_some, hnext]
  next => rfl

theorem nexts_completeAppend (sys : Sys) (streamId : Nat) (ok : Bool) :
  (sys.completeAppend streamId ok).nexts = sys.nexts
  := by
  rcases completeAppend_cases sys streamId ok with ⟨-, h⟩ | ⟨stream, hstream, h⟩
  · rw [h]
  · rw [h]
    exact nexts_setStream hstream _ rfl

theorem nexts_submitted (sys : Sys) (owner : Owner) :
  (sys.submitted owner).nexts = sys.nexts
  := by
  rcases submitted_cases sys owner with h | ⟨k, stream, -, hstream, h⟩ | ⟨_, _, _, -, -, h⟩
  · rw [h]
  · rw [h]
    exact nexts_setStream hstream _ rfl
  · rw [h]
    rfl

theorem wal_completeAppend (sys : Sys) (streamId : Nat) (ok : Bool) :
  (sys.completeAppend streamId ok).wal = sys.wal
  := by
  rcases completeAppend_cases sys streamId ok with ⟨-, h⟩ | ⟨stream, -, h⟩
  · rw [h]
  · rw [h]
    rfl

theorem wal_submitted (sys : Sys) (owner : Owner) :
  (sys.submitted owner).wal = sys.wal
  := by
  rcases submitted_cases sys owner with h | ⟨k, stream, -, -, h⟩ | ⟨_, _, _, -, -, h⟩
  · rw [h]
  · rw [h]
    rfl
  · rw [h]

section

variable (h : AcceptInv sys)

include h

/-- Steps of the streams and of appends that leave the log and the next offsets alone. -/
theorem AcceptInv.sameFlow (hsame : SameFlow sys sys') (hnexts : sys'.nexts = sys.nexts)
    (hwal : sys'.wal = sys.wal) :
  AcceptInv sys'
  := by
  have hlaid := h.laid
  rw [← hnexts, ← hwal] at hlaid
  obtain ⟨streams, wal, hook, durable, acked, rfl⟩ := hsame
  exact { h with laid := hlaid }

theorem AcceptInv.archive (hfits : FitsInv sys)
    (harchive : sys.cache.archiveCurrentBlockIfContains streamId = (archived, cache))
    (owner : Owner) :
  AcceptInv (sys.archive owner archived cache)
  := by
  have hqueue : (sys.archive owner archived cache).queue = sys.queue ++ archived.toList := by
    cases archived with
    | none => simp [Sys.queue, Sys.archive]
    | some b => simp [Sys.queue, Sys.archive]
  constructor
  · have hlaid := LaidInv.archive h.laid harchive
    rw [← hqueue] at hlaid
    exact hlaid
  · intro b hb
    rw [hqueue] at hb
    rcases mem_append.mp hb with hb | hb
    · apply h.whole b hb
    · rcases LogCache.archive_cases harchive with ⟨rfl, -⟩ | ⟨rfl, -⟩
      · simp at hb
      · obtain rfl : b = sys.cache.sealedActive := by simpa using hb
        intro hempty
        apply hfits.active
        exact .inr hempty
  · exact h.uploads
  · exact h.going

/-- The batch of the next record of the log goes to the active block. -/
theorem AcceptInv.putLast (hnode : NodeInv sys) (hwal : sys.wal = r :: wal)
    (hput : sys.cache.put r = (cache, true)) :
  AcceptInv (sys.putLast r wal cache)
  := by
  obtain ⟨hactive, -⟩ := LogCache.put_eq hput
  have hknown : ∃ next, sys.nexts r.streamId = some next := by
    obtain ⟨stream, hstream, -⟩ := hnode.order.nextOffset r (.inl (by simp [hwal]))
    use stream.nextOffset
    rw [Sys.nexts, hstream]
    rfl
  have hlaid := h.laid
  rw [hwal] at hlaid
  exact { h with laid := LaidInv.put hlaid hactive hknown }

/-- A confirmed record goes from the log to the active block, in its order. -/
theorem AcceptInv.confirm (hnode : NodeInv sys) (hfits : FitsInv sys)
    (hstep : sys.confirm = some sys') :
  AcceptInv sys'
  := by
  obtain ⟨r, wal, cache, archived, added, hook, durable, -, hwal, hput, -, rfl⟩ :=
    confirm_cases hstep
  have hr : r ∈ sys.wal := by simp [hwal]
  rcases putConfirmed_cases hput with
    ⟨c₁, hlast, rfl, rfl, rfl⟩ | ⟨c₁, c₂, c₃, hfirst, harchive, hsize, hlast, rfl⟩
  · rw [archive_none]
    exact { h.putLast hnode hwal hlast with }
  · have hrefused : AcceptInv { sys with cache := c₁ } := by
      exact { h with laid := LaidInv.refused h.laid (LogCache.put_eq hfirst).1 }
    have hfits₁ := hfits.put hr hfirst
    have hfits₂ := hfits₁.archive harchive Owner.hook
    have hnode₂ := (hnode.putRefused hfirst).archive harchive Owner.hook
    -- an empty block takes every batch that fits
    have hadded : added = true := by
      cases added with
      | true => rfl
      | false =>
        have hstuck := LogCacheBlock.stuck_of_refused hnode₂.active.valid
          hnode₂.active.maxSize hsize (LogCache.put_eq hlast).1
        exact absurd hstuck (hfits₂.put hr hlast).active
    subst hadded
    exact { (hrefused.archive hfits₁ harchive Owner.hook).putLast hnode₂ hwal hlast with }

theorem AcceptInv.openStream (hnode : NodeInv sys) (hstep : sys.openStream streamId = some sys') :
  AcceptInv sys'
  := by
  obtain ⟨hrow, rfl⟩ := openStream_cases hstep
  -- a stream without a row has no batches anywhere
  have hnone (next : Nat) : sys.nexts streamId ≠ some next := by
    intro hnext
    obtain ⟨e, he, -⟩ := h.laid.laid streamId next hnext
    simp [Sys.ends, hrow] at he
  have hahead : ahead sys.held sys.wal streamId = [] := by
    rw [ahead, append_eq_nil_iff]
    constructor
    · apply flatMap_eq_nil_iff.mpr
      intro b hb
      by_contra hne
      obtain ⟨next, hnext⟩ := h.laid.known b hb streamId hne
      apply hnone next hnext
    · apply filter_eq_nil_iff.mpr
      intro r hr heq
      obtain ⟨stream, hstream, -⟩ := hnode.order.nextOffset r (.inl hr)
      rw [of_decide_eq_true heq] at hstream
      apply hnone stream.nextOffset
      rw [Sys.nexts, hstream]
      rfl
  refine { h with laid := ?_ }
  constructor
  · intro k next hnext
    simp only [Sys.nexts, lookup_insert] at hnext
    simp only [Sys.ends, lookup_insert]
    split at hnext
    next heq =>
      subst heq
      obtain rfl : 0 = next := by simpa using hnext
      refine ⟨0, by simp, ?_⟩
      change Laid _ _ 0 (ahead sys.held sys.wal streamId) ∧
        reach _ 0 (ahead sys.held sys.wal streamId) = 0
      rw [hahead]
      exact ⟨trivial, rfl⟩
    next hne =>
      rw [if_neg hne]
      apply h.laid.laid k next hnext
  · intro b hb k hne
    obtain ⟨next, hnext⟩ := h.laid.known b hb k hne
    simp only [Sys.nexts, lookup_insert]
    split
    next => exact ⟨0, rfl⟩
    next => exact ⟨next, hnext⟩

theorem AcceptInv.append {count : Nat} {payload : List UInt8} (hcount : count ≤ i32Max)
    (hstep : sys.append streamId count payload = some sys') :
  AcceptInv sys'
  := by
  obtain ⟨stream, hstream, -, -, rfl⟩ := append_cases hstep
  have hasI32 : asI32 count = count := if_pos (Nat.lt_succ_of_le hcount)
  have hself : sys.nexts streamId = some stream.nextOffset := by
    rw [Sys.nexts, hstream]
    rfl
  refine { h with laid := ?_ }
  constructor
  · intro k next hnext
    simp only [Sys.nexts, Sys.setStream, lookup_insert] at hnext
    have hsplit (l : List StreamRecordBatch) (r : StreamRecordBatch) :
        ahead sys.held (l ++ [r]) k =
          ahead sys.held l k ++ if r.streamId = k then [r] else [] := by
      simp [ahead, append_assoc, filter_cons]
    change ∃ e, sys.ends k = some e ∧ Laid _ _ e (ahead sys.held (sys.wal ++ [_]) k) ∧
      reach _ e (ahead sys.held (sys.wal ++ [_]) k) = next
    split at hnext
    next heq =>
      subst heq
      cases hnext
      obtain ⟨e, he, hlaid, hreach⟩ := h.laid.laid streamId stream.nextOffset hself
      refine ⟨e, he, ?_⟩
      rw [hsplit, laid_append, reach_append, hreach]
      simp [Laid, hlaid, StreamRecordBatch.lastOffset, hasI32]
    next hne =>
      obtain ⟨e, he, hlaid⟩ := h.laid.laid k next hnext
      refine ⟨e, he, ?_⟩
      rw [hsplit, if_neg hne, append_nil]
      exact hlaid
  · intro b hb k hne
    obtain ⟨next, hnext⟩ := h.laid.known b hb k hne
    simp only [Sys.nexts, Sys.setStream, lookup_insert]
    split
    next => exact ⟨_, rfl⟩
    next => exact ⟨next, hnext⟩

end

/-- The condition on a submission: no block that was sealed earlier and waits as well shares a
stream with the block. -/
def NotOvertaking (unsubmitted : List (Owner × LogCacheBlock)) (i : Nat) : Prop :=
  ∀ e ∈ unsubmitted.take i, ∀ e' ∈ unsubmitted[i]?, ∀ entry ∈ e'.2.map.toList,
    e.2.map[entry.1]? = none

section

variable (h : AcceptInv sys)

include h

/-- Blocks that do not overtake each other are enqueued in order. -/
theorem AcceptInv.enqueue (hnode : NodeInv sys) {i : Nat} {owner : Owner} {block : LogCacheBlock}
    (hentry : sys.unsubmitted[i]? = some (owner, block)) (horder : NotOvertaking sys.unsubmitted i) :
  AcceptInv (sys.enqueue i block)
  := by
  have hqueue := queue_enqueue hnode hentry
  obtain ⟨hlt, hget⟩ := List.getElem?_eq_some_iff.mp hentry
  have hsplit : sys.unsubmitted = sys.unsubmitted.take i ++
      (owner, block) :: sys.unsubmitted.drop (i + 1) := by
    rw [← hget, cons_getElem_drop_succ, take_append_drop]
  have herase : sys.unsubmitted.eraseIdx i =
      sys.unsubmitted.take i ++ sys.unsubmitted.drop (i + 1) := eraseIdx_eq_take_drop_succ _ _
  -- the block has no stream in common with those it passes
  have hpassed (k : Nat) : block.recordsOf k = [] ∨
      ((sys.unsubmitted.take i).map Prod.snd).flatMap (fun b => b.recordsOf k) = [] := by
    cases hmap : block.map[k]? with
    | none => exact .inl (by simp [LogCacheBlock.recordsOf, hmap])
    | some c =>
      right
      apply flatMap_eq_nil_iff.mpr
      intro b hb
      obtain ⟨e, he, rfl⟩ := mem_map.mp hb
      have hmem : (k, c) ∈ block.map.toList :=
        Std.ExtTreeMap.mem_toList_iff_getElem?_eq_some.mpr hmap
      have hnone := horder e he (owner, block) hentry (k, c) hmem
      simp [LogCacheBlock.recordsOf, hnone]
  constructor
  · apply h.laid.setBlocks
    intro k
    have hheld : sys.held = (sys.commitQueue ++ sys.prepareQueue).filterMap
        (fun id => (sys.tasks[id]?).map TaskContext.block) ++
      ((sys.unsubmitted.take i).map Prod.snd ++
        block :: (sys.unsubmitted.drop (i + 1)).map Prod.snd) ++ [sys.cache.active] := by
      have hmap := congrArg (List.map Prod.snd) hsplit
      rw [map_append, map_cons] at hmap
      rw [Sys.held, Sys.queue, ← hmap]
    rw [Sys.held, hqueue, hheld, herase]
    simp only [flatMap_append, flatMap_cons, map_append]
    rcases hpassed k with hempty | hempty
    · simp [hempty, Sys.enqueue]
    · rw [hempty]
      simp [Sys.enqueue]
  · intro b hb
    apply h.whole b
    rw [hqueue] at hb
    rw [Sys.queue]
    rcases mem_append.mp hb with hb | hb
    · apply mem_append_left _ hb
    · apply mem_append_right
      rcases mem_cons.mp hb with rfl | hb
      · apply mem_map.mpr ⟨(owner, b), mem_of_getElem? hentry, rfl⟩
      · obtain ⟨e, he, rfl⟩ := mem_map.mp hb
        apply mem_map_of_mem (mem_of_mem_eraseIdx he)
  · intro id task htask
    rw [Sys.enqueue] at htask
    rcases lookup_insert_cases htask with ⟨-, rfl⟩ | ⟨-, htask⟩
    · intro hup
      cases hup
    · apply h.uploads id task htask
  · exact h.going

/-- A task may change as long as its block stays and its upload has not failed. -/
theorem AcceptInv.setTask {id : Nat} {task : TaskContext} (htask : sys.tasks[id]? = some task)
    (task' : TaskContext) (hblock : task'.block = task.block)
    (hupload : task'.uploadDone ≠ some false) :
  AcceptInv { sys with tasks := sys.tasks.insert id task' }
  := by
  have hqueue : Sys.queue { sys with tasks := sys.tasks.insert id task' } = sys.queue := by
    have hblocks (k : Nat) : ((sys.tasks.insert id task')[k]?).map TaskContext.block
        = (sys.tasks[k]?).map TaskContext.block := by
      rw [lookup_insert]
      split
      next heq =>
        subst heq
        simp [htask, hblock]
      next => rfl
    simp only [Sys.queue, hblocks]
  constructor
  · have hlaid := h.laid
    rw [Sys.held, ← hqueue] at hlaid
    exact hlaid
  · rw [hqueue]
    exact h.whole
  · exact forall_insert hupload h.uploads
  · exact h.going

theorem AcceptInv.completeTask (id : Nat) (ok : Bool) :
  AcceptInv (sys.completeTask id ok)
  := by
  unfold Sys.completeTask
  split
  next => exact h
  next task htask =>
    apply h.setTask htask { task with cf := some ok } rfl
    apply h.uploads id task htask

theorem AcceptInv.prepare (hstep : sys.prepare true = some sys') :
  AcceptInv sys'
  := by
  obtain ⟨id, queue, hprepare, ⟨-, rfl⟩ | ⟨hfalse, -⟩⟩ := prepare_cases hstep
  · have hqueue := queue_prepare hprepare
    have hlaid := h.laid
    rw [Sys.held, ← hqueue] at hlaid
    have hwhole := h.whole
    rw [← hqueue] at hwhole
    exact { h with laid := hlaid, whole := hwhole }
  · cases hfalse

/-- The block of the first task that waits for its commit is the first on its way. -/
theorem AcceptInv.first {id : Nat} {queue : List Nat} {task : TaskContext}
    (hcommit : sys.commitQueue = id :: queue) (htask : sys.tasks[id]? = some task) :
  ¬ task.block.HasEmptyEntry ∧
    sys.queue = task.block :: Sys.queue { sys with commitQueue := queue } ∧
    LaidInv sys.ends sys.nexts (task.block :: Sys.held { sys with commitQueue := queue }) sys.wal
  := by
  have hqueue : sys.queue = task.block :: Sys.queue { sys with commitQueue := queue } := by
    simp [Sys.queue, hcommit, htask]
  refine ⟨?_, hqueue, ?_⟩
  · apply h.whole
    simp [hqueue]
  · have hlaid := h.laid
    rw [Sys.held, hqueue] at hlaid
    exact hlaid

/-- The commit worker has a task whose upload has succeeded. -/
theorem AcceptInv.uploaded_of_commit {reply : Reply} (hstep : sys.commit reply = some sys') :
  sys.poisoned = false ∧ ∃ id queue task, sys.commitWorker = .idle ∧
    sys.commitQueue = id :: queue ∧ sys.tasks[id]? = some task ∧ task.uploadDone = some true
  := by
  have hpoisoned : sys.poisoned = false := by
    by_contra hp
    apply h.going
    exact .inl (Bool.not_eq_false _ ▸ hp)
  unfold Sys.commit at hstep
  split at hstep
  next id queue hidle hcommit =>
    obtain ⟨task, htask, hstep⟩ := Option.bind_eq_some_iff.mp hstep
    rw [if_neg (by simp [hpoisoned])] at hstep
    obtain ⟨uploaded, huploaded, -⟩ := Option.bind_eq_some_iff.mp hstep
    refine ⟨hpoisoned, id, queue, task, hidle, hcommit, htask, ?_⟩
    cases uploaded with
    | true => exact huploaded
    | false => exact absurd huploaded (h.uploads id task htask)
  next => cases hstep

omit h in
/-- The first task of the queue continues the rows, so its commit is accepted. -/
theorem commit_answered {id : Nat} {queue : List Nat} {task : TaskContext} {rows : OrdMap Nat Row}
    (hpoisoned : sys.poisoned = false) (hidle : sys.commitWorker = .idle)
    (hcommit : sys.commitQueue = id :: queue) (htask : sys.tasks[id]? = some task)
    (huploaded : task.uploadDone = some true)
    (hrows : commitStreamSetObject sys.rows task.block = some rows) :
  sys.commit .answered
    = some { sys with commitQueue := queue, rows, commitWorker := .returned id true }
  := by
  simp [Sys.commit, hidle, hcommit, htask, hpoisoned, huploaded, hrows]

theorem AcceptInv.commit (hstep : sys.commit .answered = some sys') :
  AcceptInv sys'
  := by
  obtain ⟨hpoisoned, id, queue, task, hidle, hcommit, htask, huploaded⟩ := h.uploaded_of_commit hstep
  obtain ⟨hwhole, hqueue, hlaid⟩ := h.first hcommit htask
  obtain ⟨rows, hrows, hlaid'⟩ := LaidInv.commit hwhole hlaid
  obtain rfl := Option.some.inj
    ((commit_answered hpoisoned hidle hcommit htask huploaded hrows).symm.trans hstep)
  constructor
  · exact hlaid'
  · intro b hb
    apply h.whole b
    rw [hqueue]
    apply mem_cons_of_mem _ hb
  · exact h.uploads
  · rintro (hp | ⟨k, hk⟩)
    · exact absurd hp (by simp [hpoisoned])
    · cases hk

/-- A commit that is through leaves the rows at the end of its block. -/
theorem AcceptInv.commitDone (hstep : sys.commitDone = some sys') :
  AcceptInv sys'
  := by
  obtain ⟨id, ok, task, hworker, htask, ⟨rfl, rfl⟩ | ⟨rfl, -⟩⟩ := commitDone_cases hstep
  · apply AcceptInv.completeTask
    have hlaid := h.laid
    rw [Sys.held, ← (sys.cache.sameActive_markFree id).active] at hlaid
    refine { h with laid := hlaid, going := ?_ }
    rintro (hp | ⟨k, hk⟩)
    · exact h.going (.inl hp)
    · cases hk
  · exact absurd (.inr ⟨id, hworker⟩) h.going

end

theorem ends_closeRow (sys : Sys) (streamId : Nat) :
  (sys.closeRow streamId).ends = sys.ends
  := by
  funext k
  unfold Sys.closeRow
  split
  next row hrow =>
    rw [Sys.ends, Sys.ends, lookup_insert]
    split
    next heq =>
      subst heq
      rw [hrow]
      rfl
    next => rfl
  next => rfl

theorem AcceptInv.closeRow (h : AcceptInv sys) (streamId : Nat) :
  AcceptInv (sys.closeRow streamId)
  := by
  have hlaid := h.laid
  rw [← ends_closeRow sys streamId] at hlaid
  obtain ⟨rows, -, heq⟩ := closeRow_eq sys streamId
  rw [heq] at hlaid ⊢
  exact { h with laid := hlaid }

theorem AcceptInv.moved (h : AcceptInv sys) {stream : S3Stream} {operable : Bool}
    {closing : Closing} (hmoved : Moved sys streamId stream operable closing sys') :
  AcceptInv sys'
  := by
  obtain ⟨hstream, rfl⟩ := hmoved
  exact h.sameFlow (sameFlow_setStream sys streamId _) (nexts_setStream hstream _ rfl) rfl

theorem AcceptInv.closeStream (h : AcceptInv sys) {reply : Reply}
    (hstep : sys.closeStream streamId reply = some sys') :
  AcceptInv sys'
  := by
  obtain ⟨stream, hstream, hstep⟩ := Option.bind_eq_some_iff.mp hstep
  have hclosed := h.closeRow streamId
  have hstream' : (sys.closeRow streamId).streams[streamId]? = some stream := by
    obtain ⟨rows, -, heq⟩ := closeRow_eq sys streamId
    rw [heq]
    exact hstream
  split at hstep
  next =>
    cases reply with
    | answered =>
      cases hstep
      exact hclosed.moved ⟨hstream', rfl⟩
    | failed =>
      cases hstep
      exact h.moved ⟨hstream, rfl⟩
    | lost =>
      cases hstep
      exact hclosed.moved ⟨hstream', rfl⟩
  next => cases hstep

/-! ### Runs -/

/-- No append, preparation, upload or commit call fails. -/
def Healthy : Action → Prop
  | .walFail _ => False
  | .prepare ok => ok = true
  | .uploaded _ ok => ok = true
  | .commit reply => reply = .answered
  | _ => True

/-- The condition on a step: a submission overtakes no block with a common stream, and a batch has
at most 2³¹ - 1 records. -/
def AcceptSafe (sys : Sys) : Action → Prop
  | .submit i => NotOvertaking sys.unsubmitted i
  | .append _ count _ => count ≤ i32Max
  | _ => True

instance decidableHealthy : DecidablePred Healthy :=
  fun a => by
    induction a using Action.casesOn <;> dsimp only [Healthy] <;> infer_instance

instance decidableNotOvertaking (unsubmitted : List (Owner × LogCacheBlock)) (i : Nat) :
    Decidable (NotOvertaking unsubmitted i) :=
  inferInstanceAs (Decidable (∀ e ∈ unsubmitted.take i, ∀ e' ∈ unsubmitted[i]?,
    ∀ entry ∈ e'.2.map.toList, e.2.map[entry.1]? = none))

instance decidableAcceptSafe (sys : Sys) : DecidablePred (AcceptSafe sys) :=
  fun a => by
    induction a using Action.casesOn <;> dsimp only [AcceptSafe] <;> infer_instance

variable {a : Action}

theorem AcceptInv.step (h : AcceptInv sys) (hnode : NodeInv sys) (hfits : FitsInv sys)
    (hhealthy : Healthy a) (hsafe : AcceptSafe sys a) (hstep : step sys a = some sys') :
  AcceptInv sys'
  := by
  cases a with
  | openStream streamId => apply h.openStream hnode hstep
  | startAppend streamId =>
    obtain ⟨stream, hstream, -, rfl⟩ := startAppend_cases hstep
    exact h.sameFlow (sameFlow_setStream sys streamId _) (nexts_setStream hstream _ rfl) rfl
  | append streamId count payload => apply h.append hsafe hstep
  | walFail i => cases hhealthy
  | confirm => apply h.confirm hnode hfits hstep
  | hookRetry =>
    obtain ⟨r, archived, cache, hook, durable, -, harchive, -, rfl⟩ := hookRetry_cases hstep
    exact { h.archive hfits harchive Owner.hook with }
  | ack i =>
    obtain ⟨r, -, rfl⟩ := ack_cases hstep
    have hacked : AcceptInv { sys with
        durable := sys.durable.eraseIdx i
        acked := r :: sys.acked } := { h with }
    exact hacked.sameFlow (sameFlow_completeAppend _ _ _) (nexts_completeAppend _ _ _)
      (wal_completeAppend _ _ _)
  | upload streamId =>
    obtain ⟨archived, cache, harchive, rfl⟩ := upload_cases hstep
    apply h.archive hfits harchive
  | submit i =>
    obtain ⟨owner, block, hentry, rfl⟩ := submit_cases hstep
    exact (h.enqueue hnode hentry hsafe).sameFlow (sameFlow_submitted _ owner)
      (nexts_submitted _ owner) (wal_submitted _ owner)
  | prepare ok =>
    cases hhealthy
    apply h.prepare hstep
  | uploaded id ok =>
    cases hhealthy
    obtain ⟨task, htask, rfl⟩ := uploaded_cases hstep
    apply h.setTask htask { task with uploadDone := some true } rfl
    nofun
  | removeInflight id =>
    obtain ⟨task, -, -, rfl⟩ := removeInflight_cases hstep
    exact { h with }
  | commit reply =>
    cases hhealthy
    apply h.commit hstep
  | commitDone => apply h.commitDone hstep
  | trim i =>
    obtain ⟨offset, -, rfl⟩ := trim_cases hstep
    exact { h with }
  | close streamId =>
    obtain ⟨stream, hmoved, -⟩ := close_moved hstep
    apply h.moved hmoved
  | drained streamId =>
    obtain ⟨stream, hmoved, -⟩ := drained_moved hstep
    apply h.moved hmoved
  | closeSeal streamId =>
    obtain ⟨stream, archived, cache, hstream, -, harchive, rfl⟩ := closeSeal_cases hstep
    have harchived := h.archive hfits harchive (Owner.close streamId)
    have hstill : (sys.archive (Owner.close streamId) archived cache).streams[streamId]?
        = some stream := hstream
    exact harchived.sameFlow (sameFlow_setStream _ streamId _) (nexts_setStream hstill _ rfl) rfl
  | collect streamId =>
    obtain ⟨stream, hmoved, -⟩ := collect_moved hstep
    apply h.moved hmoved
  | awaitTask streamId =>
    obtain ⟨stream, ids, closing, hmoved, -⟩ := awaitTask_moved hstep
    apply h.moved hmoved
  | closeStream streamId reply => apply h.closeStream hstep

theorem AcceptSafe.small (h : AcceptSafe sys a) :
  Small a
  := by
  cases a with
  | append streamId count payload => exact h
  | _ => trivial

/-- What holds in every state of a run whose steps meet the condition. -/
structure AcceptedInv (sys : Sys) : Prop where
  node : NodeInv sys
  placed : PlacedInv sys
  fits : FitsInv sys
  accept : AcceptInv sys

theorem AcceptedInv.step (h : AcceptedInv sys) (hhealthy : Healthy a) (hsafe : AcceptSafe sys a)
    (hstep : step sys a = some sys') :
  AcceptedInv sys'
  := by
  have hkept := KeptInv.step h.placed h.fits h.node hsafe.small hstep
  exact ⟨h.node.step hstep, hkept.placed, hkept.fits,
    h.accept.step h.node h.fits hhealthy hsafe hstep⟩

theorem acceptInv_start (capacity cacheBlockMaxSize maxCacheBlockStreamCount : Nat) :
  AcceptInv (Sys.start capacity cacheBlockMaxSize maxCacheBlockStreamCount)
  := by
  refine ⟨⟨?_, ?_⟩, nofun, ?_, ?_⟩
  · intro k next hnext
    simp [Sys.nexts, Sys.start] at hnext
  · intro b hb k hne
    have hactive :
        b = (Sys.start capacity cacheBlockMaxSize maxCacheBlockStreamCount).cache.active :=
      mem_singleton.mp hb
    rw [hactive, recordsOf_start] at hne
    exact absurd rfl hne
  · intro id task htask
    simp [Sys.start] at htask
  · rintro (hpoisoned | ⟨id, hworker⟩)
    · cases hpoisoned
    · cases hworker

end Storage
