import StreamStack.Wal.Steps

/-!
# Windows of bulks

The windows of the bulks that are sealed lie end to end from the offset at which the writer has
started: each starts where the one before it ends, and the active bulk starts where the last one
ends. A bulk has at least one record and at most 64 MiB of them, so that every window that starts at
an aligned offset is one block of 64 MiB, and the records of its object lie in it one after the
other. Only the first window can start elsewhere.
-/

namespace Wal

open Spans List

/-! ### Alignment -/

theorem dvd_ceilAlignOffset (offset : Nat) :
  dataFileAlignSize ∣ ceilAlignOffset offset
  := Dvd.intro_left _ rfl

theorem le_ceilAlignOffset (offset : Nat) :
  offset ≤ ceilAlignOffset offset
  := by
  unfold ceilAlignOffset dataFileAlignSize
  omega

/-- The end of a bulk is the end of its window. -/
theorem ceilAlignOffset_window {base size : Nat} (hbase : dataFileAlignSize ∣ base) (hpos : 0 < size)
    (hsize : size ≤ dataFileAlignSize) :
  ceilAlignOffset (base + size) = base + dataFileAlignSize
  := by
  obtain ⟨k, rfl⟩ := hbase
  unfold ceilAlignOffset
  unfold dataFileAlignSize at hsize ⊢
  omega

/-! ### Bulks -/

/-- What sealing finds in a bulk. -/
structure Bulk.Filled (b : Bulk) : Prop where
  size : b.size = (b.records.map PendingRecord.size).sum
  nonempty : b.records ≠ []
  fits : b.size ≤ dataFileAlignSize

variable {r : PendingRecord}

namespace Bulk

theorem size_pos_of_mem :
  walRecordHeaderSize ≤ r.size
  := by
  rw [PendingRecord.size]
  omega

variable {b : Bulk}

theorem Filled.pos (h : b.Filled) :
  0 < b.size
  := by
  obtain ⟨r, rest, hrecords⟩ := exists_cons_of_ne_nil h.nonempty
  have hr : walRecordHeaderSize ≤ r.size := size_pos_of_mem
  rw [h.size, hrecords, map_cons, sum_cons]
  unfold walRecordHeaderSize at hr
  omega

/-- The window of an aligned bulk is one block. -/
theorem Filled.endOffsetAligned (h : b.Filled) (hbase : dataFileAlignSize ∣ b.baseOffset) :
  b.endOffsetAligned = b.baseOffset + dataFileAlignSize
  := ceilAlignOffset_window hbase h.pos h.fits

/-- The path of the object names the window. -/
theorem Filled.key (h : b.Filled) (config : ObjectWalConfig) :
  b.key config = (config.epoch, b.baseOffset, b.endOffsetAligned)
  := by
  rw [Bulk.key, ← h.size]
  rfl

theorem perm_sorted (b : Bulk) :
  b.sorted.Perm b.records
  := mergeSort_perm _ _

theorem mem_sorted :
  r ∈ b.sorted ↔ r ∈ b.records
  := (perm_sorted b).mem_iff

/-! ### Frames -/

/-- Every record has a frame. -/
theorem framesFrom_eq_nil {offset : Nat} {records : List PendingRecord} :
  framesFrom offset records = [] ↔ records = []
  := by
  cases records with
  | nil => simp [framesFrom]
  | cons r rest => simp [framesFrom]

theorem map_record_framesFrom (offset : Nat) (records : List PendingRecord) :
  (framesFrom offset records).map Frame.record = records.map PendingRecord.record
  := by
  induction records generalizing offset with
  | nil => rfl
  | cons r rest ih => rw [framesFrom, map_cons, map_cons, ih]

/-- Frames lie one after the other in the records' space. -/
theorem laid_framesFrom (offset : Nat) (records : List PendingRecord) :
  Laid Frame.offset (fun f => f.offset + f.size) offset (framesFrom offset records) ∧
    reach (fun f => f.offset + f.size) offset (framesFrom offset records)
      = offset + (records.map PendingRecord.size).sum
  := by
  induction records generalizing offset with
  | nil => exact ⟨trivial, rfl⟩
  | cons r rest ih =>
    obtain ⟨hlaid, hreach⟩ := ih (offset + r.size)
    rw [framesFrom, reach_cons]
    refine ⟨⟨rfl, hlaid⟩, ?_⟩
    change reach _ (offset + r.size) _ = _
    rw [hreach, map_cons, sum_cons]
    omega

theorem sum_sorted (b : Bulk) :
  (b.sorted.map PendingRecord.size).sum = (b.records.map PendingRecord.size).sum
  := ((perm_sorted b).map PendingRecord.size).sum_eq

theorem frames_ne_nil (h : b.records ≠ []) :
  b.frames ≠ []
  := by
  intro hnil
  apply h
  have hsorted := framesFrom_eq_nil.mp hnil
  apply List.Perm.eq_nil
  rw [← hsorted]
  exact (perm_sorted b).symm

/-- The frames of a bulk lie in its window one after the other. -/
theorem frames_window (h : b.Filled) :
  b.frames.Pairwise (fun f g => f.offset < g.offset) ∧
    ∀ f ∈ b.frames, b.baseOffset ≤ f.offset ∧ f.offset + f.size ≤ b.endOffsetAligned
  := by
  obtain ⟨hlaid, hreach⟩ := laid_framesFrom b.baseOffset b.sorted
  have hsize : ∀ f ∈ b.frames, f.offset < f.offset + f.size := by
    intro f _
    rw [Frame.size, walRecordHeaderSize]
    omega
  obtain ⟨hpairwise, hfrom⟩ := hlaid.pairwise fun f hf => (hsize f hf).le
  have hto := (hlaid.le_reach fun f hf => (hsize f hf).le).2
  constructor
  · apply hpairwise.imp_of_mem
    intro f g hf _ hle
    exact lt_of_lt_of_le (hsize f hf) hle
  · intro f hf
    have hend : f.offset + f.size ≤ b.endOffset := by
      apply le_of_le_of_eq (hto f hf)
      rw [hreach, sum_sorted, ← h.size]
      rfl
    exact ⟨hfrom f hf, hend.trans (le_ceilAlignOffset _)⟩

/-- The frames of a bulk lie in its window. -/
theorem frames_lt_end (h : b.Filled) :
  ∀ f ∈ b.frames, f.offset < b.endOffsetAligned
  := by
  intro f hf
  have hend := ((frames_window h).2 f hf).2
  rw [Frame.size, walRecordHeaderSize] at hend
  omega

/-- The objects of bulks can be read back. -/
theorem object_valid (h : b.Filled) (config : ObjectWalConfig) (trimOffset : Int)
    (hbound : b.endOffsetAligned < 2 ^ 63) :
  (b.object config trimOffset).Valid
  := by
  refine ⟨rfl, frames_ne_nil h.nonempty, ?_, ?_⟩
  · intro f hf
    have hrecord : f.record ∈ b.sorted.map PendingRecord.record := by
      rw [← map_record_framesFrom b.baseOffset]
      exact mem_map_of_mem hf
    obtain ⟨r, hr, hfr⟩ := mem_map.mp hrecord
    have hle : r.size ≤ b.size := by
      rw [h.size]
      exact single_le_sum (fun _ _ => Nat.zero_le _) _ (mem_map_of_mem (mem_sorted.mp hr))
    have hfits := h.fits
    unfold dataFileAlignSize at hfits
    rw [PendingRecord.size] at hle
    rw [← hfr]
    omega
  · intro f hf
    have hlt := frames_lt_end h f hf
    unfold walRecordHeaderSize
    omega

end Bulk

/-! ### The invariant -/

/-- The windows of the bulks that were sealed, and the active bulk. -/
structure WindowInv (start : Nat) (w : Writer) : Prop where
  seqs : ∀ (i : Nat) (b : Bulk), w.sealed[i]? = some b → b.seq = i + 1
  bulkSeq : w.bulkSeq = w.sealed.length + w.active.toList.length
  laid : Laid Bulk.baseOffset Bulk.endOffsetAligned start w.sealed
  next : reach Bulk.endOffsetAligned start w.sealed = w.nextOffset
  filled : ∀ b ∈ w.sealed, b.Filled
  active : ∀ b ∈ w.active, b.seq = w.sealed.length + 1 ∧ b.baseOffset = w.nextOffset ∧ b.Filled
  ends : ∀ b ∈ w.sealed, b.endOffsetAligned < 2 ^ 63
  bound : start < 2 ^ 63 → w.nextOffset < 2 ^ 63
  ids : ∀ b ∈ w.sealed ++ w.active.toList, ∀ r ∈ b.records, r.id < w.nextId

variable {w w' : Writer} {start : Nat} {record : StreamRecordBatch}

section

variable (h : WindowInv start w)

include h

theorem WindowInv.sealActive (hseal : w.sealActive = some w') :
  WindowInv start w'
  := by
  obtain ⟨-, rfl⟩ | ⟨bulk, hactive, hbound, rfl⟩ := sealActive_cases hseal
  · exact h
  · obtain ⟨hseq, hbase, hfilled⟩ := h.active bulk hactive
    refine ⟨?_, ?_, ?_, ?_, ?_, nofun, ?_, fun _ => hbound, ?_⟩
    · intro i b hb
      rw [getElem?_append] at hb
      split at hb
      next => exact h.seqs i b hb
      next hlt =>
        rw [getElem?_singleton] at hb
        split at hb
        next hi =>
          cases hb
          omega
        next => cases hb
    · have hbulkSeq := h.bulkSeq
      rw [hactive] at hbulkSeq
      simpa using hbulkSeq
    · apply laid_append.mpr
      refine ⟨h.laid, ?_, trivial⟩
      rw [hbase, h.next]
    · rw [reach_append, reach_cons, reach_nil, Bulk.endOffsetAligned, Bulk.endOffset, hbase]
    · intro b hb
      rcases mem_append.mp hb with hb | hb
      · exact h.filled b hb
      · obtain rfl := mem_singleton.mp hb
        exact hfilled
    · intro b hb
      rcases mem_append.mp hb with hb | hb
      · exact h.ends b hb
      · obtain rfl := mem_singleton.mp hb
        rwa [Bulk.endOffsetAligned, Bulk.endOffset, hbase]
    · have hids := h.ids
      rw [hactive] at hids
      simpa using hids

/-- A record that fits goes into the active bulk. -/
theorem WindowInv.push {bulk : Bulk} (hid : r.id = w.nextId) (hactive : w.active = some bulk)
    (hroom : r.size + bulk.size ≤ dataFileAlignSize) :
  WindowInv start (w.push r)
  := by
  obtain ⟨hseq, hbase, hfilled⟩ := h.active bulk hactive
  refine ⟨h.seqs, ?_, h.laid, h.next, h.filled, ?_, h.ends, h.bound, ?_⟩
  · have hbulkSeq := h.bulkSeq
    rw [hactive] at hbulkSeq
    rw [Writer.push, hactive]
    exact hbulkSeq
  · intro b hb
    rw [Writer.push, hactive] at hb
    cases hb
    refine ⟨hseq, hbase, ?_, ?_, ?_⟩
    · simp [hfilled.size]
    · simp
    · change bulk.size + r.size ≤ _
      omega
  · intro b hb s hs
    change s.id < w.nextId + 1
    rw [Writer.push, hactive] at hb
    rcases mem_append.mp hb with hb | hb
    · have hlt := h.ids b (mem_append_left _ hb) s hs
      omega
    · obtain rfl := mem_singleton.mp hb
      rcases mem_append.mp hs with hs | hs
      · have hlt := h.ids bulk (mem_append_right _ (by simp [hactive])) s hs
        omega
      · obtain rfl := mem_singleton.mp hs
        omega

/-- A record that does not fit starts the next window. -/
theorem WindowInv.newActiveBulk (hid : r.id = w.nextId) (hactive : w.active = none)
    (hsize : r.size ≤ dataFileAlignSize) :
  WindowInv start (w.newActiveBulk.push r)
  := by
  have hbulkSeq := h.bulkSeq
  rw [hactive] at hbulkSeq
  refine ⟨h.seqs, ?_, h.laid, h.next, h.filled, ?_, h.ends, h.bound, ?_⟩
  · change w.bulkSeq + 1 = w.sealed.length + 1
    rw [hbulkSeq]
    rfl
  · intro b hb
    cases hb
    refine ⟨?_, rfl, ?_, ?_, ?_⟩
    · change w.bulkSeq + 1 = w.sealed.length + 1
      rw [hbulkSeq]
      rfl
    · simp
    · simp
    · change 0 + r.size ≤ _
      omega
  · intro b hb s hs
    change s.id < w.nextId + 1
    rcases mem_append.mp hb with hb | hb
    · have hlt := h.ids b (mem_append_left _ hb) s hs
      omega
    · obtain rfl := mem_singleton.mp hb
      obtain rfl := mem_singleton.mp hs
      omega

theorem WindowInv.submit (hsubmit : w.submit record = some w') :
  WindowInv start w'
  := by
  apply submit_induction (I := WindowInv start) _ _ _ h hsubmit
  · exact fun w w' h hseal => h.sealActive hseal
  · exact fun w b h hactive hroom => h.push rfl hactive hroom
  · exact fun w h hactive hsize => h.newActiveBulk rfl hactive hsize

theorem WindowInv.complete (hstep : w.complete = some w') :
  WindowInv start w'
  := by
  obtain ⟨u, bulks, -, rfl⟩ | ⟨u, bulks, -, rfl⟩ | ⟨fenced, -, rfl⟩ := complete_cases hstep
  · exact { h with }
  · exact { h with }
  · exact { h with }

end

theorem windowInv_start (config : ObjectWalConfig) (listed : List WalObject) :
  WindowInv (Writer.start config listed).nextOffset (.start config listed)
  := by
  have hempty (w : Writer) (hsealed : w.sealed = []) (hactive : w.active = none)
      (hseq : w.bulkSeq = 0) : WindowInv w.nextOffset w := by
    refine ⟨?_, ?_, ?_, ?_, ?_, ?_, ?_, id, ?_⟩
    · rw [hsealed]
      nofun
    · rw [hseq, hsealed, hactive]
      rfl
    · rw [hsealed]
      trivial
    · rw [hsealed, reach_nil]
    · rw [hsealed]
      nofun
    · rw [hactive]
      nofun
    · rw [hsealed]
      nofun
    · rw [hsealed, hactive]
      nofun
  unfold Writer.start
  dsimp only
  split
  next => exact hempty _ rfl rfl rfl
  next =>
    split
    next => exact hempty _ rfl rfl rfl
    next => exact hempty _ rfl rfl rfl

/-- A writer starts at 0 or at the end of an object of the listing. -/
theorem start_nextOffset_lt (config : ObjectWalConfig) {listed : List WalObject}
    (hlisted : ∀ o ∈ listed, o.endOffset < 2 ^ 63) :
  (Writer.start config listed).nextOffset < 2 ^ 63
  := by
  unfold Writer.start
  dsimp only
  split
  next => exact Nat.two_pow_pos 63
  next last hlast =>
    split
    next => exact Nat.two_pow_pos 63
    next => exact hlisted last (mem_of_mem_discoverWalObjects (mem_of_getLast? hlast))

/-- Every step keeps the windows. -/
theorem WindowInv.step {sys sys' : Sys} (h : WindowInv start sys.writer) {a : Action}
    (hstep : step sys a = some sys') :
  WindowInv start sys'.writer
  := by
  cases a with
  | submit record =>
    obtain ⟨w, hw, rfl⟩ := Option.map_eq_some_iff.mp hstep
    exact h.submit hw
  | flush =>
    obtain ⟨w, hw, rfl⟩ := Option.map_eq_some_iff.mp hstep
    exact h.sealActive hw
  | upload =>
    obtain ⟨w, hw, rfl⟩ := Option.map_eq_some_iff.mp hstep
    obtain ⟨bulk, waiting, -, rfl⟩ := upload_cases hw
    exact { h with }
  | build seq =>
    obtain ⟨w, hw, rfl⟩ := Option.map_eq_some_iff.mp hstep
    obtain ⟨u, -, -, rfl⟩ := build_cases hw
    exact { h with }
  | land seq =>
    obtain ⟨u, object, -, -, rfl⟩ := land_cases hstep
    exact h
  | putDone seq ok =>
    obtain ⟨u, object, -, -, ⟨rfl, rfl⟩ | ⟨rfl, rfl⟩⟩ := putDone_cases hstep
    · exact { h with }
    · exact { h with }
  | collect =>
    obtain ⟨w, hw, rfl⟩ := Option.map_eq_some_iff.mp hstep
    obtain ⟨-, rfl⟩ := collect_cases hw
    exact { h with }
  | verify ok =>
    obtain ⟨w, hw, rfl⟩ := Option.map_eq_some_iff.mp hstep
    obtain ⟨bulks, -, rfl⟩ := verify_cases hw
    exact { h with }
  | decide =>
    obtain ⟨w, hw, rfl⟩ := Option.map_eq_some_iff.mp hstep
    obtain ⟨bulks, -, rfl⟩ := decide_cases hw
    exact { h with }
  | complete =>
    obtain ⟨w, hw, rfl⟩ := sysComplete_cases hstep
    exact h.complete hw
  | trim offset =>
    obtain ⟨w, hw, rfl⟩ := Option.map_eq_some_iff.mp hstep
    obtain ⟨-, rfl⟩ := trim0_cases hw
    exact { h with }
  | reset =>
    obtain ⟨w, hw, rfl⟩ := Option.map_eq_some_iff.mp hstep
    obtain ⟨-, rfl⟩ := trim0_cases (reset_cases hw).2
    exact { h with }
  | trimAppend i ok =>
    obtain ⟨w, hw, rfl⟩ := Option.map_eq_some_iff.mp hstep
    obtain ⟨trim, -, -, ⟨w₁, hsubmit, rfl⟩ | rfl⟩ := trimAppend_cases hw
    · exact { h.submit hsubmit with }
    · exact { h with }
  | trimDelete i =>
    obtain ⟨w, hw, rfl⟩ := Option.map_eq_some_iff.mp hstep
    obtain ⟨trim, id, -, -, ⟨-, covered, previous, -, -, rfl⟩ | rfl⟩ := trimDelete_cases hw
    · exact { h with }
    · exact { h with }
  | delete key =>
    obtain ⟨-, rfl⟩ := delete_cases hstep
    exact h
  | close =>
    cases hstep
    exact { h with }

/-! ### Where windows lie -/

/-- Windows that are laid end to end start at aligned offsets, the first one where the log starts.
-/
theorem aligned_of_laid {bulks : List Bulk}
    (hlaid : Laid Bulk.baseOffset Bulk.endOffsetAligned start bulks) {i : Nat} {b : Bulk}
    (hb : bulks[i]? = some b) (hstart : i = 0 → dataFileAlignSize ∣ start) :
  dataFileAlignSize ∣ b.baseOffset
  := by
  induction bulks generalizing start i with
  | nil => cases hb
  | cons c bulks ih =>
    obtain ⟨rfl, hlaid⟩ := hlaid
    cases i with
    | zero =>
      cases hb
      exact hstart rfl
    | succ i => exact ih hlaid hb fun _ => dvd_ceilAlignOffset _

section

variable (h : WindowInv start w)

include h

/-- No window is empty. -/
theorem WindowInv.base_lt_end :
  ∀ b ∈ w.sealed, b.baseOffset < b.endOffsetAligned
  := by
  intro b hb
  apply lt_of_lt_of_le _ (le_ceilAlignOffset _)
  have hpos := (h.filled b hb).pos
  rw [Bulk.endOffset]
  omega

/-- The windows come one after the other. -/
theorem WindowInv.pairwise :
  w.sealed.Pairwise (fun a b => a.endOffsetAligned ≤ b.baseOffset) ∧
    ∀ b ∈ w.sealed, start ≤ b.baseOffset
  := h.laid.pairwise fun b hb => (h.base_lt_end b hb).le

end

/-- Bulks are known by their number. -/
theorem WindowInv.mem_sealed (h : WindowInv start w) {b : Bulk} (hb : b ∈ w.sealed) :
  ∃ i, w.sealed[i]? = some b ∧ b.seq = i + 1
  := by
  obtain ⟨i, hi⟩ := getElem?_of_mem hb
  exact ⟨i, hi, h.seqs i b hi⟩

variable {c : Bulk} (h : WindowInv start w)

include h

theorem WindowInv.eq_of_seq {b : Bulk} (hb : b ∈ w.sealed) (hc : c ∈ w.sealed)
    (heq : b.seq = c.seq) :
  b = c
  := by
  obtain ⟨i, hi, hib⟩ := h.mem_sealed hb
  obtain ⟨j, hj, hjc⟩ := h.mem_sealed hc
  obtain rfl : i = j := by omega
  exact Option.some.inj (hi.symm.trans hj)

/-- The order of the windows is the order of sealing. -/
theorem WindowInv.window_le {b : Bulk} (hb : b ∈ w.sealed) (hc : c ∈ w.sealed)
    (hlt : b.seq < c.seq) :
  b.endOffsetAligned ≤ c.baseOffset
  := by
  obtain ⟨i, hi, hib⟩ := h.mem_sealed hb
  obtain ⟨j, hj, hjc⟩ := h.mem_sealed hc
  obtain ⟨hi', rfl⟩ := List.getElem?_eq_some_iff.mp hi
  obtain ⟨hj', rfl⟩ := List.getElem?_eq_some_iff.mp hj
  exact pairwise_iff_getElem.mp h.pairwise.1 i j hi' hj' (by omega)

/-- The order of the windows is that of the base offsets. -/
theorem WindowInv.seq_le_of_base_le {b : Bulk} (hb : b ∈ w.sealed) (hc : c ∈ w.sealed)
    (hle : b.baseOffset ≤ c.baseOffset) :
  b.seq ≤ c.seq
  := by
  by_contra hgt
  have hend := h.window_le hc hb (by omega)
  have hlt := h.base_lt_end c hc
  omega

/-- A sealed bulk is known by its offset. -/
theorem WindowInv.eq_of_base {b : Bulk} (hb : b ∈ w.sealed) (hc : c ∈ w.sealed)
    (hbase : b.baseOffset = c.baseOffset) :
  b = c
  := by
  apply h.eq_of_seq hb hc
  apply le_antisymm
  · exact h.seq_le_of_base_le hb hc (le_of_eq hbase)
  · exact h.seq_le_of_base_le hc hb (le_of_eq hbase.symm)

/-- Windows do not overlap. -/
theorem WindowInv.window_le_of_base_lt {b : Bulk} (hb : b ∈ w.sealed) (hc : c ∈ w.sealed)
    (hlt : b.baseOffset < c.baseOffset) :
  b.endOffsetAligned ≤ c.baseOffset
  := by
  apply h.window_le hb hc
  apply lt_of_le_of_ne (h.seq_le_of_base_le hb hc hlt.le)
  intro hseq
  rw [h.eq_of_seq hb hc hseq] at hlt
  exact absurd hlt (lt_irrefl _)

/-- A window that was sealed lies after the start and within the bound of offsets. -/
theorem WindowInv.key_window {b : Bulk} (hb : b ∈ w.sealed) :
  b.key w.config = (w.config.epoch, b.baseOffset, b.endOffsetAligned) ∧ start ≤ b.baseOffset ∧
    b.baseOffset < b.endOffsetAligned ∧ dataFileAlignSize ∣ b.endOffsetAligned ∧
    b.endOffsetAligned < 2 ^ 63
  := by
  exact ⟨(h.filled b hb).key _, h.pairwise.2 b hb, h.base_lt_end b hb, dvd_ceilAlignOffset _,
    h.ends b hb⟩

/-- A path names one bulk. -/
theorem WindowInv.eq_of_key {b : Bulk} (hb : b ∈ w.sealed) (hc : c ∈ w.sealed)
    (hkey : b.key w.config = c.key w.config) :
  b = c
  := by
  rw [(h.key_window hb).1, (h.key_window hc).1] at hkey
  exact h.eq_of_base hb hc (Prod.mk.inj (Prod.mk.inj hkey).2).1

end Wal
