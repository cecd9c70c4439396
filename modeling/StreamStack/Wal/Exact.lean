import StreamStack.Wal.Stored

/-!
# Recovery of a log with one writer

At every crash point of a writer that has started on an empty log, recovery over a listing of the
objects that are stored yields exactly the records above the trim offset of the newest object that
lie in the run of objects without a gap. What was acknowledged lies in that run: bulks are
acknowledged in the order of their windows, and a bulk that was deleted lies below the trim offset.
-/

namespace Wal

open OrdMap Run List

/-! ### What was acknowledged is recovered -/

section

variable {start : Nat} {objects : List WalObject} {w : Writer} {store : Store} {o : WalObject}
  {object : ObjectData} {key : ObjectKey} {b : Bulk}

section

variable (h : StoreInv start objects w store)

include h

/-- An object is one of a bulk of the writer, or older. -/
theorem StoreInv.stored_cases (hstored : Stored store o object) :
  (∃ b ∈ w.sealed, o.key = b.key w.config ∧ w.Built b object ∧ o.epoch = w.config.epoch ∧
      o.startOffset = b.baseOffset ∧ o.endOffset = b.endOffsetAligned) ∨
    (o.epoch < w.config.epoch ∧ o.endOffset ≤ start)
  := by
  rcases h.objects o.key object hstored.lookup with ⟨b, hb, hkey, hbuilt⟩ | holder
  · left
    have hwindow := hkey.trans (h.windows.key_window hb).1
    refine ⟨b, hb, hkey, hbuilt, congrArg Prod.fst hwindow, ?_, ?_⟩
    · exact congrArg (fun key => key.2.1) hwindow
    · exact congrArg (fun key => key.2.2) hwindow
  · exact .inr holder

/-- A bulk that is stored is listed. -/
theorem StoreInv.listed_bulk (hb : b ∈ w.sealed) (hmem : b.key w.config ∈ store) :
  ∃ o trimOffset, Stored store o (b.object w.config trimOffset) ∧
    o.startOffset = b.baseOffset ∧ o.endOffset = b.endOffsetAligned
  := by
  obtain ⟨object, hobject⟩ := (mem_iff_lookup _ _).mp hmem
  have hlisted : Stored store (listing (b.key w.config, object)) object := ⟨hobject, rfl⟩
  rcases h.stored_cases hlisted with ⟨c, hc, hkey, ⟨trimOffset, rfl, -⟩, -, hbase, hend⟩ | ⟨hlt, -⟩
  · obtain rfl := h.windows.eq_of_key hb hc hkey
    exact ⟨_, trimOffset, hlisted, hbase, hend⟩
  · exact absurd hlt (lt_irrefl _)

/-- A flushed bulk with a record above the trim offset of the newest object is stored. -/
theorem StoreInv.flushed_stored (hlookup : store[key]? = some object) (hnewest : Newest store key)
    (hb : w.Flushed b) (hlast : object.header.trimOffset.toInt < b.lastRecordOffset) :
  b.key w.config ∈ store
  := by
  rcases h.kept b hb with hmem | ⟨-, t, ht, hstage, hle⟩
  · exact hmem
  · have hcovered := (h.newest_trim hlookup hnewest ht hstage).2
    omega

end

/-- The first bulk starts where the writer has started. -/
theorem WindowInv.first (h : WindowInv start w) (hb : w.sealed[0]? = some b) :
  b.baseOffset = start
  := by
  have hlaid := h.laid
  cases hsealed : w.sealed with
  | nil =>
    rw [hsealed] at hb
    cases hb
  | cons c rest =>
    rw [hsealed] at hb hlaid
    cases hb
    exact hlaid.1

/-- The windows of the bulks are blocks, so that one of them starts at each multiple of the block
size from the start up to a bulk. -/
theorem WindowInv.exists_base (h : WindowInv start w) (hstart : dataFileAlignSize ∣ start)
    {offset : Nat} (haligned : dataFileAlignSize ∣ offset) (hle : start ≤ offset) {j : Nat}
    (hb : w.sealed[j]? = some b) (hbase : offset ≤ b.baseOffset) :
  ∃ i ≤ j, ∃ d, w.sealed[i]? = some d ∧ d.baseOffset = offset
  := by
  induction j generalizing b with
  | zero => exact ⟨0, le_refl _, b, hb, by rw [h.first hb] at hbase ⊢; omega⟩
  | succ j ih =>
    rcases lt_or_eq_of_le hbase with hlt | heq
    · obtain ⟨c, hc⟩ : ∃ c, w.sealed[j]? = some c := by
        have hlength := (List.getElem?_eq_some_iff.mp hb).1
        exact ⟨_, getElem?_eq_getElem (show j < w.sealed.length by omega)⟩
      have hcbase := aligned_of_laid h.laid hc fun _ => hstart
      have hend := (h.filled c (mem_of_getElem? hc)).endOffsetAligned hcbase
      have hnext := h.laid.next hc hb
      obtain ⟨i, hi, d, hd⟩ := ih hc (Nat.le_of_lt_add_of_dvd (by omega) haligned hcbase)
      exact ⟨i, by omega, d, hd⟩
    · exact ⟨j + 1, le_refl _, b, hb, heq.symm⟩

/-- What was acknowledged was flushed. -/
theorem AckInv.flushed {n : Nat} (h : AckInv n w) (hb : b ∈ w.sealed.take n) :
  w.Flushed b
  := by
  obtain ⟨before, after, hevents, -⟩ := h.checked b hb
  refine ⟨mem_of_mem_take hb, ?_⟩
  rw [hevents]
  exact mem_append_right _ mem_cons_self

/-- What was acknowledged above the trim offset lies in the run of an ordered log that has besides
only objects of older epochs, when the trim offset covers what was there before the writer has
started. -/
theorem StoreInv.acked_inRun (h : StoreInv start objects w store)
    (hstart : dataFileAlignSize ∣ start) {view : Store} (hview : Ordered view)
    (hsub : ∀ (key : ObjectKey) (object : ObjectData), store[key]? = some object →
      view[key]? = some object)
    (holder : ∀ key ∈ view, key ∈ store ∨ key.1 < w.config.epoch)
    (hlookup : store[key]? = some object) (hnewest : Newest store key)
    (hreset : (start : Int) ≤ object.header.trimOffset.toInt + 1) {n : Nat} (hack : AckInv n w)
    (hb : b ∈ w.sealed.take n) {f : Frame} (hf : f ∈ b.frames)
    (hlt : object.header.trimOffset.toInt < f.offset) :
  ∃ o trimOffset, Stored view o (b.object w.config trimOffset) ∧
    InRun view.list object.header.trimOffset.toInt o
  := by
  have hsealed := mem_of_mem_take hb
  obtain ⟨hall, hbase, hend⟩ := Bulk.lastRecordOffset_window (h.windows.filled b hsealed)
  have hlast := hall f hf
  obtain ⟨o, trimOffset, ho, hostart, hoend⟩ :=
    h.listed_bulk hsealed (h.flushed_stored hlookup hnewest (hack.flushed hb) (by omega))
  obtain ⟨j, hj, hbseq⟩ := h.windows.mem_sealed hsealed
  have hjlen : j < w.sealed.length := (List.getElem?_eq_some_iff.mp hj).1
  have hjn : j < n := by
    obtain ⟨k, hk⟩ := getElem?_of_mem hb
    rw [getElem?_take] at hk
    split at hk
    next hkn =>
      have hkseq := h.windows.seqs k b hk
      omega
    next => cases hk
  -- an acknowledged bulk that starts at or above the trim offset is stored
  have hnext (i : Nat) (hi : i ≤ j) (d : Bulk) (hd : w.sealed[i]? = some d)
      (habove : object.header.trimOffset.toInt < d.baseOffset) :
      ∃ q ∈ view.list, q.startOffset = d.baseOffset := by
    have hdmem : d ∈ w.sealed.take n := by
      apply mem_of_getElem?
      rw [getElem?_take_of_lt (show i < n by omega)]
      exact hd
    have hdsealed := mem_of_mem_take hdmem
    have hdlast := (Bulk.lastRecordOffset_window (h.windows.filled d hdsealed)).2.1
    obtain ⟨q, trimOffset', hq, hqstart, -⟩ :=
      h.listed_bulk hdsealed (h.flushed_stored hlookup hnewest (hack.flushed hdmem) (by omega))
    exact ⟨q, mem_list.mpr ⟨_, hsub _ _ hq.lookup, hq.listed⟩, hqstart⟩
  have hokey := hsub _ _ ho.lookup
  refine ⟨o, trimOffset, ⟨hokey, ho.listed⟩, mem_list.mpr ⟨_, hokey, ho.listed⟩, by omega, ?_⟩
  intro p hp hpend hpstart
  obtain ⟨pobject, hpobject, hplisted⟩ := mem_list.mp hp
  have hpkey := (mem_iff_lookup _ _).mpr ⟨pobject, hpobject⟩
  have hcases : (∃ c ∈ w.sealed, p.startOffset = c.baseOffset ∧ p.endOffset = c.endOffsetAligned) ∨
      p.epoch < w.config.epoch := by
    rcases holder _ hpkey with hin | hlt
    · rcases h.keys hin with ⟨c, hc, hckey⟩ | ⟨hlt, -⟩
      · have hwindow := hckey.trans (h.windows.key_window hc).1
        exact .inl ⟨c, hc, congrArg (fun key => key.2.1) hwindow,
          congrArg (fun key => key.2.2) hwindow⟩
      · exact .inr hlt
    · exact .inr hlt
  rcases hcases with ⟨c, hc, hpbase, hpaligned⟩ | hlt
  · -- the bulk after that of the earlier object is acknowledged, too
    obtain ⟨i, hi, hcseq⟩ := h.windows.mem_sealed hc
    have hseq : c.seq < b.seq := by
      by_contra hge
      have hle := h.windows.seq_le_of_base_le hc hsealed (by omega)
      rw [h.windows.eq_of_seq hc hsealed (by omega)] at hpbase
      omega
    obtain ⟨d, hd⟩ : ∃ d, w.sealed[i + 1]? = some d :=
      ⟨_, getElem?_eq_getElem (show i + 1 < w.sealed.length by omega)⟩
    have hdbase := h.windows.laid.next hi hd
    obtain ⟨q, hq, hqstart⟩ := hnext (i + 1) (by omega) d hd (by omega)
    exact ⟨q, hq, by omega⟩
  · -- an older object beyond the trim offset ends where a bulk starts
    have hoepoch : o.epoch = w.config.epoch := by
      rcases h.stored_cases ho with ⟨-, -, -, -, hown, -⟩ | ⟨-, hend⟩
      · exact hown
      · have hfrom := (h.windows.key_window hsealed).2.1
        omega
    rw [← hoepoch] at hlt
    have hbefore : p.endOffset ≤ o.startOffset :=
      hview.next _ hpkey _ ((mem_iff_lookup _ _).mpr ⟨_, hokey⟩) (.inl hlt)
    obtain ⟨i, hi, d, hd, hdbase⟩ := h.windows.exists_base hstart (hview.window _ hpkey).2.1
      (by change start ≤ p.endOffset; omega) hj (hostart ▸ hbefore)
    obtain ⟨q, hq, hqstart⟩ := hnext i hi d hd (by rw [hdbase]; exact hpend)
    exact ⟨q, hq, hqstart.trans hdbase⟩

end

/-! ### One writer -/

theorem storeInv_oneWriter {config : ObjectWalConfig} {actions : List Action} {sys : Sys}
    (hrun : run (Sys.start config) actions = some sys) :
  StoreInv 0 [] sys.writer sys.store
  := by
  apply foldlM_some_induction (I := fun sys : Sys => StoreInv 0 [] sys.writer sys.store) _ _ hrun
  · intro sys a sys' _ h hstep
    exact h.step hstep
  · exact storeInv_empty config

/-- All objects are those of the writer, and so are the epochs of the records. -/
theorem epochAt_oneWriter {w : Writer} {store : Store} (h : StoreInv 0 [] w store)
    {listed : List WalObject} (hperm : listed.Perm store.list) {o : WalObject} {object : ObjectData}
    (hstored : Stored store o object) {f : Frame} (hf : f ∈ object.frames) :
  epochAt (epochIndex (parseWalObjects listed)) f.offset = some w.config.epoch
  := by
  obtain ⟨p, object', hstored', hepoch⟩ := h.ordered.epochAt hperm hstored hf
  rcases h.stored_cases hstored' with ⟨b, -, -, -, hown, -⟩ | ⟨-, hzero⟩
  · rw [hepoch, hown]
  · have hkey := (mem_iff_lookup _ _).mpr ⟨object', hstored'.lookup⟩
    have hlt : p.startOffset < p.endOffset := (h.ordered.window _ hkey).1
    omega

/-- At every point of a run of one writer, recovery over any listing of the stored objects yields
without an error, in the order of their offsets, exactly the records other than those of trimming
that lie above the trim offset of the newest object in the run of objects that starts with the first
one ending beyond it. Every record above that offset that was acknowledged is among them. -/
theorem recovery_exact {config : ObjectWalConfig} {actions : List Action} {sys : Sys}
    (hrun : run (Sys.start config) actions = some sys) (crc32 : List UInt8 → UInt32)
    {listed : List WalObject} (hperm : listed.Perm sys.store.list) {maxReadaheadDataSize : Nat}
    (hpos : 0 < maxReadaheadDataSize) :
  ∃ n trimOffset recovered,
    sys.writer.acked = (sys.writer.sealed.take n).flatMap Bulk.sorted ∧
    (∀ key object, sys.store[key]? = some object → Newest sys.store key →
      trimOffset = object.header.trimOffset.toInt) ∧
    recoverStream crc32 (sys.store.read crc32) (discoverWalObjects listed) maxReadaheadDataSize
      = some (recovered, none) ∧
    (recovered.map RecoverResult.offset).Pairwise (· < ·) ∧
    (∀ r, r ∈ recovered ↔ ∃ o object f, Stored sys.store o object ∧
      InRun sys.store.list trimOffset o ∧ f ∈ object.frames ∧ trimOffset < f.offset ∧
      ¬ f.record.IsTrim ∧ r = f.result sys.writer.config.epoch) ∧
    ∀ b ∈ sys.writer.sealed.take n, ∀ f ∈ b.frames, trimOffset < f.offset → ¬ f.record.IsTrim →
      f.result sys.writer.config.epoch ∈ recovered
  := by
  have h := storeInv_oneWriter hrun
  obtain ⟨n, hack⟩ := h.acks
  have hexact (r : RecoverResult) : r ∈ recoveredRecords sys.store (parseWalObjects listed) ↔
      ∃ o object f, Stored sys.store o object ∧
        InRun sys.store.list (trimOf sys.store.data (parseWalObjects listed)) o ∧
        f ∈ object.frames ∧ trimOf sys.store.data (parseWalObjects listed) < f.offset ∧
        ¬ f.record.IsTrim ∧ r = f.result sys.writer.config.epoch := by
    rw [h.ordered.mem_recoveredRecords hperm]
    constructor
    · rintro ⟨o, object, f, epoch, hstored, hinrun, hf, hlt, hnot, hat, rfl⟩
      cases hat.symm.trans (epochAt_oneWriter h hperm hstored hf)
      exact ⟨o, object, f, hstored, hinrun, hf, hlt, hnot, rfl⟩
    · rintro ⟨o, object, f, hstored, hinrun, hf, hlt, hnot, rfl⟩
      exact ⟨o, object, f, _, hstored, hinrun, hf, hlt, hnot,
        epochAt_oneWriter h hperm hstored hf, rfl⟩
  rw [h.ordered.discover hperm]
  refine ⟨n, trimOf sys.store.data (parseWalObjects listed), _, hack.acked, ?_,
    h.ordered.recoverStream hperm (fun _ _ => id) crc32 hpos,
    h.ordered.recoveredRecords_pairwise hperm, hexact, ?_⟩
  · exact fun key object hobject hnewest => h.ordered.trimOf_newest hperm hobject hnewest
  · intro b hb f hf hlt hnot
    obtain ⟨c, hc, -, hmem⟩ := exists_kept h.windows h.kept (hack.flushed hb)
    obtain ⟨key, newest, hlookup, hnewest⟩ := h.ordered.exists_newest hmem
    have htrim := h.ordered.trimOf_newest hperm hlookup hnewest
    obtain ⟨d, -, -, hbuilt, -⟩ := h.newest hlookup hnewest hc.1 hmem
    have hreset : ((0 : Nat) : Int) ≤ newest.header.trimOffset.toInt + 1 := by
      have hnone := hbuilt.header_ge h.trims
      omega
    obtain ⟨o, trimOffset, hstored, hinrun⟩ :=
      h.acked_inRun (dvd_zero _) h.ordered (fun _ _ => id) (fun _ => .inl) hlookup hnewest hreset
        hack hb hf (htrim ▸ hlt)
    apply (hexact _).mpr
    exact ⟨o, _, f, hstored, htrim ▸ hinrun, hf, hlt, hnot, rfl⟩

/-- Three records are submitted. The upload of the first returns and is acknowledged, that of the
third takes effect, and that of the second does not. -/
def holeRun : List Action :=
  [.submit ⟨1, 0, 0, 1, []⟩, .submit ⟨1, 0, 1, 1, []⟩, .submit ⟨1, 0, 2, 1, []⟩, .upload, .upload,
    .upload, .build 1, .build 2, .build 3, .putDone 1 true, .land 3, .collect, .verify true, .decide,
    .complete]

theorem recovery_exact_holeRun :
  ∃ sys, run (Sys.start eachRecordConfig) holeRun = some sys ∧ sys.store.size = 2 ∧
    sys.writer.acked.map PendingRecord.id = [0] ∧
    ∃ recovered, recoverStream (fun _ => 0) (sys.store.read fun _ => 0)
      (discoverWalObjects sys.store.list) 1 = some (recovered, none)
  := by
  obtain ⟨sys, hrun, hsize, hacked⟩ : ∃ sys,
      run (Sys.start eachRecordConfig) holeRun = some sys ∧
      sys.store.size = 2 ∧ sys.writer.acked.map PendingRecord.id = [0] := by
    decide +kernel
  obtain ⟨n, trimOffset, recovered, -, -, hrecover, -⟩ :=
    recovery_exact hrun (fun _ => 0) (List.Perm.refl _) (Nat.one_pos)
  exact ⟨sys, hrun, hsize, hacked, recovered, hrecover⟩

end Wal
