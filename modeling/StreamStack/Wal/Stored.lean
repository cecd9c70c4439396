import StreamStack.Wal.Listing
import StreamStack.Wal.Trims

/-!
# What a writer makes of the storage

The objects of a writer are those of bulks that it has sealed, built from them at trim offsets that
cover the trims stored before; the objects of older epochs end where it has started. Of the bulks
that were flushed the last one stays, and the others stay until a trim that has begun to delete
covers them.
-/

namespace Wal

open OrdMap List

/-! ### Starting -/

section

variable {listed : List WalObject}
  (config : ObjectWalConfig) (hepoch : ∀ o ∈ listed, o.epoch ≤ config.epoch)

include config hepoch

/-- A writer whose epoch is not below that of the log starts where the log ends. -/
theorem start_spec :
  Writer.start config listed = {
    config
    overlaps := (skipOverlapObjects (parseWalObjects listed)).2.map WalObject.key
    closed := false
    previousObjects := discoverWalObjects listed
    flushedOffset := ((discoverWalObjects listed).getLast?).elim 0 WalObject.endOffset
    nextOffset := ((discoverWalObjects listed).getLast?).elim 0 WalObject.endOffset }
  := by
  unfold Writer.start discoverWalObjects
  dsimp only
  split
  next hnone =>
    rw [hnone, getLast?_eq_none_iff.mp hnone]
    rfl
  next last hlast =>
    have hle := hepoch last (mem_of_mem_discoverWalObjects (mem_of_getLast? hlast))
    rw [if_neg (by omega), hlast]
    rfl

/-- A writer that has just started has neither trimmed nor flushed anything. -/
theorem start_inv :
  (Writer.start config listed).config = config ∧
    (Writer.start config listed).overlaps
      = (skipOverlapObjects (parseWalObjects listed)).2.map WalObject.key ∧
    TrimInv (.start config listed) ∧ FlushInv listed (.start config listed) ∧
    ∀ b, ¬ (Writer.start config listed).Flushed b
  := by
  rw [start_spec config hepoch]
  refine ⟨rfl, rfl, ⟨⟨le_refl (-1), ?_⟩, nofun, nofun, nofun, nofun⟩,
    ⟨nofun, ?_, nofun, ?_, nofun, nofun⟩, nofun⟩
  · change (-1 : Int) < 2 ^ 63
    norm_num
  · intro offset o ho
    change (∅ : OrdMap Nat WalObject)[offset]? = some o at ho
    rw [lookup_empty] at ho
    cases ho
  · exact fun o ho => mem_of_mem_discoverWalObjects ho

end

/-! ### The invariant -/

/-- A writer that has started at an offset on a listing. -/
structure WriterInv (start : Nat) (listed : List WalObject) (w : Writer) : Prop where
  bound : start < 2 ^ 63
  windows : WindowInv start w
  acks : ∃ n, AckInv n w
  trims : TrimInv w
  flushes : FlushInv listed w
  listed : ∀ o ∈ listed, o.epoch < w.config.epoch
  overlaps : ∀ key ∈ w.overlaps, key.1 < w.config.epoch

/-- The writer and the storage. -/
structure StoreInv (start : Nat) (listed : List WalObject) (w : Writer) (store : Store) : Prop
    extends WriterInv start listed w where
  ordered : Ordered store
  objects : ∀ key object, store[key]? = some object →
    (∃ b ∈ w.sealed, key = b.key w.config ∧ w.Built b object) ∨
    (key.1 < w.config.epoch ∧ key.2.2 ≤ start)
  kept : ∀ b, w.Flushed b → b.key w.config ∈ store ∨
    (∃ c, w.Flushed c ∧ b.seq < c.seq) ∧
      ∃ t ∈ w.trims, t.stage = .deleting ∧ (b.lastRecordOffset : Int) ≤ t.offset

variable {start n : Nat} {listed : List WalObject} {w w' : Writer} {store : Store} {b c : Bulk}
  {key : ObjectKey} {object : ObjectData} {u : UploadingBulk}

/-- Of the bulks that were flushed, the last one is kept. -/
theorem exists_kept (hwindow : WindowInv start w)
    (hkept : ∀ b, w.Flushed b → b.key w.config ∈ store ∨ (∃ c, w.Flushed c ∧ b.seq < c.seq) ∧
      ∃ t ∈ w.trims, t.stage = .deleting ∧ (b.lastRecordOffset : Int) ≤ t.offset)
    (hb : w.Flushed b) :
  ∃ c, w.Flushed c ∧ b.seq ≤ c.seq ∧ c.key w.config ∈ store
  := by
  -- by induction on the number of bulks that were sealed later
  induction hn : w.sealed.length - b.seq using Nat.strong_induction_on generalizing b with
  | _ n ih =>
    rcases hkept b hb with hmem | ⟨⟨c, hc, hlt⟩, -⟩
    · exact ⟨b, hb, le_refl _, hmem⟩
    · have hle := hwindow.seq_le hc.1
      obtain ⟨d, hd, hcd, hmem⟩ := ih _ (by omega) hc rfl
      exact ⟨d, hd, by omega, hmem⟩

/-- The objects of bulks lie in their windows and can be read back. -/
theorem Writer.Built.readable (hbuilt : w.Built b object) (h : WindowInv start w)
    (hb : b ∈ w.sealed) :
  object.Valid ∧ object.frames.Pairwise (fun f g => f.offset < g.offset) ∧
    ∀ f ∈ object.frames, b.baseOffset ≤ f.offset ∧ f.offset + f.size ≤ b.endOffsetAligned
  := by
  obtain ⟨trimOffset, rfl, -⟩ := hbuilt
  exact ⟨Bulk.object_valid (h.filled b hb) _ _ (h.ends b hb), Bulk.frames_window (h.filled b hb)⟩

namespace WriterInv

theorem change (h : WriterInv start listed w) (hwindows : WindowInv start w')
    (hacks : ∃ n, AckInv n w') (hchange : Change w w') :
  WriterInv start listed w'
  := by
  obtain ⟨n, hack⟩ := h.acks
  refine ⟨h.bound, hwindows, hacks, h.trims.change h.windows hack hwindows hchange,
    h.flushes.change h.trims h.windows hwindows hchange, ?_, ?_⟩
  · rw [hchange.config]
    exact h.listed
  · rw [hchange.config, hchange.overlaps]
    exact h.overlaps

theorem putOk (h : WriterInv start listed w) (hwindows : WindowInv start (w.putOk u object))
    (hacks : ∃ n, AckInv n (w.putOk u object)) (hu : u ∈ w.uploading) :
  WriterInv start listed (w.putOk u object)
  := by
  obtain ⟨n, hack⟩ := h.acks
  exact ⟨h.bound, hwindows, hacks, h.trims.putOk u object, h.flushes.putOk hack h.windows hu,
    h.listed, h.overlaps⟩

theorem step {sys sys' : Sys} {a : Action} (h : WriterInv start listed sys.writer)
    (hstep : step sys a = some sys') :
  WriterInv start listed sys'.writer
  := by
  obtain ⟨n, hack⟩ := h.acks
  have hwindows := h.windows.step hstep
  have hacks := hack.step hstep
  cases step_effect hack (h.windows.bound h.bound) hstep with
  | writer hchange hacknowledged => exact h.change hwindows hacks hchange
  | land hu hputting => exact h
  | put hu hputting => exact h.putOk hwindows hacks hu
  | delete hkey => exact h

end WriterInv

namespace StoreInv

section

variable (h : StoreInv start listed w store)

include h

theorem epoch_le (hkey : key ∈ store) :
  key.1 ≤ w.config.epoch
  := by
  obtain ⟨object, hobject⟩ := (mem_iff_lookup _ _).mp hkey
  rcases h.objects key object hobject with ⟨b, -, rfl, -⟩ | ⟨hlt, -⟩
  · exact le_refl _
  · exact hlt.le

/-- The objects are those of bulks of the writer and older ones. -/
theorem keys (hkey : key ∈ store) :
  (∃ b ∈ w.sealed, key = b.key w.config) ∨ (key.1 < w.config.epoch ∧ key.2.2 ≤ start)
  := by
  obtain ⟨object, hobject⟩ := (mem_iff_lookup _ _).mp hkey
  rcases h.objects key object hobject with ⟨b, hb, hbkey, -⟩ | holder
  · exact .inl ⟨b, hb, hbkey⟩
  · exact .inr holder

/-- When a bulk is stored, the newest object is one of this writer, at or after the bulk. -/
theorem newest (hobject : store[key]? = some object) (hnewest : Newest store key)
    (hb : b ∈ w.sealed) (hmem : b.key w.config ∈ store) :
  ∃ c ∈ w.sealed, key = c.key w.config ∧ w.Built c object ∧ b.seq ≤ c.seq
  := by
  have hbkey := (h.windows.key_window hb).1
  have hlast := hnewest.2 _ hmem
  rw [hbkey] at hlast
  rcases h.objects key object hobject with ⟨c, hc, hkey, hbuilt⟩ | ⟨hlt, -⟩
  · refine ⟨c, hc, hkey, hbuilt, ?_⟩
    apply h.windows.seq_le_of_base_le hb hc
    rw [hkey, (h.windows.key_window hc).1] at hlast
    rcases hlast with hlast | hlast
    · exact absurd hlast (lt_irrefl _)
    · exact hlast.2
  · rcases hlast with hlast | hlast
    · exact absurd (hlt.trans hlast) (lt_irrefl _)
    · exact absurd hlast.1.symm (ne_of_lt hlt)

/-- The newest object carries the trims that have begun to delete. -/
theorem newest_trim (hobject : store[key]? = some object) (hnewest : Newest store key) {t : Trim}
    (ht : t ∈ w.trims) (hstage : t.stage = .deleting) :
  key.1 = w.config.epoch ∧ t.offset ≤ object.header.trimOffset.toInt
  := by
  obtain ⟨b, hb, hlt⟩ := h.trims.deleting t ht hstage
  obtain ⟨c, hc, hbc, hmem⟩ := exists_kept h.windows h.kept hb
  obtain ⟨d, hd, hkey, hbuilt, hcd⟩ := h.newest hobject hnewest hc.1 hmem
  refine ⟨?_, hbuilt.header h.trims t ht (by omega)⟩
  rw [hkey, (h.windows.key_window hd).1]

/-- The objects on the delete lists are covered by the trims. -/
theorem deletes {offset : Int} (hdelete : (offset, key) ∈ w.deletes) :
  (∃ t ∈ w.trims, t.offset = offset ∧ t.stage = .deleting) ∧
    ∀ object, store[key]? = some object → ∀ f ∈ object.frames, (f.offset : Int) ≤ offset
  := by
  refine ⟨h.flushes.trimmed _ hdelete, ?_⟩
  intro object hobject f hf
  rcases h.flushes.deletes _ hdelete with ⟨b, c, hb, -, -, hkey, hle⟩ | ⟨o, -, hkey, hle⟩
  · rcases h.objects key object hobject with ⟨d, hd, hdkey, trimOffset, rfl, -⟩ | ⟨hlt, -⟩
    · obtain rfl := h.windows.eq_of_key hb.1 hd (hkey.symm.trans hdkey)
      have hlast := (Bulk.lastRecordOffset_window (h.windows.filled b hd)).1 f hf
      change (b.lastRecordOffset : Int) ≤ offset at hle
      omega
    · rw [show key = b.key _ from hkey, (h.windows.key_window hb.1).1] at hlt
      exact absurd hlt (lt_irrefl _)
  · have hlt := h.ordered.frame_lt hobject f hf
    rw [show key = o.key from hkey] at hlt
    change f.offset < o.endOffset at hlt
    change (o.endOffset : Int) ≤ offset at hle
    omega

end

/-! ### Steps -/

section

variable (h : StoreInv start listed w store)

include h

theorem change (hwriter : WriterInv start listed w') (hchange : Change w w') :
  StoreInv start listed w' store
  := by
  have hflushed (b : Bulk) : w'.Flushed b ↔ w.Flushed b :=
    hchange.flushed_iff h.flushes hwriter.windows
  refine ⟨hwriter, h.ordered, ?_, ?_⟩
  · intro key object hobject
    rw [hchange.config]
    rcases h.objects key object hobject with ⟨b, hb, hkey, hbuilt⟩ | holder
    · left
      exact ⟨b, hchange.sealed.subset hb, hkey, hbuilt.change (h.windows.seq_le hb) hchange⟩
    · exact .inr holder
  · simp only [hflushed, hchange.config]
    intro b hb
    rcases h.kept b hb with hmem | ⟨hlater, t, ht, hstage, hle⟩
    · exact .inl hmem
    · exact .inr ⟨hlater, t, hchange.deleting ht hstage, hstage, hle⟩

/-- The window of a bulk of the writer fits between the objects. -/
theorem ordered_insert (hb : b ∈ w.sealed) (hbuilt : w.Built b object) :
  Ordered (store.insert (b.key w.config) object)
  := by
  obtain ⟨hkey, hfrom, hwindow⟩ := h.windows.key_window hb
  rw [hkey]
  apply h.ordered.insert hwindow (hbuilt.readable h.windows hb)
  · intro key' hkey' hlt
    rcases h.keys hkey' with ⟨c, hc, rfl⟩ | ⟨-, hend⟩
    · rw [(h.windows.key_window hc).1] at hlt ⊢
      rcases hlt with hlt | ⟨-, hlt⟩
      · exact absurd hlt (lt_irrefl _)
      · exact h.windows.window_le_of_base_lt hc hb hlt
    · exact hend.trans hfrom
  · intro key' hkey' hlt
    rcases h.keys hkey' with ⟨c, hc, rfl⟩ | ⟨hepoch, -⟩
    · rw [(h.windows.key_window hc).1] at hlt ⊢
      rcases hlt with hlt | ⟨-, hlt⟩
      · exact absurd hlt (lt_irrefl _)
      · exact h.windows.window_le_of_base_lt hb hc hlt
    · change w.config.epoch < key'.1 ∨ w.config.epoch = key'.1 ∧ _ at hlt
      omega
  · intro key' hkey' hepoch hstart
    rcases h.keys hkey' with ⟨c, hc, rfl⟩ | ⟨hlt, -⟩
    · have hckey := (h.windows.key_window hc).1
      rw [hckey] at hstart
      rw [← hkey, h.windows.eq_of_base hc hb hstart]
    · exact absurd hepoch (ne_of_lt hlt)

theorem insert (hu : u ∈ w.uploading) (hputting : u.upload = .putting object) :
  StoreInv start listed w (store.insert (u.bulk.key w.config) object)
  := by
  obtain ⟨n, hack⟩ := h.acks
  have hsealed : u.bulk ∈ w.sealed := hack.mem_sealed (mem_append_right _ hu)
  have hbuilt := h.trims.built u hu object hputting
  refine ⟨h.toWriterInv, h.ordered_insert hsealed hbuilt, ?_, ?_⟩
  · intro key object' hobject
    rcases lookup_insert_cases hobject with ⟨heq, rfl⟩ | ⟨-, hobject⟩
    · exact .inl ⟨u.bulk, hsealed, heq.symm, hbuilt⟩
    · exact h.objects key object' hobject
  · intro b hb
    exact (h.kept b hb).imp_left fun hmem => (OrdMap.mem_insert_iff _ _ _ _).mpr (.inr hmem)

theorem putOk (hwriter : WriterInv start listed (w.putOk u object)) (hu : u ∈ w.uploading)
    (hstored : u.bulk.key w.config ∈ store) :
  StoreInv start listed (w.putOk u object) store
  := by
  obtain ⟨n, hack⟩ := h.acks
  refine ⟨hwriter, h.ordered, h.objects, ?_⟩
  intro b hb
  rcases mem_append.mp hb.2 with hput | hput
  · rcases h.kept b ⟨hb.1, hput⟩ with hmem | ⟨⟨c, hc, hlt⟩, htrimmed⟩
    · exact .inl hmem
    · exact .inr ⟨⟨c, ⟨hc.1, mem_append_left _ hc.2⟩, hlt⟩, htrimmed⟩
  · left
    have hsealed : u.bulk ∈ w.sealed := hack.mem_sealed (mem_append_right _ hu)
    rw [h.windows.eq_of_seq hb.1 hsealed (Event.put.inj (mem_singleton.mp hput))]
    exact hstored

/-- An object is deleted that is not one of this writer, or that one of its trims has fixed. -/
theorem erase (hkey : key ∈ w.deletes.map Prod.snd ∨ key.1 < w.config.epoch) :
  StoreInv start listed w (store.erase key)
  := by
  refine ⟨h.toWriterInv, h.ordered.erase key, ?_, ?_⟩
  · intro key' object hobject
    obtain ⟨-, hobject⟩ := lookup_erase_iff.mp hobject
    exact h.objects key' object hobject
  · intro b hb
    rcases h.kept b hb with hstored | hgone
    · by_cases heq : key = b.key w.config
      · right
        rcases hkey with hkey | hlt
        · -- a bulk that is deleted was flushed before another one
          obtain ⟨e, he, rfl⟩ := mem_map.mp hkey
          obtain ⟨t, ht, htoffset, hstage⟩ := h.flushes.trimmed e he
          rcases h.flushes.deletes e he with ⟨d, c, hd, hc, hlt, hdkey, hle⟩ | ⟨o, ho, hokey, -⟩
          · rw [h.windows.eq_of_key hb.1 hd.1 (heq.symm.trans hdkey)]
            exact ⟨⟨c, hc, hlt⟩, t, ht, hstage, htoffset ▸ hle⟩
          · have hlt := h.listed o ho
            have hepoch := congrArg Prod.fst (hokey.symm.trans heq)
            exact absurd hepoch (ne_of_lt hlt)
        · rw [heq] at hlt
          exact absurd hlt (lt_irrefl _)
      · exact .inl ((mem_erase_iff _ _ _).mpr ⟨heq, hstored⟩)
    · exact .inr hgone

end

/-- Every step of the writer keeps the invariant. -/
theorem step {sys sys' : Sys} {a : Action} (h : StoreInv start listed sys.writer sys.store)
    (hstep : step sys a = some sys') :
  StoreInv start listed sys'.writer sys'.store
  := by
  obtain ⟨n, hack⟩ := h.acks
  have hwriter := h.toWriterInv.step hstep
  cases step_effect hack (h.windows.bound h.bound) hstep with
  | writer hchange hacknowledged => exact h.change hwriter hchange
  | land hu hputting => exact h.insert hu hputting
  | put hu hputting =>
    apply (h.insert hu hputting).putOk hwriter hu
    exact (OrdMap.mem_insert_iff _ _ _ _).mpr (.inl rfl)
  | delete hkey => exact h.erase (hkey.imp_right (h.overlaps _))

end StoreInv

/-! ### A writer that starts -/

variable {objects objects' : List WalObject} {config : ObjectWalConfig}

theorem writerInv_start
    (hlisted : ∀ o ∈ objects, o.epoch < config.epoch ∧ o.endOffset < 2 ^ 63) :
  WriterInv (Writer.start config objects).nextOffset objects (.start config objects) ∧
    (Writer.start config objects).config = config ∧
    ∀ b, ¬ (Writer.start config objects).Flushed b
  := by
  have hbound := start_nextOffset_lt config fun o ho => (hlisted o ho).2
  obtain ⟨hconfig, hoverlaps, htrims, hflushes, hnone⟩ :=
    start_inv config fun o ho => (hlisted o ho).1.le
  refine ⟨⟨hbound, windowInv_start config objects, ⟨0, AckInv.start config objects⟩, htrims,
    hflushes, ?_, ?_⟩, hconfig, hnone⟩
  · rw [hconfig]
    exact fun o ho => (hlisted o ho).1
  · rw [hconfig, hoverlaps]
    intro key hkey
    obtain ⟨o, ho, rfl⟩ := mem_map.mp hkey
    exact (hlisted o (mem_of_mem_overlaps ho)).1

/-- A writer of a higher epoch starts where the log ends that is left of a listing. -/
theorem start_offset (hordered : Ordered store) (hepoch : ∀ o ∈ objects, o.epoch ≤ config.epoch)
    (hperm : objects'.Perm store.list)
    (hdiscover : discoverWalObjects objects = parseWalObjects objects') :
  (∀ key ∈ store, key.2.2 ≤ (Writer.start config objects).nextOffset) ∧
    ((Writer.start config objects).nextOffset = 0 ∨
      ∃ key ∈ store, (Writer.start config objects).nextOffset = key.2.2)
  := by
  rw [start_spec config hepoch]
  dsimp only
  rw [hdiscover, ← hordered.discover hperm]
  cases hlast : (discoverWalObjects objects').getLast? with
  | none =>
    have hempty := hordered.getLast_none hperm hlast
    exact ⟨fun key hkey => absurd hkey (hempty key), .inl rfl⟩
  | some o =>
    obtain ⟨hnewest, hend⟩ := hordered.getLast hperm hlast
    exact ⟨hend, .inr ⟨_, hnewest.1, rfl⟩⟩

theorem storeInv_start (hordered : Ordered store) (hepoch : ∀ key ∈ store, key.1 < config.epoch)
    (hperm : objects.Perm store.list) :
  StoreInv (Writer.start config objects).nextOffset objects (.start config objects) store ∧
    (Writer.start config objects).config = config ∧
    (Writer.start config objects).overlaps = [] ∧
    (∀ key ∈ store, key.2.2 ≤ (Writer.start config objects).nextOffset) ∧
    ((Writer.start config objects).nextOffset = 0 ∨
      ∃ key ∈ store, (Writer.start config objects).nextOffset = key.2.2)
  := by
  have hlisted : ∀ o ∈ objects, o.epoch < config.epoch ∧ o.endOffset < 2 ^ 63 := by
    intro o ho
    obtain ⟨object, hobject, -⟩ := mem_list.mp (hperm.mem_iff.mp ho)
    have hkey := (mem_iff_lookup _ _).mpr ⟨object, hobject⟩
    exact ⟨hepoch _ hkey, (hordered.window _ hkey).2.2⟩
  obtain ⟨hwriter, hconfig, hnone⟩ := writerInv_start hlisted
  obtain ⟨hends, hbase⟩ := start_offset hordered (fun o ho => (hlisted o ho).1.le) hperm
    (hordered.discover hperm)
  refine ⟨⟨hwriter, hordered, ?_, fun b hb => absurd hb (hnone b)⟩, hconfig, ?_, hends, hbase⟩
  · intro key object hobject
    have hkey := (mem_iff_lookup _ _).mpr ⟨object, hobject⟩
    rw [hconfig]
    exact .inr ⟨hepoch key hkey, hends key hkey⟩
  · rw [start_spec config fun o ho => (hlisted o ho).1.le, hordered.skipOverlap hperm]
    rfl

theorem storeInv_empty (config : ObjectWalConfig) :
  StoreInv 0 [] (.start config []) ∅
  := by
  have hperm : ([] : List WalObject).Perm (Store.list ∅) := List.Perm.refl _
  have hlower : ∀ key ∈ (∅ : Store), key.1 < config.epoch :=
    fun key hkey => absurd hkey Std.ExtTreeMap.not_mem_empty
  have hstore := (storeInv_start ordered_empty hlower hperm).1
  have hzero : (Writer.start config []).nextOffset = 0 := by
    simp [Writer.start, skipOverlapObjects, parseWalObjects]
  rw [hzero] at hstore
  exact hstore

end Wal
