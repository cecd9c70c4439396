import StreamStack.Wal.Acks

/-!
# What trims do to the writer

Most steps leave trims and objects alone: they only seal bulks and pass them on. The others build an
object, return from an upload, store the offset of a trim, append its record, and fix the objects
that it deletes. An object that is built carries at least the offset of every trim that was stored
when its bulk was sealed. A trim fixes objects only after a bulk was flushed that was sealed after
its offset was stored, and of the flushed bulks it leaves out the last one.
-/

namespace Wal

open OrdMap Spans List

/-! ### Flushed bulks -/

/-- The upload of the bulk has returned without an error. -/
def Writer.Flushed (w : Writer) (b : Bulk) : Prop := b ∈ w.sealed ∧ Event.put b.seq ∈ w.events

/-- An object of a bulk whose header covers the trims that were stored when the bulk was sealed. -/
def Writer.Built (w : Writer) (b : Bulk) (object : ObjectData) : Prop :=
  ∃ trimOffset : Int, object = b.object w.config trimOffset ∧ -1 ≤ trimOffset ∧
    trimOffset ≤ w.trimOffset ∧ ∀ trim ∈ w.trims, trim.mark < b.seq → trim.offset ≤ trimOffset

/-! ### Steps that leave trims alone -/

/-- Bulks are sealed and passed on, nothing else happens. -/
structure Quiet (w w' : Writer) : Prop where
  config : w'.config = w.config
  trimOffset : w'.trimOffset = w.trimOffset
  trims : w'.trims = w.trims
  objects : w'.lastRecordOffsetToObject = w.lastRecordOffsetToObject
  previous : w'.previousObjects = w.previousObjects
  deletes : w'.deletes = w.deletes
  overlaps : w'.overlaps = w.overlaps
  sealed : w.sealed <+: w'.sealed
  puts : ∀ seq, Event.put seq ∈ w'.events ↔ Event.put seq ∈ w.events
  putting : ∀ u ∈ w'.uploading, ∀ object, u.upload = .putting object → u ∈ w.uploading

namespace Quiet

variable {w w' w'' : Writer} {record : StreamRecordBatch}

theorem refl (w : Writer) :
  Quiet w w
  := ⟨rfl, rfl, rfl, rfl, rfl, rfl, rfl, prefix_refl _, fun _ => Iff.rfl, fun _ hu _ _ => hu⟩

theorem trans (h : Quiet w w') (h' : Quiet w' w'') :
  Quiet w w''
  := by
  refine ⟨h'.config.trans h.config, h'.trimOffset.trans h.trimOffset, h'.trims.trans h.trims,
    h'.objects.trans h.objects, h'.previous.trans h.previous, h'.deletes.trans h.deletes,
    h'.overlaps.trans h.overlaps, h.sealed.trans h'.sealed,
    fun seq => (h'.puts seq).trans (h.puts seq), ?_⟩
  intro u hu object hputting
  exact h.putting u (h'.putting u hu object hputting) object hputting

theorem sealActive (h : w.sealActive = some w') :
  Quiet w w'
  := by
  obtain ⟨-, rfl⟩ | ⟨bulk, -, -, rfl⟩ := sealActive_cases h
  · exact refl w'
  · exact { refl w with sealed := prefix_append _ _ }

theorem submit (h : w.submit record = some w') :
  Quiet w w'
  := by
  apply submit_induction (I := Quiet w) _ _ _ (refl w) h
  · exact fun _ _ hquiet hseal => hquiet.trans (sealActive hseal)
  · exact fun _ _ hquiet _ _ => { hquiet with }
  · exact fun _ hquiet _ _ => { hquiet with }

theorem upload (h : w.upload = some w') :
  Quiet w w'
  := by
  obtain ⟨bulk, waiting, -, rfl⟩ := upload_cases h
  refine { refl w with putting := ?_ }
  intro u hu object hputting
  rcases mem_append.mp hu with hu | hu
  · exact hu
  · obtain rfl := mem_singleton.mp hu
    cases hputting

theorem collect (h : w.collect = some w') :
  Quiet w w'
  := by
  obtain ⟨-, rfl⟩ := collect_cases h
  refine { refl w with putting := ?_ }
  exact fun u hu _ _ => (dropWhile_sublist _).subset hu

theorem verify {ok : Bool} (h : w.verify ok = some w') :
  Quiet w w'
  := by
  obtain ⟨bulks, -, rfl⟩ := verify_cases h
  refine { refl w with puts := ?_ }
  intro seq
  dsimp only
  split
  next => simp
  next => rfl

theorem decide (h : w.decide = some w') :
  Quiet w w'
  := by
  obtain ⟨bulks, -, rfl⟩ := decide_cases h
  exact { refl w with }

theorem complete (h : w.complete = some w') :
  Quiet w w'
  := by
  obtain ⟨u, bulks, -, rfl⟩ | ⟨u, bulks, -, rfl⟩ | ⟨fenced, -, rfl⟩ := complete_cases h
  · exact { refl w with }
  · exact { refl w with puts := fun seq => by simp }
  · exact { refl w with }

theorem putFailed (w : Writer) (seq : Nat) (object : ObjectData) :
  Quiet w { w.setUpload seq (.done object false) with fenced := true }
  := by
  refine { refl w with putting := ?_ }
  intro u hu object' hputting
  obtain ⟨v, hv, rfl⟩ := mem_map.mp hu
  split at hputting
  next => cases hputting
  next hne =>
    rw [if_neg hne]
    exact hv

theorem flushed (h : Quiet w w') {b : Bulk} (hb : w.Flushed b) :
  w'.Flushed b
  := ⟨h.sealed.subset hb.1, (h.puts b.seq).mpr hb.2⟩

end Quiet

/-! ### The other steps -/

/-- An upload returns without an error. -/
def Writer.putOk (w : Writer) (u : UploadingBulk) (object : ObjectData) : Writer :=
  { w.setUpload u.bulk.seq (.done object true) with
    events := w.events ++ [.put u.bulk.seq]
    lastRecordOffsetToObject := w.lastRecordOffsetToObject.insert u.bulk.lastRecordOffset
      (listing (u.bulk.key w.config, object)) }

/-- A trim fixes the objects that it deletes. -/
def Writer.fix (w : Writer) (i : Nat) (trim : Trim) : Writer :=
  { w.setTrim i { trim with stage := .deleting } with
    lastRecordOffsetToObject := (w.coveredObjects trim.offset).foldl
      (fun objects e => objects.erase e.1) w.lastRecordOffsetToObject
    previousObjects := w.previousObjects.drop
      (w.coveredPrevious trim.offset (w.coveredObjects trim.offset).isEmpty).length
    deletes := w.deletes ++ ((w.coveredObjects trim.offset).map Prod.snd ++
      w.coveredPrevious trim.offset (w.coveredObjects trim.offset).isEmpty).map
        fun o => (trim.offset, o.key) }

/-- What the steps do to a writer, besides returning from an upload. -/
inductive Change (w : Writer) : Writer → Prop
  | quiet {w' : Writer} (h : Quiet w w') : Change w w'
  | build {u : UploadingBulk} (hu : u ∈ w.uploading) :
      Change w (w.setUpload u.bulk.seq (.putting (u.bulk.object w.config w.trimOffset)))
  | trim {offset : Int} (hlt : w.trimOffset < offset) (hbound : offset < 2 ^ 63) :
      Change w { w with
        trimOffset := offset
        trims := w.trims ++ [⟨offset, w.sealed.length, .appending⟩] }
  | append {i : Nat} {trim : Trim} {w' : Writer} (htrim : w.trims[i]? = some trim)
      (hstage : trim.stage = .appending) (hsubmit : w.submit Writer.fakeRecord = some w') :
      Change w (w'.setTrim i { trim with stage := .waiting w.nextId })
  | fail {i : Nat} {trim : Trim} (htrim : w.trims[i]? = some trim)
      (hstage : trim.stage ≠ .deleting) :
      Change w (w.setTrim i { trim with stage := .failed })
  | fix {i : Nat} {trim : Trim} {id : Nat} (htrim : w.trims[i]? = some trim)
      (hstage : trim.stage = .waiting id) (hacked : id ∈ w.acked.map PendingRecord.id) :
      Change w (w.fix i trim)

/-- What the steps do to the system. -/
inductive Effect (sys : Sys) : Sys → Prop
  | writer {w : Writer} {acknowledged : List ObjectKey} (h : Change sys.writer w)
      (hacknowledged : ∀ key ∈ acknowledged, key ∈ sys.acknowledged ∨
        ∃ b, sys.writer.Flushed b ∧ key = b.key sys.writer.config) :
      Effect sys { sys with writer := w, acknowledged }
  | land {u : UploadingBulk} {object : ObjectData} (hu : u ∈ sys.writer.uploading)
      (hputting : u.upload = .putting object) :
      Effect sys { sys with
        store := sys.store.insert (u.bulk.key sys.writer.config) object
        written := true }
  | put {u : UploadingBulk} {object : ObjectData} (hu : u ∈ sys.writer.uploading)
      (hputting : u.upload = .putting object) :
      Effect sys { sys with
        store := sys.store.insert (u.bulk.key sys.writer.config) object
        written := true
        writer := sys.writer.putOk u object }
  | delete {key : ObjectKey}
      (hkey : key ∈ sys.writer.deletes.map Prod.snd ∨ key ∈ sys.writer.overlaps) :
      Effect sys { sys with store := sys.store.erase key }

variable {u : UploadingBulk}

theorem AckInv.mem_sealed {n : Nat} {w : Writer} (h : AckInv n w) (hu : u ∈ w.uploads) :
  u.bulk ∈ w.sealed
  := by
  obtain ⟨completed, hsealed, -⟩ := h.queue
  rw [hsealed]
  apply mem_append_right
  apply mem_append_left
  exact mem_map_of_mem hu

theorem Effect.of_change {sys : Sys} {w : Writer} (h : Change sys.writer w) :
  Effect sys (sys.setWriter w)
  := .writer h fun _ hkey => .inl hkey

theorem step_effect {sys sys' : Sys} {a : Action} {n : Nat} (hack : AckInv n sys.writer)
    (hbound : sys.writer.nextOffset < 2 ^ 63) (hstep : step sys a = some sys') :
  Effect sys sys'
  := by
  cases a with
  | submit record =>
    obtain ⟨w, hw, rfl⟩ := Option.map_eq_some_iff.mp hstep
    exact .of_change (.quiet (.submit hw))
  | flush =>
    obtain ⟨w, hw, rfl⟩ := Option.map_eq_some_iff.mp hstep
    exact .of_change (.quiet (.sealActive hw))
  | upload =>
    obtain ⟨w, hw, rfl⟩ := Option.map_eq_some_iff.mp hstep
    exact .of_change (.quiet (.upload hw))
  | build seq =>
    obtain ⟨w, hw, rfl⟩ := Option.map_eq_some_iff.mp hstep
    obtain ⟨u, hfind, -, rfl⟩ := build_cases hw
    obtain ⟨hu, rfl⟩ := find_spec hfind
    exact .of_change (.build hu)
  | land seq =>
    obtain ⟨u, object, hfind, hputting, rfl⟩ := land_cases hstep
    exact .land (find_spec hfind).1 hputting
  | putDone seq ok =>
    obtain ⟨u, object, hfind, hputting, ⟨-, rfl⟩ | ⟨-, rfl⟩⟩ := putDone_cases hstep
    · obtain ⟨hu, rfl⟩ := find_spec hfind
      exact .put hu hputting
    · exact .of_change (.quiet (.putFailed sys.writer seq object))
  | collect =>
    obtain ⟨w, hw, rfl⟩ := Option.map_eq_some_iff.mp hstep
    exact .of_change (.quiet (.collect hw))
  | verify ok =>
    obtain ⟨w, hw, rfl⟩ := Option.map_eq_some_iff.mp hstep
    exact .of_change (.quiet (.verify hw))
  | decide =>
    obtain ⟨w, hw, rfl⟩ := Option.map_eq_some_iff.mp hstep
    exact .of_change (.quiet (.decide hw))
  | complete =>
    obtain ⟨w, hw, rfl⟩ := sysComplete_cases hstep
    apply Effect.writer (.quiet (.complete hw))
    intro key hkey
    rcases mem_append.mp hkey with hkey | hkey
    · exact .inl hkey
    · right
      unfold Writer.acknowledges at hkey
      split at hkey
      next u bulks hcallback =>
        -- an acknowledged bulk is checked, and so was put before
        obtain ⟨before, after, hevents, -⟩ :=
          hack.completing _ hcallback u mem_cons_self
        have hu : u ∈ sys.writer.uploads := by
          rw [Writer.uploads, hcallback]
          exact mem_append_left _ mem_cons_self
        refine ⟨u.bulk, ⟨hack.mem_sealed hu, ?_⟩, mem_singleton.mp hkey⟩
        rw [hevents]
        exact mem_append_right _ mem_cons_self
      next => cases hkey
  | trim offset =>
    obtain ⟨w, hw, rfl⟩ := Option.map_eq_some_iff.mp hstep
    obtain ⟨hlt, rfl⟩ := trim0_cases hw
    exact .of_change (.trim hlt (Int64.toInt_lt _))
  | reset =>
    obtain ⟨w, hw, rfl⟩ := Option.map_eq_some_iff.mp hstep
    obtain ⟨hlt, rfl⟩ := trim0_cases (reset_cases hw).2
    exact .of_change (.trim hlt (by omega))
  | trimAppend i ok =>
    obtain ⟨w, hw, rfl⟩ := Option.map_eq_some_iff.mp hstep
    obtain ⟨trim, htrim, hstage, ⟨w₁, hsubmit, rfl⟩ | rfl⟩ := trimAppend_cases hw
    · exact .of_change (.append htrim hstage hsubmit)
    · apply Effect.of_change (.fail htrim ?_)
      rw [hstage]
      intro h
      cases h
  | trimDelete i =>
    obtain ⟨w, hw, rfl⟩ := Option.map_eq_some_iff.mp hstep
    obtain ⟨trim, id, htrim, hstage, ⟨hacked, covered, previous, rfl, rfl, rfl⟩ | rfl⟩ :=
      trimDelete_cases hw
    · exact .of_change (.fix htrim hstage hacked)
    · apply Effect.of_change (.fail htrim ?_)
      rw [hstage]
      intro h
      cases h
  | delete key =>
    obtain ⟨hkey, rfl⟩ := delete_cases hstep
    exact .delete hkey
  | close =>
    cases hstep
    exact .of_change (.quiet { Quiet.refl sys.writer with })

/-- Objects are on their way to the storage only after they were built. -/
theorem step_putting {sys sys' : Sys} {a : Action} (hstep : step sys a = some sys') :
  ∀ u ∈ sys'.writer.uploading, ∀ object, u.upload = .putting object →
    (∃ v ∈ sys.writer.uploading, v.upload = .putting object) ∨
    ∃ seq b, a = .build seq ∧ object = Bulk.object sys.writer.config sys.writer.trimOffset b
  := by
  have hquiet {w : Writer} (h : Quiet sys.writer w) : ∀ u ∈ w.uploading, ∀ object,
      u.upload = .putting object → ∃ v ∈ sys.writer.uploading, v.upload = .putting object :=
    fun u hu object hputting => ⟨u, h.putting u hu object hputting, hputting⟩
  have hsame : ∀ u ∈ sys.writer.uploading, ∀ object, u.upload = .putting object →
      ∃ v ∈ sys.writer.uploading, v.upload = .putting object :=
    fun u hu object hputting => ⟨u, hu, hputting⟩
  intro u hu object hputting
  cases a with
  | submit record =>
    obtain ⟨w, hw, rfl⟩ := Option.map_eq_some_iff.mp hstep
    exact .inl (hquiet (.submit hw) u hu object hputting)
  | flush =>
    obtain ⟨w, hw, rfl⟩ := Option.map_eq_some_iff.mp hstep
    exact .inl (hquiet (.sealActive hw) u hu object hputting)
  | upload =>
    obtain ⟨w, hw, rfl⟩ := Option.map_eq_some_iff.mp hstep
    exact .inl (hquiet (.upload hw) u hu object hputting)
  | build seq =>
    obtain ⟨w, hw, rfl⟩ := Option.map_eq_some_iff.mp hstep
    obtain ⟨v, -, -, rfl⟩ := build_cases hw
    obtain ⟨v', hv', rfl⟩ := mem_map.mp hu
    split at hputting
    next => exact .inr ⟨seq, v.bulk, rfl, (Upload.putting.inj hputting).symm⟩
    next => exact .inl ⟨v', hv', hputting⟩
  | land seq =>
    obtain ⟨v, object', -, -, rfl⟩ := land_cases hstep
    exact .inl (hsame u hu object hputting)
  | putDone seq ok =>
    obtain ⟨v, object', -, -, ⟨-, rfl⟩ | ⟨-, rfl⟩⟩ := putDone_cases hstep
    · obtain ⟨v', hv', rfl⟩ := mem_map.mp hu
      split at hputting
      next => cases hputting
      next => exact .inl ⟨v', hv', hputting⟩
    · exact .inl (hquiet (.putFailed sys.writer seq object') u hu object hputting)
  | collect =>
    obtain ⟨w, hw, rfl⟩ := Option.map_eq_some_iff.mp hstep
    exact .inl (hquiet (.collect hw) u hu object hputting)
  | verify ok =>
    obtain ⟨w, hw, rfl⟩ := Option.map_eq_some_iff.mp hstep
    exact .inl (hquiet (.verify hw) u hu object hputting)
  | decide =>
    obtain ⟨w, hw, rfl⟩ := Option.map_eq_some_iff.mp hstep
    exact .inl (hquiet (.decide hw) u hu object hputting)
  | complete =>
    obtain ⟨w, hw, rfl⟩ := sysComplete_cases hstep
    exact .inl (hquiet (.complete hw) u hu object hputting)
  | trim offset =>
    obtain ⟨w, hw, rfl⟩ := Option.map_eq_some_iff.mp hstep
    obtain ⟨-, rfl⟩ := trim0_cases hw
    exact .inl (hsame u hu object hputting)
  | reset =>
    obtain ⟨w, hw, rfl⟩ := Option.map_eq_some_iff.mp hstep
    obtain ⟨-, rfl⟩ := trim0_cases (reset_cases hw).2
    exact .inl (hsame u hu object hputting)
  | trimAppend i ok =>
    obtain ⟨w, hw, rfl⟩ := Option.map_eq_some_iff.mp hstep
    obtain ⟨trim, -, -, ⟨w₁, hsubmit, rfl⟩ | rfl⟩ := trimAppend_cases hw
    · exact .inl (hquiet (.submit hsubmit) u hu object hputting)
    · exact .inl (hsame u hu object hputting)
  | trimDelete i =>
    obtain ⟨w, hw, rfl⟩ := Option.map_eq_some_iff.mp hstep
    obtain ⟨trim, id, -, -, ⟨-, covered, previous, -, -, rfl⟩ | rfl⟩ := trimDelete_cases hw
    · exact .inl (hsame u hu object hputting)
    · exact .inl (hsame u hu object hputting)
  | delete key =>
    obtain ⟨-, rfl⟩ := delete_cases hstep
    exact .inl (hsame u hu object hputting)
  | close =>
    cases hstep
    exact .inl (hsame u hu object hputting)

/-! ### Trims and the objects that are built -/

/-- The offsets of trims, the records they wait for, the bulks they have waited for, and the objects
that are being uploaded. -/
structure TrimInv (w : Writer) : Prop where
  range : -1 ≤ w.trimOffset ∧ w.trimOffset < 2 ^ 63
  bounds : ∀ t ∈ w.trims, 0 ≤ t.offset ∧ t.offset ≤ w.trimOffset ∧ t.mark ≤ w.sealed.length
  waiting : ∀ t ∈ w.trims, ∀ id, t.stage = .waiting id →
    ∀ b ∈ w.sealed, b.seq ≤ t.mark → ∀ r ∈ b.records, r.id < id
  deleting : ∀ t ∈ w.trims, t.stage = .deleting → ∃ b, w.Flushed b ∧ t.mark < b.seq
  built : ∀ u ∈ w.uploading, ∀ object, u.upload = .putting object → w.Built u.bulk object

variable {w w' : Writer} {b : Bulk} {object : ObjectData} {start n : Nat}

theorem Writer.Built.mono (h : w.Built b object) (hconfig : w'.config = w.config)
    (hle : w.trimOffset ≤ w'.trimOffset)
    (htrims : ∀ t ∈ w'.trims, t.mark < b.seq →
      ∃ s ∈ w.trims, s.offset = t.offset ∧ s.mark = t.mark) :
  w'.Built b object
  := by
  obtain ⟨trimOffset, rfl, hnone, htrim, hmark⟩ := h
  refine ⟨trimOffset, by rw [hconfig], hnone, htrim.trans hle, ?_⟩
  intro t ht hlt
  obtain ⟨s, hs, hoffset, hsmark⟩ := htrims t ht hlt
  rw [← hoffset]
  exact hmark s hs (by omega)

variable {stage : TrimStage} {i : Nat}

theorem mem_setTrim {trim t : Trim} (htrim : w.trims[i]? = some trim)
    (ht : t ∈ (w.setTrim i { trim with stage }).trims) :
  ∃ s ∈ w.trims, s.offset = t.offset ∧ s.mark = t.mark ∧ (t = s ∨ t.stage = stage ∧ s = trim)
  := by
  rcases mem_or_eq_of_mem_set ht with ht | rfl
  · exact ⟨t, ht, rfl, rfl, .inl rfl⟩
  · exact ⟨trim, mem_of_getElem? htrim, rfl, rfl, .inr ⟨rfl, rfl⟩⟩

theorem mem_setTrim_of_ne {trim trim' t : Trim} (htrim : w.trims[i]? = some trim)
    (ht : t ∈ w.trims) (hne : t ≠ trim) :
  t ∈ (w.setTrim i trim').trims
  := by
  obtain ⟨j, hj⟩ := getElem?_of_mem ht
  have hij : i ≠ j := by
    rintro rfl
    exact hne (Option.some.inj (hj.symm.trans htrim))
  apply mem_of_getElem?
  rw [Writer.setTrim, getElem?_set_ne hij]
  exact hj

/-- Bulks with small numbers were there before. -/
theorem WindowInv.mem_of_prefix (h : WindowInv start w') (hsealed : w.sealed <+: w'.sealed)
    (hb : b ∈ w'.sealed) (hle : b.seq ≤ w.sealed.length) :
  b ∈ w.sealed
  := by
  obtain ⟨i, hi, hseq⟩ := h.mem_sealed hb
  have hlt : i < w.sealed.length := by omega
  obtain ⟨rest, hrest⟩ := hsealed
  rw [← hrest, getElem?_append_left hlt] at hi
  exact mem_of_getElem? hi

/-- The bulks are numbered in the order they were sealed. -/
theorem WindowInv.seq_le (h : WindowInv start w) (hb : b ∈ w.sealed) :
  b.seq ≤ w.sealed.length
  := by
  obtain ⟨i, hi, hseq⟩ := h.mem_sealed hb
  obtain ⟨hlt, -⟩ := List.getElem?_eq_some_iff.mp hi
  omega

variable {offset : Int}

section

variable (h : TrimInv w)

include h

theorem TrimInv.quiet (hwindow : WindowInv start w') (hquiet : Quiet w w') :
  TrimInv w'
  := by
  refine ⟨?_, ?_, ?_, ?_, ?_⟩
  · rw [hquiet.trimOffset]
    exact h.range
  · intro t ht
    rw [hquiet.trims] at ht
    obtain ⟨hnone, hle, hmark⟩ := h.bounds t ht
    rw [hquiet.trimOffset]
    exact ⟨hnone, hle, hmark.trans hquiet.sealed.length_le⟩
  · intro t ht id hstage b hb hle
    rw [hquiet.trims] at ht
    have hmark := (h.bounds t ht).2.2
    exact h.waiting t ht id hstage b (hwindow.mem_of_prefix hquiet.sealed hb (by omega)) hle
  · intro t ht hstage
    rw [hquiet.trims] at ht
    obtain ⟨b, hb, hlt⟩ := h.deleting t ht hstage
    exact ⟨b, hquiet.flushed hb, hlt⟩
  · intro u hu object hputting
    apply (h.built u (hquiet.putting u hu object hputting) object hputting).mono hquiet.config
    · rw [hquiet.trimOffset]
    · intro t ht _
      rw [hquiet.trims] at ht
      exact ⟨t, ht, rfl, rfl⟩

theorem TrimInv.setTrim {trim : Trim} (htrim : w.trims[i]? = some trim)
    (hwaiting : ∀ id, stage = .waiting id →
      ∀ b ∈ w.sealed, b.seq ≤ trim.mark → ∀ r ∈ b.records, r.id < id)
    (hdeleting : stage = .deleting → ∃ b, w.Flushed b ∧ trim.mark < b.seq) :
  TrimInv (w.setTrim i { trim with stage })
  := by
  refine ⟨h.range, ?_, ?_, ?_, ?_⟩
  · intro t ht
    obtain ⟨s, hs, hoffset, hmark, -⟩ := mem_setTrim htrim ht
    rw [← hoffset, ← hmark]
    exact h.bounds s hs
  · intro t ht id hstage b hb hle
    obtain ⟨s, hs, -, hmark, rfl | ⟨hnew, rfl⟩⟩ := mem_setTrim htrim ht
    · exact h.waiting t hs id hstage b hb hle
    · exact hwaiting id (hnew.symm.trans hstage) b hb (by omega)
  · intro t ht hstage
    obtain ⟨s, hs, -, hmark, rfl | ⟨hnew, rfl⟩⟩ := mem_setTrim htrim ht
    · exact h.deleting t hs hstage
    · rw [← hmark]
      exact hdeleting (hnew.symm.trans hstage)
  · intro u hu object hputting
    refine (h.built u hu object hputting).mono rfl (le_refl _) ?_
    intro t ht _
    obtain ⟨s, hs, hoffset, hmark, -⟩ := mem_setTrim htrim ht
    exact ⟨s, hs, hoffset, hmark⟩

/-- A trim whose record is acknowledged has waited for a bulk that was sealed after it. -/
theorem TrimInv.flushed_of_acked (hack : AckInv n w) {t : Trim} {id : Nat} (ht : t ∈ w.trims)
    (hstage : t.stage = .waiting id) (hacked : id ∈ w.acked.map PendingRecord.id) :
  ∃ b, w.Flushed b ∧ t.mark < b.seq
  := by
  obtain ⟨r, hr, rfl⟩ := mem_map.mp hacked
  rw [hack.acked] at hr
  obtain ⟨b, hb, hr⟩ := mem_flatMap.mp hr
  have hsealed := mem_of_mem_take hb
  obtain ⟨before, after, hevents, -⟩ := hack.checked b hb
  refine ⟨b, ⟨hsealed, ?_⟩, ?_⟩
  · rw [hevents]
    exact mem_append_right _ mem_cons_self
  · by_contra hle
    exact absurd (h.waiting t ht r.id hstage b hsealed (by omega) r (Bulk.mem_sorted.mp hr))
      (lt_irrefl _)

/-- A bulk is built with the trim offset of that moment. -/
theorem TrimInv.build (hwindow : WindowInv start w) (hack : AckInv n w) (hu : u ∈ w.uploading) :
  TrimInv (w.setUpload u.bulk.seq (.putting (u.bulk.object w.config w.trimOffset)))
  := by
  refine { h with built := ?_ }
  intro v hv object hputting
  obtain ⟨v, hv', rfl⟩ := mem_map.mp hv
  split at hputting
  next heq =>
    rw [if_pos heq]
    have hsame : v.bulk = u.bulk := by
      apply hwindow.eq_of_seq _ _ heq
      · exact hack.mem_sealed (mem_append_right _ hv')
      · exact hack.mem_sealed (mem_append_right _ hu)
    obtain rfl := Upload.putting.inj hputting
    rw [hsame]
    exact ⟨w.trimOffset, rfl, h.range.1, le_refl _, fun t ht _ => (h.bounds t ht).2.1⟩
  next hne =>
    rw [if_neg hne]
    exact h.built v hv' object hputting

theorem TrimInv.putOk (u : UploadingBulk) (object : ObjectData) :
  TrimInv (w.putOk u object)
  := by
  refine { h with deleting := ?_, built := ?_ }
  · intro t ht hstage
    obtain ⟨b, hb, hlt⟩ := h.deleting t ht hstage
    exact ⟨b, ⟨hb.1, mem_append_left _ hb.2⟩, hlt⟩
  · intro v hv object' hputting
    obtain ⟨v, hv', rfl⟩ := mem_map.mp hv
    split at hputting
    next => cases hputting
    next hne =>
      rw [if_neg hne]
      exact h.built v hv' object' hputting

theorem TrimInv.trim (hwindow : WindowInv start w) (hack : AckInv n w) (hlt : w.trimOffset < offset)
    (hbound : offset < 2 ^ 63) :
  TrimInv { w with
    trimOffset := offset
    trims := w.trims ++ [⟨offset, w.sealed.length, .appending⟩] }
  := by
  have hnone := h.range.1
  refine ⟨⟨?_, hbound⟩, ?_, ?_, ?_, ?_⟩
  · change -1 ≤ offset
    omega
  · intro t ht
    rcases mem_append.mp ht with ht | ht
    · obtain ⟨hzero, hle, hmark⟩ := h.bounds t ht
      exact ⟨hzero, hle.trans hlt.le, hmark⟩
    · obtain rfl := mem_singleton.mp ht
      refine ⟨?_, le_refl _, le_refl _⟩
      change 0 ≤ offset
      omega
  · intro t ht id hstage
    rcases mem_append.mp ht with ht | ht
    · exact h.waiting t ht id hstage
    · obtain rfl := mem_singleton.mp ht
      cases hstage
  · intro t ht hstage
    rcases mem_append.mp ht with ht | ht
    · exact h.deleting t ht hstage
    · obtain rfl := mem_singleton.mp ht
      cases hstage
  · intro u hu object hputting
    refine (h.built u hu object hputting).mono rfl hlt.le ?_
    intro t ht hmark
    rcases mem_append.mp ht with ht | ht
    · exact ⟨t, ht, rfl, rfl⟩
    · -- the bulks of the uploads were sealed before the trim was stored
      obtain rfl := mem_singleton.mp ht
      have hle := hwindow.seq_le (hack.mem_sealed (mem_append_right _ hu))
      exact absurd hmark (not_lt.mpr hle)

theorem TrimInv.change (hwindow : WindowInv start w) (hack : AckInv n w)
    (hwindow' : WindowInv start w') (hchange : Change w w') :
  TrimInv w'
  := by
  cases hchange with
  | quiet hquiet => exact h.quiet hwindow' hquiet
  | build hu => exact h.build hwindow hack hu
  | trim hlt hbound => exact h.trim hwindow hack hlt hbound
  | append htrim hstage hsubmit =>
    have hquiet := Quiet.submit hsubmit
    have hafter := hwindow.submit hsubmit
    apply (h.quiet hafter hquiet).setTrim
    · rw [hquiet.trims]
      exact htrim
    · intro id hid b hb hle r hr
      cases hid
      have hmark := (h.bounds _ (mem_of_getElem? htrim)).2.2
      have hb := hafter.mem_of_prefix hquiet.sealed hb (by omega)
      exact hwindow.ids b (mem_append_left _ hb) r hr
    · nofun
  | fail htrim hstage => exact h.setTrim htrim nofun nofun
  | @fix i trim id htrim hstage hacked =>
    have hset : TrimInv (w.setTrim i { trim with stage := .deleting }) := by
      apply h.setTrim htrim
      · nofun
      · exact fun _ => h.flushed_of_acked hack (mem_of_getElem? htrim) hstage hacked
    exact { hset with }

end

/-! ### Flushed objects and delete lists -/

/-- The last record of a bulk lies in its window. -/
theorem Bulk.lastRecordOffset_window (h : b.Filled) :
  (∀ f ∈ b.frames, f.offset ≤ b.lastRecordOffset) ∧ b.baseOffset ≤ b.lastRecordOffset ∧
    b.lastRecordOffset < b.endOffsetAligned
  := by
  obtain ⟨hpairwise, hwindow⟩ := Bulk.frames_window h
  have hne := Bulk.frames_ne_nil h.nonempty
  have hlast : b.lastRecordOffset = (b.frames.getLast hne).offset := by
    rw [Bulk.lastRecordOffset, getLast?_eq_getLast_of_ne_nil hne]
    rfl
  rw [hlast]
  have hlastmem := getLast_mem hne
  refine ⟨?_, (hwindow _ hlastmem).1, Bulk.frames_lt_end h _ hlastmem⟩
  intro f hf
  rw [← dropLast_append_getLast hne] at hf hpairwise
  rcases mem_append.mp hf with hf | hf
  · exact (pairwise_append.mp hpairwise).2.2 f hf _ (mem_singleton_self _) |>.le
  · rw [mem_singleton.mp hf]

/-- Bulks are in the order of their last records. -/
theorem WindowInv.seq_lt (h : WindowInv start w) {c : Bulk} (hb : b ∈ w.sealed)
    (hc : c ∈ w.sealed) (hlt : b.lastRecordOffset < c.lastRecordOffset) :
  b.seq < c.seq
  := by
  have hbwindow := Bulk.lastRecordOffset_window (h.filled b hb)
  have hcwindow := Bulk.lastRecordOffset_window (h.filled c hc)
  rcases lt_trichotomy b.seq c.seq with hseq | hseq | hseq
  · exact hseq
  · rw [h.eq_of_seq hb hc hseq] at hlt
    exact absurd hlt (lt_irrefl _)
  · have hle := h.window_le hc hb hseq
    omega

/-- The objects that were flushed and the objects that trims delete, over the objects that were
listed at the start. The bulk that was flushed last is among the objects and trims do not delete
it. -/
structure FlushInv (listed : List WalObject) (w : Writer) : Prop where
  puts : ∀ seq, Event.put seq ∈ w.events → seq ≤ w.sealed.length
  objects : ∀ offset o, w.lastRecordOffsetToObject[offset]? = some o →
    ∃ b, w.Flushed b ∧ offset = b.lastRecordOffset ∧ o.key = b.key w.config
  latest : ∀ b, w.Flushed b → b.lastRecordOffset ∈ w.lastRecordOffsetToObject ∨
    ∃ c, w.Flushed c ∧ b.seq < c.seq
  previous : w.previousObjects ⊆ listed
  trimmed : ∀ e ∈ w.deletes, ∃ t ∈ w.trims, t.offset = e.1 ∧ t.stage = .deleting
  deletes : ∀ e ∈ w.deletes,
    (∃ b c, w.Flushed b ∧ w.Flushed c ∧ b.seq < c.seq ∧ e.2 = b.key w.config ∧
      (b.lastRecordOffset : Int) ≤ e.1) ∨
    ∃ o ∈ listed, e.2 = o.key ∧ (o.endOffset : Int) ≤ e.1

variable {listed : List WalObject}

section

variable (h : FlushInv listed w)

include h

theorem FlushInv.quiet (hwindow : WindowInv start w') (hquiet : Quiet w w') :
  FlushInv listed w'
  := by
  have hflushed (b : Bulk) (hb : w.Flushed b) : w'.Flushed b := hquiet.flushed hb
  refine ⟨?_, ?_, ?_, ?_, ?_, ?_⟩
  · intro seq hseq
    exact (h.puts seq ((hquiet.puts seq).mp hseq)).trans hquiet.sealed.length_le
  · intro offset o ho
    rw [hquiet.objects] at ho
    rw [hquiet.config]
    obtain ⟨b, hb, hoffset, hkey⟩ := h.objects offset o ho
    exact ⟨b, hflushed b hb, hoffset, hkey⟩
  · intro b hb
    rw [hquiet.objects]
    have hput := (hquiet.puts b.seq).mp hb.2
    have hbefore : w.Flushed b :=
      ⟨hwindow.mem_of_prefix hquiet.sealed hb.1 (h.puts b.seq hput), hput⟩
    rcases h.latest b hbefore with hmem | ⟨c, hc, hlt⟩
    · exact .inl hmem
    · exact .inr ⟨c, hflushed c hc, hlt⟩
  · rw [hquiet.previous]
    exact h.previous
  · rw [hquiet.deletes, hquiet.trims]
    exact h.trimmed
  · rw [hquiet.deletes, hquiet.config]
    intro e he
    rcases h.deletes e he with ⟨b, c, hb, hc, hdelete⟩ | hprevious
    · exact .inl ⟨b, c, hflushed b hb, hflushed c hc, hdelete⟩
    · exact .inr hprevious

/-- Trims keep the objects they delete while they go on. -/
theorem FlushInv.setTrim {trim : Trim} (htrim : w.trims[i]? = some trim)
    (hstage : trim.stage ≠ .deleting) :
  FlushInv listed (w.setTrim i { trim with stage })
  := by
  refine { h with trimmed := ?_ }
  intro e he
  obtain ⟨t, ht, hoffset, hdeleting⟩ := h.trimmed e he
  refine ⟨t, mem_setTrim_of_ne htrim ht ?_, hoffset, hdeleting⟩
  rintro rfl
  exact hstage hdeleting

theorem FlushInv.putOk (hack : AckInv n w) (hwindow : WindowInv start w) (hu : u ∈ w.uploading) :
  FlushInv listed (w.putOk u object)
  := by
  have hsealed : u.bulk ∈ w.sealed := hack.mem_sealed (mem_append_right _ hu)
  have hflushed (b : Bulk) (hb : w.Flushed b) : (w.putOk u object).Flushed b :=
    ⟨hb.1, mem_append_left _ hb.2⟩
  have hnew : (w.putOk u object).Flushed u.bulk :=
    ⟨hsealed, mem_append_right _ (mem_singleton_self _)⟩
  refine ⟨?_, ?_, ?_, h.previous, h.trimmed, ?_⟩
  · intro seq hseq
    rcases mem_append.mp hseq with hseq | hseq
    · exact h.puts seq hseq
    · cases mem_singleton.mp hseq
      exact hwindow.seq_le hsealed
  · intro offset o ho
    change (w.lastRecordOffsetToObject.insert u.bulk.lastRecordOffset _)[offset]? = some o at ho
    rcases lookup_insert_cases ho with ⟨heq, rfl⟩ | ⟨-, ho⟩
    · exact ⟨u.bulk, hnew, heq.symm, rfl⟩
    · obtain ⟨b, hb, hoffset, hkey⟩ := h.objects offset o ho
      exact ⟨b, hflushed b hb, hoffset, hkey⟩
  · intro b hb
    change b.lastRecordOffset ∈ w.lastRecordOffsetToObject.insert u.bulk.lastRecordOffset _ ∨ _
    rw [OrdMap.mem_insert_iff]
    rcases mem_append.mp hb.2 with hput | hput
    · rcases h.latest b ⟨hb.1, hput⟩ with hmem | ⟨c, hc, hlt⟩
      · exact .inl (.inr hmem)
      · exact .inr ⟨c, hflushed c hc, hlt⟩
    · left
      left
      rw [hwindow.eq_of_seq hb.1 hsealed (Event.put.inj (mem_singleton.mp hput))]
  · intro e he
    rcases h.deletes e he with ⟨b, c, hb, hc, hdelete⟩ | hprevious
    · exact .inl ⟨b, c, hflushed b hb, hflushed c hc, hdelete⟩
    · exact .inr hprevious

/-- An object that a trim fixes was flushed and is not the last one. -/
theorem FlushInv.covered (hwindow : WindowInv start w) (hoffset : 0 ≤ offset) {e : Nat × WalObject}
    (he : e ∈ w.coveredObjects offset) :
  ∃ b c, w.Flushed b ∧ w.Flushed c ∧ b.seq < c.seq ∧ e.1 = b.lastRecordOffset ∧
    e.2.key = b.key w.config ∧ (b.lastRecordOffset : Int) ≤ offset
  := by
  obtain ⟨he, hcovered⟩ := mem_filter.mp he
  obtain ⟨hle, hany⟩ := of_decide_eq_true hcovered
  rw [max_eq_left hoffset] at hle
  simp only [Option.any_eq_true, decide_eq_true_eq] at hany
  obtain ⟨last, hlast, hne⟩ := hany
  obtain ⟨b, hb, hbkey, hkey⟩ :=
    h.objects e.1 e.2 (Std.ExtTreeMap.mem_toList_iff_getElem?_eq_some.mp he)
  have hlastmem := mem_of_getLast? hlast
  obtain ⟨c, hc, hckey, -⟩ :=
    h.objects last.1 last.2 (Std.ExtTreeMap.mem_toList_iff_getElem?_eq_some.mp hlastmem)
  -- the objects are in the order of their offsets
  have hlt : e.1 < last.1 := by
    have hsorted := Std.ExtTreeMap.ordered_keys_toList (t := w.lastRecordOffsetToObject)
    obtain ⟨front, hfront⟩ := getLast?_eq_some_iff.mp hlast
    rw [hfront] at he hsorted
    rcases mem_append.mp he with he | he
    · have hcompare := (pairwise_append.mp hsorted).2.2 e he last (mem_singleton_self _)
      exact Nat.compare_eq_lt.mp hcompare
    · obtain rfl := mem_singleton.mp he
      exact absurd rfl hne
  refine ⟨b, c, hb, hc, ?_, hbkey, hkey, ?_⟩
  · exact hwindow.seq_lt hb.1 hc.1 (by omega)
  · omega

end

/-- A trim takes only objects that end at or below its offset. -/
theorem mem_coveredPrevious {skip : Bool} {o : WalObject} (ho : o ∈ w.coveredPrevious offset skip) :
  o ∈ w.previousObjects ∧ (o.endOffset : Int) ≤ offset
  := by
  have hle := mem_takeWhile_imp ho
  exact ⟨mem_of_mem_take ((takeWhile_sublist _).subset ho), of_decide_eq_true hle⟩

section

variable (h : FlushInv listed w) (htrims : TrimInv w) (hwindow : WindowInv start w)

include h htrims hwindow

/-- What a trim deletes is fixed when it starts to wait. -/
theorem FlushInv.fix {trim : Trim} {id : Nat} (htrim : w.trims[i]? = some trim)
    (hstage : trim.stage = .waiting id) :
  FlushInv listed (w.fix i trim)
  := by
  have hoffset := (htrims.bounds trim (mem_of_getElem? htrim)).1
  have hset : FlushInv listed (w.setTrim i { trim with stage := .deleting }) := by
    apply h.setTrim htrim
    rw [hstage]
    nofun
  have hlookup (offset : Nat) : (w.fix i trim).lastRecordOffsetToObject[offset]?
      = if offset ∈ (w.coveredObjects trim.offset).map Prod.fst then none
        else w.lastRecordOffsetToObject[offset]? := by
    rw [← lookup_foldl_erase, foldl_map]
    rfl
  refine ⟨h.puts, ?_, ?_, ?_, ?_, ?_⟩
  · intro offset o ho
    rw [hlookup] at ho
    split at ho
    next => cases ho
    next => exact h.objects offset o ho
  · intro b hb
    rcases h.latest b hb with hmem | hlater
    · by_cases hcovered : b.lastRecordOffset ∈ (w.coveredObjects trim.offset).map Prod.fst
      · obtain ⟨e, he, heq⟩ := mem_map.mp hcovered
        obtain ⟨b', c, hb', hc, hlt, hkey, -⟩ := h.covered hwindow hoffset he
        refine .inr ⟨c, hc, ?_⟩
        by_contra hge
        have hle : c.seq ≤ b.seq := by omega
        rcases lt_or_eq_of_le (by omega : b'.seq ≤ b.seq) with hlt' | heq'
        · have hend := hwindow.window_le hb'.1 hb.1 hlt'
          have hlast := Bulk.lastRecordOffset_window (hwindow.filled b' hb'.1)
          have hlast' := Bulk.lastRecordOffset_window (hwindow.filled b hb.1)
          omega
        · omega
      · left
        rw [mem_iff_lookup, hlookup, if_neg hcovered]
        exact (mem_iff_lookup _ _).mp hmem
    · exact .inr hlater
  · intro o ho
    exact h.previous (mem_of_mem_drop ho)
  · intro e he
    rcases mem_append.mp he with he | he
    · exact hset.trimmed e he
    · obtain ⟨o, -, rfl⟩ := mem_map.mp he
      refine ⟨{ trim with stage := .deleting }, ?_, rfl, rfl⟩
      apply mem_set
      exact (List.getElem?_eq_some_iff.mp htrim).1
  · intro e he
    rcases mem_append.mp he with he | he
    · exact h.deletes e he
    · obtain ⟨o, ho, rfl⟩ := mem_map.mp he
      rcases mem_append.mp ho with ho | ho
      · obtain ⟨e, hcovered, rfl⟩ := mem_map.mp ho
        obtain ⟨b, c, hb, hc, hlt, -, hkey, hle⟩ := h.covered hwindow hoffset hcovered
        exact .inl ⟨b, c, hb, hc, hlt, hkey, hle⟩
      · obtain ⟨hmem, hle⟩ := mem_coveredPrevious ho
        exact .inr ⟨o, h.previous hmem, rfl, hle⟩

theorem FlushInv.change (hwindow' : WindowInv start w') (hchange : Change w w') :
  FlushInv listed w'
  := by
  cases hchange with
  | quiet hquiet => exact h.quiet hwindow' hquiet
  | build hu => exact { h with }
  | trim hlt hbound =>
    refine { h with trimmed := ?_ }
    intro e he
    obtain ⟨t, ht, hdelete⟩ := h.trimmed e he
    exact ⟨t, mem_append_left _ ht, hdelete⟩
  | append htrim hstage hsubmit =>
    have hquiet := Quiet.submit hsubmit
    apply (h.quiet (hwindow.submit hsubmit) hquiet).setTrim
    · rw [hquiet.trims]
      exact htrim
    · rw [hstage]
      nofun
  | fail htrim hstage => exact h.setTrim htrim hstage
  | fix htrim hstage hacked => exact h.fix htrims hwindow htrim hstage

end

/-! ### What all changes keep -/

section

variable (h : Change w w')

include h

theorem Change.config :
  w'.config = w.config
  := by
  cases h with
  | quiet h => exact h.config
  | append _ _ hsubmit => exact (Quiet.submit hsubmit).config
  | build | trim | fail | fix => rfl

theorem Change.overlaps :
  w'.overlaps = w.overlaps
  := by
  cases h with
  | quiet h => exact h.overlaps
  | append _ _ hsubmit => exact (Quiet.submit hsubmit).overlaps
  | build | trim | fail | fix => rfl

theorem Change.sealed :
  w.sealed <+: w'.sealed
  := by
  cases h with
  | quiet h => exact h.sealed
  | append _ _ hsubmit => exact (Quiet.submit hsubmit).sealed
  | build | trim | fail | fix => exact prefix_refl _

theorem Change.puts (seq : Nat) :
  Event.put seq ∈ w'.events ↔ Event.put seq ∈ w.events
  := by
  cases h with
  | quiet h => exact h.puts seq
  | append _ _ hsubmit => exact (Quiet.submit hsubmit).puts seq
  | build | trim | fail | fix => exact Iff.rfl

theorem Change.deleting {t : Trim} (ht : t ∈ w.trims) (hstage : t.stage = .deleting) :
  t ∈ w'.trims
  := by
  cases h with
  | quiet h =>
    rw [h.trims]
    exact ht
  | build hu => exact ht
  | trim _ _ => exact mem_append_left _ ht
  | append htrim happending hsubmit =>
    have hquiet := Quiet.submit hsubmit
    rw [← hquiet.trims] at htrim ht
    apply mem_setTrim_of_ne htrim ht
    rintro rfl
    cases happending.symm.trans hstage
  | fail htrim hother =>
    apply mem_setTrim_of_ne htrim ht
    rintro rfl
    exact hother hstage
  | fix htrim hwaiting _ =>
    apply mem_setTrim_of_ne htrim ht
    rintro rfl
    cases hwaiting.symm.trans hstage

/-- Nothing is flushed but by an upload that returns. -/
theorem Change.flushed_iff (hflush : FlushInv listed w) (hwindow : WindowInv start w') :
  w'.Flushed b ↔ w.Flushed b
  := by
  constructor
  · intro hb
    have hput := (h.puts b.seq).mp hb.2
    exact ⟨hwindow.mem_of_prefix h.sealed hb.1 (hflush.puts b.seq hput), hput⟩
  · intro hb
    exact ⟨h.sealed.subset hb.1, (h.puts b.seq).mpr hb.2⟩

end

/-- What was built covers the trims of later states, too. -/
theorem Writer.Built.change (hbuilt : w.Built b object) (hseq : b.seq ≤ w.sealed.length)
    (h : Change w w') :
  w'.Built b object
  := by
  cases h with
  | quiet h =>
    apply hbuilt.mono h.config (le_of_eq h.trimOffset.symm)
    intro t ht _
    rw [h.trims] at ht
    exact ⟨t, ht, rfl, rfl⟩
  | build hu => exact hbuilt
  | trim hlt _ =>
    refine hbuilt.mono rfl hlt.le ?_
    intro t ht hmark
    rcases mem_append.mp ht with ht | ht
    · exact ⟨t, ht, rfl, rfl⟩
    · obtain rfl := mem_singleton.mp ht
      exact absurd hmark (not_lt.mpr hseq)
  | append htrim _ hsubmit =>
    have hquiet := Quiet.submit hsubmit
    refine hbuilt.mono hquiet.config (le_of_eq hquiet.trimOffset.symm) ?_
    intro t ht _
    rw [← hquiet.trims] at htrim ⊢
    obtain ⟨s, hs, hoffset, hmark, -⟩ := mem_setTrim htrim ht
    exact ⟨s, hs, hoffset, hmark⟩
  | fail htrim _ =>
    refine hbuilt.mono rfl (le_refl _) ?_
    intro t ht _
    obtain ⟨s, hs, hoffset, hmark, -⟩ := mem_setTrim htrim ht
    exact ⟨s, hs, hoffset, hmark⟩
  | fix htrim _ _ =>
    refine hbuilt.mono rfl (le_refl _) ?_
    intro t ht _
    obtain ⟨s, hs, hoffset, hmark, -⟩ := mem_setTrim htrim ht
    exact ⟨s, hs, hoffset, hmark⟩

theorem Writer.Built.header_ge (hbuilt : w.Built b object) (htrims : TrimInv w) :
  -1 ≤ object.header.trimOffset.toInt
  := by
  obtain ⟨trimOffset, rfl, hnone, hle, -⟩ := hbuilt
  have hbound := htrims.range.2
  change -1 ≤ (Int64.ofInt trimOffset).toInt
  rw [Int64.toInt_ofInt_of_le (by omega) (by omega)]
  exact hnone

/-- The header of an object carries every trim that was made before its bulk was sealed. -/
theorem Writer.Built.header (hbuilt : w.Built b object) (htrims : TrimInv w) :
  ∀ t ∈ w.trims, t.mark < b.seq → t.offset ≤ object.header.trimOffset.toInt
  := by
  obtain ⟨trimOffset, rfl, hnone, hle, hmark⟩ := hbuilt
  have hbound := htrims.range.2
  intro t ht hlt
  change t.offset ≤ (Int64.ofInt trimOffset).toInt
  rw [Int64.toInt_ofInt_of_le (by omega) (by omega)]
  exact hmark t ht hlt

end Wal
