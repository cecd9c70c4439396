import StreamStack.Wal.Writer

/-!
# What the steps of the log do

For each step of the writer and of the system, the states it leads from and to. Submitting a record
is broken up into sealing, pushing into a bulk with room and pushing into a new bulk.
-/

namespace Wal

open OrdMap

variable {w w' : Writer} {sys sys' : Sys} {record : StreamRecordBatch}

/-! ### Submitting and sealing -/

/-- Sealing does nothing, or moves the active bulk to the queue. -/
theorem sealActive_cases (h : w.sealActive = some w') :
  (w.active = none ∧ w' = w) ∨
    ∃ bulk, w.active = some bulk ∧ ceilAlignOffset (w.nextOffset + bulk.size) < 2 ^ 63 ∧
      w' = { w with
        active := none
        nextOffset := ceilAlignOffset (w.nextOffset + bulk.size)
        waiting := w.waiting ++ [bulk]
        sealed := w.sealed ++ [bulk] }
  := by
  unfold Writer.sealActive at h
  split at h
  next hactive =>
    cases h
    exact .inl ⟨hactive, rfl⟩
  next bulk hactive =>
    dsimp only at h
    split at h
    next hbound =>
      cases h
      exact .inr ⟨bulk, hactive, hbound, rfl⟩
    next => cases h

/-- The rule for what submitting a record keeps: sealing the active bulk, pushing the record into an
active bulk that has room for it, and pushing it into a new bulk keep it. -/
theorem submit_induction {I : Writer → Prop}
    (hseal : ∀ w w', I w → w.sealActive = some w' → I w')
    (hpush : ∀ w b, I w → w.active = some b →
      PendingRecord.size ⟨w.nextId, record⟩ + b.size ≤ dataFileAlignSize →
      I (w.push ⟨w.nextId, record⟩))
    (hnew : ∀ w, I w → w.active = none →
      PendingRecord.size ⟨w.nextId, record⟩ ≤ dataFileAlignSize →
      I (w.newActiveBulk.push ⟨w.nextId, record⟩))
    (h : I w) (hsubmit : w.submit record = some w') :
  I w'
  := by
  unfold Writer.submit at hsubmit
  dsimp only at hsubmit
  split at hsubmit
  next hok =>
    obtain ⟨room, hroom, hfull⟩ := Option.bind_eq_some_iff.mp hsubmit
    have hpushed : I (room.push ⟨w.nextId, record⟩) := by
      unfold Writer.makeRoom at hroom
      split at hroom
      next hactive =>
        cases hroom
        exact hnew w h hactive hok.2
      next bulk hactive =>
        split at hroom
        next =>
          obtain ⟨w₁, hw₁, rfl⟩ := Option.map_eq_some_iff.mp hroom
          have hI := hseal w w₁ h hw₁
          obtain ⟨hnone, -⟩ | ⟨bulk', -, -, rfl⟩ := sealActive_cases hw₁
          · cases hactive.symm.trans hnone
          · exact hnew _ hI rfl hok.2
        next hfits =>
          cases hroom
          exact hpush w bulk h hactive (by omega)
    unfold Writer.sealFull at hfull
    split at hfull
    next =>
      cases hfull
      exact hpushed
    next bulk hactive =>
      split at hfull
      next => exact hseal _ _ hpushed hfull
      next =>
        cases hfull
        exact hpushed
  next => cases hsubmit

/-! ### Uploads -/

/-- The first bulk that waits goes to the uploads. -/
theorem upload_cases (h : w.upload = some w') :
  ∃ bulk waiting, w.waiting = bulk :: waiting ∧
    w' = { w with waiting, uploading := w.uploading ++ [{ bulk }] }
  := by
  unfold Writer.upload at h
  split at h
  next => cases h
  next bulk waiting hwaiting =>
    split at h
    next =>
      cases h
      exact ⟨bulk, waiting, hwaiting, rfl⟩
    next => cases h

variable {seq : Nat}

/-- The upload that is found has the number that was looked for. -/
theorem find_spec {u : UploadingBulk} (h : w.find seq = some u) :
  u ∈ w.uploading ∧ u.bulk.seq = seq
  := ⟨List.mem_of_find?_eq_some h, by simpa using List.find?_some h⟩

/-- A bulk is made into an object with the trim offset of the moment. -/
theorem build_cases (h : w.build seq = some w') :
  ∃ u, w.find seq = some u ∧ u.upload = .spawned ∧
    w' = w.setUpload seq (.putting (u.bulk.object w.config w.trimOffset))
  := by
  obtain ⟨u, hfind, h⟩ := Option.bind_eq_some_iff.mp h
  split at h
  next hspawned =>
    cases h
    exact ⟨u, hfind, hspawned, rfl⟩
  next => cases h

/-- An object is stored before its writer knows of it. -/
theorem land_cases (h : sys.land seq = some sys') :
  ∃ u object, sys.writer.find seq = some u ∧ u.upload = .putting object ∧
    sys' = { sys with
      store := sys.store.insert (u.bulk.key sys.writer.config) object
      written := true }
  := by
  obtain ⟨u, hfind, h⟩ := Option.bind_eq_some_iff.mp h
  split at h
  next object hputting =>
    cases h
    exact ⟨u, object, hfind, hputting, rfl⟩
  next => cases h

variable {ok : Bool}

/-- A PUT that succeeds stores the object, and one that fails fences the writer. -/
theorem putDone_cases (h : sys.putDone seq ok = some sys') :
  ∃ u object, sys.writer.find seq = some u ∧ u.upload = .putting object ∧
    ((ok = true ∧ sys' = { sys with
        store := sys.store.insert (u.bulk.key sys.writer.config) object
        written := true
        writer := { sys.writer.setUpload seq (.done object true) with
          events := sys.writer.events ++ [.put seq]
          lastRecordOffsetToObject := sys.writer.lastRecordOffsetToObject.insert
            u.bulk.lastRecordOffset (listing (u.bulk.key sys.writer.config, object)) } }) ∨
      (ok = false ∧ sys' = sys.setWriter
        { sys.writer.setUpload seq (.done object false) with fenced := true }))
  := by
  obtain ⟨u, hfind, h⟩ := Option.bind_eq_some_iff.mp h
  split at h
  next object hputting =>
    refine ⟨u, object, hfind, hputting, ?_⟩
    cases ok with
    | true =>
      cases h
      exact .inl ⟨rfl, rfl⟩
    | false =>
      cases h
      exact .inr ⟨rfl, rfl⟩
  next => cases h

/-! ### The callback loop -/

/-- The uploads that are done, up to the first that is not, are taken together. -/
theorem collect_cases (h : w.collect = some w') :
  w.callback = .idle ∧ w' = { w with
    uploading := w.uploading.dropWhile fun u => u.upload.isDone
    callback := .verifying (w.uploading.takeWhile fun u => u.upload.isDone) }
  := by
  unfold Writer.collect at h
  dsimp only at h
  split at h
  next hidle =>
    cases h
    exact ⟨hidle.1, rfl⟩
  next => cases h

/-- A reservation that is not found fences the writer. -/
theorem verify_cases (h : w.verify ok = some w') :
  ∃ bulks, w.callback = .verifying bulks ∧ w' = { w with
    fenced := w.fenced || !ok
    callback := .verified bulks
    events := if ok then w.events ++ [.checked] else w.events }
  := by
  unfold Writer.verify at h
  split at h
  next bulks hcallback =>
    cases h
    exact ⟨bulks, hcallback, rfl⟩
  next => cases h

/-- The state of the fence decides for all bulks that were collected. -/
theorem decide_cases (h : w.decide = some w') :
  ∃ bulks, w.callback = .verified bulks ∧ w' = { w with callback := .completing w.fenced bulks }
  := by
  unfold Writer.decide at h
  split at h
  next bulks hcallback =>
    cases h
    exact ⟨bulks, hcallback, rfl⟩
  next => cases h

/-- The records of a bulk fail, or are acknowledged in the order of their offsets. -/
theorem complete_cases (h : w.complete = some w') :
  (∃ u bulks, w.callback = .completing true (u :: bulks) ∧ w' = { w with
      callback := .completing true bulks
      failed := w.failed ++ u.bulk.sorted }) ∨
    (∃ u bulks, w.callback = .completing false (u :: bulks) ∧ w' = { w with
      callback := .completing false bulks
      flushedOffset := u.bulk.endOffsetAligned
      events := w.events ++ [.acked u.bulk.seq]
      acked := w.acked ++ u.bulk.sorted
      confirms := w.confirms ++ (u.bulk.frames.filter fun f =>
        f.record.streamId ≠ trimRecordSentinel).map fun f => (f.offset, f.record) }) ∨
    ∃ fenced, w.callback = .completing fenced [] ∧ w' = { w with callback := .idle }
  := by
  unfold Writer.complete at h
  split at h
  next u bulks hcallback =>
    cases h
    exact .inl ⟨u, bulks, hcallback, rfl⟩
  next u bulks hcallback =>
    cases h
    exact .inr (.inl ⟨u, bulks, hcallback, rfl⟩)
  next fenced hcallback =>
    cases h
    exact .inr (.inr ⟨fenced, hcallback, rfl⟩)
  next => cases h

/-- The keys of the bulks that completing one acknowledges. -/
def Writer.acknowledges (w : Writer) : List ObjectKey :=
  match w.callback with
  | .completing false (u :: _) => [u.bulk.key w.config]
  | _ => []

/-- What is acknowledged is remembered. -/
theorem sysComplete_cases (h : sys.complete = some sys') :
  ∃ w, sys.writer.complete = some w ∧ sys' = { sys with
    writer := w
    acknowledged := sys.acknowledged ++ sys.writer.acknowledges }
  := by
  obtain ⟨w, hw, h⟩ := Option.bind_eq_some_iff.mp h
  refine ⟨w, hw, ?_⟩
  have hconfig : w.config = sys.writer.config := by
    obtain ⟨u, bulks, -, rfl⟩ | ⟨u, bulks, -, rfl⟩ | ⟨fenced, -, rfl⟩ := complete_cases hw
    · rfl
    · rfl
    · rfl
  split at h
  next u bulks hcallback =>
    cases h
    rw [Writer.acknowledges, hcallback, hconfig]
  next hcallback =>
    cases h
    unfold Writer.acknowledges
    split
    next u bulks hcallback' => exact absurd hcallback' (hcallback u bulks)
    next => simp [Sys.setWriter]

/-! ### Trims -/

/-- A trim only moves forward. -/
theorem trim0_cases {offset : Int} (h : w.trim0 offset = some w') :
  w.trimOffset < offset ∧ w' = { w with
    trimOffset := offset
    trims := w.trims ++ [⟨offset, w.sealed.length, .appending⟩] }
  := by
  unfold Writer.trim0 at h
  split at h
  next hlt =>
    cases h
    exact ⟨hlt.2, rfl⟩
  next => cases h

/-- A reset trims all there is. -/
theorem reset_cases (h : w.reset = some w') :
  w.nextOffset ≠ 0 ∧ w.trim0 (w.nextOffset - 1) = some w'
  := by
  unfold Writer.reset at h
  split at h
  next => cases h
  next hne => exact ⟨hne, h⟩

/-- A trim writes a record of its own and waits for it, or fails. -/
theorem trimAppend_cases {i : Nat} (h : w.trimAppend i ok = some w') :
  ∃ trim, w.trims[i]? = some trim ∧ trim.stage = .appending ∧
    ((∃ w₁, w.submit Writer.fakeRecord = some w₁ ∧
        w' = w₁.setTrim i { trim with stage := .waiting w.nextId }) ∨
      w' = w.setTrim i { trim with stage := .failed })
  := by
  obtain ⟨trim, htrim, h⟩ := Option.bind_eq_some_iff.mp h
  split at h
  next hstage =>
    refine ⟨trim, htrim, hstage, ?_⟩
    split at h
    next =>
      obtain ⟨w₁, hsubmit, h⟩ := Option.bind_eq_some_iff.mp h
      cases h
      exact .inl ⟨w₁, hsubmit, rfl⟩
    next =>
      cases h
      exact .inr rfl
  next => cases h

/-- Once that record is acknowledged, the objects that are covered are to be deleted. -/
theorem trimDelete_cases {i : Nat} (h : w.trimDelete i = some w') :
  ∃ trim id, w.trims[i]? = some trim ∧ trim.stage = .waiting id ∧
    ((id ∈ w.acked.map PendingRecord.id ∧
        ∃ covered previous, covered = w.coveredObjects trim.offset ∧
          previous = w.coveredPrevious trim.offset covered.isEmpty ∧
          w' = { w.setTrim i { trim with stage := .deleting } with
            lastRecordOffsetToObject :=
              covered.foldl (fun objects e => objects.erase e.1) w.lastRecordOffsetToObject
            previousObjects := w.previousObjects.drop previous.length
            deletes := w.deletes ++
              (covered.map Prod.snd ++ previous).map fun o => (trim.offset, o.key) }) ∨
      w' = w.setTrim i { trim with stage := .failed })
  := by
  obtain ⟨trim, htrim, h⟩ := Option.bind_eq_some_iff.mp h
  split at h
  next id hstage =>
    refine ⟨trim, id, htrim, hstage, ?_⟩
    split at h
    next hacked =>
      cases h
      exact .inl ⟨hacked, _, _, rfl, rfl, rfl⟩
    next =>
      split at h
      next =>
        cases h
        exact .inr rfl
      next => cases h
  next => cases h

/-- Only covered objects and overlapped ones are deleted. -/
theorem delete_cases {key : ObjectKey} (h : sys.delete key = some sys') :
  (key ∈ sys.writer.deletes.map Prod.snd ∨ key ∈ sys.writer.overlaps) ∧
    sys' = { sys with store := sys.store.erase key }
  := by
  unfold Sys.delete at h
  split at h
  next hkey =>
    cases h
    exact ⟨hkey, rfl⟩
  next => cases h

end Wal
