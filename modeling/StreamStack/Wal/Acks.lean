import StreamStack.Lib.Run
import StreamStack.Wal.Windows

/-!
# What the log acknowledges

The bulks that were sealed and not completed are in the hands of the callback loop, are uploading or
wait, in the order in which they were sealed. The loop completes them in that order. It acknowledges
a bulk only after the uploads of all bulks in its hands have returned without an error and the
reservation check has succeeded after that, and once it has failed a bulk it fails all that follow,
because the writer stays fenced.
-/

namespace Wal

open Spans Run List

/-! ### The queue -/

/-- The bulks in the hands of the callback loop. -/
def Callback.bulks : Callback → List UploadingBulk
  | .idle => []
  | .verifying bulks | .verified bulks | .completing _ bulks => bulks

/-- The bulks that have an upload task. -/
def Writer.uploads (w : Writer) : List UploadingBulk := w.callback.bulks ++ w.uploading

/-- The bulks that were sealed and are not completed. -/
def Writer.pending (w : Writer) : List Bulk := w.uploads.map UploadingBulk.bulk ++ w.waiting

/-- The upload of a bulk has returned without an error, and a reservation check has succeeded after
that. -/
def Checked (events : List Event) (seq : Nat) : Prop :=
  ∃ before after, events = before ++ .put seq :: after ∧ Event.checked ∈ after

/-- The records of a bulk that are passed to the confirm callback. -/
def Bulk.confirms (b : Bulk) : List (Nat × StreamRecordBatch) :=
  (b.frames.filter fun f => f.record.streamId ≠ trimRecordSentinel).map fun f => (f.offset, f.record)

/-- The first bulks, of which there are `n`, are acknowledged. -/
structure AckInv (n : Nat) (w : Writer) : Prop where
  queue : ∃ completed, w.sealed = completed ++ w.pending ∧ n ≤ completed.length ∧
    (n = completed.length ∨ w.fenced = true ∧ ∀ bulks, w.callback ≠ .completing false bulks)
  returned : ∀ u ∈ w.callback.bulks, ∃ object ok, u.upload = .done object ok
  failed : ∀ u ∈ w.uploads, ∀ object, u.upload = .done object false → w.fenced = true
  put : ∀ u ∈ w.uploads, ∀ object, u.upload = .done object true → Event.put u.bulk.seq ∈ w.events
  verified : ∀ bulks, w.callback = .verified bulks → w.fenced = false →
    ∀ u ∈ bulks, Checked w.events u.bulk.seq
  completing : ∀ bulks, w.callback = .completing false bulks →
    ∀ u ∈ bulks, Checked w.events u.bulk.seq
  failing : ∀ bulks, w.callback = .completing true bulks → w.fenced = true
  checked : ∀ b ∈ w.sealed.take n, Checked w.events b.seq
  acked : w.acked = (w.sealed.take n).flatMap Bulk.sorted
  confirms : w.confirms = (w.sealed.take n).flatMap Bulk.confirms

variable {seq : Nat} {events : List Event}

theorem Checked.append (h : Checked events seq) (events' : List Event) :
  Checked (events ++ events') seq
  := by
  obtain ⟨before, after, rfl, hafter⟩ := h
  exact ⟨before, after ++ events', by simp, mem_append_left _ hafter⟩

theorem checked_of_put (h : Event.put seq ∈ events) :
  Checked (events ++ [.checked]) seq
  := by
  obtain ⟨before, after, rfl⟩ := append_of_mem h
  exact ⟨before, after ++ [.checked], by simp, mem_append_right _ (mem_singleton_self _)⟩

variable {ok : Bool}

section

variable {w w' : Writer} {n : Nat} {record : StreamRecordBatch}

/-! ### Steps -/

/-- A bulk is appended to the queue. -/
theorem AckInv.enqueue (h : AckInv n w) (bulk : Bulk) (active : Option Bulk) (nextOffset : Nat) :
  AckInv n { w with
    active
    nextOffset
    waiting := w.waiting ++ [bulk]
    sealed := w.sealed ++ [bulk] }
  := by
  obtain ⟨completed, hsealed, hle, hlast⟩ := h.queue
  have htake : (w.sealed ++ [bulk]).take n = w.sealed.take n := by
    apply take_append_of_le_length
    rw [hsealed, length_append]
    omega
  refine { h with queue := ⟨completed, ?_, hle, hlast⟩, checked := ?_, acked := ?_, confirms := ?_ }
  · rw [hsealed, append_assoc]
    simp [Writer.pending, Writer.uploads]
  · rw [htake]
    exact h.checked
  · rw [htake]
    exact h.acked
  · rw [htake]
    exact h.confirms

theorem AckInv.sealActive (h : AckInv n w) (hseal : w.sealActive = some w') :
  AckInv n w'
  := by
  obtain ⟨-, rfl⟩ | ⟨bulk, -, -, rfl⟩ := sealActive_cases hseal
  · exact h
  · exact h.enqueue bulk none _

theorem AckInv.submit (h : AckInv n w) (hsubmit : w.submit record = some w') :
  AckInv n w'
  := by
  apply submit_induction (I := AckInv n) _ _ _ h hsubmit
  · exact fun w w' h hseal => h.sealActive hseal
  · exact fun w b h _ _ => { h with }
  · exact fun w h _ _ => { h with }

theorem AckInv.upload (h : AckInv n w) (hstep : w.upload = some w') :
  AckInv n w'
  := by
  obtain ⟨bulk, waiting, hwaiting, rfl⟩ := upload_cases hstep
  obtain ⟨completed, hsealed, hlast⟩ := h.queue
  have hmem : ∀ u ∈ Writer.uploads { w with
      waiting
      uploading := w.uploading ++ [{ bulk }] }, u ∈ w.uploads ∨ u = { bulk } := by
    intro u hu
    rw [Writer.uploads, ← append_assoc] at hu
    rcases mem_append.mp hu with hu | hu
    · exact .inl hu
    · exact .inr (mem_singleton.mp hu)
  refine { h with queue := ⟨completed, ?_, hlast⟩, failed := ?_, put := ?_ }
  · rw [hsealed]
    simp [Writer.pending, Writer.uploads, hwaiting]
  · intro u hu object hupload
    rcases hmem u hu with hu | rfl
    · exact h.failed u hu object hupload
    · cases hupload
  · intro u hu object hupload
    rcases hmem u hu with hu | rfl
    · exact h.put u hu object hupload
    · cases hupload

theorem mem_setUpload {upload : Upload} {u : UploadingBulk}
    (hu : u ∈ (w.setUpload seq upload).uploads) :
  u ∈ w.uploads ∨ ∃ v ∈ w.uploading, v.bulk.seq = seq ∧ u = { v with upload }
  := by
  rcases mem_append.mp hu with hu | hu
  · exact .inl (mem_append_left _ hu)
  · obtain ⟨v, hv, rfl⟩ := mem_map.mp hu
    split
    next heq => exact .inr ⟨v, hv, heq, rfl⟩
    next => exact .inl (mem_append_right _ hv)

theorem pending_setUpload (w : Writer) (seq : Nat) (upload : Upload) :
  (w.setUpload seq upload).pending = w.pending
  := by
  have hsame : ((fun u : UploadingBulk => u.bulk) ∘
      fun u : UploadingBulk => if u.bulk.seq = seq then { u with upload } else u)
      = fun u => u.bulk := by
    funext u
    simp only [Function.comp_apply]
    split
    next => rfl
    next => rfl
  simp only [Writer.pending, Writer.uploads, Writer.setUpload, map_append, map_map]
  rw [hsame]

section

variable (h : AckInv n w)

include h

/-- An upload task goes on. -/
theorem AckInv.setUpload (seq : Nat) (upload : Upload) {fenced : Bool}
    (hfenced : w.fenced = true → fenced = true)
    (hfailed : ∀ object, upload = .done object false → fenced = true)
    (hput : ∀ object, upload = .done object true → Event.put seq ∈ events) :
  AckInv n { w.setUpload seq upload with
    fenced
    events := w.events ++ events }
  := by
  obtain ⟨completed, hsealed, hle, hlast⟩ := h.queue
  refine ⟨⟨completed, ?_, hle, ?_⟩, h.returned, ?_, ?_, ?_, ?_, ?_, ?_, h.acked, h.confirms⟩
  · rw [← pending_setUpload w seq upload] at hsealed
    exact hsealed
  · rcases hlast with hn | ⟨hw, hcallback⟩
    · exact .inl hn
    · exact .inr ⟨hfenced hw, hcallback⟩
  · intro u hu object hupload
    have hmem : u ∈ (w.setUpload seq upload).uploads := hu
    rcases mem_setUpload hmem with hu | ⟨v, -, -, rfl⟩
    · exact hfenced (h.failed u hu object hupload)
    · exact hfailed object hupload
  · intro u hu object hupload
    have hmem : u ∈ (w.setUpload seq upload).uploads := hu
    rcases mem_setUpload hmem with hu | ⟨v, -, rfl, rfl⟩
    · exact mem_append_left _ (h.put u hu object hupload)
    · exact mem_append_right _ (hput object hupload)
  · intro bulks hcallback hunfenced u hu
    have hw : w.fenced = false := by
      rw [← Bool.not_eq_true]
      intro htrue
      rw [hfenced htrue] at hunfenced
      cases hunfenced
    exact (h.verified bulks hcallback hw u hu).append events
  · exact fun bulks hcallback u hu => (h.completing bulks hcallback u hu).append events
  · exact fun bulks hcallback => hfenced (h.failing bulks hcallback)
  · exact fun b hb => (h.checked b hb).append events

theorem AckInv.build (hstep : w.build seq = some w') :
  AckInv n w'
  := by
  obtain ⟨u, -, -, rfl⟩ := build_cases hstep
  have hset : AckInv n { w.setUpload seq (.putting (u.bulk.object w.config w.trimOffset)) with
      fenced := w.fenced
      events := w.events ++ [] } :=
    h.setUpload seq _ (fun hfenced => hfenced) nofun nofun
  rw [append_nil] at hset
  exact hset

theorem AckInv.collect (hstep : w.collect = some w') :
  AckInv n w'
  := by
  obtain ⟨hidle, rfl⟩ := collect_cases hstep
  have huploads : Writer.uploads { w with
      uploading := w.uploading.dropWhile fun u => u.upload.isDone
      callback := .verifying (w.uploading.takeWhile fun u => u.upload.isDone) }
      = w.uploads := by
    simp [Writer.uploads, Callback.bulks, hidle, takeWhile_append_dropWhile]
  have hpending : Writer.pending { w with
      uploading := w.uploading.dropWhile fun u => u.upload.isDone
      callback := .verifying (w.uploading.takeWhile fun u => u.upload.isDone) }
      = w.pending := by
    rw [Writer.pending, huploads]
    rfl
  obtain ⟨completed, hsealed, hle, hlast⟩ := h.queue
  refine ⟨⟨completed, ?_, hle, ?_⟩, ?_, ?_, ?_, nofun, nofun, nofun, h.checked, h.acked,
    h.confirms⟩
  · rw [hpending]
    exact hsealed
  · exact hlast.imp_right fun hfenced => ⟨hfenced.1, nofun⟩
  · intro u hu
    have hdone := mem_takeWhile_imp hu
    cases hupload : u.upload with
    | done object ok => exact ⟨object, ok, rfl⟩
    | spawned =>
      rw [hupload] at hdone
      cases hdone
    | putting object =>
      rw [hupload] at hdone
      cases hdone
  · rw [huploads]
    exact h.failed
  · rw [huploads]
    exact h.put

theorem AckInv.verify (hstep : w.verify ok = some w') :
  AckInv n w'
  := by
  obtain ⟨bulks, hcallback, rfl⟩ := verify_cases hstep
  obtain ⟨completed, hsealed, hle, hlast⟩ := h.queue
  have huploads : bulks ++ w.uploading = w.uploads := by
    rw [Writer.uploads, hcallback]
    rfl
  have hmono {seq : Nat} (hseq : Checked w.events seq) :
      Checked (if ok then w.events ++ [.checked] else w.events) seq := by
    split
    next => exact hseq.append _
    next => exact hseq
  refine ⟨⟨completed, ?_, hle, ?_⟩, ?_, ?_, ?_, ?_, nofun, nofun, ?_, h.acked,
    h.confirms⟩
  · rw [Writer.pending, ← huploads] at hsealed
    exact hsealed
  · rcases hlast with hn | ⟨hw, -⟩
    · exact .inl hn
    · refine .inr ⟨?_, nofun⟩
      simp [hw]
  · have hreturned := h.returned
    rw [hcallback] at hreturned
    exact hreturned
  · intro u hu object hupload
    rw [h.failed u (huploads ▸ hu) object hupload]
    rfl
  · intro u hu object hupload
    have hput := h.put u (huploads ▸ hu) object hupload
    change Event.put u.bulk.seq ∈ if ok = true then w.events ++ [.checked] else w.events
    split
    next => exact mem_append_left _ hput
    next => exact hput
  · -- the check succeeds after all the uploads have returned
    intro bulks' hbulks' hunfenced u hu
    cases hbulks'
    obtain ⟨hw, rfl⟩ : w.fenced = false ∧ ok = true := by
      simpa using hunfenced
    have humem : u ∈ w.uploads := by
      rw [← huploads]
      exact mem_append_left _ hu
    obtain ⟨object, uploaded, hupload⟩ := h.returned u (by rw [hcallback]; exact hu)
    cases uploaded with
    | false =>
      have hfenced := h.failed u humem object hupload
      rw [hw] at hfenced
      cases hfenced
    | true => exact checked_of_put (h.put u humem object hupload)
  · exact fun b hb => hmono (h.checked b hb)

theorem AckInv.decide (hstep : w.decide = some w') :
  AckInv n w'
  := by
  obtain ⟨bulks, hcallback, rfl⟩ := decide_cases hstep
  obtain ⟨completed, hsealed, hle, hlast⟩ := h.queue
  have huploads : bulks ++ w.uploading = w.uploads := by
    rw [Writer.uploads, hcallback]
    rfl
  refine ⟨⟨completed, ?_, hle, ?_⟩, ?_, ?_, ?_, nofun, ?_, ?_, h.checked, h.acked, h.confirms⟩
  · rw [Writer.pending, ← huploads] at hsealed
    exact hsealed
  · rcases hlast with hn | ⟨hw, -⟩
    · exact .inl hn
    · refine .inr ⟨hw, ?_⟩
      rw [hw]
      nofun
  · have hreturned := h.returned
    rw [hcallback] at hreturned
    exact hreturned
  · exact fun u hu => h.failed u (huploads ▸ hu)
  · exact fun u hu => h.put u (huploads ▸ hu)
  · intro bulks' hbulks' u hu
    simp only [Callback.completing.injEq] at hbulks'
    obtain ⟨hw, rfl⟩ := hbulks'
    exact h.verified bulks hcallback hw u hu
  · intro bulks' hbulks'
    exact (Callback.completing.inj hbulks').1

end

/-- The number of bulks that are acknowledged after a bulk is completed. -/
def Writer.completedCount (w : Writer) (n : Nat) : Nat :=
  match w.callback with
  | .completing false (_ :: _) => n + 1
  | _ => n

theorem AckInv.complete (h : AckInv n w) (hstep : w.complete = some w') :
  AckInv (w.completedCount n) w'
  := by
  obtain ⟨completed, hsealed, hle, hlast⟩ := h.queue
  -- the first bulk in the hands of the loop is the first that is not completed
  have hfront {fenced : Bool} {u : UploadingBulk} {bulks : List UploadingBulk}
      (hcallback : w.callback = .completing fenced (u :: bulks)) :
      u ∈ w.uploads ∧ bulks ++ w.uploading ⊆ w.uploads ∧
        w.sealed = completed ++ [u.bulk] ++
          ((bulks ++ w.uploading).map UploadingBulk.bulk ++ w.waiting) := by
    rw [hsealed, Writer.pending, Writer.uploads, hcallback]
    refine ⟨mem_cons_self, subset_cons_self _ _, ?_⟩
    simp [Callback.bulks]
  obtain ⟨u, bulks, hcallback, rfl⟩ | ⟨u, bulks, hcallback, rfl⟩ | ⟨fenced, hcallback, rfl⟩ :=
    complete_cases hstep
  · obtain ⟨-, hsub, hsealed'⟩ := hfront hcallback
    have hcount : w.completedCount n = n := by
      rw [Writer.completedCount, hcallback]
    rw [hcount]
    refine ⟨⟨completed ++ [u.bulk], hsealed', ?_, ?_⟩, ?_, ?_, ?_, nofun, nofun, ?_, h.checked,
      h.acked, h.confirms⟩
    · rw [length_append]
      omega
    · exact .inr ⟨h.failing _ hcallback, nofun⟩
    · have hreturned := h.returned
      rw [hcallback] at hreturned
      exact fun v hv => hreturned v (mem_cons_of_mem u hv)
    · exact fun v hv => h.failed v (hsub hv)
    · exact fun v hv => h.put v (hsub hv)
    · exact fun _ _ => h.failing _ hcallback
  · obtain ⟨-, hsub, hsealed'⟩ := hfront hcallback
    have hn : n = completed.length := by
      rcases hlast with hn | ⟨-, hnot⟩
      · exact hn
      · exact absurd hcallback (hnot _)
    have htake : w.sealed.take (n + 1) = w.sealed.take n ++ [u.bulk] := by
      rw [hsealed', hn, append_assoc, take_left, take_length_add_append]
      rfl
    rw [Writer.completedCount, hcallback]
    refine ⟨⟨completed ++ [u.bulk], hsealed', ?_, ?_⟩, ?_, ?_, ?_, nofun, ?_, nofun, ?_, ?_, ?_⟩
    · rw [length_append, hn]
      rfl
    · rw [length_append, hn]
      exact .inl rfl
    · have hreturned := h.returned
      rw [hcallback] at hreturned
      exact fun v hv => hreturned v (mem_cons_of_mem u hv)
    · exact fun v hv => h.failed v (hsub hv)
    · exact fun v hv object hupload => mem_append_left _ (h.put v (hsub hv) object hupload)
    · intro bulks' hbulks' v hv
      cases hbulks'
      exact (h.completing _ hcallback v (mem_cons_of_mem u hv)).append _
    · change ∀ b ∈ w.sealed.take (n + 1), _
      rw [htake]
      intro b hb
      rcases mem_append.mp hb with hb | hb
      · exact (h.checked b hb).append _
      · obtain rfl := mem_singleton.mp hb
        exact (h.completing _ hcallback u mem_cons_self).append _
    · change w.acked ++ u.bulk.sorted = (w.sealed.take (n + 1)).flatMap Bulk.sorted
      rw [htake, h.acked]
      simp
    · change w.confirms ++ u.bulk.confirms = (w.sealed.take (n + 1)).flatMap Bulk.confirms
      rw [htake, h.confirms]
      simp
  · have hcount : w.completedCount n = n := by
      rw [Writer.completedCount, hcallback]
      cases fenced <;> rfl
    rw [hcount]
    have huploads : w.uploading = w.uploads := by
      rw [Writer.uploads, hcallback]
      rfl
    refine ⟨⟨completed, ?_, hle, ?_⟩, nofun, ?_, ?_, nofun, nofun, nofun, h.checked, h.acked,
      h.confirms⟩
    · rw [hsealed, Writer.pending, ← huploads]
      rfl
    · exact hlast.imp_right fun hfenced => ⟨hfenced.1, nofun⟩
    · exact fun v hv => h.failed v (huploads ▸ hv)
    · exact fun v hv => h.put v (huploads ▸ hv)

theorem AckInv.trimAppend (h : AckInv n w) {i : Nat} (hstep : w.trimAppend i ok = some w') :
  AckInv n w'
  := by
  obtain ⟨trim, -, -, ⟨w₁, hsubmit, rfl⟩ | rfl⟩ := trimAppend_cases hstep
  · exact { h.submit hsubmit with }
  · exact { h with }

end

/-! ### Runs -/

section

variable {sys sys' : Sys} {n : Nat}

theorem AckInv.putDone (h : AckInv n sys.writer) (hstep : sys.putDone seq ok = some sys') :
  AckInv n sys'.writer
  := by
  obtain ⟨u, object, -, -, ⟨rfl, rfl⟩ | ⟨rfl, rfl⟩⟩ := putDone_cases hstep
  · have hset : AckInv n { sys.writer.setUpload seq (.done object true) with
        fenced := sys.writer.fenced
        events := sys.writer.events ++ [.put seq] } := by
      apply h.setUpload seq (.done object true) (fun hfenced => hfenced) nofun
      exact fun _ _ => mem_singleton_self _
    exact { hset with }
  · have hset : AckInv n { sys.writer.setUpload seq (.done object false) with
        fenced := true
        events := sys.writer.events ++ [] } :=
      h.setUpload seq _ (fun _ => rfl) (fun _ _ => rfl) nofun
    rw [append_nil] at hset
    exact hset

/-- Every step keeps what is acknowledged a first part of the bulks. -/
theorem AckInv.step (h : AckInv n sys.writer) {a : Action} (hstep : step sys a = some sys') :
  ∃ n', AckInv n' sys'.writer
  := by
  cases a with
  | submit record =>
    obtain ⟨w, hw, rfl⟩ := Option.map_eq_some_iff.mp hstep
    exact ⟨n, h.submit hw⟩
  | flush =>
    obtain ⟨w, hw, rfl⟩ := Option.map_eq_some_iff.mp hstep
    exact ⟨n, h.sealActive hw⟩
  | upload =>
    obtain ⟨w, hw, rfl⟩ := Option.map_eq_some_iff.mp hstep
    exact ⟨n, h.upload hw⟩
  | build seq =>
    obtain ⟨w, hw, rfl⟩ := Option.map_eq_some_iff.mp hstep
    exact ⟨n, h.build hw⟩
  | land seq =>
    obtain ⟨u, object, -, -, rfl⟩ := land_cases hstep
    exact ⟨n, h⟩
  | putDone seq ok => exact ⟨n, h.putDone hstep⟩
  | collect =>
    obtain ⟨w, hw, rfl⟩ := Option.map_eq_some_iff.mp hstep
    exact ⟨n, h.collect hw⟩
  | verify ok =>
    obtain ⟨w, hw, rfl⟩ := Option.map_eq_some_iff.mp hstep
    exact ⟨n, h.verify hw⟩
  | decide =>
    obtain ⟨w, hw, rfl⟩ := Option.map_eq_some_iff.mp hstep
    exact ⟨n, h.decide hw⟩
  | complete =>
    obtain ⟨w, hw, rfl⟩ := sysComplete_cases hstep
    exact ⟨_, h.complete hw⟩
  | trim offset =>
    obtain ⟨w, hw, rfl⟩ := Option.map_eq_some_iff.mp hstep
    obtain ⟨-, rfl⟩ := trim0_cases hw
    exact ⟨n, { h with }⟩
  | reset =>
    obtain ⟨w, hw, rfl⟩ := Option.map_eq_some_iff.mp hstep
    obtain ⟨-, rfl⟩ := trim0_cases (reset_cases hw).2
    exact ⟨n, { h with }⟩
  | trimAppend i ok =>
    obtain ⟨w, hw, rfl⟩ := Option.map_eq_some_iff.mp hstep
    exact ⟨n, h.trimAppend hw⟩
  | trimDelete i =>
    obtain ⟨w, hw, rfl⟩ := Option.map_eq_some_iff.mp hstep
    obtain ⟨trim, id, -, -, ⟨-, covered, previous, -, -, rfl⟩ | rfl⟩ := trimDelete_cases hw
    · exact ⟨n, { h with }⟩
    · exact ⟨n, { h with }⟩
  | delete key =>
    obtain ⟨-, rfl⟩ := delete_cases hstep
    exact ⟨n, h⟩
  | close =>
    cases hstep
    exact ⟨n, { h with }⟩

theorem AckInv.start (config : ObjectWalConfig) (listed : List WalObject) :
  AckInv 0 (.start config listed)
  := by
  unfold Writer.start
  dsimp only
  split
  next => exact ⟨⟨[], rfl, le_refl 0, .inl rfl⟩, nofun, nofun, nofun, nofun, nofun, nofun, nofun,
    rfl, rfl⟩
  next =>
    split
    next => exact ⟨⟨[], rfl, le_refl 0, .inl rfl⟩, nofun, nofun, nofun, nofun, nofun, nofun,
      nofun, rfl, rfl⟩
    next => exact ⟨⟨[], rfl, le_refl 0, .inl rfl⟩, nofun, nofun, nofun, nofun, nofun, nofun,
      nofun, rfl, rfl⟩

end

/-! ### Confirmed records -/

/-- A configuration that seals each record in a bulk of its own. -/
def eachRecordConfig : ObjectWalConfig where
  nodeId := 1
  epoch := 2
  maxBytesInBatch := 0
  maxInflightUploadCount := 10

end Wal
