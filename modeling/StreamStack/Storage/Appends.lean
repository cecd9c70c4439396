import StreamStack.Storage.Node

/-!
# Appends under way

A stream counts the appends that have not completed. The records of these appends are in the log,
in the hands of the confirm hook or durable and about to be acknowledged, so when the count of a
closed stream is zero there are none, and none will follow.
-/

namespace Storage

open OrdMap List

/-- The records of appends that have been submitted and have not completed. -/
def Sys.outstanding (sys : Sys) : List StreamRecordBatch :=
  sys.wal ++ (sys.hook.record.toList ++ sys.durable)

/-- The closing has seen that no append is pending. -/
def Closing.Drained : Closing → Prop
  | .no | .draining => False
  | .sealing | .submitting | .collecting | .waiting _ | .finishing | .returned _ => True

/-- The counts of pending appends. -/
structure PendingInv (streams : OrdMap Nat S3Stream) (outstanding : List StreamRecordBatch) :
    Prop where
  pending : ∀ (streamId : Nat) (stream : S3Stream), streams[streamId]? = some stream →
    stream.admitted + outstanding.countP (fun r => r.streamId = streamId) ≤ stream.pending
  closed : ∀ (streamId : Nat) (stream : S3Stream), streams[streamId]? = some stream →
    stream.operable = true → stream.closing = .no
  drained : ∀ (streamId : Nat) (stream : S3Stream), streams[streamId]? = some stream →
    stream.closing.Drained → stream.pending = 0

/-- Whatever the hook has or had is confirmed. -/
structure AppendInv (sys : Sys) : Prop where
  streams : PendingInv sys.streams sys.outstanding
  confirmed : ∀ r, sys.hook.record = some r ∨ r ∈ sys.durable ∨ r ∈ sys.acked →
    r ∈ sys.confirmed.map Prod.snd

/-! ### Counts -/

variable {durable : List StreamRecordBatch} {hook : Hook}

section

variable {streams : OrdMap Nat S3Stream} {outstanding outstanding' : List StreamRecordBatch}
  {r : StreamRecordBatch}

theorem PendingInv.perm (h : PendingInv streams outstanding)
    (hperm : outstanding.Perm outstanding') :
  PendingInv streams outstanding'
  := by
  refine { h with pending := ?_ }
  intro streamId stream hstream
  rw [← hperm.countP_eq]
  exact h.pending streamId stream hstream

variable {stream : S3Stream}

/-- A stream may change as long as its counts are right. -/
theorem PendingInv.setStream (h : PendingInv streams outstanding) {streamId : Nat}
    (hcount : stream.admitted + outstanding'.countP (fun r => r.streamId = streamId)
      ≤ stream.pending) (hothers : ∀ k, k ≠ streamId → outstanding'.countP (fun r => r.streamId = k)
      ≤ outstanding.countP (fun r => r.streamId = k))
    (hclosed : stream.operable = true → stream.closing = .no)
    (hdrained : stream.closing.Drained → stream.pending = 0) :
  PendingInv (streams.insert streamId stream) outstanding'
  := by
  constructor
  · intro k found hfound
    rcases lookup_insert_cases hfound with ⟨heq, rfl⟩ | ⟨hne, hfound⟩
    · exact heq ▸ hcount
    · have hold := h.pending k found hfound
      have hother := hothers k fun heq => hne heq.symm
      omega
  · exact forall_insert hclosed h.closed
  · exact forall_insert hdrained h.drained

/-- Nothing of a drained stream is outstanding. -/
theorem PendingInv.not_mem (h : PendingInv streams outstanding) {streamId : Nat}
    (hstream : streams[streamId]? = some stream) (hdrained : stream.closing.Drained)
    (hr : r ∈ outstanding) :
  r.streamId ≠ streamId
  := by
  rintro rfl
  have hcount := h.pending r.streamId stream hstream
  have hzero := h.drained r.streamId stream hstream hdrained
  have hpos : 0 < outstanding.countP fun x => x.streamId = r.streamId :=
    countP_pos_iff.mpr ⟨r, hr, by simp⟩
  omega

/-- The append of an outstanding record completes. -/
theorem PendingInv.completeAppend {sys : Sys} (h : PendingInv sys.streams (r :: outstanding))
    (ok : Bool) :
  PendingInv (sys.completeAppend r.streamId ok).streams outstanding
  := by
  have hcons : ∀ k, outstanding.countP (fun x => x.streamId = k)
      ≤ (r :: outstanding).countP (fun x => x.streamId = k) := by
    intro k
    exact List.Sublist.countP_le (sublist_cons_self r outstanding)
  rcases completeAppend_cases sys r.streamId ok with ⟨-, heq⟩ | ⟨stream, hstream, heq⟩
  · rw [heq]
    refine { h with pending := ?_ }
    intro k found hfound
    have hold := h.pending k found hfound
    have hle := hcons k
    omega
  · rw [heq]
    apply h.setStream
    · have hold := h.pending r.streamId stream hstream
      rw [countP_cons_of_pos (by simp)] at hold
      dsimp only
      omega
    · intro k _
      exact hcons k
    · intro hoperable
      exact h.closed r.streamId stream hstream (Bool.and_eq_true_iff.mp hoperable).1
    · intro hdrained
      have hzero := h.drained r.streamId stream hstream hdrained
      dsimp only
      omega

/-- Submitting an append makes its record outstanding. -/
theorem PendingInv.append (h : PendingInv streams outstanding)
    (hstream : streams[r.streamId]? = some stream) (hadmitted : 0 < stream.admitted)
    (nextOffset : Nat) :
  PendingInv (streams.insert r.streamId { stream with
    nextOffset
    admitted := stream.admitted - 1 }) (r :: outstanding)
  := by
  apply h.setStream
  · have hold := h.pending r.streamId stream hstream
    rw [countP_cons_of_pos (by simp)]
    dsimp only
    omega
  · intro k hne
    rw [countP_cons_of_neg]
    simpa using hne.symm
  · exact h.closed r.streamId stream hstream
  · exact h.drained r.streamId stream hstream

/-- The hook goes on with its record or is done with it. -/
theorem perm_hookMoved {wal durable' : List StreamRecordBatch}
    (hmoved : HookMoved r durable hook durable') :
  (r :: (wal ++ durable)).Perm (wal ++ (hook.record.toList ++ durable'))
  := by
  rcases hmoved with ⟨hrecord, rfl⟩ | ⟨rfl, rfl⟩
  · rw [hrecord]
    exact perm_middle.symm
  · rw [← append_assoc, ← append_assoc]
    exact (perm_append_singleton r _).symm.trans (by simp [Hook.record])

end

/-! ### Steps -/

variable {sys sys' : Sys}

theorem SameAppends.appendInv (hsame : SameAppends sys sys') (h : AppendInv sys) :
  AppendInv sys'
  := by
  constructor
  · rw [Sys.outstanding, hsame.streams, hsame.wal, hsame.hook, hsame.durable]
    exact h.streams
  · rw [hsame.hook, hsame.durable, hsame.acked, hsame.confirmed]
    exact h.confirmed

variable {streamId : Nat}

/-- A stream is new, so no append of it can be outstanding. -/
theorem AppendInv.openStream (h : AppendInv sys) (hnode : NodeInv sys)
    (hstep : sys.openStream streamId = some sys') :
  AppendInv sys'
  := by
  obtain ⟨hrow, rfl⟩ := openStream_cases hstep
  refine { h with streams := ?_ }
  have hzero : sys.outstanding.countP (fun r => r.streamId = streamId) = 0 := by
    rw [countP_eq_zero]
    intro r hr hsame
    have hknown : r ∈ sys.wal ∨ r ∈ sys.confirmed.map Prod.snd := by
      rcases mem_append.mp hr with hr | hr
      · exact .inl hr
      · right
        apply h.confirmed r
        rcases mem_append.mp hr with hr | hr
        · exact .inl (Option.mem_toList.mp hr)
        · exact .inr (.inl hr)
    obtain ⟨stream, hstream, -⟩ := hnode.order.nextOffset r hknown
    obtain ⟨row, hrow'⟩ := hnode.order.hasRow r.streamId stream hstream
    rw [of_decide_eq_true hsame, hrow] at hrow'
    cases hrow'
  apply h.streams.setStream
  · change 0 + sys.outstanding.countP _ ≤ 0
    rw [hzero]
  · intro k _
    exact le_refl _
  · intro _
    rfl
  · intro hdrained
    cases hdrained

theorem AppendInv.startAppend (h : AppendInv sys) (hstep : sys.startAppend streamId = some sys') :
  AppendInv sys'
  := by
  obtain ⟨stream, hstream, hoperable, rfl⟩ := startAppend_cases hstep
  have hno := h.streams.closed streamId stream hstream hoperable
  refine { h with streams := ?_ }
  apply h.streams.setStream
  · have hold := h.streams.pending streamId stream hstream
    change stream.admitted + 1 + sys.outstanding.countP _ ≤ stream.pending + 1
    omega
  · intro k _
    exact le_refl _
  · intro _
    exact hno
  · intro hdrained
    rw [hno] at hdrained
    cases hdrained

theorem AppendInv.append (h : AppendInv sys) {count : Nat} {payload : List UInt8}
    (hstep : sys.append streamId count payload = some sys') :
  AppendInv sys'
  := by
  obtain ⟨stream, hstream, hadmitted, -, rfl⟩ := append_cases hstep
  refine { h with streams := ?_ }
  have hinv := h.streams.append
    (r := ⟨streamId, stream.nextOffset, asI32 count, payload⟩) hstream hadmitted
    (stream.nextOffset + count)
  apply hinv.perm
  simp only [Sys.outstanding, Sys.setStream, append_assoc, singleton_append]
  exact perm_middle.symm

theorem AppendInv.completeAppend {r : StreamRecordBatch}
    (hstreams : PendingInv sys.streams (r :: sys.outstanding))
    (hconfirmed : ∀ x, sys.hook.record = some x ∨ x ∈ sys.durable ∨ x ∈ sys.acked →
      x ∈ sys.confirmed.map Prod.snd) (ok : Bool) :
  AppendInv (sys.completeAppend r.streamId ok)
  := by
  have hinv := hstreams.completeAppend ok
  rcases completeAppend_cases sys r.streamId ok with ⟨-, heq⟩ | ⟨stream, -, heq⟩
  · rw [heq] at hinv ⊢
    exact ⟨hinv, hconfirmed⟩
  · rw [heq] at hinv ⊢
    exact ⟨hinv, hconfirmed⟩

variable {i : Nat}

theorem perm_cons_eraseIdx {l : List StreamRecordBatch} {r : StreamRecordBatch}
    (hr : l[i]? = some r) :
  l.Perm (r :: l.eraseIdx i)
  := by
  obtain ⟨hi, rfl⟩ := List.getElem?_eq_some_iff.mp hr
  exact (getElem_cons_eraseIdx_perm hi).symm

variable (h : AppendInv sys)

include h

theorem AppendInv.walFail (hstep : sys.walFail i = some sys') :
  AppendInv sys'
  := by
  obtain ⟨r, hr, rfl⟩ := walFail_cases hstep
  apply AppendInv.completeAppend
  · apply h.streams.perm
    exact (perm_cons_eraseIdx hr).append_right _
  · exact h.confirmed

theorem AppendInv.ack (hstep : sys.ack i = some sys') :
  AppendInv sys'
  := by
  obtain ⟨r, hr, rfl⟩ := ack_cases hstep
  apply AppendInv.completeAppend
  · apply h.streams.perm
    have hperm := (perm_cons_eraseIdx hr).append_left (sys.wal ++ sys.hook.record.toList)
    simp only [Sys.outstanding, ← append_assoc]
    exact hperm.trans perm_middle
  · intro x hx
    apply h.confirmed x
    rcases hx with hx | hx | hx
    · exact .inl hx
    · exact .inr (.inl (mem_of_mem_eraseIdx hx))
    · rcases mem_cons.mp hx with rfl | hx
      · exact .inr (.inl (mem_of_getElem? hr))
      · exact .inr (.inr hx)

/-- The hook of a state that has taken a record from the log, or goes on with one. -/
theorem AppendInv.hookMoved {r : StreamRecordBatch} {wal : List StreamRecordBatch}
    (confirmed : List (Nat × StreamRecordBatch))
    (hperm : sys.outstanding.Perm (r :: (wal ++ sys.durable)))
    (hmoved : HookMoved r sys.durable hook durable) (hsubset : sys.confirmed ⊆ confirmed)
    (hr : r ∈ confirmed.map Prod.snd) :
  AppendInv { sys with wal, hook, durable, confirmed }
  := by
  constructor
  · exact h.streams.perm (hperm.trans (perm_hookMoved hmoved))
  · have hold : ∀ x, x ∈ sys.durable ∨ x ∈ sys.acked → x ∈ confirmed.map Prod.snd := by
      intro x hx
      exact map_subset Prod.snd hsubset (h.confirmed x (.inr hx))
    intro x hx
    rcases hmoved with ⟨hrecord, rfl⟩ | ⟨rfl, rfl⟩
    · rcases hx with hx | hx
      · cases hrecord.symm.trans hx
        exact hr
      · exact hold x hx
    · rcases hx with hx | hx | hx
      · cases hx
      · rcases mem_append.mp hx with hx | hx
        · exact hold x (.inl hx)
        · rw [mem_singleton.mp hx]
          exact hr
      · exact hold x (.inr hx)

theorem AppendInv.confirm (hstep : sys.confirm = some sys') :
  AppendInv sys'
  := by
  obtain ⟨r, wal, cache, archived, added, hook, durable, hidle, hwal, -, hmoved, rfl⟩ :=
    confirm_cases hstep
  have hperm : sys.outstanding.Perm (r :: (wal ++ sys.durable)) := by
    simp [Sys.outstanding, hidle, hwal, Hook.record]
  have hinv := h.hookMoved ((sys.walNext, r) :: sys.confirmed) hperm hmoved
    (subset_cons_self _ _) mem_cons_self
  exact { hinv with }

/-- The hook goes on with the record it has. -/
theorem AppendInv.hookStep {r : StreamRecordBatch} (hr : sys.hook.record = some r)
    (hmoved : HookMoved r sys.durable hook durable) :
  AppendInv { sys with hook, durable }
  := by
  have hperm : sys.outstanding.Perm (r :: (sys.wal ++ sys.durable)) := by
    rw [Sys.outstanding, hr]
    exact perm_middle
  exact h.hookMoved sys.confirmed hperm hmoved (List.Subset.refl _) (h.confirmed r (.inl hr))

/-- A closing that moves past the wait for pending appends has waited for them. -/
theorem AppendInv.moved {stream : S3Stream} {operable : Bool} {closing : Closing}
    (hmoved : Moved sys streamId stream operable closing sys')
    (hoperable : operable = true → closing = .no) (hdrained : closing.Drained → stream.pending = 0) :
  AppendInv sys'
  := by
  obtain ⟨hstream, rfl⟩ := hmoved
  refine { h with streams := ?_ }
  exact h.streams.setStream (h.streams.pending streamId stream hstream) (fun _ _ => le_refl _)
    hoperable hdrained

theorem AppendInv.completeTask (id : Nat) (ok : Bool) :
  AppendInv (sys.completeTask id ok)
  := (sameAppends_completeTask sys id ok).appendInv h

theorem AppendInv.submitted {owner : Owner} {block : LogCacheBlock} (hdrained : ∀ (streamId : Nat)
      (stream : S3Stream), owner = .close streamId → sys.streams[streamId]? = some stream →
      stream.closing.Drained) :
  AppendInv ((sys.enqueue i block).submitted owner)
  := by
  have henqueue : AppendInv (sys.enqueue i block) := { h with }
  rcases submitted_cases (sys.enqueue i block) owner with
    heq | ⟨streamId, stream, rfl, hstream, heq⟩ | ⟨r, hook, durable, hr, hmoved, heq⟩
  · rw [heq]
    exact henqueue
  · rw [heq]
    have hclosing := hdrained streamId stream rfl hstream
    apply henqueue.moved ⟨hstream, rfl⟩
    · intro hoperable
      have hno := h.streams.closed streamId stream hstream hoperable
      rw [hno] at hclosing
      cases hclosing
    · intro _
      exact h.streams.drained streamId stream hstream hclosing
  · rw [heq]
    exact henqueue.hookStep hr hmoved

/-- Every step keeps the counts. -/
theorem AppendInv.step (hnode : NodeInv sys) (howner : ∀ (streamId : Nat) (b : LogCacheBlock)
      (stream : S3Stream), (Owner.close streamId, b) ∈ sys.unsubmitted → sys.streams[streamId]? =
      some stream → stream.closing.Drained) {a : Action} (hstep : step sys a = some sys') :
  AppendInv sys'
  := by
  -- a closing that goes on was not operable before and has waited for the pending appends
  have hgoes : ∀ {streamId : Nat} {stream : S3Stream} {closing : Closing} {sys₁ : Sys},
      AppendInv sys₁ → Moved sys₁ streamId stream stream.operable closing sys' →
      stream.closing.Drained → AppendInv sys' := by
    intro streamId stream closing sys₁ h₁ hmoved hdrained
    apply h₁.moved hmoved
    · intro hoperable
      rw [h₁.streams.closed streamId stream hmoved.1 hoperable] at hdrained
      cases hdrained
    · intro _
      exact h₁.streams.drained streamId stream hmoved.1 hdrained
  cases a with
  | openStream streamId => exact h.openStream hnode hstep
  | startAppend streamId => exact h.startAppend hstep
  | append streamId count payload => exact h.append hstep
  | walFail i => exact h.walFail hstep
  | confirm => exact h.confirm hstep
  | hookRetry =>
    obtain ⟨r, archived, cache, hook, durable, hretry, -, hmoved, rfl⟩ := hookRetry_cases hstep
    have hr : sys.hook.record = some r := by rw [hretry]; rfl
    exact { h.hookStep hr hmoved with }
  | ack i => exact h.ack hstep
  | upload streamId =>
    obtain ⟨archived, cache, -, rfl⟩ := upload_cases hstep
    exact { h with }
  | submit i =>
    obtain ⟨owner, block, hentry, rfl⟩ := submit_cases hstep
    apply h.submitted
    rintro streamId stream rfl hstream
    exact howner streamId block stream (mem_of_getElem? hentry) hstream
  | prepare ok =>
    obtain ⟨id, queue, -, ⟨-, rfl⟩ | ⟨-, rfl⟩⟩ := prepare_cases hstep
    · exact { h with }
    · apply AppendInv.completeTask
      exact { h with }
  | uploaded id ok =>
    obtain ⟨task, -, rfl⟩ := uploaded_cases hstep
    exact { h with }
  | removeInflight id =>
    obtain ⟨task, -, -, rfl⟩ := removeInflight_cases hstep
    exact { h with }
  | commit reply =>
    obtain ⟨id, queue, task, -, -, -, hcases⟩ := commit_cases hstep
    rcases hcases with ⟨-, rfl⟩ | ⟨-, rows, -, rfl⟩ | ⟨-, rows, -, rfl⟩
    · apply AppendInv.completeTask
      exact { h with }
    · exact { h with }
    · exact { h with }
  | commitDone =>
    obtain ⟨id, ok, task, -, -, ⟨-, rfl⟩ | ⟨-, rfl⟩⟩ := commitDone_cases hstep
    · apply AppendInv.completeTask
      exact { h with }
    · apply AppendInv.completeTask
      exact { h with }
  | trim i =>
    obtain ⟨offset, -, rfl⟩ := trim_cases hstep
    exact { h with }
  | close streamId =>
    obtain ⟨stream, hmoved, -⟩ := close_moved hstep
    exact h.moved hmoved nofun nofun
  | drained streamId =>
    obtain ⟨stream, hmoved, hdraining, hpending⟩ := drained_moved hstep
    apply h.moved hmoved
    · intro hoperable
      rw [h.streams.closed streamId stream hmoved.1 hoperable] at hdraining
      cases hdraining
    · intro _
      exact hpending
  | closeSeal streamId =>
    obtain ⟨stream, archived, cache, hstream, hsealing, -, rfl⟩ := closeSeal_cases hstep
    have harchive : AppendInv (sys.archive (Owner.close streamId) archived cache) := { h with }
    exact hgoes harchive ⟨hstream, rfl⟩ (by rw [hsealing]; trivial)
  | collect streamId =>
    obtain ⟨stream, hmoved, hcollecting⟩ := collect_moved hstep
    exact hgoes h hmoved (by rw [hcollecting]; trivial)
  | awaitTask streamId =>
    obtain ⟨stream, ids, closing, hmoved, hwaiting, -⟩ := awaitTask_moved hstep
    exact hgoes h hmoved (by rw [hwaiting]; trivial)
  | closeStream streamId reply =>
    obtain ⟨rows, ok, stream, -, hmoved, hfinishing⟩ := closeStream_cases hstep
    have hrows : AppendInv { sys with rows } := { h with }
    exact hgoes hrows hmoved (by rw [hfinishing]; trivial)

end Storage
