import StreamStack.Storage.Commit

/-!
# What the steps of a node can do

For each kind of step, the state after it in terms of the state before it. The invariants of the
node are derived from these descriptions, without looking at the steps themselves. Steps that only
concern the streams and the appends under way leave the flow of blocks alone, and the steps of the
upload pipeline leave the appends alone.
-/

namespace Storage

open OrdMap Sys

variable {sys sys' : Sys}

/-- Only the streams and the appends under way may differ. -/
def SameFlow (sys sys' : Sys) : Prop :=
  ∃ streams wal hook durable acked, sys' = { sys with streams, wal, hook, durable, acked }

/-- The streams and the appends are the same. -/
structure SameAppends (sys sys' : Sys) : Prop where
  streams : sys'.streams = sys.streams
  wal : sys'.wal = sys.wal
  hook : sys'.hook = sys.hook
  confirmed : sys'.confirmed = sys.confirmed
  durable : sys'.durable = sys.durable
  acked : sys'.acked = sys.acked

theorem SameFlow.refl (sys : Sys) :
  SameFlow sys sys
  := ⟨sys.streams, sys.wal, sys.hook, sys.durable, sys.acked, rfl⟩

theorem SameFlow.trans {sys'' : Sys} (h : SameFlow sys sys') (h' : SameFlow sys' sys'') :
  SameFlow sys sys''
  := by
  obtain ⟨_, _, _, _, _, rfl⟩ := h
  obtain ⟨_, _, _, _, _, rfl⟩ := h'
  exact ⟨_, _, _, _, _, rfl⟩

theorem sameFlow_setStream (sys : Sys) (streamId : Nat) (stream : S3Stream) :
  SameFlow sys (sys.setStream streamId stream)
  := ⟨_, _, _, _, _, rfl⟩

/-! ### Appends -/

/-- The state after an attempt to seal the active block. -/
def Sys.archive (sys : Sys) (owner : Owner) (archived : Option LogCacheBlock) (cache : LogCache) :
    Sys :=
  { sys with
    cache
    unsubmitted := sys.unsubmitted ++ (archived.map fun b => (owner, b)).toList }

theorem archive_none (sys : Sys) (owner : Owner) (cache : LogCache) :
  sys.archive owner none cache = { sys with cache }
  := by
  simp [archive]

/-- The record that the hook works on. -/
def Hook.record : Hook → Option StreamRecordBatch
  | .idle => none
  | .submitting r _ | .retry r | .resubmitting r => some r

/-- The hook goes on with a record, or is done with it. -/
def HookMoved (r : StreamRecordBatch) (durable : List StreamRecordBatch) (hook : Hook)
    (durable' : List StreamRecordBatch) : Prop :=
  (hook.record = some r ∧ durable' = durable) ∨ (hook = .idle ∧ durable' = durable ++ [r])

/-- The outcome of an append is counted at its stream, if that is still there. -/
theorem completeAppend_cases (sys : Sys) (streamId : Nat) (ok : Bool) :
  (sys.streams[streamId]? = none ∧ sys.completeAppend streamId ok = sys) ∨
    ∃ stream, sys.streams[streamId]? = some stream ∧
      sys.completeAppend streamId ok = sys.setStream streamId { stream with
        pending := stream.pending - 1
        operable := stream.operable && ok }
  := by
  unfold completeAppend
  split
  next hnone => exact .inl ⟨hnone, rfl⟩
  next stream hstream => exact .inr ⟨stream, hstream, rfl⟩

theorem sameFlow_completeAppend (sys : Sys) (streamId : Nat) (ok : Bool) :
  SameFlow sys (sys.completeAppend streamId ok)
  := by
  rcases completeAppend_cases sys streamId ok with ⟨-, h⟩ | ⟨stream, -, h⟩
  · rw [h]
    exact SameFlow.refl sys
  · rw [h]
    exact sameFlow_setStream sys streamId _

variable {streamId : Nat}

/-- A stream is opened once. -/
theorem openStream_cases (hstep : sys.openStream streamId = some sys') :
  sys.rows[streamId]? = none ∧ sys' = { sys with
    rows := sys.rows.insert streamId ⟨0, true⟩
    streams := sys.streams.insert streamId { nextOffset := 0 } }
  := by
  unfold openStream at hstep
  split at hstep
  next => cases hstep
  next hrow =>
    cases hstep
    exact ⟨hrow, rfl⟩

/-- Only an operable stream admits an append. -/
theorem startAppend_cases (hstep : sys.startAppend streamId = some sys') :
  ∃ stream, sys.streams[streamId]? = some stream ∧ stream.operable = true ∧
    sys' = sys.setStream streamId { stream with
      admitted := stream.admitted + 1
      pending := stream.pending + 1 }
  := by
  obtain ⟨stream, hstream, hstep⟩ := Option.bind_eq_some_iff.mp hstep
  split at hstep
  next hoperable =>
    cases hstep
    exact ⟨stream, hstream, hoperable, rfl⟩
  next => cases hstep

/-- An append takes the next offsets and goes to the log. -/
theorem append_cases {count : Nat} {payload : List UInt8}
    (hstep : sys.append streamId count payload = some sys') :
  ∃ stream, sys.streams[streamId]? = some stream ∧ 0 < stream.admitted ∧ count < 4294967296 ∧
    sys' = setStream
      { sys with wal := sys.wal ++ [⟨streamId, stream.nextOffset, asI32 count, payload⟩] } streamId
      { stream with
        nextOffset := stream.nextOffset + count
        admitted := stream.admitted - 1 }
  := by
  obtain ⟨stream, hstream, hstep⟩ := Option.bind_eq_some_iff.mp hstep
  split at hstep
  next hcount =>
    cases hstep
    exact ⟨stream, hstream, hcount.1, hcount.2, rfl⟩
  next => cases hstep

variable {i : Nat}

theorem walFail_cases (hstep : sys.walFail i = some sys') :
  ∃ r, sys.wal[i]? = some r ∧
    sys' = completeAppend { sys with wal := sys.wal.eraseIdx i } r.streamId false
  := by
  obtain ⟨r, hr, hstep⟩ := Option.bind_eq_some_iff.mp hstep
  cases hstep
  exact ⟨r, hr, rfl⟩

/-- A caller hears of its record after it is durable. -/
theorem ack_cases (hstep : sys.ack i = some sys') :
  ∃ r, sys.durable[i]? = some r ∧ sys' = completeAppend { sys with
    durable := sys.durable.eraseIdx i
    acked := r :: sys.acked } r.streamId true
  := by
  obtain ⟨r, hr, hstep⟩ := Option.bind_eq_some_iff.mp hstep
  cases hstep
  exact ⟨r, hr, rfl⟩

/-- The next record of the log is put into the cache and is the record of the hook, or the hook is
done with it at once. -/
theorem confirm_cases (hstep : sys.confirm = some sys') :
  ∃ r wal cache archived added hook durable, sys.hook = .idle ∧ sys.wal = r :: wal ∧
    putConfirmed sys.cache r sys.walNext = (cache, archived, added) ∧
    HookMoved r sys.durable hook durable ∧
    sys' = { sys.archive Owner.hook archived cache with
      wal
      walNext := sys.walNext + 1
      confirmed := (sys.walNext, r) :: sys.confirmed
      hook
      durable }
  := by
  unfold confirm at hstep
  split at hstep
  next r wal hidle hwal =>
    rcases hput : putConfirmed sys.cache r sys.walNext with ⟨cache, archived, added⟩
    simp only [hput] at hstep
    refine ⟨r, wal, cache, archived, added, ?_⟩
    cases archived with
    | some block =>
      cases hstep
      exact ⟨.submitting r added, sys.durable, hidle, hwal, hput, .inl ⟨rfl, rfl⟩, rfl⟩
    | none =>
      simp only [archive_none]
      cases added with
      | true =>
        cases hstep
        exact ⟨.idle, sys.durable ++ [r], hidle, hwal, hput, .inr ⟨rfl, rfl⟩, rfl⟩
      | false =>
        cases hstep
        exact ⟨.retry r, sys.durable, hidle, hwal, hput, .inl ⟨rfl, rfl⟩, rfl⟩
  next => cases hstep

/-! ### Sealing and submitting -/

/-- A record the cache refused is put again after the block is archived. -/
theorem hookRetry_cases (hstep : sys.hookRetry = some sys') :
  ∃ r archived cache hook durable, sys.hook = .retry r ∧
    sys.cache.archiveCurrentBlockIfContains matchAllStreams = (archived, cache) ∧
    HookMoved r sys.durable hook durable ∧
    sys' = { sys.archive Owner.hook archived cache with hook, durable }
  := by
  unfold hookRetry at hstep
  split at hstep
  next r hretry =>
    split at hstep
    next block cache harchive =>
      cases hstep
      exact ⟨r, some block, cache, .resubmitting r, sys.durable, hretry, harchive,
        .inl ⟨rfl, rfl⟩, rfl⟩
    next cache harchive =>
      cases hstep
      refine ⟨r, none, cache, .idle, sys.durable ++ [r], hretry, harchive,
        .inr ⟨rfl, rfl⟩, ?_⟩
      rw [archive_none]
      rfl
  next => cases hstep

theorem upload_cases (hstep : sys.upload streamId = some sys') :
  ∃ archived cache, sys.cache.archiveCurrentBlockIfContains streamId = (archived, cache) ∧
    sys' = sys.archive Owner.upload archived cache
  := by
  unfold Sys.upload at hstep
  split at hstep
  next block cache harchive =>
    cases hstep
    exact ⟨some block, cache, harchive, rfl⟩
  next cache harchive =>
    cases hstep
    exact ⟨none, cache, harchive, (archive_none sys _ cache).symm⟩

/-- A closing that has sealed the active block goes on to submit it, or to collect the tasks when
there was nothing to seal. -/
theorem closeSeal_cases (hstep : sys.closeSeal streamId = some sys') :
  ∃ stream archived cache, sys.streams[streamId]? = some stream ∧ stream.closing = .sealing ∧
    sys.cache.archiveCurrentBlockIfContains streamId = (archived, cache) ∧
    sys' = (sys.archive (Owner.close streamId) archived cache).setStream streamId
      { stream with closing := if archived.isSome then .submitting else .collecting }
  := by
  obtain ⟨stream, hstream, hstep⟩ := Option.bind_eq_some_iff.mp hstep
  split at hstep
  next hsealing =>
    split at hstep
    next block cache harchive =>
      cases hstep
      exact ⟨stream, some block, cache, hstream, hsealing, harchive, rfl⟩
    next cache harchive =>
      cases hstep
      refine ⟨stream, none, cache, hstream, hsealing, harchive, ?_⟩
      rw [archive_none]
      rfl
  next => cases hstep

/-- A sealed block becomes a task. -/
def Sys.enqueue (sys : Sys) (i : Nat) (block : LogCacheBlock) : Sys :=
  { sys with
    unsubmitted := sys.unsubmitted.eraseIdx i
    tasks := sys.tasks.insert block.blockId { block }
    inflight := sys.inflight ++ [block.blockId]
    prepareQueue := sys.prepareQueue ++ [block.blockId] }

/-- An archived block becomes an upload task. -/
theorem submit_cases (hstep : sys.submit i = some sys') :
  ∃ owner block, sys.unsubmitted[i]? = some (owner, block) ∧
    sys' = (sys.enqueue i block).submitted owner
  := by
  obtain ⟨⟨owner, block⟩, hentry, hstep⟩ := Option.bind_eq_some_iff.mp hstep
  cases hstep
  exact ⟨owner, block, hentry, rfl⟩

/-- Whoever has submitted a block goes on: nothing happens, a closing collects the tasks, or the
hook moves on. -/
theorem submitted_cases (sys : Sys) (owner : Owner) :
  sys.submitted owner = sys ∨
    (∃ streamId stream, owner = .close streamId ∧ sys.streams[streamId]? = some stream ∧
      sys.submitted owner = sys.setStream streamId { stream with closing := .collecting }) ∨
    ∃ r hook durable, sys.hook.record = some r ∧ HookMoved r sys.durable hook durable ∧
      sys.submitted owner = { sys with hook, durable }
  := by
  cases owner with
  | upload => exact .inl rfl
  | close streamId =>
    simp only [submitted]
    split
    next stream hstream => exact .inr (.inl ⟨streamId, stream, rfl, hstream, rfl⟩)
    next => exact .inl rfl
  | hook =>
    simp only [submitted]
    split
    next r hhook =>
      exact .inr (.inr ⟨r, .idle, _, by rw [hhook]; rfl, .inr ⟨rfl, rfl⟩, rfl⟩)
    next r hhook =>
      exact .inr (.inr ⟨r, .retry r, _, by rw [hhook]; rfl, .inl ⟨rfl, rfl⟩, rfl⟩)
    next r hhook =>
      exact .inr (.inr ⟨r, .idle, _, by rw [hhook]; rfl, .inr ⟨rfl, rfl⟩, rfl⟩)
    next => exact .inl rfl

theorem sameFlow_submitted (sys : Sys) (owner : Owner) :
  SameFlow sys (sys.submitted owner)
  := by
  rcases submitted_cases sys owner with h | ⟨_, _, -, -, h⟩ | ⟨_, _, _, -, -, h⟩
  · rw [h]
    exact SameFlow.refl sys
  · rw [h]
    exact ⟨_, _, _, _, _, rfl⟩
  · rw [h]
    exact ⟨_, _, _, _, _, rfl⟩

/-! ### Tasks -/

variable {id : Nat}

theorem completeTask_of_lookup {task : TaskContext} (htask : sys.tasks[id]? = some task)
    (ok : Bool) :
  sys.completeTask id ok = { sys with tasks := sys.tasks.insert id { task with cf := some ok } }
  := by
  rw [completeTask, htask]

theorem sameAppends_completeTask (sys : Sys) (id : Nat) (ok : Bool) :
  SameAppends sys (sys.completeTask id ok)
  := by
  unfold completeTask
  split
  next => exact ⟨rfl, rfl, rfl, rfl, rfl, rfl⟩
  next => exact ⟨rfl, rfl, rfl, rfl, rfl, rfl⟩

theorem unsubmitted_completeTask (sys : Sys) (id : Nat) (ok : Bool) :
  (sys.completeTask id ok).unsubmitted = sys.unsubmitted
  := by
  unfold completeTask
  split <;> rfl

/-- A task stops being in flight when it has its outcome. -/
theorem removeInflight_cases (hstep : sys.removeInflight id = some sys') :
  ∃ task, sys.tasks[id]? = some task ∧ task.cf.isSome ∧
    sys' = { sys with inflight := sys.inflight.filter fun t => t ≠ id }
  := by
  obtain ⟨task, htask, hstep⟩ := Option.bind_eq_some_iff.mp hstep
  split at hstep
  next hcf =>
    cases hstep
    exact ⟨task, htask, hcf, rfl⟩
  next => cases hstep

/-- The first task of the queue gets its object ids, or fails. -/
theorem prepare_cases {ok : Bool} (hstep : sys.prepare ok = some sys') :
  ∃ id queue, sys.prepareQueue = id :: queue ∧
    ((ok = true ∧ sys' = { sys with
        prepareQueue := queue
        commitQueue := sys.commitQueue ++ [id] }) ∨
      (ok = false ∧ sys' = completeTask { sys with prepareQueue := queue } id false))
  := by
  unfold prepare at hstep
  split at hstep
  next => cases hstep
  next id queue hqueue =>
    refine ⟨id, queue, hqueue, ?_⟩
    cases ok with
    | true =>
      cases hstep
      exact .inl ⟨rfl, rfl⟩
    | false =>
      cases hstep
      exact .inr ⟨rfl, rfl⟩

theorem uploaded_cases {ok : Bool} (hstep : sys.uploaded id ok = some sys') :
  ∃ task, sys.tasks[id]? = some task ∧
    sys' = { sys with tasks := sys.tasks.insert id { task with uploadDone := some ok } }
  := by
  obtain ⟨task, htask, hstep⟩ := Option.bind_eq_some_iff.mp hstep
  split at hstep
  next =>
    cases hstep
    exact ⟨task, htask, rfl⟩
  next => cases hstep

/-- What the commit worker does with the first task: give it up, fail with or without an effect, or
succeed. -/
theorem commit_cases {reply : Reply} (hstep : sys.commit reply = some sys') :
  ∃ id queue task, sys.commitWorker = .idle ∧ sys.commitQueue = id :: queue ∧
    sys.tasks[id]? = some task ∧
    ((sys.poisoned = true ∧ sys' = completeTask { sys with commitQueue := queue } id false) ∨
      (sys.poisoned = false ∧ ∃ rows,
        (rows = sys.rows ∨ commitStreamSetObject sys.rows task.block = some rows) ∧
        sys' = { sys with commitQueue := queue, rows, commitWorker := .returned id false }) ∨
      (sys.poisoned = false ∧ ∃ rows, commitStreamSetObject sys.rows task.block = some rows ∧
        sys' = { sys with commitQueue := queue, rows, commitWorker := .returned id true }))
  := by
  unfold commit at hstep
  split at hstep
  next id queue hidle hcommit =>
    obtain ⟨task, htask, hstep⟩ := Option.bind_eq_some_iff.mp hstep
    refine ⟨id, queue, task, hidle, hcommit, htask, ?_⟩
    dsimp only at hstep
    split at hstep
    next hpoisoned =>
      cases hstep
      exact .inl ⟨hpoisoned, rfl⟩
    next hpoisoned =>
      obtain ⟨uploaded, -, hstep⟩ := Option.bind_eq_some_iff.mp hstep
      have hpoisoned : sys.poisoned = false := Bool.eq_false_iff.mpr hpoisoned
      right
      split at hstep
      next =>
        cases hrows : commitStreamSetObject sys.rows task.block with
        | none =>
          simp only [hrows] at hstep
          cases hstep
          exact .inl ⟨hpoisoned, sys.rows, .inl rfl, rfl⟩
        | some rows =>
          simp only [hrows] at hstep
          cases reply with
          | answered =>
            cases hstep
            exact .inr ⟨hpoisoned, rows, rfl, rfl⟩
          | failed =>
            cases hstep
            exact .inl ⟨hpoisoned, sys.rows, .inl rfl, rfl⟩
          | lost =>
            cases hstep
            exact .inl ⟨hpoisoned, rows, .inr rfl, rfl⟩
      next =>
        cases hstep
        exact .inl ⟨hpoisoned, sys.rows, .inl rfl, rfl⟩
  next => cases hstep

/-- A commit that has succeeded is followed by a trim and frees the block. -/
theorem commitDone_cases (hstep : sys.commitDone = some sys') :
  ∃ id ok task, sys.commitWorker = .returned id ok ∧ sys.tasks[id]? = some task ∧
    ((ok = true ∧ sys' = completeTask { sys with
        commitWorker := .idle
        trims := sys.trims ++ task.block.lastRecordOffset.toList
        cache := sys.cache.markFree id } id true) ∨
      (ok = false ∧ sys' = completeTask { sys with
        commitWorker := .idle
        poisoned := true } id false))
  := by
  unfold commitDone at hstep
  split at hstep
  next => cases hstep
  next id ok hworker =>
    obtain ⟨task, htask, hstep⟩ := Option.bind_eq_some_iff.mp hstep
    refine ⟨id, ok, task, hworker, htask, ?_⟩
    cases ok with
    | true =>
      cases hstep
      exact .inl ⟨rfl, rfl⟩
    | false =>
      cases hstep
      exact .inr ⟨rfl, rfl⟩

theorem trim_cases (hstep : sys.trim i = some sys') :
  ∃ offset, sys.trims[i]? = some offset ∧ sys' = { sys with
    trims := sys.trims.eraseIdx i
    trimmed := offset :: sys.trimmed }
  := by
  obtain ⟨offset, hoffset, hstep⟩ := Option.bind_eq_some_iff.mp hstep
  cases hstep
  exact ⟨offset, hoffset, rfl⟩

/-! ### Closing a stream -/

/-- A step of a closing that changes how far it got and whether the stream takes appends. -/
def Moved (sys : Sys) (streamId : Nat) (stream : S3Stream) (operable : Bool) (closing : Closing)
    (sys' : Sys) : Prop :=
  sys.streams[streamId]? = some stream ∧
    sys' = sys.setStream streamId { stream with operable, closing }

/-- A close first stops the appends. -/
theorem close_moved (hstep : sys.close streamId = some sys') :
  ∃ stream, Moved sys streamId stream false .draining sys' ∧ stream.closing = .no
  := by
  obtain ⟨stream, hstream, hstep⟩ := Option.bind_eq_some_iff.mp hstep
  split at hstep
  next hno =>
    cases hstep
    exact ⟨stream, ⟨hstream, rfl⟩, hno⟩
  next => cases hstep

/-- It then waits for the appends that were admitted. -/
theorem drained_moved (hstep : sys.drained streamId = some sys') :
  ∃ stream, Moved sys streamId stream stream.operable .sealing sys' ∧
    stream.closing = .draining ∧ stream.pending = 0
  := by
  obtain ⟨stream, hstream, hstep⟩ := Option.bind_eq_some_iff.mp hstep
  split at hstep
  next hdraining =>
    cases hstep
    exact ⟨stream, ⟨hstream, rfl⟩, hdraining⟩
  next => cases hstep

/-- It waits for the tasks that may hold records of the stream. -/
theorem collect_moved (hstep : sys.collect streamId = some sys') :
  ∃ stream, Moved sys streamId stream stream.operable (.waiting (sys.waits streamId)) sys' ∧
    stream.closing = .collecting
  := by
  obtain ⟨stream, hstream, hstep⟩ := Option.bind_eq_some_iff.mp hstep
  split at hstep
  next hcollecting =>
    cases hstep
    exact ⟨stream, ⟨hstream, rfl⟩, hcollecting⟩
  next => cases hstep

/-- A closing that waits is over, goes on after a task that succeeded, or fails with a task. -/
theorem awaitTask_moved (hstep : sys.awaitTask streamId = some sys') :
  ∃ stream ids closing, Moved sys streamId stream stream.operable closing sys' ∧
    stream.closing = .waiting ids ∧
    ((ids = [] ∧ closing = .finishing) ∨
      (∃ id rest task, ids = id :: rest ∧ sys.tasks[id]? = some task ∧ task.cf = some true ∧
        closing = .waiting rest) ∨
      closing = .returned false)
  := by
  obtain ⟨stream, hstream, hstep⟩ := Option.bind_eq_some_iff.mp hstep
  split at hstep
  next hwaiting =>
    cases hstep
    exact ⟨stream, [], .finishing, ⟨hstream, rfl⟩, hwaiting, .inl ⟨rfl, rfl⟩⟩
  next id rest hwaiting =>
    split at hstep
    next hcf =>
      cases hstep
      obtain ⟨task, htask, hcf⟩ := Option.bind_eq_some_iff.mp hcf
      exact ⟨stream, id :: rest, .waiting rest, ⟨hstream, rfl⟩, hwaiting,
        .inr (.inl ⟨id, rest, task, rfl, htask, hcf, rfl⟩)⟩
    next =>
      cases hstep
      exact ⟨stream, id :: rest, .returned false, ⟨hstream, rfl⟩, hwaiting,
        .inr (.inr rfl)⟩
    next => cases hstep
  next => cases hstep

/-- The end offset of a stream stays when its row is closed. -/
theorem closeRow_eq (sys : Sys) (streamId : Nat) :
  ∃ rows, RowsLe sys.rows rows ∧ sys.closeRow streamId = { sys with rows }
  := by
  unfold closeRow
  split
  next row hrow =>
    refine ⟨_, ?_, rfl⟩
    apply rowsLe_insert
    intro row' hrow'
    cases hrow.symm.trans hrow'
    exact le_refl _
  next => exact ⟨sys.rows, RowsLe.refl _, rfl⟩

/-- A closing returns after it has asked to close the row, which may or may not have happened. -/
theorem closeStream_cases {reply : Reply} (hstep : sys.closeStream streamId reply = some sys') :
  ∃ rows ok stream, RowsLe sys.rows rows ∧
    Moved { sys with rows } streamId stream stream.operable (.returned ok) sys' ∧
    stream.closing = .finishing
  := by
  obtain ⟨stream, hstream, hstep⟩ := Option.bind_eq_some_iff.mp hstep
  obtain ⟨rows, hle, hrow⟩ := closeRow_eq sys streamId
  split at hstep
  next hfinishing =>
    cases reply with
    | answered =>
      cases hstep
      rw [hrow]
      exact ⟨rows, true, stream, hle, ⟨hstream, rfl⟩, hfinishing⟩
    | failed =>
      cases hstep
      exact ⟨sys.rows, false, stream, RowsLe.refl _, ⟨hstream, rfl⟩, hfinishing⟩
    | lost =>
      cases hstep
      rw [hrow]
      exact ⟨rows, false, stream, hle, ⟨hstream, rfl⟩, hfinishing⟩
  next => cases hstep

end Storage
