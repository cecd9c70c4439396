import StreamStack.Storage.Node

/-!
# Trimming the log

After a commit the log is trimmed up to the last record confirmed before the block was sealed. This
covers every record of every earlier block, whatever its stream, so it is safe when the blocks are
committed in the order of sealing and none of them is left out.

Commits follow the order of submission, and a failed commit stops all later ones. Two ways remain
to pass an uncommitted block: a task whose preparation fails is dropped while later ones go on, and
a block that is sealed first may be submitted second.
-/

namespace Storage

open OrdMap Run List

/-! ### Where a confirmed record is -/

/-- Every record confirmed before the block was sealed has a smaller offset. -/
def Below (b : LogCacheBlock) (offset : Nat) : Prop :=
  ∀ last, b.lastRecordOffset = some last → last < offset

/-- Some block holds the record confirmed at an offset, and those before it were sealed
earlier. -/
def Located : List LogCacheBlock → Nat → StreamRecordBatch → Prop
  | [], _, _ => False
  | b :: bs, offset, r => b.Holds r ∨ (Below b offset ∧ Located bs offset r)

variable {r : StreamRecordBatch}

theorem located_append {bs bs' : List LogCacheBlock} {offset : Nat} :
  Located (bs ++ bs') offset r ↔
    Located bs offset r ∨ ((∀ b ∈ bs, Below b offset) ∧ Located bs' offset r)
  := by
  induction bs with
  | nil => simp [Located]
  | cons b bs ih =>
    simp only [cons_append, Located, ih, forall_mem_cons]
    tauto

/-- The blocks on their way to a commit, in order. -/
def Sys.queue (sys : Sys) : List LogCacheBlock :=
  (sys.commitQueue ++ sys.prepareQueue).filterMap
      (fun id => (sys.tasks[id]?).map TaskContext.block) ++
    sys.unsubmitted.map Prod.snd

/-- A commit has failed, so that none will follow. -/
def Sys.Failing (sys : Sys) : Prop :=
  sys.poisoned = true ∨ ∃ id, sys.commitWorker = .returned id false

/-! ### The invariant -/

/-- Trimming at an offset is safe: all records up to it are committed. -/
def TrimSafe (rows : OrdMap Nat Row) (confirmed : List (Nat × StreamRecordBatch))
    (walNext offset : Nat) : Prop :=
  offset < walNext ∧ ∀ e ∈ confirmed, e.1 ≤ offset → Committed rows e.2

/-- While no commit has failed, every confirmed record is committed or in a block behind blocks that
were sealed before it was confirmed. -/
structure TrimInv (sys : Sys) : Prop where
  located : ¬ sys.Failing → ∀ e ∈ sys.confirmed,
    Committed sys.rows e.2 ∨ Located (sys.queue ++ [sys.cache.active]) e.1 e.2
  worker : ∀ id, sys.commitWorker = .returned id true → ∃ task, sys.tasks[id]? = some task ∧
    ∀ o, task.block.lastRecordOffset = some o → TrimSafe sys.rows sys.confirmed sys.walNext o
  trims : ∀ o ∈ sys.trims ++ sys.trimmed, TrimSafe sys.rows sys.confirmed sys.walNext o

variable {sys sys' : Sys}

theorem NodeInv.mem_queue (h : NodeInv sys) {b : LogCacheBlock} (hb : b ∈ sys.queue) :
  QueuedInv sys.walNext b
  := by
  rcases mem_append.mp hb with hb | hb
  · obtain ⟨id, -, hid⟩ := mem_filterMap.mp hb
    obtain ⟨task, htask, rfl⟩ := Option.map_eq_some_iff.mp hid
    exact h.tasks id task htask
  · obtain ⟨e, he, rfl⟩ := mem_map.mp hb
    exact h.queued e he

theorem TrimInv.sameFlow (h : TrimInv sys) (hsame : SameFlow sys sys') :
  TrimInv sys'
  := by
  obtain ⟨streams, wal, hook, durable, acked, rfl⟩ := hsame
  exact { h with }

variable {rows : OrdMap Nat Row}

theorem TrimSafe.setRows {rows' : OrdMap Nat Row} {confirmed : List (Nat × StreamRecordBatch)}
    {walNext o : Nat} (h : TrimSafe rows confirmed walNext o) (hle : RowsLe rows rows') :
  TrimSafe rows' confirmed walNext o
  := by
  refine ⟨h.1, ?_⟩
  intro e he hlast
  exact (h.2 e he hlast).mono hle

/-- End offsets may grow. -/
theorem TrimInv.setRows (h : TrimInv sys) (hle : RowsLe sys.rows rows) :
  TrimInv { sys with rows }
  := by
  constructor
  · intro hfailing e he
    rcases h.located hfailing e he with hcommitted | hlocated
    · exact .inl (hcommitted.mono hle)
    · exact .inr hlocated
  · intro id hid
    obtain ⟨task, htask, hsafe⟩ := h.worker id hid
    exact ⟨task, htask, fun o ho => (hsafe o ho).setRows hle⟩
  · intro o ho
    exact (h.trims o ho).setRows hle

/-! ### Sealing and confirming -/

/-- The last block may be replaced by one that holds the same, and others may follow. -/
theorem Located.last {bs : List LogCacheBlock} {b b' : LogCacheBlock} {offset : Nat}
    (h : Located (bs ++ [b]) offset r) (hholds : b.Holds r → b'.Holds r)
    (rest : List LogCacheBlock) :
  Located (bs ++ b' :: rest) offset r
  := by
  rw [located_append]
  rcases located_append.mp h with h | ⟨hbelow, h⟩
  · exact .inl h
  · rcases h with h | ⟨-, h⟩
    · exact .inr ⟨hbelow, .inl (hholds h)⟩
    · cases h

variable {cache : LogCache}

/-- The cache may change as long as the active block holds what it held. -/
theorem TrimInv.setCache (h : TrimInv sys)
    (hholds : ∀ r, sys.cache.active.Holds r → cache.active.Holds r) :
  TrimInv { sys with cache }
  := by
  refine { h with located := ?_ }
  intro hfailing e he
  exact (h.located hfailing e he).imp_right fun hlocated => hlocated.last (hholds e.2) []

theorem TrimInv.archive (h : TrimInv sys) {streamId : Nat} {archived : Option LogCacheBlock}
    (harchive : sys.cache.archiveCurrentBlockIfContains streamId = (archived, cache))
    (owner : Owner) :
  TrimInv (sys.archive owner archived cache)
  := by
  rcases LogCache.archive_cases harchive with ⟨rfl, rfl, -⟩ | ⟨rfl, -, rfl⟩
  · rw [archive_none]
    exact h
  · refine { h with located := ?_ }
    intro hfailing e he
    refine (h.located hfailing e he).imp_right fun hlocated => ?_
    have hheld : sys.cache.active.Holds e.2 → sys.cache.sealedActive.Holds e.2 := id
    have hseal := hlocated.last hheld [sys.cache.freshBlock]
    simpa [Sys.queue, Sys.archive] using hseal

/-- A new record does not matter for trimming at an earlier offset. -/
theorem TrimSafe.confirm (r : StreamRecordBatch) {o : Nat}
    (h : TrimSafe sys.rows sys.confirmed sys.walNext o) :
  TrimSafe sys.rows ((sys.walNext, r) :: sys.confirmed) (sys.walNext + 1) o
  := by
  refine ⟨Nat.lt_succ_of_lt h.1, ?_⟩
  intro e he hle
  rcases mem_cons.mp he with rfl | he
  · exact absurd hle (Nat.not_le.mpr h.1)
  · exact h.2 e he hle

/-- The last put of a record: it is added, or the active block is stuck. -/
theorem TrimInv.putLast (h : TrimInv sys) (hnode : NodeInv sys) {added : Bool}
    (wal : List StreamRecordBatch) (hput : sys.cache.put r = (cache, added))
    (hadded : added = true ∨ cache.active.Stuck) :
  TrimInv (sys.putLast r wal cache)
  := by
  obtain ⟨hactive, -⟩ := LogCache.put_eq hput
  constructor
  · intro hfailing e he
    rcases mem_cons.mp he with rfl | he
    · right
      apply located_append.mpr
      right
      constructor
      · intro b hb
        exact (hnode.mem_queue hb).last
      · left
        rcases hadded with rfl | hstuck
        · exact LogCacheBlock.holds_of_added hactive
        · exact .inr hstuck
    · exact (h.located hfailing e he).imp_right fun hlocated =>
        hlocated.last (fun hholds => hholds.put hnode.active.valid hactive) []
  · intro id hworker
    obtain ⟨task, htask, hsafe⟩ := h.worker id hworker
    exact ⟨task, htask, fun o ho => (hsafe o ho).confirm r⟩
  · intro o ho
    exact (h.trims o ho).confirm r

theorem TrimInv.confirm (h : TrimInv sys) (hnode : NodeInv sys)
    (hstep : sys.confirm = some sys') :
  TrimInv sys'
  := by
  obtain ⟨r, wal, cache, archived, added, hook, durable, -, -, hput, -, rfl⟩ :=
    confirm_cases hstep
  rcases putConfirmed_cases hput with
    ⟨c₁, hlast, rfl, rfl, rfl⟩ | ⟨c₁, c₂, c₃, hfirst, harchive, hsize, hlast, rfl⟩
  · rw [archive_none]
    exact { h.putLast hnode wal hlast (.inl rfl) with }
  · have hsealed := (hnode.putRefused hfirst).archive harchive Owner.hook
    have hinv : TrimInv { sys with cache := c₁ } := h.setCache fun x hx =>
      hx.put hnode.active.valid (LogCache.put_eq hfirst).1
    have hadded : added = true ∨ c₃.active.Stuck := by
      cases added with
      | true => exact .inl rfl
      | false => exact .inr (LogCacheBlock.stuck_of_refused hsealed.active.valid
          hsealed.active.maxSize hsize (LogCache.put_eq hlast).1)
    exact { (hinv.archive harchive Owner.hook).putLast hsealed wal hlast hadded with }

/-! ### Tasks -/

variable {id : Nat} {task : TaskContext}

/-- The tasks may change as long as their blocks stay. -/
theorem TrimInv.setTask (h : TrimInv sys) (htask : sys.tasks[id]? = some task)
    (task' : TaskContext) (hblock : task'.block = task.block) :
  TrimInv { sys with tasks := sys.tasks.insert id task' }
  := by
  have hblocks : ∀ k : Nat, ((sys.tasks.insert id task')[k]?).map TaskContext.block
      = (sys.tasks[k]?).map TaskContext.block := by
    intro k
    rw [lookup_insert]
    split
    next heq =>
      subst heq
      simp [htask, hblock]
    next => rfl
  have hqueue : Sys.queue { sys with tasks := sys.tasks.insert id task' } = sys.queue := by
    simp only [Sys.queue, hblocks]
  refine { h with located := ?_, worker := ?_ }
  · rw [hqueue]
    exact h.located
  · intro k hk
    obtain ⟨t, ht, hsafe⟩ := h.worker k hk
    have hmap := hblocks k
    rw [ht, Option.map_some, Option.map_eq_some_iff] at hmap
    obtain ⟨t', ht', heq⟩ := hmap
    exact ⟨t', ht', heq ▸ hsafe⟩

theorem TrimInv.completeTask (h : TrimInv sys) (id : Nat) (ok : Bool) :
  TrimInv (sys.completeTask id ok)
  := by
  unfold Sys.completeTask
  split
  next => exact h
  next task htask => exact h.setTask htask { task with cf := some ok } rfl

/-- A block that is submitted comes after the blocks that have been. -/
theorem queue_enqueue (hnode : NodeInv sys) {i : Nat} {owner : Owner} {block : LogCacheBlock}
    (hentry : sys.unsubmitted[i]? = some (owner, block)) :
  (sys.enqueue i block).queue =
    (sys.commitQueue ++ sys.prepareQueue).filterMap
        (fun id => (sys.tasks[id]?).map TaskContext.block) ++
      block :: (sys.unsubmitted.eraseIdx i).map Prod.snd
  := by
  have hold : (sys.commitQueue ++ sys.prepareQueue).filterMap
        (fun id => ((sys.enqueue i block).tasks[id]?).map TaskContext.block)
      = (sys.commitQueue ++ sys.prepareQueue).filterMap
        fun id => (sys.tasks[id]?).map TaskContext.block := by
    apply filterMap_congr
    intro id hid
    obtain ⟨task, htask⟩ := hnode.ids.known id hid
    rw [hnode.lookup_enqueue hentry htask, htask]
  have hids : (sys.enqueue i block).commitQueue ++ (sys.enqueue i block).prepareQueue
      = sys.commitQueue ++ sys.prepareQueue ++ [block.blockId] := by
    simp [Sys.enqueue]
  rw [Sys.queue, hids, filterMap_append, hold]
  simp [Sys.enqueue]

/-- The block that was sealed first is submitted: the order of the blocks does not change. -/
theorem TrimInv.enqueue (h : TrimInv sys) (hnode : NodeInv sys) {owner : Owner}
    {block : LogCacheBlock} (hentry : sys.unsubmitted[0]? = some (owner, block)) :
  TrimInv (sys.enqueue 0 block)
  := by
  obtain ⟨rest, hrest⟩ : ∃ rest, sys.unsubmitted = (owner, block) :: rest := by
    rw [← head?_eq_getElem?] at hentry
    exact head?_eq_some_iff.mp hentry
  have hqueue : (sys.enqueue 0 block).queue = sys.queue := by
    rw [queue_enqueue hnode hentry, Sys.queue, hrest]
    rfl
  refine { h with located := ?_, worker := ?_ }
  · rw [hqueue]
    exact h.located
  · intro id hid
    obtain ⟨task, htask, hsafe⟩ := h.worker id hid
    exact ⟨task, hnode.lookup_enqueue hentry htask, hsafe⟩

/-- A task that is prepared moves from the front of one queue to the end of the other. -/
theorem queue_prepare {id : Nat} {queue : List Nat} (hprepare : sys.prepareQueue = id :: queue) :
  Sys.queue { sys with prepareQueue := queue, commitQueue := sys.commitQueue ++ [id] } = sys.queue
  := by
  have hids : sys.commitQueue ++ [id] ++ queue = sys.commitQueue ++ sys.prepareQueue := by
    simp [hprepare]
  simp only [Sys.queue, hids]

theorem TrimInv.prepare (h : TrimInv sys) (hstep : sys.prepare true = some sys') :
  TrimInv sys'
  := by
  obtain ⟨id, queue, hprepare, ⟨-, rfl⟩ | ⟨hfalse, -⟩⟩ := prepare_cases hstep
  · refine { h with located := ?_ }
    rw [queue_prepare hprepare]
    exact h.located
  · cases hfalse

/-! ### Commits -/

/-- A worker that waits and is not poisoned has not failed. -/
theorem not_failing (hidle : sys.commitWorker = .idle) (hpoisoned : sys.poisoned = false) :
  ¬ sys.Failing
  := by
  rintro (htrue | ⟨id, hid⟩)
  · rw [hpoisoned] at htrue
    cases htrue
  · rw [hidle] at hid
    cases hid

section

variable (h : TrimInv sys)

include h

/-- The first task leaves the commit queue. Either no commit will follow, or every record of its
block is committed. -/
theorem TrimInv.popCommit {queue : List Nat} (hidle : sys.commitWorker = .idle)
    (hcommit : sys.commitQueue = id :: queue) (htask : sys.tasks[id]? = some task)
    (hle : RowsLe sys.rows rows) {worker : CommitWorker} (hblock : Sys.Failing { sys with
      commitWorker := worker } ∨ ∀ r, task.block.Holds r → Committed rows r) (hworker : ∀ id,
      worker = .returned id true → ∃ task, sys.tasks[id]? = some task ∧ ∀ o,
      task.block.lastRecordOffset = some o → TrimSafe rows sys.confirmed sys.walNext o) :
  TrimInv { sys with commitQueue := queue, rows, commitWorker := worker }
  := by
  have hqueue : sys.queue = task.block ::
      Sys.queue { sys with commitQueue := queue, rows, commitWorker := worker } := by
    simp [Sys.queue, hcommit, htask]
  have hinv := h.setRows hle
  refine { hinv with located := ?_, worker := hworker }
  intro hfailing e he
  have hpoisoned : sys.poisoned = false := Bool.eq_false_iff.mpr fun hp => hfailing (.inl hp)
  rcases hinv.located (not_failing hidle hpoisoned) e he with hcommitted | hlocated
  · exact .inl hcommitted
  · change Located (sys.queue ++ _) _ _ at hlocated
    rw [hqueue] at hlocated
    rcases hlocated with hholds | ⟨-, hlocated⟩
    · exact .inl ((hblock.resolve_left hfailing) e.2 hholds)
    · exact .inr hlocated

/-- The commit of the first block in the queue makes it safe to trim the log at its last record. -/
theorem TrimInv.safe_of_commit (hnode : NodeInv sys) {queue : List Nat}
    (hidle : sys.commitWorker = .idle) (hpoisoned : sys.poisoned = false)
    (hcommit : sys.commitQueue = id :: queue) (htask : sys.tasks[id]? = some task)
    (hrows : commitStreamSetObject sys.rows task.block = some rows) :
  ∀ o, task.block.lastRecordOffset = some o → TrimSafe rows sys.confirmed sys.walNext o
  := by
  intro o ho
  refine ⟨(hnode.tasks id task htask).last o ho, ?_⟩
  intro e he hoffset
  obtain ⟨rest, hqueue⟩ : ∃ rest, sys.queue = task.block :: rest := by
    simp [Sys.queue, hcommit, htask]
  rcases h.located (not_failing hidle hpoisoned) e he with hcommitted | hlocated
  · exact hcommitted.mono (hnode.rowsLe htask hrows)
  · rw [hqueue] at hlocated
    rcases hlocated with hheld | ⟨hbelow, -⟩
    · exact hnode.holds_committed htask hrows hheld
    · -- the record was confirmed after the block had been sealed
      exact absurd hoffset (Nat.not_le.mpr (hbelow o ho))

theorem TrimInv.commit (hnode : NodeInv sys) {reply : Reply} (hstep : sys.commit reply = some sys') :
  TrimInv sys'
  := by
  obtain ⟨id, queue, task, hidle, hcommit, htask, hcases⟩ := commit_cases hstep
  rcases hcases with ⟨hpoisoned, rfl⟩ | ⟨hpoisoned, rows, hrows, rfl⟩ | ⟨hpoisoned, rows, hrows, rfl⟩
  · apply TrimInv.completeTask
    exact h.popCommit hidle hcommit htask (RowsLe.refl _) (.inl (.inl hpoisoned)) h.worker
  · have hle : RowsLe sys.rows rows := by
      rcases hrows with rfl | hrows
      · exact RowsLe.refl _
      · exact hnode.rowsLe htask hrows
    apply h.popCommit hidle hcommit htask hle (.inl (.inr ⟨id, rfl⟩))
    intro k hk
    cases hk
  · apply h.popCommit hidle hcommit htask (hnode.rowsLe htask hrows)
    · exact .inr fun r hr => hnode.holds_committed htask hrows hr
    · intro k hk
      obtain ⟨rfl, -⟩ := CommitWorker.returned.inj hk
      exact ⟨task, htask, h.safe_of_commit hnode hidle hpoisoned hcommit htask hrows⟩

theorem TrimInv.commitDone (hstep : sys.commitDone = some sys') :
  TrimInv sys'
  := by
  obtain ⟨id, ok, task, hworker, htask, ⟨rfl, rfl⟩ | ⟨-, rfl⟩⟩ := commitDone_cases hstep
  · apply TrimInv.completeTask
    have hcache : TrimInv { sys with cache := sys.cache.markFree id } := by
      apply h.setCache
      intro r hr
      rw [(sys.cache.sameActive_markFree id).active]
      exact hr
    constructor
    · intro hfailing
      apply hcache.located
      rintro (hpoisoned | ⟨k, hk⟩)
      · exact hfailing (.inl hpoisoned)
      · cases hworker.symm.trans hk
    · nofun
    · intro o ho
      simp only [append_assoc, mem_append, Option.mem_toList] at ho
      rcases ho with ho | ho | ho
      · exact h.trims o (mem_append_left _ ho)
      · obtain ⟨task', htask', hsafe⟩ := h.worker id hworker
        cases htask.symm.trans htask'
        exact hsafe o ho
      · exact h.trims o (mem_append_right _ ho)
  · apply TrimInv.completeTask
    refine { h with located := ?_, worker := nofun }
    intro hfailing
    exact absurd (.inl rfl) hfailing

theorem TrimInv.trim {i : Nat} (hstep : sys.trim i = some sys') :
  TrimInv sys'
  := by
  obtain ⟨offset, hoffset, rfl⟩ := trim_cases hstep
  refine { h with trims := ?_ }
  intro o ho
  apply h.trims o
  rcases mem_append.mp ho with ho | ho
  · exact mem_append_left _ (mem_of_mem_eraseIdx ho)
  · rcases mem_cons.mp ho with rfl | ho
    · exact mem_append_left _ (mem_of_getElem? hoffset)
    · exact mem_append_right _ ho

end

/-! ### Runs -/

/-- The condition on a step: blocks are submitted in the order of sealing, and no preparation
fails. -/
def InOrder : Action → Prop
  | .submit i => i = 0
  | .prepare ok => ok = true
  | _ => True

instance decidableInOrder : DecidablePred InOrder :=
  fun a => by
    induction a using Action.casesOn <;> dsimp only [InOrder] <;> infer_instance

theorem TrimInv.moved (h : TrimInv sys) {streamId : Nat} {stream : S3Stream} {operable : Bool}
    {closing : Closing} (hmoved : Moved sys streamId stream operable closing sys') :
  TrimInv sys'
  := by
  obtain ⟨-, rfl⟩ := hmoved
  exact { h with }

theorem TrimInv.step (h : TrimInv sys) (hnode : NodeInv sys) {a : Action} (ha : InOrder a)
    (hstep : step sys a = some sys') :
  TrimInv sys'
  := by
  cases a with
  | openStream streamId =>
    obtain ⟨hrow, rfl⟩ := openStream_cases hstep
    have hle : RowsLe sys.rows (sys.rows.insert streamId ⟨0, true⟩) := by
      apply rowsLe_insert
      intro row hrow'
      cases hrow.symm.trans hrow'
    exact { h.setRows hle with }
  | startAppend streamId =>
    obtain ⟨stream, -, -, rfl⟩ := startAppend_cases hstep
    exact { h with }
  | append streamId count payload =>
    obtain ⟨stream, -, -, -, rfl⟩ := append_cases hstep
    exact { h with }
  | walFail i =>
    obtain ⟨r, -, rfl⟩ := walFail_cases hstep
    have hwal : TrimInv { sys with wal := sys.wal.eraseIdx i } := { h with }
    exact hwal.sameFlow (sameFlow_completeAppend _ _ _)
  | confirm => exact h.confirm hnode hstep
  | hookRetry =>
    obtain ⟨r, archived, cache, hook, durable, -, harchive, -, rfl⟩ := hookRetry_cases hstep
    exact { h.archive harchive Owner.hook with }
  | ack i =>
    obtain ⟨r, -, rfl⟩ := ack_cases hstep
    apply TrimInv.sameFlow _ (sameFlow_completeAppend _ _ _)
    exact { h with }
  | upload streamId =>
    obtain ⟨archived, cache, harchive, rfl⟩ := upload_cases hstep
    exact h.archive harchive Owner.upload
  | submit i =>
    cases ha
    obtain ⟨owner, block, hentry, rfl⟩ := submit_cases hstep
    exact (h.enqueue hnode hentry).sameFlow (sameFlow_submitted _ owner)
  | prepare ok =>
    cases ha
    exact h.prepare hstep
  | uploaded id ok =>
    obtain ⟨task, htask, rfl⟩ := uploaded_cases hstep
    exact h.setTask htask { task with uploadDone := some ok } rfl
  | removeInflight id =>
    obtain ⟨task, -, -, rfl⟩ := removeInflight_cases hstep
    exact { h with }
  | commit reply => exact h.commit hnode hstep
  | commitDone => exact h.commitDone hstep
  | trim i => exact h.trim hstep
  | close streamId =>
    obtain ⟨stream, hmoved, -⟩ := close_moved hstep
    exact h.moved hmoved
  | drained streamId =>
    obtain ⟨stream, hmoved, -⟩ := drained_moved hstep
    exact h.moved hmoved
  | closeSeal streamId =>
    obtain ⟨stream, archived, cache, -, -, harchive, rfl⟩ := closeSeal_cases hstep
    exact { h.archive harchive (Owner.close streamId) with }
  | collect streamId =>
    obtain ⟨stream, hmoved, -⟩ := collect_moved hstep
    exact h.moved hmoved
  | awaitTask streamId =>
    obtain ⟨stream, ids, closing, hmoved, -⟩ := awaitTask_moved hstep
    exact h.moved hmoved
  | closeStream streamId reply =>
    obtain ⟨rows, ok, stream, hle, hmoved, -⟩ := closeStream_cases hstep
    exact (h.setRows hle).moved hmoved

/-- In a run that submits blocks in the order of sealing and in which no preparation fails, the log
is trimmed below committed records only. -/
theorem trimmed_committed {capacity cacheBlockMaxSize maxCacheBlockStreamCount : Nat}
    {actions : List Action} (horder : ∀ a ∈ actions, InOrder a)
    (hrun : run (Sys.start capacity cacheBlockMaxSize maxCacheBlockStreamCount) actions
      = some sys) :
  ∀ o ∈ sys.trimmed, ∀ e ∈ sys.confirmed, e.1 ≤ o → Committed sys.rows e.2
  := by
  have hinv : NodeInv sys ∧ TrimInv sys := by
    apply foldlM_some_induction (I := fun sys => NodeInv sys ∧ TrimInv sys) _ _ hrun
    · rintro sys a sys' ha ⟨hnode, htrim⟩ hstep
      exact ⟨hnode.step hstep, htrim.step hnode (horder a ha) hstep⟩
    · exact ⟨nodeInv_start _ _ _, ⟨nofun, nofun, nofun⟩⟩
  intro o ho
  exact (hinv.2.trims o (mem_append_right _ ho)).2

/-- The first block is uploaded and committed, and the log is trimmed. -/
def commitRun (task : Nat) : List Action :=
  [.prepare true, .uploaded task true, .commit .answered, .commitDone, .trim 0]

/-- The blocks of two streams are sealed and committed one after the other. -/
def twoBlocksRun : List Action :=
  [.openStream 1, .openStream 2] ++ appendRun 1 ++ [.upload matchAllStreams] ++ appendRun 2 ++
    [.upload matchAllStreams, .submit 0, .submit 0] ++ commitRun 0 ++ commitRun 1

theorem trimmed_committed_twoBlocksRun :
  ∃ sys, run (Sys.start 1000000 1000 100) twoBlocksRun = some sys ∧ sys.trimmed = [1, 0] ∧
    sys.confirmed = [(1, ⟨2, 0, 1, [7]⟩), (0, ⟨1, 0, 1, [7]⟩)] ∧
    ∀ e ∈ sys.confirmed, e.1 ≤ 1 → Committed sys.rows e.2
  := by
  obtain ⟨sys, hrun, htrimmed, hconfirmed⟩ : ∃ sys,
      run (Sys.start 1000000 1000 100) twoBlocksRun = some sys ∧ sys.trimmed = [1, 0] ∧
      sys.confirmed = [(1, ⟨2, 0, 1, [7]⟩), (0, ⟨1, 0, 1, [7]⟩)] := by
    decide +kernel
  have horder : ∀ a ∈ twoBlocksRun, InOrder a := by
    decide +kernel
  refine ⟨sys, hrun, htrimmed, hconfirmed, trimmed_committed horder hrun 1 ?_⟩
  rw [htrimmed]
  exact mem_cons_self

/-- The preparation of the first block fails, and the second block goes on. -/
def prepareFailsRun : List Action :=
  [.openStream 1, .openStream 2] ++ appendRun 1 ++
    [.upload matchAllStreams, .submit 0, .prepare false] ++ appendRun 2 ++
    [.upload matchAllStreams, .submit 0] ++ commitRun 1

/-- The log is trimmed at offset 1 while the acknowledged batch at offset 0 is not committed. -/
theorem trimmed_uncommitted_prepareFailsRun :
  ∃ sys, run (Sys.start 1000000 1000 100) prepareFailsRun = some sys ∧ 1 ∈ sys.trimmed ∧
    (0, ⟨1, 0, 1, [7]⟩) ∈ sys.confirmed ∧ ¬ Committed sys.rows ⟨1, 0, 1, [7]⟩
  := by
  decide +kernel

/-- The second block is submitted before the first. -/
def overtakenRun : List Action :=
  [.openStream 1, .openStream 2] ++ appendRun 1 ++ [.upload matchAllStreams] ++ appendRun 2 ++
    [.upload matchAllStreams, .submit 1] ++ commitRun 1

-- The same happens without any failure.
example : (run (Sys.start 1000000 1000 100) overtakenRun).any fun sys =>
    1 ∈ sys.trimmed ∧ (0, ⟨1, 0, 1, [7]⟩) ∈ sys.confirmed ∧
      ¬ Committed sys.rows ⟨1, 0, 1, [7]⟩ := by
  decide +kernel

end Storage
