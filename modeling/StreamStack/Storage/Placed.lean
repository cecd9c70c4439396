import StreamStack.Storage.Appends

/-!
# Where confirmed records are

A confirmed record is committed, in the active block, in a sealed block that is not submitted yet,
or in a task that has not succeeded. This holds in every run whose records fit into blocks: a batch
that no block takes is confirmed and acknowledged, but never uploaded.
-/

namespace Storage

open OrdMap List LogCache

variable {sys sys' : Sys}

def LogCacheBlock.Has (b : LogCacheBlock) (r : StreamRecordBatch) : Prop :=
  r ∈ b.recordsOf r.streamId

/-- The record is in a sealed block that is not submitted yet. -/
def Unsubmitted (sys : Sys) (r : StreamRecordBatch) : Prop := ∃ e ∈ sys.unsubmitted, e.2.Has r

/-- The record is in a task that has not succeeded. -/
def InTask (sys : Sys) (r : StreamRecordBatch) : Prop :=
  ∃ (id : Nat) (task : TaskContext), sys.tasks[id]? = some task ∧ task.cf ≠ some true ∧
    task.block.Has r

/-- Every confirmed record is somewhere, tasks that have succeeded are committed, and tasks without
a result are in flight. -/
structure PlacedInv (sys : Sys) : Prop where
  placed : ∀ e ∈ sys.confirmed, Committed sys.rows e.2 ∨ sys.cache.active.Has e.2 ∨
    Unsubmitted sys e.2 ∨ InTask sys e.2
  done : ∀ (id : Nat) (task : TaskContext), sys.tasks[id]? = some task → task.cf = some true →
    ∀ r, task.block.Has r → Committed sys.rows r
  worker : ∀ id, sys.commitWorker = .returned id true → ∃ task, sys.tasks[id]? = some task ∧
    ∀ r, task.block.Has r → Committed sys.rows r
  inflight : ∀ (id : Nat) (task : TaskContext), sys.tasks[id]? = some task → task.cf = none →
    id ∈ sys.inflight

/-- The records that the log will confirm fit into a block, and the active block takes batches once
it is empty. -/
structure FitsInv (sys : Sys) : Prop where
  wal : ∀ r ∈ sys.wal, r.count.natAbs ≤ i32Max
  active : ¬ sys.cache.active.Stuck
  count : 0 < sys.cache.maxCacheBlockStreamCount

/-- What a step does to the records: end offsets grow, confirmed records come from the log, blocks
of tasks stay, and a sealed block that has not been committed is not lost. -/
structure Advances (sys sys' : Sys) : Prop where
  rows : RowsLe sys.rows sys'.rows
  confirmed : ∀ e ∈ sys'.confirmed, e ∈ sys.confirmed ∨ e.2 ∈ sys.wal
  tasks : ∀ (id : Nat) (task : TaskContext), sys.tasks[id]? = some task →
    ∃ task', sys'.tasks[id]? = some task' ∧ task'.block = task.block
  waiting : ∀ r, Unsubmitted sys r ∨ InTask sys r →
    Committed sys'.rows r ∨ Unsubmitted sys' r ∨ InTask sys' r

/-- A step that leaves the tasks alone and takes no sealed block away. -/
theorem advances_grow (hrows : RowsLe sys.rows sys'.rows) (htasks : sys'.tasks = sys.tasks)
    (hsub : sys.unsubmitted ⊆ sys'.unsubmitted)
    (hconfirmed : ∀ e ∈ sys'.confirmed, e ∈ sys.confirmed ∨ e.2 ∈ sys.wal) :
  Advances sys sys'
  := by
  refine ⟨hrows, hconfirmed, ?_, ?_⟩
  · intro id task htask
    exact ⟨task, htasks ▸ htask, rfl⟩
  · intro r hr
    right
    rcases hr with ⟨e, he, hhas⟩ | ⟨id, task, htask, hcf, hhas⟩
    · exact .inl ⟨e, hsub he, hhas⟩
    · exact .inr ⟨id, task, htasks ▸ htask, hcf, hhas⟩

variable {id : Nat} {task : TaskContext}

/-- A step that changes a task. A task that becomes a success has committed its block. -/
theorem advances_setTask (htask : sys.tasks[id]? = some task) (task' : TaskContext)
    (hblock : task'.block = task.block) (hdone : task'.cf = some true → task.cf = some true ∨
      ∀ r, task.block.Has r → Committed sys.rows r) (hrows : sys'.rows = sys.rows)
    (htasks : sys'.tasks = sys.tasks.insert id task')
    (hunsubmitted : sys'.unsubmitted = sys.unsubmitted)
    (hconfirmed : sys'.confirmed = sys.confirmed) :
  Advances sys sys'
  := by
  refine ⟨hrows ▸ RowsLe.refl _, fun e he => .inl (hconfirmed ▸ he), ?_, ?_⟩
  · intro k t ht
    rw [htasks, lookup_insert]
    split
    next heq =>
      subst heq
      cases htask.symm.trans ht
      exact ⟨task', rfl, hblock⟩
    next => exact ⟨t, ht, rfl⟩
  · intro r hr
    rcases hr with ⟨e, he, hhas⟩ | ⟨k, t, ht, hcf, hhas⟩
    · exact .inr (.inl ⟨e, hunsubmitted ▸ he, hhas⟩)
    · by_cases heq : id = k
      · subst heq
        cases htask.symm.trans ht
        by_cases hsuccess : task'.cf = some true
        · left
          rw [hrows]
          exact (hdone hsuccess).resolve_left hcf r hhas
        · right; right
          refine ⟨id, task', ?_, hsuccess, hblock ▸ hhas⟩
          rw [htasks, lookup_insert, if_pos rfl]
      · right; right
        refine ⟨k, t, ?_, hcf, hhas⟩
        rw [htasks, lookup_insert, if_neg heq, ht]

variable {i : Nat} {block : LogCacheBlock}

/-- A sealed block that is submitted is in a task. -/
theorem advances_enqueue (hnode : NodeInv sys) {owner : Owner}
    (hentry : sys.unsubmitted[i]? = some (owner, block))
    (hsame : SameFlow (sys.enqueue i block) sys') :
  Advances sys sys'
  := by
  obtain ⟨streams, wal, hook, durable, acked, rfl⟩ := hsame
  refine ⟨RowsLe.refl _, fun e he => .inl he, ?_, ?_⟩
  · intro id task htask
    exact ⟨task, hnode.lookup_enqueue hentry htask, rfl⟩
  · intro r hr
    right
    rcases hr with ⟨e, he, hhas⟩ | ⟨id, task, htask, hcf, hhas⟩
    · obtain ⟨j, hj⟩ := mem_iff_getElem?.mp he
      by_cases hij : j = i
      · subst hij
        cases hentry.symm.trans hj
        refine .inr ⟨block.blockId, { block }, ?_, nofun, hhas⟩
        simp [Sys.enqueue]
      · exact .inl ⟨e, mem_eraseIdx_iff_getElem?.mpr ⟨j, hij, hj⟩, hhas⟩
    · exact .inr ⟨id, task, hnode.lookup_enqueue hentry htask, hcf, hhas⟩

/-! ### Records stay placed -/

section

variable (h : PlacedInv sys)

include h

/-- A step that leaves the tasks and the commit worker alone. -/
theorem PlacedInv.keep (hadvances : Advances sys sys')
    (hactive : ∀ r, sys.cache.active.Has r → sys'.cache.active.Has r ∨ Unsubmitted sys' r)
    (hnew : ∀ e ∈ sys'.confirmed, e ∈ sys.confirmed ∨ sys'.cache.active.Has e.2)
    (htasks : sys'.tasks = sys.tasks) (hworker : sys'.commitWorker = sys.commitWorker)
    (hinflight : sys'.inflight = sys.inflight) :
  PlacedInv sys'
  := by
  refine ⟨?_, ?_, ?_, ?_⟩
  · intro e he
    rcases hnew e he with hold | hhas
    · rcases h.placed e hold with hcommitted | hhas | hwaiting
      · exact .inl (hcommitted.mono hadvances.rows)
      · rcases hactive e.2 hhas with hhas | hunsubmitted
        · exact .inr (.inl hhas)
        · exact .inr (.inr (.inl hunsubmitted))
      · exact (hadvances.waiting e.2 hwaiting).imp_right .inr
    · exact .inr (.inl hhas)
  · rw [htasks]
    intro id task htask hcf r hr
    exact (h.done id task htask hcf r hr).mono hadvances.rows
  · rw [htasks, hworker]
    intro id hid
    obtain ⟨task, htask, hcommitted⟩ := h.worker id hid
    exact ⟨task, htask, fun r hr => (hcommitted r hr).mono hadvances.rows⟩
  · rw [htasks, hinflight]
    exact h.inflight

/-- A task may get an outcome once its records are committed. -/
theorem PlacedInv.setTask (htask : sys.tasks[id]? = some task) (task' : TaskContext)
    (hblock : task'.block = task.block) (hdone : task'.cf = some true → task.cf = some true ∨ ∀ r,
      task.block.Has r → Committed sys.rows r) (hnone : task'.cf = none → task.cf = none) :
  PlacedInv { sys with tasks := sys.tasks.insert id task' }
  := by
  have hadvances : Advances sys { sys with tasks := sys.tasks.insert id task' } :=
    advances_setTask htask task' hblock hdone rfl rfl rfl rfl
  -- every task is one of before, or the changed one
  have hcases : ∀ {k : Nat} {t : TaskContext}, (sys.tasks.insert id task')[k]? = some t →
      sys.tasks[k]? = some t ∨ (k = id ∧ t = task') := by
    intro k t ht
    rw [lookup_insert] at ht
    split at ht
    next heq => exact .inr ⟨heq.symm, (Option.some.inj ht).symm⟩
    next => exact .inl ht
  constructor
  · intro e he
    rcases h.placed e he with hcommitted | hhas | hwaiting
    · exact .inl hcommitted
    · exact .inr (.inl hhas)
    · exact (hadvances.waiting e.2 hwaiting).imp_right .inr
  · intro k t ht hcf r hr
    rcases hcases ht with ht | ⟨rfl, rfl⟩
    · exact h.done k t ht hcf r hr
    · rw [hblock] at hr
      rcases hdone hcf with hcf | hcommitted
      · exact h.done k task htask hcf r hr
      · exact hcommitted r hr
  · intro k hk
    obtain ⟨t, ht, hcommitted⟩ := h.worker k hk
    obtain ⟨t', ht', hsame⟩ := hadvances.tasks k t ht
    exact ⟨t', ht', hsame ▸ hcommitted⟩
  · intro k t ht hcf
    rcases hcases ht with ht | ⟨rfl, rfl⟩
    · exact h.inflight k t ht hcf
    · exact h.inflight k task htask (hnone hcf)

/-- A record in a block is in the task of the block. -/
theorem PlacedInv.enqueue (hnode : NodeInv sys) {owner : Owner}
    (hentry : sys.unsubmitted[i]? = some (owner, block)) :
  PlacedInv (sys.enqueue i block)
  := by
  have hadvances := advances_enqueue hnode hentry (SameFlow.refl _)
  have hcases : ∀ {k : Nat} {t : TaskContext}, (sys.enqueue i block).tasks[k]? = some t →
      sys.tasks[k]? = some t ∨ (k = block.blockId ∧ t = { block }) := by
    intro k t ht
    rw [Sys.enqueue, lookup_insert] at ht
    split at ht
    next heq => exact .inr ⟨heq.symm, (Option.some.inj ht).symm⟩
    next => exact .inl ht
  constructor
  · intro e he
    rcases h.placed e he with hcommitted | hhas | hwaiting
    · exact .inl hcommitted
    · exact .inr (.inl hhas)
    · exact (hadvances.waiting e.2 hwaiting).imp_right .inr
  · intro k t ht hcf
    rcases hcases ht with ht | ⟨rfl, rfl⟩
    · exact h.done k t ht hcf
    · cases hcf
  · intro k hk
    obtain ⟨t, ht, hcommitted⟩ := h.worker k hk
    exact ⟨t, hnode.lookup_enqueue hentry ht, hcommitted⟩
  · intro k t ht hcf
    rcases hcases ht with ht | ⟨rfl, rfl⟩
    · exact mem_append_left _ (h.inflight k t ht hcf)
    · exact mem_append_right _ mem_cons_self

theorem PlacedInv.sameFlow (hsame : SameFlow sys sys') :
  PlacedInv sys'
  := by
  obtain ⟨streams, wal, hook, durable, acked, rfl⟩ := hsame
  exact { h with }

variable {rows : OrdMap Nat Row}

/-- End offsets may grow, and the commit worker may return. -/
theorem PlacedInv.returned (hle : RowsLe sys.rows rows) {worker : CommitWorker} (hworker : ∀ id,
      worker = .returned id true → ∃ task, sys.tasks[id]? = some task ∧ ∀ r, task.block.Has r →
      Committed rows r) :
  PlacedInv { sys with rows, commitWorker := worker }
  := by
  refine ⟨?_, ?_, hworker, h.inflight⟩
  · intro e he
    exact (h.placed e he).imp_left fun hcommitted => hcommitted.mono hle
  · intro id task htask hcf r hr
    exact (h.done id task htask hcf r hr).mono hle

theorem PlacedInv.setRows (hle : RowsLe sys.rows rows) :
  PlacedInv { sys with rows }
  := by
  apply h.returned hle
  intro id hid
  obtain ⟨task, htask, hcommitted⟩ := h.worker id hid
  exact ⟨task, htask, fun r hr => (hcommitted r hr).mono hle⟩

/-- A task fails, or has been committed. -/
theorem PlacedInv.completeTask (htask : sys.tasks[id]? = some task) {ok : Bool}
    (hok : ok = true → ∀ r, task.block.Has r → Committed sys.rows r) :
  PlacedInv (sys.completeTask id ok) ∧ Advances sys (sys.completeTask id ok)
  := by
  rw [completeTask_of_lookup htask]
  have hdone : some ok = some true → task.cf = some true ∨
      ∀ r, task.block.Has r → Committed sys.rows r := fun heq => .inr (hok (Option.some.inj heq))
  constructor
  · exact h.setTask htask { task with cf := some ok } rfl hdone nofun
  · exact advances_setTask htask { task with cf := some ok } rfl hdone rfl rfl rfl rfl

end

variable {streamId : Nat} {archived : Option LogCacheBlock} {cache : LogCache}

/-- Sealing the active block moves its records to a block that is to be submitted. -/
theorem PlacedInv.archive (h : PlacedInv sys)
    (harchive : sys.cache.archiveCurrentBlockIfContains streamId = (archived, cache))
    (owner : Owner) :
  PlacedInv (sys.archive owner archived cache) ∧ Advances sys (sys.archive owner archived cache)
  := by
  have hadvances : Advances sys (sys.archive owner archived cache) :=
    advances_grow (RowsLe.refl _) rfl (subset_append_left _ _) fun e he => .inl he
  refine ⟨h.keep hadvances ?_ (fun e he => .inl he) rfl rfl rfl, hadvances⟩
  intro r hr
  rcases archive_cases harchive with ⟨rfl, rfl, -⟩ | ⟨rfl, -, rfl⟩
  · exact .inl hr
  · right
    exact ⟨(owner, sys.cache.sealedActive), mem_append_right _ mem_cons_self, hr⟩

/-! ### Confirmed records fit -/

/-- The condition that every record fits into a block. -/
def Small : Action → Prop
  | .append _ count _ => count ≤ i32Max
  | _ => True

theorem not_stuck_freshBlock {c : LogCache} (h : 0 < c.maxCacheBlockStreamCount) :
  ¬ c.freshBlock.Stuck
  := by
  rintro (hzero | ⟨streamId, c', hc', -⟩)
  · exact absurd hzero (Nat.ne_of_gt h)
  · simp [freshBlock] at hc'

theorem FitsInv.archive (h : FitsInv sys)
    (harchive : sys.cache.archiveCurrentBlockIfContains streamId = (archived, cache))
    (owner : Owner) :
  FitsInv (sys.archive owner archived cache)
  := by
  rcases archive_cases harchive with ⟨rfl, rfl, -⟩ | ⟨rfl, -, rfl⟩
  · exact { h with }
  · exact ⟨h.wal, not_stuck_freshBlock h.count, h.count⟩

variable {r : StreamRecordBatch}

/-- Putting a record that fits keeps the active block from being stuck. -/
theorem FitsInv.put (h : FitsInv sys) {added : Bool} (hr : r ∈ sys.wal)
    (hput : sys.cache.put r = (cache, added)) :
  FitsInv { sys with cache }
  := by
  obtain ⟨hactive, -, -, -, hfresh⟩ := put_eq hput
  refine ⟨h.wal, LogCacheBlock.not_stuck_put h.active (h.wal r hr) hactive, ?_⟩
  have hcount : cache.maxCacheBlockStreamCount = sys.cache.maxCacheBlockStreamCount :=
    congrArg LogCacheBlock.maxStreamCount hfresh
  exact hcount ▸ h.count

theorem LogCacheBlock.Has.put {b b' : LogCacheBlock} {x : StreamRecordBatch} {added : Bool}
    (hx : b.Has x) (hput : b.put r = (b', added)) :
  b'.Has x
  := by
  rw [LogCacheBlock.Has, LogCacheBlock.recordsOf_put hput]
  split
  next => exact mem_append_left _ hx
  next => exact hx

/-- A record that was added is there. -/
theorem LogCacheBlock.has_of_added {b b' : LogCacheBlock} (hput : b.put r = (b', true)) :
  b'.Has r
  := by
  rw [LogCacheBlock.Has, LogCacheBlock.recordsOf_put hput, if_pos ⟨rfl, rfl⟩]
  exact mem_append_right _ mem_cons_self

/-- A record that fits is in the active block after it has been confirmed. -/
theorem PlacedInv.putLast (h : PlacedInv sys) {wal : List StreamRecordBatch}
    (hwal : sys.wal = r :: wal) (hput : sys.cache.put r = (cache, true)) :
  PlacedInv (sys.putLast r wal cache) ∧ Advances sys (sys.putLast r wal cache)
  := by
  obtain ⟨hactive, -⟩ := put_eq hput
  have hadvances : Advances sys (sys.putLast r wal cache) := by
    refine advances_grow (RowsLe.refl _) rfl (List.Subset.refl _) ?_
    intro e he
    rcases mem_cons.mp he with rfl | he
    · right
      rw [hwal]
      exact mem_cons_self
    · exact .inl he
  refine ⟨h.keep hadvances (fun x hx => .inl (hx.put hactive)) ?_ rfl rfl rfl, hadvances⟩
  intro e he
  rcases mem_cons.mp he with rfl | he
  · exact .inr (LogCacheBlock.has_of_added hactive)
  · exact .inl he

theorem PlacedInv.setCache (h : PlacedInv sys)
    (hactive : ∀ r, sys.cache.active.Has r → cache.active.Has r) :
  PlacedInv { sys with cache }
  := by
  refine { h with placed := ?_ }
  intro e he
  rcases h.placed e he with hcommitted | hhas | hwaiting
  · exact .inl hcommitted
  · exact .inr (.inl (hactive e.2 hhas))
  · exact .inr (.inr hwaiting)

/-- A confirmed record is placed at once, since the block has room or is archived. -/
theorem PlacedInv.confirm (h : PlacedInv sys) (hnode : NodeInv sys) (hfits : FitsInv sys)
    (hstep : sys.confirm = some sys') :
  PlacedInv sys' ∧ FitsInv sys' ∧ Advances sys sys'
  := by
  obtain ⟨r, wal, cache, archived, added, hook, durable, -, hwal, hput, -, rfl⟩ :=
    confirm_cases hstep
  have hr : r ∈ sys.wal := hwal ▸ mem_cons_self
  have hsub : ∀ x ∈ wal, x.count.natAbs ≤ i32Max := by
    intro x hx
    exact hfits.wal x (hwal ▸ mem_cons_of_mem r hx)
  rcases putConfirmed_cases hput with
    ⟨c₁, hlast, rfl, rfl, rfl⟩ | ⟨c₁, c₂, c₃, hfirst, harchive, hsize, hlast, rfl⟩
  · rw [archive_none]
    obtain ⟨hplaced, hadvances⟩ := h.putLast hwal hlast
    exact ⟨{ hplaced with }, { hfits.put hr hlast with wal := hsub }, { hadvances with }⟩
  · have hrefused : PlacedInv { sys with cache := c₁ } :=
      h.setCache fun x hx => hx.put (put_eq hfirst).1
    have hfits₂ := (hfits.put hr hfirst).archive harchive Owner.hook
    have hfits₃ := hfits₂.put hr hlast
    have hnode₂ := (hnode.putRefused hfirst).archive harchive Owner.hook
    have hadded : added = true := by
      cases added with
      | true => rfl
      | false => exact absurd (LogCacheBlock.stuck_of_refused hnode₂.active.valid
          hnode₂.active.maxSize hsize (put_eq hlast).1) hfits₃.active
    subst hadded
    obtain ⟨hplaced, hadvances⟩ := (hrefused.archive harchive Owner.hook).1.putLast hwal hlast
    refine ⟨{ hplaced with }, { hfits₃ with wal := hsub }, ?_⟩
    exact advances_grow (RowsLe.refl _) rfl (subset_append_left _ _) hadvances.confirmed

theorem FitsInv.append (h : FitsInv sys) {count : Nat} {payload : List UInt8}
    (hcount : count ≤ i32Max) (hstep : sys.append streamId count payload = some sys') :
  FitsInv sys'
  := by
  obtain ⟨stream, -, -, -, rfl⟩ := append_cases hstep
  refine { h with wal := ?_ }
  intro r hr
  rcases mem_append.mp hr with hr | hr
  · exact h.wal r hr
  · rw [mem_singleton.mp hr]
    have hasI32 : asI32 count = count := if_pos (Nat.lt_succ_of_le hcount)
    simpa [hasI32] using hcount

/-- What every step keeps when records fit into blocks. -/
structure KeptInv (sys sys' : Sys) : Prop where
  placed : PlacedInv sys'
  fits : FitsInv sys'
  advances : Advances sys sys'

/-- Steps of streams and appends. -/
theorem KeptInv.sameFlow (hplaced : PlacedInv sys) (hfits : FitsInv sys) (hsame : SameFlow sys sys')
    (hwal : sys'.wal ⊆ sys.wal) :
  KeptInv sys sys'
  := by
  have hinv := hplaced.sameFlow hsame
  obtain ⟨streams, wal, hook, durable, acked, rfl⟩ := hsame
  refine ⟨hinv, { hfits with wal := fun r hr => hfits.wal r (hwal hr) }, ?_⟩
  exact advances_grow (RowsLe.refl _) rfl (List.Subset.refl _) fun e he => .inl he

theorem KeptInv.archive (hplaced : PlacedInv sys) (hfits : FitsInv sys)
    (harchive : sys.cache.archiveCurrentBlockIfContains streamId = (archived, cache))
    (owner : Owner) :
  KeptInv sys (sys.archive owner archived cache)
  := by
  obtain ⟨hinv, hadvances⟩ := hplaced.archive harchive owner
  exact ⟨hinv, hfits.archive harchive owner, hadvances⟩

/-- The rows, the confirmed records and the blocks are the same. -/
structure SameBlocks (sys sys₁ : Sys) : Prop where
  rows : sys₁.rows = sys.rows
  tasks : sys₁.tasks = sys.tasks
  unsubmitted : sys₁.unsubmitted = sys.unsubmitted
  confirmed : sys₁.confirmed = sys.confirmed

/-- A task is over in a state that differs from the one before the step in other things only. -/
theorem KeptInv.completeTask {sys₁ : Sys} (hplaced : PlacedInv sys₁) (hfits : FitsInv sys₁)
    (hsame : SameBlocks sys sys₁) (htask : sys.tasks[id]? = some task) {ok : Bool}
    (hok : ok = true → ∀ r, task.block.Has r → Committed sys.rows r) :
  KeptInv sys (sys₁.completeTask id ok)
  := by
  have htask₁ : sys₁.tasks[id]? = some task := hsame.tasks ▸ htask
  have hinv := (hplaced.completeTask htask₁ (hsame.rows ▸ hok)).1
  have hdone : some ok = some true → task.cf = some true ∨
      ∀ r, task.block.Has r → Committed sys.rows r := fun heq => .inr (hok (Option.some.inj heq))
  rw [completeTask_of_lookup htask₁] at hinv ⊢
  refine ⟨hinv, { hfits with }, ?_⟩
  exact advances_setTask htask { task with cf := some ok } rfl hdone hsame.rows
    (congrArg (fun m => m.insert id { task with cf := some ok }) hsame.tasks) hsame.unsubmitted
    hsame.confirmed

variable (hplaced : PlacedInv sys) (hfits : FitsInv sys)

include hplaced hfits

/-- A record leaves its task when the commit has been applied. -/
theorem KeptInv.commit (hnode : NodeInv sys) {reply : Reply} (hstep : sys.commit reply = some sys') :
  KeptInv sys sys'
  := by
  obtain ⟨id, queue, task, -, -, htask, hcases⟩ := commit_cases hstep
  -- the worker returns, after the rows have grown or not
  have hreturned : ∀ {rows : OrdMap Nat Row} {ok : Bool}, RowsLe sys.rows rows →
      (ok = true → ∀ r, task.block.Has r → Committed rows r) →
      KeptInv sys { sys with commitQueue := queue, rows, commitWorker := .returned id ok } := by
    intro rows ok hle hok
    have hinv : PlacedInv { sys with rows, commitWorker := .returned id ok } := by
      apply hplaced.returned hle
      intro k hk
      obtain ⟨rfl, rfl⟩ := CommitWorker.returned.inj hk
      exact ⟨task, htask, hok rfl⟩
    refine ⟨{ hinv with }, { hfits with }, ?_⟩
    exact advances_grow hle rfl (List.Subset.refl _) fun e he => .inl he
  rcases hcases with ⟨-, rfl⟩ | ⟨-, rows, rfl | hrows, rfl⟩ | ⟨-, rows, hrows, rfl⟩
  · refine KeptInv.completeTask ?_ ?_ ?_ htask nofun
    · exact { hplaced with }
    · exact { hfits with }
    · exact ⟨rfl, rfl, rfl, rfl⟩
  · exact hreturned (RowsLe.refl _) nofun
  · exact hreturned (hnode.rowsLe htask hrows) nofun
  · apply hreturned (hnode.rowsLe htask hrows)
    intro _ r hr
    exact hnode.holds_committed htask hrows (.inl hr)

theorem KeptInv.commitDone (hstep : sys.commitDone = some sys') :
  KeptInv sys sys'
  := by
  obtain ⟨id, ok, task, hworker, htask, ⟨rfl, rfl⟩ | ⟨-, rfl⟩⟩ := commitDone_cases hstep
  · have hsame := sys.cache.sameActive_markFree id
    have hcache : PlacedInv { sys with cache := sys.cache.markFree id } := by
      apply hplaced.setCache
      intro r hr
      rw [hsame.active]
      exact hr
    obtain ⟨task', htask', hcommitted⟩ := hplaced.worker id hworker
    cases htask.symm.trans htask'
    refine KeptInv.completeTask ?_ ?_ ?_ htask fun _ => hcommitted
    · exact { hcache with worker := nofun }
    · refine ⟨hfits.wal, ?_, ?_⟩
      · exact hsame.active ▸ hfits.active
      · exact hsame.maxCacheBlockStreamCount ▸ hfits.count
    · exact ⟨rfl, rfl, rfl, rfl⟩
  · refine KeptInv.completeTask ?_ ?_ ?_ htask nofun
    · exact { hplaced with worker := nofun }
    · exact { hfits with }
    · exact ⟨rfl, rfl, rfl, rfl⟩

theorem KeptInv.submit (hnode : NodeInv sys) (hstep : sys.submit i = some sys') :
  KeptInv sys sys'
  := by
  obtain ⟨owner, block, hentry, rfl⟩ := submit_cases hstep
  have hsame := sameFlow_submitted (sys.enqueue i block) owner
  refine ⟨(hplaced.enqueue hnode hentry).sameFlow hsame, ?_, advances_enqueue hnode hentry hsame⟩
  rcases submitted_cases (sys.enqueue i block) owner with
    heq | ⟨_, _, -, -, heq⟩ | ⟨_, _, _, -, -, heq⟩
  · rw [heq]
    exact { hfits with }
  · rw [heq]
    exact { hfits with }
  · rw [heq]
    exact { hfits with }

theorem KeptInv.moved {stream : S3Stream} {operable : Bool} {closing : Closing}
    (hmoved : Moved sys streamId stream operable closing sys') :
  KeptInv sys sys'
  := by
  obtain ⟨-, rfl⟩ := hmoved
  exact KeptInv.sameFlow hplaced hfits (sameFlow_setStream sys streamId _) (List.Subset.refl _)

theorem KeptInv.completeAppend {sys₁ : Sys} (hsame : SameFlow sys sys₁) (hwal : sys₁.wal ⊆ sys.wal)
    (streamId : Nat) (ok : Bool) :
  KeptInv sys (sys₁.completeAppend streamId ok)
  := by
  apply KeptInv.sameFlow hplaced hfits (hsame.trans (sameFlow_completeAppend _ _ _))
  rcases completeAppend_cases sys₁ streamId ok with ⟨-, heq⟩ | ⟨stream, -, heq⟩
  · rw [heq]
    exact hwal
  · rw [heq]
    exact hwal

/-- Every step with records that fit keeps the records. -/
theorem KeptInv.step (hnode : NodeInv sys) {a : Action} (ha : Small a)
    (hstep : step sys a = some sys') :
  KeptInv sys sys'
  := by
  have hgrow : ∀ {rows : OrdMap Nat Row}, RowsLe sys.rows rows → KeptInv sys { sys with rows } := by
    intro rows hle
    refine ⟨hplaced.setRows hle, { hfits with }, ?_⟩
    exact advances_grow hle rfl (List.Subset.refl _) fun e he => .inl he
  cases a with
  | openStream streamId =>
    obtain ⟨hrow, rfl⟩ := openStream_cases hstep
    have hle : RowsLe sys.rows (sys.rows.insert streamId ⟨0, true⟩) := by
      apply rowsLe_insert
      intro row hrow'
      cases hrow.symm.trans hrow'
    have hkept := hgrow hle
    exact ⟨{ hkept.placed with }, { hfits with }, { hkept.advances with }⟩
  | startAppend streamId =>
    obtain ⟨stream, -, -, rfl⟩ := startAppend_cases hstep
    exact KeptInv.sameFlow hplaced hfits (sameFlow_setStream _ _ _) (List.Subset.refl _)
  | append streamId count payload =>
    have hfits' := hfits.append ha hstep
    obtain ⟨stream, -, -, -, rfl⟩ := append_cases hstep
    refine ⟨{ hplaced with }, hfits', ?_⟩
    exact advances_grow (RowsLe.refl _) rfl (List.Subset.refl _) fun e he => .inl he
  | walFail i =>
    obtain ⟨r, -, rfl⟩ := walFail_cases hstep
    refine KeptInv.completeAppend hplaced hfits ?_ ?_ _ _
    · exact ⟨_, _, _, _, _, rfl⟩
    · exact (eraseIdx_sublist sys.wal i).subset
  | confirm =>
    obtain ⟨hplaced', hfits', hadvances⟩ := hplaced.confirm hnode hfits hstep
    exact ⟨hplaced', hfits', hadvances⟩
  | hookRetry =>
    obtain ⟨r, archived, cache, hook, durable, -, harchive, -, rfl⟩ := hookRetry_cases hstep
    have hkept := KeptInv.archive hplaced hfits harchive Owner.hook
    exact ⟨{ hkept.placed with }, { hkept.fits with }, { hkept.advances with }⟩
  | ack i =>
    obtain ⟨r, -, rfl⟩ := ack_cases hstep
    refine KeptInv.completeAppend hplaced hfits ?_ ?_ _ _
    · exact ⟨_, _, _, _, _, rfl⟩
    · exact List.Subset.refl _
  | upload streamId =>
    obtain ⟨archived, cache, harchive, rfl⟩ := upload_cases hstep
    exact KeptInv.archive hplaced hfits harchive Owner.upload
  | submit i => exact KeptInv.submit hplaced hfits hnode hstep
  | prepare ok =>
    obtain ⟨id, queue, hqueue, ⟨-, rfl⟩ | ⟨-, rfl⟩⟩ := prepare_cases hstep
    · refine ⟨{ hplaced with }, { hfits with }, ?_⟩
      exact advances_grow (RowsLe.refl _) rfl (List.Subset.refl _) fun e he => .inl he
    · have hmem : id ∈ sys.commitQueue ++ sys.prepareQueue := by simp [hqueue]
      obtain ⟨task, htask⟩ := hnode.ids.known id hmem
      refine KeptInv.completeTask ?_ ?_ ?_ htask nofun
      · exact { hplaced with }
      · exact { hfits with }
      · exact ⟨rfl, rfl, rfl, rfl⟩
  | uploaded id ok =>
    obtain ⟨task, htask, rfl⟩ := uploaded_cases hstep
    refine ⟨?_, { hfits with }, ?_⟩
    · exact hplaced.setTask htask { task with uploadDone := some ok } rfl .inl fun hnone => hnone
    · exact advances_setTask htask { task with uploadDone := some ok } rfl .inl rfl rfl rfl rfl
  | removeInflight id =>
    obtain ⟨task, htask, hcf, rfl⟩ := removeInflight_cases hstep
    refine ⟨{ hplaced with inflight := ?_ }, { hfits with }, ?_⟩
    · intro k t ht hnone
      apply mem_filter.mpr
      refine ⟨hplaced.inflight k t ht hnone, ?_⟩
      simp only [decide_eq_true_eq]
      rintro rfl
      cases htask.symm.trans ht
      simp [hnone] at hcf
    · exact advances_grow (RowsLe.refl _) rfl (List.Subset.refl _) fun e he => .inl he
  | commit reply => exact KeptInv.commit hplaced hfits hnode hstep
  | commitDone => exact KeptInv.commitDone hplaced hfits hstep
  | trim i =>
    obtain ⟨offset, -, rfl⟩ := trim_cases hstep
    refine ⟨{ hplaced with }, { hfits with }, ?_⟩
    exact advances_grow (RowsLe.refl _) rfl (List.Subset.refl _) fun e he => .inl he
  | close streamId =>
    obtain ⟨stream, hmoved, -⟩ := close_moved hstep
    exact KeptInv.moved hplaced hfits hmoved
  | drained streamId =>
    obtain ⟨stream, hmoved, -⟩ := drained_moved hstep
    exact KeptInv.moved hplaced hfits hmoved
  | closeSeal streamId =>
    obtain ⟨stream, archived, cache, -, -, harchive, rfl⟩ := closeSeal_cases hstep
    have hkept := KeptInv.archive hplaced hfits harchive (Owner.close streamId)
    exact ⟨{ hkept.placed with }, { hkept.fits with }, { hkept.advances with }⟩
  | collect streamId =>
    obtain ⟨stream, hmoved, -⟩ := collect_moved hstep
    exact KeptInv.moved hplaced hfits hmoved
  | awaitTask streamId =>
    obtain ⟨stream, ids, closing, hmoved, -⟩ := awaitTask_moved hstep
    exact KeptInv.moved hplaced hfits hmoved
  | closeStream streamId reply =>
    obtain ⟨rows, ok, stream, hle, ⟨-, rfl⟩, -⟩ := closeStream_cases hstep
    have hkept := hgrow hle
    exact ⟨{ hkept.placed with }, { hfits with }, { hkept.advances with }⟩

end Storage
