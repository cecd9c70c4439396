import StreamStack.Storage.Steps

/-!
# The invariant of a node

What holds in every run of a node, whatever is submitted in which order and whatever fails: the
batches of a stream are confirmed in the order of their offsets, blocks hold the batches of each
stream in this order, and blocks and tasks are told apart by their numbers.
-/

namespace Storage

open OrdMap Run List LogCache LogCacheBlock

/-! ### The invariant -/

section

variable (rows : OrdMap Nat Row) (streams : OrdMap Nat S3Stream) (wal : List StreamRecordBatch)
  (confirmed : List (Nat × StreamRecordBatch)) (walNext : Nat) (cache : LogCache)

/-- The batches of a stream are confirmed in the order of their offsets. -/
structure OrderInv : Prop where
  sorted : wal.Pairwise Before
  after : ∀ e ∈ confirmed, ∀ r ∈ wal, Before e.2 r
  nextOffset : ∀ r, r ∈ wal ∨ r ∈ confirmed.map Prod.snd →
    ∃ stream, streams[r.streamId]? = some stream ∧ r.lastOffset ≤ stream.nextOffset
  hasRow : ∀ (streamId : Nat) (stream : S3Stream), streams[streamId]? = some stream →
    ∃ row, rows[streamId]? = some row
  offsets : ∀ e ∈ confirmed, e.1 < walNext

/-- The active block holds confirmed batches in order. -/
structure ActiveInv : Prop where
  valid : cache.active.Valid
  sorted : cache.active.Sorted
  maxSize : 0 < cache.active.maxSize
  cacheBlockMaxSize : 0 < cache.cacheBlockMaxSize
  last : ∀ o, cache.lastRecordOffset = some o ∨ cache.active.lastRecordOffset = some o →
    o < walNext
  fromLog : ∀ streamId, ∀ r ∈ cache.active.recordsOf streamId, r ∈ confirmed.map Prod.snd

/-- A block on its way to a commit. -/
structure QueuedInv (b : LogCacheBlock) : Prop where
  sorted : b.Sorted
  count : 0 < b.maxStreamCount
  last : ∀ o, b.lastRecordOffset = some o → o < walNext

/-- Blocks and tasks are told apart by their numbers. -/
structure IdsInv (tasks : OrdMap Nat TaskContext) (unsubmitted : List (Owner × LogCacheBlock))
    (queued : List Nat) : Prop where
  below : ∀ (id : Nat) (task : TaskContext), tasks[id]? = some task → id < cache.active.blockId
  nodup : (unsubmitted.map fun e => e.2.blockId).Nodup
  fresh : ∀ e ∈ unsubmitted, e.2.blockId < cache.active.blockId ∧ tasks[e.2.blockId]? = none
  known : ∀ id ∈ queued, ∃ task, tasks[id]? = some task
  active : cache.active.blockId < cache.nextBlockId

end

/-- Records are numbered in the order of the log wherever they are. -/
structure NodeInv (sys : Sys) : Prop where
  order : OrderInv sys.rows sys.streams sys.wal sys.confirmed sys.walNext
  active : ActiveInv sys.confirmed sys.walNext sys.cache
  queued : ∀ e ∈ sys.unsubmitted, QueuedInv sys.walNext e.2
  tasks : ∀ (id : Nat) (task : TaskContext), sys.tasks[id]? = some task →
    QueuedInv sys.walNext task.block
  ids : IdsInv sys.cache sys.tasks sys.unsubmitted (sys.commitQueue ++ sys.prepareQueue)

/-! ### Streams and rows -/

section

variable {rows rows' : OrdMap Nat Row} {streams : OrdMap Nat S3Stream}
  {wal : List StreamRecordBatch} {confirmed : List (Nat × StreamRecordBatch)} {walNext : Nat}

/-- A stream may be replaced by one whose next offset is not smaller. -/
theorem OrderInv.setStream (h : OrderInv rows streams wal confirmed walNext) {streamId : Nat}
    {stream stream' : S3Stream} (hstream : streams[streamId]? = some stream)
    (hle : stream.nextOffset ≤ stream'.nextOffset) :
  OrderInv rows (streams.insert streamId stream') wal confirmed walNext
  := by
  refine { h with nextOffset := ?_, hasRow := ?_ }
  · intro r hr
    obtain ⟨found, hfound, hlast⟩ := h.nextOffset r hr
    rw [lookup_insert]
    split
    next heq =>
      subst heq
      cases hstream.symm.trans hfound
      exact ⟨stream', rfl, Nat.le_trans hlast hle⟩
    next => exact ⟨found, hfound, hlast⟩
  · exact forall_insert (h.hasRow streamId stream hstream) h.hasRow

/-- Rows may go forward. -/
theorem OrderInv.setRows (h : OrderInv rows streams wal confirmed walNext)
    (hle : RowsLe rows rows') :
  OrderInv rows' streams wal confirmed walNext
  := by
  refine { h with hasRow := ?_ }
  intro streamId stream hstream
  obtain ⟨row, hrow⟩ := h.hasRow streamId stream hstream
  obtain ⟨row', hrow', -⟩ := hle streamId row hrow
  exact ⟨row', hrow'⟩

end

variable {sys sys' : Sys} {streamId : Nat}

section

variable (h : NodeInv sys)

include h

theorem NodeInv.setStream {stream stream' : S3Stream}
    (hstream : sys.streams[streamId]? = some stream) (hle : stream.nextOffset ≤ stream'.nextOffset) :
  NodeInv (sys.setStream streamId stream')
  := { h with order := h.order.setStream hstream hle }

theorem NodeInv.setRows {rows : OrdMap Nat Row} (hle : RowsLe sys.rows rows) :
  NodeInv { sys with rows }
  := { h with order := h.order.setRows hle }

theorem NodeInv.completeAppend (streamId : Nat) (ok : Bool) :
  NodeInv (sys.completeAppend streamId ok)
  := by
  rcases completeAppend_cases sys streamId ok with ⟨-, heq⟩ | ⟨stream, hstream, heq⟩
  · rw [heq]
    exact h
  · rw [heq]
    exact h.setStream hstream (le_refl _)

theorem NodeInv.openStream (hstep : sys.openStream streamId = some sys') :
  NodeInv sys'
  := by
  obtain ⟨hrow, rfl⟩ := openStream_cases hstep
  have hle : RowsLe sys.rows (sys.rows.insert streamId ⟨0, true⟩) := by
    apply rowsLe_insert
    intro row hrow'
    cases hrow.symm.trans hrow'
  have hnew : ∀ (stream : S3Stream), sys.streams[streamId]? ≠ some stream := by
    intro stream hstream
    obtain ⟨row, hrow'⟩ := h.order.hasRow streamId stream hstream
    cases hrow.symm.trans hrow'
  have h := h.setRows hle
  refine { h with order := { h.order with nextOffset := ?_, hasRow := ?_ } }
  · intro r hr
    obtain ⟨stream, hstream, hlast⟩ := h.order.nextOffset r hr
    rw [lookup_insert]
    split
    next heq => exact absurd (heq ▸ hstream) (hnew stream)
    next => exact ⟨stream, hstream, hlast⟩
  · intro k stream hstream
    rcases lookup_insert_cases hstream with ⟨rfl, -⟩ | ⟨-, hstream⟩
    · rw [lookup_insert, if_pos rfl]
      exact ⟨_, rfl⟩
    · exact h.order.hasRow k stream hstream

/-- A record enters the log behind all others of its stream. -/
theorem NodeInv.append {count : Nat} {payload : List UInt8}
    (hstep : sys.append streamId count payload = some sys') :
  NodeInv sys'
  := by
  obtain ⟨stream, hstream, -, -, rfl⟩ := append_cases hstep
  have hstay : ∀ r, r ∈ sys.wal ∨ r ∈ sys.confirmed.map Prod.snd →
      Before r ⟨streamId, stream.nextOffset, asI32 count, payload⟩ := by
    intro r hr hsame
    obtain ⟨stream', hstream', hlast⟩ := h.order.nextOffset r hr
    have hsame : r.streamId = streamId := hsame
    rw [hsame] at hstream'
    cases hstream.symm.trans hstream'
    exact hlast
  have hlast : stream.nextOffset + (asI32 count).natAbs ≤ stream.nextOffset + count := by
    unfold asI32
    split <;> omega
  have hle : stream.nextOffset ≤ stream.nextOffset + count := Nat.le_add_right _ _
  have hset : NodeInv (sys.setStream streamId { stream with
      nextOffset := stream.nextOffset + count
      admitted := stream.admitted - 1 }) := h.setStream hstream hle
  refine { hset with order := { hset.order with sorted := ?_, after := ?_, nextOffset := ?_ } }
  · apply pairwise_append.mpr
    refine ⟨h.order.sorted, pairwise_singleton _ _, ?_⟩
    intro r hr r' hr'
    rw [mem_singleton.mp hr']
    exact hstay r (.inl hr)
  · intro e he r hr
    rcases mem_append.mp hr with hr | hr
    · exact h.order.after e he r hr
    · rw [mem_singleton.mp hr]
      exact hstay e.2 (.inr (mem_map_of_mem he))
  · intro r hr
    rcases hr with hr | hr
    · rcases mem_append.mp hr with hr | hr
      · exact hset.order.nextOffset r (.inl hr)
      · obtain rfl := mem_singleton.mp hr
        rw [Sys.setStream, lookup_insert, if_pos rfl]
        exact ⟨_, rfl, hlast⟩
    · exact hset.order.nextOffset r (.inr hr)

end

variable {i : Nat}

theorem NodeInv.walFail (h : NodeInv sys) (hstep : sys.walFail i = some sys') :
  NodeInv sys'
  := by
  obtain ⟨r, -, rfl⟩ := walFail_cases hstep
  apply NodeInv.completeAppend
  have hsub := eraseIdx_sublist sys.wal i
  refine { h with order := { h.order with sorted := ?_, after := ?_, nextOffset := ?_ } }
  · exact h.order.sorted.sublist hsub
  · intro e he r hr
    exact h.order.after e he r (hsub.subset hr)
  · intro r hr
    exact h.order.nextOffset r (hr.imp_left fun hr => hsub.subset hr)

/-! ### Sealing -/

/-- A block that is about to be sealed can join the queue. -/
theorem ActiveInv.queued (h : ActiveInv sys.confirmed sys.walNext sys.cache)
    (hentry : 0 < sys.cache.active.size ∨ streamId ∈ sys.cache.active.map) :
  QueuedInv sys.walNext sys.cache.sealedActive
  where
  sorted := h.sorted
  count := h.valid.count_pos hentry
  last o ho := by
    apply h.last o
    simp only [sealedActive, Option.or_eq_some_iff] at ho
    exact ho.imp_right And.right

/-- A fresh active block. -/
theorem ActiveInv.fresh (h : ActiveInv sys.confirmed sys.walNext sys.cache) {cache : LogCache}
    (hactive : cache.active = sys.cache.freshBlock)
    (hmax : cache.cacheBlockMaxSize = sys.cache.cacheBlockMaxSize)
    (hlast : cache.lastRecordOffset = sys.cache.lastRecordOffset) :
  ActiveInv sys.confirmed sys.walNext cache
  where
  valid := hactive ▸ sys.cache.valid_freshBlock
  sorted streamId := by simp [hactive, recordsOf_freshBlock]
  maxSize := hactive ▸ h.cacheBlockMaxSize
  cacheBlockMaxSize := hmax ▸ h.cacheBlockMaxSize
  last o ho := by
    rw [hactive, hlast] at ho
    rcases ho with ho | ho
    · exact h.last o (.inl ho)
    · cases ho
  fromLog streamId r hr := by simp [hactive, recordsOf_freshBlock] at hr

/-- The cache may change as long as its active block keeps its number. -/
theorem NodeInv.setCache (h : NodeInv sys) {cache : LogCache}
    (hactive : ActiveInv sys.confirmed sys.walNext cache)
    (hid : cache.active.blockId = sys.cache.active.blockId)
    (hnext : sys.cache.nextBlockId ≤ cache.nextBlockId) :
  NodeInv { sys with cache }
  := by
  refine { h with
    active := hactive
    ids := { h.ids with below := ?_, fresh := ?_, active := ?_ } }
  · exact hid ▸ h.ids.below
  · exact hid ▸ h.ids.fresh
  · exact hid ▸ Nat.lt_of_lt_of_le h.ids.active hnext

/-- Sealing the active block on behalf of anyone. -/
theorem NodeInv.archive (h : NodeInv sys) {archived : Option LogCacheBlock} {cache : LogCache}
    (harchive : sys.cache.archiveCurrentBlockIfContains streamId = (archived, cache))
    (owner : Owner) :
  NodeInv (sys.archive owner archived cache)
  := by
  rcases archive_cases harchive with ⟨rfl, rfl, -⟩ | ⟨rfl, hentry, rfl⟩
  · rw [archive_none]
    exact h
  · have hlt := h.ids.active
    refine { h with active := h.active.fresh rfl rfl rfl, queued := ?_, ids := ?_ }
    · intro e he
      rcases mem_append.mp he with he | he
      · exact h.queued e he
      · rw [mem_singleton.mp he]
        exact h.active.queued hentry
    · refine { h.ids with below := ?_, nodup := ?_, fresh := ?_, active := Nat.lt_succ_self _ }
      · intro id task htask
        exact Nat.lt_trans (h.ids.below id task htask) hlt
      · rw [Sys.archive, map_append]
        apply nodup_append.mpr
        refine ⟨h.ids.nodup, nodup_singleton _, ?_⟩
        intro id hid id' hid' heq
        obtain ⟨e, he, rfl⟩ := mem_map.mp hid
        rw [mem_singleton.mp hid'] at heq
        exact absurd heq (Nat.ne_of_lt (h.ids.fresh e he).1)
      · intro e he
        rcases mem_append.mp he with he | he
        · obtain ⟨hbelow, hnone⟩ := h.ids.fresh e he
          exact ⟨Nat.lt_trans hbelow hlt, hnone⟩
        · rw [mem_singleton.mp he]
          refine ⟨hlt, ?_⟩
          cases htask : sys.tasks[sys.cache.active.blockId]? with
          | none => exact htask
          | some task => exact absurd (h.ids.below _ task htask) (Nat.lt_irrefl _)

/-! ### Confirming a record -/

variable {c : LogCache}

theorem ActiveInv.mono {confirmed confirmed' : List (Nat × StreamRecordBatch)}
    {walNext walNext' : Nat} (h : ActiveInv confirmed walNext c)
    (hsubset : confirmed ⊆ confirmed') (hle : walNext ≤ walNext') :
  ActiveInv confirmed' walNext' c
  := by
  refine { h with last := ?_, fromLog := ?_ }
  · intro o ho
    exact Nat.lt_of_lt_of_le (h.last o ho) hle
  · intro streamId r hr
    exact map_subset Prod.snd hsubset (h.fromLog streamId r hr)

variable {r : StreamRecordBatch}

/-- A batch that is added to the active block comes after those of its stream. -/
theorem ActiveInv.put {confirmed : List (Nat × StreamRecordBatch)} {walNext : Nat} {c' : LogCache}
    {added : Bool} (h : ActiveInv confirmed walNext c) (hput : c.put r = (c', added))
    (hr : added = true → r ∈ confirmed.map Prod.snd ∧ ∀ a ∈ c.active.recordsOf r.streamId,
      Before a r) :
  ActiveInv confirmed walNext c'
  := by
  obtain ⟨hactive, hlast, hmax, -, -⟩ := put_eq hput
  obtain ⟨-, hmaxSize, -, hactiveLast⟩ := put_same hactive
  have hrecords := recordsOf_put hactive
  constructor
  · exact h.valid.put hactive
  · intro streamId
    rw [hrecords]
    split
    next hadded =>
      obtain ⟨hadded, rfl⟩ := hadded
      obtain ⟨hsorted, hstream⟩ := h.sorted r.streamId
      simp only [pairwise_append, pairwise_singleton, forall_mem_append,
        mem_singleton, forall_eq, true_and, and_true]
      exact ⟨⟨hsorted, (hr hadded).2⟩, hstream⟩
    next => exact h.sorted streamId
  · rw [hmaxSize]
    exact h.maxSize
  · rw [hmax]
    exact h.cacheBlockMaxSize
  · rw [hactiveLast, hlast]
    exact h.last
  · intro streamId a ha
    rw [hrecords] at ha
    split at ha
    next hadded =>
      rcases mem_append.mp ha with ha | ha
      · exact h.fromLog streamId a ha
      · rw [mem_singleton.mp ha]
        exact (hr hadded.1).1
    next => exact h.fromLog streamId a ha

theorem NodeInv.putRefused (h : NodeInv sys) {cache : LogCache}
    (hput : sys.cache.put r = (cache, false)) :
  NodeInv { sys with cache }
  := by
  obtain ⟨hactive, -, -, hnext, -⟩ := put_eq hput
  apply h.setCache
  · exact h.active.put hput nofun
  · exact (put_same hactive).1
  · exact Nat.le_of_eq hnext.symm

/-- The log hands over its first record. -/
theorem OrderInv.confirm (h : OrderInv sys.rows sys.streams sys.wal sys.confirmed sys.walNext)
    {wal : List StreamRecordBatch} (hwal : sys.wal = r :: wal) :
  OrderInv sys.rows sys.streams wal ((sys.walNext, r) :: sys.confirmed) (sys.walNext + 1)
  := by
  obtain ⟨hafter, hsorted⟩ := pairwise_cons.mp (hwal ▸ h.sorted)
  have hmem : ∀ x ∈ wal, x ∈ sys.wal := by
    intro x hx
    rw [hwal]
    exact mem_cons_of_mem r hx
  refine { h with sorted := hsorted, after := ?_, nextOffset := ?_, offsets := ?_ }
  · intro e he x hx
    rcases mem_cons.mp he with rfl | he
    · exact hafter x hx
    · exact h.after e he x (hmem x hx)
  · intro x hx
    apply h.nextOffset x
    rcases hx with hx | hx
    · exact .inl (hmem x hx)
    · rcases mem_cons.mp hx with rfl | hx
      · left
        rw [hwal]
        exact mem_cons_self
      · exact .inr hx
  · intro e he
    rcases mem_cons.mp he with rfl | he
    · exact Nat.lt_succ_self sys.walNext
    · exact Nat.lt_succ_of_lt (h.offsets e he)

theorem QueuedInv.mono {walNext walNext' : Nat} {b : LogCacheBlock} (h : QueuedInv walNext b)
    (hle : walNext ≤ walNext') :
  QueuedInv walNext' b
  := { h with last := fun o ho => Nat.lt_of_lt_of_le (h.last o ho) hle }

/-- The state after the last put of the next record of the log. -/
def Sys.putLast (sys : Sys) (r : StreamRecordBatch) (wal : List StreamRecordBatch)
    (cache : LogCache) : Sys :=
  { sys with
    cache := cache.setLastRecordOffset sys.walNext
    wal
    walNext := sys.walNext + 1
    confirmed := (sys.walNext, r) :: sys.confirmed }

/-- A confirmed record comes last in the active block. -/
theorem NodeInv.putLast (h : NodeInv sys) {cache : LogCache} {wal : List StreamRecordBatch}
    {added : Bool} (hwal : sys.wal = r :: wal) (hput : sys.cache.put r = (cache, added)) :
  NodeInv (sys.putLast r wal cache)
  := by
  obtain ⟨hactive, -, -, hnext, -⟩ := put_eq hput
  have hid := (put_same hactive).1
  have hr : r ∈ sys.wal := hwal ▸ mem_cons_self
  have hbefore : ∀ a ∈ sys.cache.active.recordsOf r.streamId, Before a r := by
    intro a ha
    obtain ⟨e, he, rfl⟩ := mem_map.mp (h.active.fromLog r.streamId a ha)
    exact h.order.after e he r hr
  have hinv : ActiveInv ((sys.walNext, r) :: sys.confirmed) (sys.walNext + 1) cache :=
    (h.active.mono (subset_cons_self _ _) (Nat.le_succ _)).put hput
      fun _ => ⟨mem_cons_self, hbefore⟩
  constructor
  · exact h.order.confirm hwal
  · refine { hinv with last := ?_ }
    rintro o (ho | ho)
    · rw [← Option.some.inj ho]
      exact Nat.lt_succ_self sys.walNext
    · exact hinv.last o (.inr ho)
  · intro e he
    exact (h.queued e he).mono (Nat.le_succ _)
  · intro id task htask
    exact (h.tasks id task htask).mono (Nat.le_succ _)
  · refine { h.ids with below := ?_, fresh := ?_, active := ?_ }
    · exact hid ▸ h.ids.below
    · exact hid ▸ h.ids.fresh
    · exact hid ▸ hnext ▸ h.ids.active

/-- The step that takes a record from the log keeps the invariant, whatever the cache says. -/
theorem NodeInv.confirm (h : NodeInv sys) (hstep : sys.confirm = some sys') :
  NodeInv sys'
  := by
  obtain ⟨r, wal, cache, archived, added, hook, durable, -, hwal, hput, -, rfl⟩ :=
    confirm_cases hstep
  rcases putConfirmed_cases hput with
    ⟨c₁, hlast, rfl, rfl, rfl⟩ | ⟨c₁, c₂, c₃, hfirst, harchive, -, hlast, rfl⟩
  · rw [archive_none]
    exact { h.putLast hwal hlast with }
  · have hsealed := (h.putRefused hfirst).archive harchive Owner.hook
    exact { hsealed.putLast hwal hlast with }

/-! ### Tasks -/

variable {id : Nat} {task : TaskContext}

section

variable (h : NodeInv sys)

include h

/-- A task may change as long as its block stays. -/
theorem NodeInv.setTask (htask : sys.tasks[id]? = some task) (task' : TaskContext)
    (hblock : task'.block = task.block) :
  NodeInv { sys with tasks := sys.tasks.insert id task' }
  := by
  refine { h with
    tasks := ?_
    ids := { h.ids with below := ?_, fresh := ?_, known := ?_ } }
  · exact forall_insert (hblock ▸ h.tasks id task htask) h.tasks
  · exact forall_insert (h.ids.below id task htask) h.ids.below
  · intro e he
    obtain ⟨hlt, hnone⟩ := h.ids.fresh e he
    refine ⟨hlt, ?_⟩
    rw [lookup_insert, if_neg, hnone]
    intro heq
    rw [heq, hnone] at htask
    cases htask
  · intro k hk
    rw [lookup_insert]
    split
    next => exact ⟨_, rfl⟩
    next => exact h.ids.known k hk

theorem NodeInv.completeTask (id : Nat) (ok : Bool) :
  NodeInv (sys.completeTask id ok)
  := by
  unfold Sys.completeTask
  split
  next => exact h
  next task htask => exact h.setTask htask { task with cf := some ok } rfl

theorem NodeInv.submitted (owner : Owner) :
  NodeInv (sys.submitted owner)
  := by
  rcases submitted_cases sys owner with heq | ⟨_, _, -, hstream, heq⟩ | ⟨_, _, _, -, -, heq⟩
  · rw [heq]
    exact h
  · rw [heq]
    exact h.setStream hstream (le_refl _)
  · rw [heq]
    exact { h with }

variable {block : LogCacheBlock}

/-- A sealed block has no task yet, so that its task replaces none. -/
theorem NodeInv.lookup_enqueue {owner : Owner} (hentry : sys.unsubmitted[i]? = some (owner, block))
    (htask : sys.tasks[id]? = some task) :
  (sys.enqueue i block).tasks[id]? = some task
  := by
  obtain ⟨-, hnone⟩ := h.ids.fresh (owner, block) (mem_of_getElem? hentry)
  rw [Sys.enqueue, lookup_insert, if_neg, htask]
  rintro rfl
  rw [hnone] at htask
  cases htask

/-- A block keeps its records when it becomes a task. -/
theorem NodeInv.enqueue {owner : Owner} (hentry : sys.unsubmitted[i]? = some (owner, block)) :
  NodeInv (sys.enqueue i block)
  := by
  have hmem := mem_of_getElem? hentry
  obtain ⟨hlt, -⟩ := h.ids.fresh (owner, block) hmem
  have hsub := eraseIdx_sublist sys.unsubmitted i
  refine { h with queued := ?_, tasks := ?_, ids := ?_ }
  · intro e he
    exact h.queued e (hsub.subset he)
  · exact forall_insert (h.queued (owner, block) hmem) h.tasks
  · constructor
    · exact forall_insert hlt h.ids.below
    · exact h.ids.nodup.sublist (hsub.map _)
    · intro e he
      obtain ⟨hbelow, hfresh⟩ := h.ids.fresh e (hsub.subset he)
      refine ⟨hbelow, ?_⟩
      rw [Sys.enqueue, lookup_insert, if_neg, hfresh]
      intro heq
      obtain ⟨j, hne, hj⟩ := mem_eraseIdx_iff_getElem?.mp he
      have hid : ∀ {k : Nat} {e : Owner × LogCacheBlock}, sys.unsubmitted[k]? = some e →
          (sys.unsubmitted.map fun e => e.2.blockId)[k]? = some e.2.blockId := by
        intro k e hk
        rw [getElem?_map, hk]
        rfl
      have hlength := (List.getElem?_eq_some_iff.mp (hid hj)).1
      apply hne
      exact (getElem?_inj hlength h.ids.nodup).mp ((hid hj).trans (heq ▸ (hid hentry).symm))
    · intro id hid
      rw [Sys.enqueue, ← append_assoc] at hid
      rcases mem_append.mp hid with hid | hid
      · obtain ⟨task, htask⟩ := h.ids.known id hid
        exact ⟨task, h.lookup_enqueue hentry htask⟩
      · rw [mem_singleton.mp hid, Sys.enqueue, lookup_insert, if_pos rfl]
        exact ⟨_, rfl⟩
    · exact h.ids.active

/-- Tasks may leave and change queues. -/
theorem NodeInv.setQueues {commitQueue prepareQueue : List Nat}
    (hsub : commitQueue ++ prepareQueue ⊆ sys.commitQueue ++ sys.prepareQueue) :
  NodeInv { sys with commitQueue, prepareQueue }
  := { h with ids := { h.ids with known := fun id hid => h.ids.known id (hsub hid) } }

theorem NodeInv.prepare {ok : Bool} (hstep : sys.prepare ok = some sys') :
  NodeInv sys'
  := by
  obtain ⟨id, queue, hqueue, ⟨-, rfl⟩ | ⟨-, rfl⟩⟩ := prepare_cases hstep
  · apply h.setQueues
    simp [hqueue]
  · apply NodeInv.completeTask
    apply h.setQueues
    simp [hqueue]

/-- A commit makes the end offsets grow. -/
theorem NodeInv.rowsLe (htask : sys.tasks[id]? = some task) {rows : OrdMap Nat Row}
    (hrows : commitStreamSetObject sys.rows task.block = some rows) :
  RowsLe sys.rows rows
  := (commitStreamSetObject_spec (h.tasks id task htask).sorted hrows).1

/-- The commit of a block commits everything it holds. -/
theorem NodeInv.holds_committed (htask : sys.tasks[id]? = some task) {rows : OrdMap Nat Row}
    (hrows : commitStreamSetObject sys.rows task.block = some rows) (hr : task.block.Holds r) :
  Committed rows r
  := by
  have hqueued := h.tasks id task htask
  obtain ⟨-, hall, hnonempty⟩ := commitStreamSetObject_spec hqueued.sorted hrows
  rcases hr with hr | hzero | hempty
  · exact hall r hr
  · exact absurd hqueued.count (hzero ▸ Nat.lt_irrefl 0)
  · exact absurd hempty hnonempty

/-- A commit, answered or not, moves rows forward only. -/
theorem NodeInv.commit {reply : Reply} (hstep : sys.commit reply = some sys') :
  NodeInv sys'
  := by
  obtain ⟨id, queue, task, -, hqueue, htask, hcases⟩ := commit_cases hstep
  have hsub : queue ++ sys.prepareQueue ⊆ sys.commitQueue ++ sys.prepareQueue := by
    simp [hqueue]
  rcases hcases with ⟨-, rfl⟩ | ⟨-, rows, rfl | hrows, rfl⟩ | ⟨-, rows, hrows, rfl⟩
  · apply NodeInv.completeTask
    exact h.setQueues hsub
  · exact { h.setQueues hsub with }
  · exact { (h.setRows (h.rowsLe htask hrows)).setQueues hsub with }
  · exact { (h.setRows (h.rowsLe htask hrows)).setQueues hsub with }

end

theorem ActiveInv.sameActive {confirmed : List (Nat × StreamRecordBatch)} {walNext : Nat}
    {c' : LogCache} (h : ActiveInv confirmed walNext c) (hsame : c.SameActive c') :
  ActiveInv confirmed walNext c'
  := by
  constructor
  · exact hsame.active ▸ h.valid
  · exact hsame.active ▸ h.sorted
  · exact hsame.active ▸ h.maxSize
  · exact hsame.cacheBlockMaxSize ▸ h.cacheBlockMaxSize
  · exact hsame.active ▸ hsame.lastRecordOffset ▸ h.last
  · exact hsame.active ▸ h.fromLog

theorem NodeInv.markFree (h : NodeInv sys) (id : Nat) :
  NodeInv { sys with cache := sys.cache.markFree id }
  := by
  have hsame := sys.cache.sameActive_markFree id
  apply h.setCache (h.active.sameActive hsame)
  · rw [hsame.active]
  · exact hsame.nextBlockId

theorem NodeInv.commitDone (h : NodeInv sys) (hstep : sys.commitDone = some sys') :
  NodeInv sys'
  := by
  obtain ⟨id, ok, task, -, -, ⟨-, rfl⟩ | ⟨-, rfl⟩⟩ := commitDone_cases hstep
  · apply NodeInv.completeTask
    exact { h.markFree id with }
  · apply NodeInv.completeTask
    exact { h with }

/-! ### Runs -/

theorem NodeInv.moved (h : NodeInv sys) {stream : S3Stream} {operable : Bool} {closing : Closing}
    (hmoved : Moved sys streamId stream operable closing sys') :
  NodeInv sys'
  := by
  obtain ⟨hstream, rfl⟩ := hmoved
  exact h.setStream hstream (le_refl _)

/-- Every step keeps the invariant. -/
theorem NodeInv.step (h : NodeInv sys) {a : Action} (hstep : step sys a = some sys') :
  NodeInv sys'
  := by
  cases a with
  | openStream streamId => exact h.openStream hstep
  | startAppend streamId =>
    obtain ⟨stream, hstream, -, rfl⟩ := startAppend_cases hstep
    exact h.setStream hstream (le_refl _)
  | append streamId count payload => exact h.append hstep
  | walFail i => exact h.walFail hstep
  | confirm => exact h.confirm hstep
  | hookRetry =>
    obtain ⟨r, archived, cache, hook, durable, -, harchive, -, rfl⟩ := hookRetry_cases hstep
    exact { h.archive harchive Owner.hook with }
  | ack i =>
    obtain ⟨r, -, rfl⟩ := ack_cases hstep
    apply NodeInv.completeAppend
    exact { h with }
  | upload streamId =>
    obtain ⟨archived, cache, harchive, rfl⟩ := upload_cases hstep
    exact h.archive harchive Owner.upload
  | submit i =>
    obtain ⟨owner, block, hentry, rfl⟩ := submit_cases hstep
    exact (h.enqueue hentry).submitted owner
  | prepare ok => exact h.prepare hstep
  | uploaded id ok =>
    obtain ⟨task, htask, rfl⟩ := uploaded_cases hstep
    exact h.setTask htask { task with uploadDone := some ok } rfl
  | removeInflight id =>
    obtain ⟨task, -, -, rfl⟩ := removeInflight_cases hstep
    exact { h with }
  | commit reply => exact h.commit hstep
  | commitDone => exact h.commitDone hstep
  | trim i =>
    obtain ⟨offset, -, rfl⟩ := trim_cases hstep
    exact { h with }
  | close streamId =>
    obtain ⟨stream, hmoved, -⟩ := close_moved hstep
    exact h.moved hmoved
  | drained streamId =>
    obtain ⟨stream, hmoved, -⟩ := drained_moved hstep
    exact h.moved hmoved
  | closeSeal streamId =>
    obtain ⟨stream, archived, cache, hstream, -, harchive, rfl⟩ := closeSeal_cases hstep
    exact (h.archive harchive (Owner.close streamId)).setStream hstream (le_refl _)
  | collect streamId =>
    obtain ⟨stream, hmoved, -⟩ := collect_moved hstep
    exact h.moved hmoved
  | awaitTask streamId =>
    obtain ⟨stream, ids, closing, hmoved, -⟩ := awaitTask_moved hstep
    exact h.moved hmoved
  | closeStream streamId reply =>
    obtain ⟨rows, ok, stream, hle, hmoved, -⟩ := closeStream_cases hstep
    exact (h.setRows hle).moved hmoved

theorem recordsOf_start (capacity cacheBlockMaxSize maxCacheBlockStreamCount streamId : Nat) :
  (Sys.start capacity cacheBlockMaxSize maxCacheBlockStreamCount).cache.active.recordsOf streamId
    = []
  := by
  simp [Sys.start, new, recordsOf]

/-- A new node has nothing to order. -/
theorem nodeInv_start (capacity cacheBlockMaxSize maxCacheBlockStreamCount : Nat) :
  NodeInv (Sys.start capacity cacheBlockMaxSize maxCacheBlockStreamCount)
  := by
  have hrecords := recordsOf_start capacity cacheBlockMaxSize maxCacheBlockStreamCount
  have hpos : 0 < max cacheBlockMaxSize 1 := by omega
  refine ⟨⟨?_, ?_, ?_, ?_, ?_⟩, ⟨?_, ?_, hpos, hpos, ?_, ?_⟩, ?_, ?_,
    ⟨?_, ?_, ?_, ?_, Nat.zero_lt_one⟩⟩
  · exact List.Pairwise.nil
  · nofun
  · rintro r (hr | hr) <;> cases hr
  · intro streamId stream hstream
    simp [Sys.start] at hstream
  · nofun
  · -- the first block is like one that follows a sealed block
    exact valid_freshBlock { Sys.cache (Sys.start capacity cacheBlockMaxSize
      maxCacheBlockStreamCount) with nextBlockId := 0 }
  · intro streamId
    rw [hrecords]
    exact ⟨List.Pairwise.nil, nofun⟩
  · rintro o (ho | ho) <;> cases ho
  · intro streamId r hr
    rw [hrecords] at hr
    cases hr
  · nofun
  · intro id task htask
    simp [Sys.start] at htask
  · intro id task htask
    simp [Sys.start] at htask
  · exact nodup_nil
  · nofun
  · nofun

end Storage
