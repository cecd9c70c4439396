import StreamStack.Storage.Accepted
import StreamStack.Storage.Upload

/-!
# The pipeline and the metadata plane

The pipeline keeps of the metadata only the ends of the streams. Here it runs beside the metadata
plane: streams are created and opened there, the ids of a task are prepared there, and the commit
worker sends the request that the upload of the task has made. A request that the metadata plane
refuses is a call that fails. As long as the rows of the pipeline and those of the metadata plane
agree, and the ids that were prepared are not in use, the one accepts a task exactly where the other
accepts its request.
-/

namespace Storage

open OrdMap Run List
open Metadata (MetadataState MetadataCommand CommitStreamSetObjectRequest CommittedId Commits
  nodeEpochCheck nodeEpochCheck_of_nodes apply_ok_iff noopObjectId)

/-! ### The node beside the metadata plane -/

/-- The node, the metadata, and the first ids of the tasks that wait for their commit. -/
structure Plane where
  sys : Sys
  state : MetadataState
  prepared : List UInt64 := []

/-- The state after a command that is accepted. -/
def ask (state : MetadataState) (command : MetadataCommand) : Option MetadataState :=
  match Metadata.apply state command with
  | some (state, .ok _) => some state
  | _ => none

/-- The task whose request the commit worker sends next. -/
def Sys.issuing (sys : Sys) : Option TaskContext :=
  match sys.commitWorker, sys.commitQueue with
  | .idle, id :: _ => (sys.tasks[id]?).filter fun task =>
      ¬ sys.poisoned ∧ task.uploadDone = some true
  | _, _ => none

namespace Plane

variable (u : Uploader)

/-- Send a command. When it is refused, the call fails. -/
def call (p : Plane) (command : MetadataCommand) (reply : Reply) (go : Reply → Option Sys) :
    Option Plane :=
  match reply, ask p.state command with
  | .failed, _ => (go .failed).map fun sys => { p with sys }
  | _, none => (go .failed).map fun sys => { p with sys }
  | reply, some state => (go reply).map fun sys => { p with sys, state }

/-- A step of the node at a time, with the commands that it sends. -/
def step (p : Plane) (e : Int64 × Action) : Option Plane :=
  match e.2 with
  | .openStream streamId => do
      let state ← ask p.state (.createStream u.nodeId u.nodeEpoch)
      let state ← ask state (.openStream u.nodeId u.nodeEpoch (UInt64.ofNat streamId) 0)
      -- the id of the stream is the one that was handed out
      if streamId = p.state.nextStreamId.toNat then
        (Storage.step p.sys (.openStream streamId)).map fun sys => { p with sys, state }
      else none
  | .prepare true => do
      let id ← p.sys.prepareQueue.head?
      let task ← p.sys.tasks[id]?
      let count := UInt32.ofNat (u.plan task.block).objectCount
      match Metadata.apply p.state
        (.prepareObject u.nodeId u.nodeEpoch count (60 * 60 * 1000) e.1) with
      | some (state, .ok (.id objectId)) => (Storage.step p.sys (.prepare true)).map fun sys =>
          { sys, state, prepared := p.prepared ++ [objectId] }
      | _ => none
  | .commit reply =>
      let rest := { p with prepared := p.prepared.tail }
      match p.sys.issuing with
      | none => (Storage.step p.sys (.commit reply)).map fun sys => { rest with sys }
      | some task => do
          let objectId ← p.prepared.head?
          let request ← (u.plan task.block).commitRequest u objectId
          rest.call (.commitStreamSetObject u.nodeId u.nodeEpoch request e.1) reply
            fun reply => Storage.step p.sys (.commit reply)
  | .closeStream streamId reply =>
      p.call (.closeStream u.nodeId u.nodeEpoch (UInt64.ofNat streamId) 0) reply
        fun reply => Storage.step p.sys (.closeStream streamId reply)
  | a => (Storage.step p.sys a).map fun sys => { p with sys }

def run (p : Plane) (events : List (Int64 × Action)) : Option Plane := events.foldlM (step u) p

end Plane

/-- The condition on a step: that of the node, and a task has fewer than 2³² objects. -/
def PlaneSafe (u : Uploader) (p : Plane) (e : Int64 × Action) : Prop :=
  AcceptSafe p.sys e.2 ∧ (e.2 = .prepare true → ∀ id ∈ p.sys.prepareQueue.head?,
    ∀ task ∈ p.sys.tasks[id]?, (u.plan task.block).objectCount < 2 ^ 32)

instance (u : Uploader) (p : Plane) : DecidablePred (PlaneSafe u p) :=
  fun _ => inferInstanceAs (Decidable (_ ∧ _))

variable {u : Uploader} {block : LogCacheBlock} {ranges : List CommitRange} {objectId : UInt64}

/-! ### Agreement -/

/-- The blocks of the tasks that wait for their commit. -/
def Sys.commitBlocks (sys : Sys) : List LogCacheBlock :=
  sys.commitQueue.filterMap fun id => (sys.tasks[id]?).map TaskContext.block

/-- The ids that blocks will commit, from the first ones of each on. -/
def reserved (u : Uploader) (blocks : List LogCacheBlock) (prepared : List UInt64) : List UInt64 :=
  (blocks.zip prepared).flatMap fun e => taskIds e.2 (u.plan e.1).objectCount

theorem reserved_cons (u : Uploader) (block : LogCacheBlock) (blocks : List LogCacheBlock)
    (objectId : UInt64) (prepared : List UInt64) :
  reserved u (block :: blocks) (objectId :: prepared) =
    taskIds objectId (u.plan block).objectCount ++ reserved u blocks prepared
  := by
  rw [reserved, zip_cons_cons, flatMap_cons]
  rfl

/-- Ids below an id of the metadata plane are told apart there. -/
theorem ofNat_inj_of_lt {k k' : Nat} {bound : UInt64} (hk : k < bound.toNat) (hk' : k' < bound.toNat)
    (heq : UInt64.ofNat k = UInt64.ofNat k') :
  k = k'
  := by
  have hbound := UInt64.toNat_lt bound
  have hsame := congrArg UInt64.toNat heq
  rwa [UInt64.toNat_ofNat_of_lt' (hk.trans hbound),
    UInt64.toNat_ofNat_of_lt' (hk'.trans hbound)] at hsame

/-- The rows of the node and those of the metadata plane agree on the ends of the streams, and the
ids that were prepared are not in use. -/
structure AgreesInv (u : Uploader) (p : Plane) : Prop where
  node : nodeEpochCheck p.state u.nodeId u.nodeEpoch = .ok ()
  ends : ∀ k e, p.sys.ends k = some e → k < p.state.nextStreamId.toNat ∧
    (p.state.streams[UInt64.ofNat k]?).map Metadata.StreamRow.endOffset = some (UInt64.ofNat e)
  prepared : p.prepared.length = p.sys.commitBlocks.length
  nodup : (reserved u p.sys.commitBlocks p.prepared).Nodup
  free : ∀ id ∈ reserved u p.sys.commitBlocks p.prepared, ¬ CommittedId p.state id ∧
    id < p.state.nextObjectId
  committed : ∀ id, CommittedId p.state id → id < p.state.nextObjectId

/-- The ends of the streams and the blocks that wait for their commit are the same. -/
structure Steady (sys sys' : Sys) : Prop where
  ends : sys'.ends = sys.ends
  commitBlocks : sys'.commitBlocks = sys.commitBlocks

section

variable {sys sys' sys'' : Sys}

theorem Steady.trans (h : Steady sys sys') (h' : Steady sys' sys'') :
  Steady sys sys''
  := ⟨h'.ends.trans h.ends, h'.commitBlocks.trans h.commitBlocks⟩

theorem steady_of_sameFlow (h : SameFlow sys sys') :
  Steady sys sys'
  := by
  obtain ⟨streams, wal, hook, durable, acked, rfl⟩ := h
  exact ⟨rfl, rfl⟩

theorem steady_setTask {id : Nat} {task : TaskContext} (htask : sys.tasks[id]? = some task)
    (task' : TaskContext) (hblock : task'.block = task.block) :
  Steady sys { sys with tasks := sys.tasks.insert id task' }
  := by
  refine ⟨rfl, filterMap_congr fun k _ => ?_⟩
  rw [lookup_insert]
  split
  next heq =>
    subst heq
    rw [htask, Option.map_some, Option.map_some, hblock]
  next => rfl

theorem steady_completeTask (sys : Sys) (id : Nat) (ok : Bool) :
  Steady sys (sys.completeTask id ok)
  := by
  unfold Sys.completeTask
  split
  next => exact ⟨rfl, rfl⟩
  next task htask => exact steady_setTask htask { task with cf := some ok } rfl

theorem steady_enqueue (hnode : NodeInv sys) {i : Nat} {owner : Owner} {block : LogCacheBlock}
    (hentry : sys.unsubmitted[i]? = some (owner, block)) :
  Steady sys (sys.enqueue i block)
  := by
  refine ⟨rfl, filterMap_congr fun id hid => ?_⟩
  obtain ⟨task, htask⟩ := hnode.ids.known id (mem_append_left _ hid)
  rw [hnode.lookup_enqueue hentry htask, htask]

theorem steady_closeStream {streamId : Nat} {reply : Reply}
    (hstep : sys.closeStream streamId reply = some sys') :
  Steady sys sys'
  := by
  have hclosed : Steady sys (sys.closeRow streamId) := by
    refine ⟨ends_closeRow sys streamId, ?_⟩
    obtain ⟨rows, -, heq⟩ := closeRow_eq sys streamId
    rw [heq]
    rfl
  obtain ⟨stream, hstream, hstep⟩ := Option.bind_eq_some_iff.mp hstep
  split at hstep
  next =>
    cases reply with
    | answered =>
      cases hstep
      exact ⟨hclosed.ends, hclosed.commitBlocks⟩
    | failed =>
      cases hstep
      exact ⟨rfl, rfl⟩
    | lost =>
      cases hstep
      exact ⟨hclosed.ends, hclosed.commitBlocks⟩
  next => cases hstep

/-- Only opening a stream changes the ends besides a commit, and only a preparation and a commit
change what waits. -/
theorem steady_step (hnode : NodeInv sys) {a : Action} (hopen : ∀ k, a ≠ .openStream k)
    (hprepare : ∀ ok, a ≠ .prepare ok) (hcommit : ∀ reply, a ≠ .commit reply)
    (hstep : step sys a = some sys') :
  Steady sys sys'
  := by
  cases a with
  | openStream k => exact absurd rfl (hopen k)
  | prepare ok => exact absurd rfl (hprepare ok)
  | commit reply => exact absurd rfl (hcommit reply)
  | startAppend streamId =>
    obtain ⟨stream, -, -, rfl⟩ := startAppend_cases hstep
    exact ⟨rfl, rfl⟩
  | append streamId count payload =>
    obtain ⟨stream, -, -, -, rfl⟩ := append_cases hstep
    exact ⟨rfl, rfl⟩
  | walFail i =>
    obtain ⟨r, -, rfl⟩ := walFail_cases hstep
    obtain ⟨hends, hblocks⟩ := steady_of_sameFlow (sameFlow_completeAppend
      { sys with wal := sys.wal.eraseIdx i } r.streamId false)
    exact ⟨hends, hblocks⟩
  | confirm =>
    obtain ⟨r, wal, cache, archived, added, hook, durable, -, -, -, -, rfl⟩ := confirm_cases hstep
    exact ⟨rfl, rfl⟩
  | hookRetry =>
    obtain ⟨r, archived, cache, hook, durable, -, -, -, rfl⟩ := hookRetry_cases hstep
    exact ⟨rfl, rfl⟩
  | ack i =>
    obtain ⟨r, -, rfl⟩ := ack_cases hstep
    obtain ⟨hends, hblocks⟩ := steady_of_sameFlow (sameFlow_completeAppend
      { sys with durable := sys.durable.eraseIdx i, acked := r :: sys.acked } r.streamId true)
    exact ⟨hends, hblocks⟩
  | upload streamId =>
    obtain ⟨archived, cache, -, rfl⟩ := upload_cases hstep
    exact ⟨rfl, rfl⟩
  | submit i =>
    obtain ⟨owner, block, hentry, rfl⟩ := submit_cases hstep
    exact (steady_enqueue hnode hentry).trans (steady_of_sameFlow (sameFlow_submitted _ owner))
  | uploaded id ok =>
    obtain ⟨task, htask, rfl⟩ := uploaded_cases hstep
    exact steady_setTask htask { task with uploadDone := some ok } rfl
  | removeInflight id =>
    obtain ⟨task, -, -, rfl⟩ := removeInflight_cases hstep
    exact ⟨rfl, rfl⟩
  | commitDone =>
    obtain ⟨id, ok, task, -, -, ⟨-, rfl⟩ | ⟨-, rfl⟩⟩ := commitDone_cases hstep
    · obtain ⟨hends, hblocks⟩ := steady_completeTask _ id true
      exact ⟨hends, hblocks⟩
    · obtain ⟨hends, hblocks⟩ := steady_completeTask _ id false
      exact ⟨hends, hblocks⟩
  | trim i =>
    obtain ⟨offset, -, rfl⟩ := trim_cases hstep
    exact ⟨rfl, rfl⟩
  | close streamId =>
    obtain ⟨stream, ⟨-, rfl⟩, -⟩ := close_moved hstep
    exact ⟨rfl, rfl⟩
  | drained streamId =>
    obtain ⟨stream, ⟨-, rfl⟩, -⟩ := drained_moved hstep
    exact ⟨rfl, rfl⟩
  | closeSeal streamId =>
    obtain ⟨stream, archived, cache, -, -, -, rfl⟩ := closeSeal_cases hstep
    exact ⟨rfl, rfl⟩
  | collect streamId =>
    obtain ⟨stream, ⟨-, rfl⟩, -⟩ := collect_moved hstep
    exact ⟨rfl, rfl⟩
  | awaitTask streamId =>
    obtain ⟨stream, ids, closing, ⟨-, rfl⟩, -⟩ := awaitTask_moved hstep
    exact ⟨rfl, rfl⟩
  | closeStream streamId reply => exact steady_closeStream hstep

end

/-! ### The steps of the metadata plane -/

theorem ask_some_iff {s s' : MetadataState} {command : MetadataCommand} :
  ask s command = some s' ↔ ∃ result, Metadata.applyInner s command = .ok (s', result)
  := by
  simp only [← apply_ok_iff]
  unfold ask
  split
  next t result happly => simp [happly]
  next hno =>
    simp only [reduceCtorEq, false_iff, not_exists]
    exact fun result => hno s' result

section

variable {p : Plane} {sys' : Sys} {state' : MetadataState} (h : AgreesInv u p)

include h

theorem AgreesInv.steady (hsteady : Steady p.sys sys') :
  AgreesInv u { p with sys := sys' }
  := by
  refine ⟨h.node, ?_, ?_, ?_, ?_, h.committed⟩
  · rw [hsteady.ends]
    exact h.ends
  · rw [hsteady.commitBlocks]
    exact h.prepared
  · rw [hsteady.commitBlocks]
    exact h.nodup
  · rw [hsteady.commitBlocks]
    exact h.free

/-- A stream that is closed keeps its end. -/
theorem AgreesInv.close {streamId : UInt64} {epoch : Int64}
    (hask : ask p.state (.closeStream u.nodeId u.nodeEpoch streamId epoch) = some state') :
  AgreesInv u { p with state := state' }
  := by
  obtain ⟨result, hok⟩ := ask_some_iff.mp hask
  simp only [Metadata.applyInner, Metadata.closeStream, ok_of_do] at hok
  obtain ⟨-, -, stream, hstream, hok⟩ := hok
  split at hok
  next =>
    cases hok
    exact h
  next =>
    obtain ⟨-, -, hok⟩ := ok_of_do.mp hok
    obtain ⟨-, -, hok⟩ := ok_of_do.mp hok
    cases hok
    refine { h with ends := ?_ }
    intro k e he
    obtain ⟨hk, hend⟩ := h.ends k e he
    refine ⟨hk, ?_⟩
    rw [lookup_insert]
    split
    next heq =>
      rw [← heq, Metadata.requireStream_ok hstream] at hend
      exact hend
    next => exact hend

/-- A stream that is created and opened has the next id and starts at zero. -/
theorem AgreesInv.openStream {streamId : Nat} {created : MetadataState}
    (hcreate : ask p.state (.createStream u.nodeId u.nodeEpoch) = some created)
    (hopen : ask created (.openStream u.nodeId u.nodeEpoch (UInt64.ofNat streamId) 0)
      = some state')
    (hid : streamId = p.state.nextStreamId.toNat)
    (hstep : p.sys.openStream streamId = some sys') :
  AgreesInv u { p with sys := sys', state := state' }
  := by
  obtain ⟨-, rfl⟩ := openStream_cases hstep
  have hself : UInt64.ofNat streamId = p.state.nextStreamId := by rw [hid, UInt64.ofNat_toNat]
  obtain ⟨_, hok⟩ := ask_some_iff.mp hcreate
  simp only [Metadata.applyInner, Metadata.createStream, ok_of_do] at hok
  obtain ⟨-, -, next, hnext, hok⟩ := hok
  cases hok
  have hsum := Metadata.checkedAdd_ok hnext
  obtain ⟨_, hok⟩ := ask_some_iff.mp hopen
  simp only [Metadata.applyInner, Metadata.openStream, ok_of_do] at hok
  obtain ⟨-, -, stream, hstream, -, -, hok⟩ := hok
  have hcreated : stream = Metadata.createdRow p.state.nextStreamId := by
    have hlookup := Metadata.requireStream_ok hstream
    rw [lookup_insert, if_pos hself.symm] at hlookup
    exact (Option.some.inj hlookup).symm
  have hepoch : stream.epoch ≠ 0 := by
    rw [hcreated]
    exact (by decide : (-1 : Int64) ≠ 0)
  rw [if_neg hepoch] at hok
  obtain ⟨-, -, hok⟩ := ok_of_do.mp hok
  cases hok
  refine { h with ends := ?_ }
  intro k e he
  rw [Sys.ends, lookup_insert] at he
  rw [lookup_insert, lookup_insert, hself, hsum]
  split at he
  next heq =>
    obtain rfl : 0 = e := by simpa using he
    rw [← heq, hself, if_pos rfl]
    refine ⟨by rw [hid]; exact Nat.lt_succ_self _, ?_⟩
    rw [hcreated]
    rfl
  next hne =>
    obtain ⟨hk, hend⟩ := h.ends k e he
    have hother : p.state.nextStreamId ≠ UInt64.ofNat k := by
      intro heq
      rw [heq, UInt64.toNat_ofNat_of_lt' (hk.trans (UInt64.toNat_lt _))] at hk
      exact absurd hk (Nat.lt_irrefl k)
    rw [if_neg hother, if_neg hother]
    exact ⟨Nat.lt_succ_of_lt hk, hend⟩

/-- The ids that a task prepares are above those in use. -/
theorem AgreesInv.prepare {count : Nat} {nowMs : Int64} (hcount : count < 2 ^ 32)
    (hprepare : Metadata.applyInner p.state (.prepareObject u.nodeId u.nodeEpoch
      (UInt32.ofNat count) (60 * 60 * 1000) nowMs) = .ok (state', .id objectId)) :
  AgreesInv u { p with state := state' } ∧ (taskIds objectId count).Nodup ∧
    ∀ id ∈ taskIds objectId count, ¬ CommittedId state' id ∧ id < state'.nextObjectId ∧
      p.state.nextObjectId ≤ id
  := by
  simp only [Metadata.applyInner, Metadata.prepareObject, ok_of_do] at hprepare
  obtain ⟨-, -, -, -, next, hnext, deadline, -, hprepare⟩ := hprepare
  cases hprepare
  have hmem {id : UInt64} (hid : id ∈ taskIds p.state.nextObjectId count) :
      p.state.nextObjectId ≤ id ∧ id < next := (mem_taskIds hcount hnext).mp hid
  have hle : p.state.nextObjectId ≤ next := by
    rw [UInt64.le_iff_toNat_le, Metadata.checkedAdd_ok hnext]
    exact Nat.le_add_right _ _
  refine ⟨{ h with free := ?_, committed := ?_ }, ?_, ?_⟩
  · intro id hid
    obtain ⟨hfree, hlt⟩ := h.free id hid
    exact ⟨hfree, UInt64.lt_of_lt_of_le hlt hle⟩
  · intro id hid
    exact UInt64.lt_of_lt_of_le (h.committed id hid) hle
  · exact nodup_taskIds _ hcount
  · intro id hid
    refine ⟨?_, (hmem hid).2, (hmem hid).1⟩
    intro hcommitted
    exact absurd (h.committed id hcommitted) (UInt64.not_lt.mpr (hmem hid).1)

/-- A task joins those that wait for their commit, with ids of its own. -/
theorem AgreesInv.join (hblocks : sys'.commitBlocks = p.sys.commitBlocks ++ [block])
    (hends : sys'.ends = p.sys.ends)
    (hnodup : (taskIds objectId (u.plan block).objectCount).Nodup)
    (hfree : ∀ id ∈ taskIds objectId (u.plan block).objectCount, ¬ CommittedId p.state id ∧
      id < p.state.nextObjectId ∧ id ∉ reserved u p.sys.commitBlocks p.prepared) :
  AgreesInv u { p with sys := sys', prepared := p.prepared ++ [objectId] }
  := by
  have hreserved : reserved u sys'.commitBlocks (p.prepared ++ [objectId]) =
      reserved u p.sys.commitBlocks p.prepared ++
        taskIds objectId (u.plan block).objectCount := by
    rw [hblocks, reserved, reserved, zip_append h.prepared.symm, flatMap_append]
    simp
  refine ⟨h.node, ?_, ?_, ?_, ?_, h.committed⟩
  · rw [hends]
    exact h.ends
  · rw [hblocks, length_append, length_append, h.prepared]
    rfl
  · rw [hreserved, nodup_append]
    refine ⟨h.nodup, hnodup, ?_⟩
    rintro id hid _ hself rfl
    exact (hfree id hself).2.2 hid
  · rw [hreserved]
    intro id hid
    rcases mem_append.mp hid with hid | hid
    · exact h.free id hid
    · exact ⟨(hfree id hid).1, (hfree id hid).2.1⟩

/-- The first task that waits has committed its ids, and its streams end where its ranges do. -/
theorem AgreesInv.commit {rest : List UInt64} (hprepared : p.prepared = objectId :: rest)
    (hblocks : p.sys.commitBlocks = block :: sys'.commitBlocks)
    (hcommits : Commits (taskIds objectId (u.plan block).objectCount)
      (ranges.map CommitRange.sent) p.state state')
    (hknown : ∀ range ∈ ranges, (p.sys.ends range.streamId).isSome)
    (hends : ∀ range ∈ ranges, sys'.ends range.streamId = some range.endOffset)
    (hrest : ∀ k, k ∉ ranges.map CommitRange.streamId → sys'.ends k = p.sys.ends k) :
  AgreesInv u { sys := sys', state := state', prepared := rest }
  := by
  have hnodup := h.nodup
  have hfree := h.free
  rw [hblocks, hprepared, reserved_cons] at hnodup hfree
  obtain ⟨-, hnodup, happart⟩ := nodup_append.mp hnodup
  have hlt {range : CommitRange} (hrange : range ∈ ranges) :
      range.streamId < p.state.nextStreamId.toNat := by
    obtain ⟨e, he⟩ := Option.isSome_iff_exists.mp (hknown range hrange)
    exact (h.ends _ _ he).1
  refine ⟨?_, ?_, ?_, hnodup, ?_, ?_⟩
  · rw [nodeEpochCheck_of_nodes hcommits.nodes]
    exact h.node
  · intro k e he
    rw [hcommits.nextStreamId]
    by_cases hk : k ∈ ranges.map CommitRange.streamId
    · obtain ⟨range, hrange, rfl⟩ := mem_map.mp hk
      refine ⟨hlt hrange, ?_⟩
      obtain rfl := Option.some.inj ((hends range hrange).symm.trans he)
      exact hcommits.ends _ (mem_map_of_mem hrange)
    · rw [hrest k hk] at he
      obtain ⟨hk', hend⟩ := h.ends k e he
      refine ⟨hk', ?_⟩
      rw [hcommits.rows, hend]
      intro hmem
      rw [map_map] at hmem
      obtain ⟨range, hrange, heq⟩ := mem_map.mp hmem
      exact hk (mem_map.mpr ⟨range, hrange, ofNat_inj_of_lt (hlt hrange) hk' heq⟩)
  · have hlength := h.prepared
    rw [hblocks, hprepared, length_cons, length_cons] at hlength
    exact Nat.succ.inj hlength
  · intro id hid
    rw [hcommits.nextObjectId, hcommits.committed]
    obtain ⟨hold, hlt⟩ := hfree id (mem_append_right _ hid)
    exact ⟨not_or.mpr ⟨hold, fun hself => happart id hself id hid rfl⟩, hlt⟩
  · intro id hid
    rw [hcommits.nextObjectId]
    rcases (hcommits.committed id).mp hid with hid | hid
    · exact h.committed id hid
    · exact (hfree id (mem_append_left _ hid)).2

end

/-! ### Runs -/

structure PlaneInv (u : Uploader) (p : Plane) : Prop where
  accepted : AcceptedInv p.sys
  agrees : AgreesInv u p

theorem issuing_some_iff {sys : Sys} {task : TaskContext} :
  sys.issuing = some task ↔ sys.commitWorker = .idle ∧ sys.poisoned = false ∧
    task.uploadDone = some true ∧
    ∃ id queue, sys.commitQueue = id :: queue ∧ sys.tasks[id]? = some task
  := by
  unfold Sys.issuing
  split
  next id queue hidle hqueue =>
    rw [Option.filter_eq_some_iff]
    simp [hidle, hqueue]
    tauto
  next hno =>
    simp only [reduceCtorEq, false_iff]
    rintro ⟨hidle, -, -, id, queue, hqueue, -⟩
    exact hno id queue hidle hqueue

theorem commitBlocks_cons {sys : Sys} {id : Nat} {queue : List Nat} {task : TaskContext}
    (hqueue : sys.commitQueue = id :: queue) (htask : sys.tasks[id]? = some task) :
  sys.commitBlocks = task.block :: Sys.commitBlocks { sys with commitQueue := queue }
  := by
  rw [Sys.commitBlocks, hqueue, filterMap_cons, htask]
  rfl

theorem Plane.call_cases {p p' : Plane} {command : MetadataCommand} {reply : Reply}
    {go : Reply → Option Sys} (hcall : p.call command reply go = some p') :
  (∃ sys, go .failed = some sys ∧ p' = { p with sys }) ∨
    ∃ sys state, ask p.state command = some state ∧ go reply = some sys ∧
      p' = { p with sys, state }
  := by
  unfold Plane.call at hcall
  split at hcall
  next =>
    obtain ⟨sys, hsys, rfl⟩ := Option.map_eq_some_iff.mp hcall
    exact .inl ⟨sys, hsys, rfl⟩
  next =>
    obtain ⟨sys, hsys, rfl⟩ := Option.map_eq_some_iff.mp hcall
    exact .inl ⟨sys, hsys, rfl⟩
  next state _ hask =>
    obtain ⟨sys, hsys, rfl⟩ := Option.map_eq_some_iff.mp hcall
    exact .inr ⟨sys, state, hask, hsys, rfl⟩

section

variable {p p' : Plane} (h : PlaneInv u p)

include h

/-- The request of the first task that waits is accepted. -/
theorem PlaneInv.accepts {id : Nat} {queue : List Nat} {task : TaskContext}
    (hqueue : p.sys.commitQueue = id :: queue) (htask : p.sys.tasks[id]? = some task)
    (hranges : commitRanges task.block = some ranges) (nowMs : Int64) :
  ∃ objectId rest request state, p.prepared = objectId :: rest ∧
    (u.plan task.block).commitRequest u objectId = some request ∧
    Metadata.commitStreamSetObject p.state u.nodeId u.nodeEpoch request nowMs = .ok (state, .unit) ∧
    Commits (taskIds objectId (u.plan task.block).objectCount) (ranges.map CommitRange.sent)
      p.state state
  := by
  obtain ⟨hwhole, -, hlaid⟩ := h.accepted.accept.first hqueue htask
  obtain ⟨hdistinct, hstarts⟩ := hlaid.starts hwhole hranges
  have hends {range : CommitRange} (hrange : range ∈ ranges) :=
    h.agrees.ends _ _ (hstarts range hrange)
  have hblocks := commitBlocks_cons hqueue htask
  have hlength := h.agrees.prepared
  rw [hblocks, length_cons] at hlength
  obtain ⟨objectId, rest, hprepared⟩ := exists_cons_of_length_eq_add_one hlength
  have hnodup := h.agrees.nodup
  have hfree := h.agrees.free
  rw [hblocks, hprepared, reserved_cons] at hnodup hfree
  have hnoop : noopObjectId ∉ taskIds objectId (u.plan task.block).objectCount := by
    intro hmem
    have hlt := UInt64.lt_iff_toNat_lt.mp (hfree _ (mem_append_left _ hmem)).2
    have hbound := UInt64.toNat_lt p.state.nextObjectId
    have hmax : noopObjectId.toNat = 2 ^ 64 - 1 := rfl
    omega
  obtain ⟨request, hrequest, hnew, hids, hsent⟩ := commitRequest_spec (u := u) hranges hnoop
  obtain ⟨state, hok, hcommits⟩ := Metadata.commitStreamSetObject_accepts nowMs h.agrees.node hnew
    (by rw [hids]; exact (nodup_append.mp hnodup).1)
    (by rw [hids]; exact fun id hid => (hfree id (mem_append_left _ hid)).1)
    (by
      rw [(hsent.map Prod.fst).nodup_iff, map_map]
      apply Nodup.map_on _ (Nodup.of_map _ hdistinct)
      intro range hrange range' hrange' heq
      exact inj_on_of_nodup_map hdistinct hrange hrange'
        (ofNat_inj_of_lt (hends hrange).1 (hends hrange').1 heq))
    (by
      intro r hr
      obtain ⟨range, hrange, rfl⟩ := mem_map.mp (hsent.mem_iff.mp hr)
      exact (hends hrange).2)
  rw [hids] at hcommits
  exact ⟨objectId, rest, request, state, hprepared, hrequest, hok, hcommits.of_perm hsent⟩

/-- An answered commit call, with the request that was accepted for it. -/
theorem PlaneInv.commit {nowMs : Int64}
    (hstep : Plane.step u p (nowMs, .commit .answered) = some p') :
  PlaneInv u p'
  := by
  have haccept := h.accepted.accept
  cases hissuing : p.sys.issuing with
  | none =>
    simp only [Plane.step, hissuing] at hstep
    obtain ⟨sys', hsys, -⟩ := Option.map_eq_some_iff.mp hstep
    obtain ⟨hpoisoned, id, queue, task, hidle, hqueue, htask, huploaded⟩ :=
      haccept.uploaded_of_commit hsys
    have hsome := issuing_some_iff.mpr ⟨hidle, hpoisoned, huploaded, id, queue, hqueue, htask⟩
    rw [hissuing] at hsome
    cases hsome
  | some task =>
    obtain ⟨hidle, hpoisoned, huploaded, id, queue, hqueue, htask⟩ := issuing_some_iff.mp hissuing
    obtain ⟨hwhole, -, hlaid⟩ := haccept.first hqueue htask
    obtain ⟨ranges, hranges, -⟩ := commitRanges_spec hwhole
    obtain ⟨hdistinct, hstarts⟩ := hlaid.starts hwhole hranges
    obtain ⟨objectId, rest, request, state, hprepared, hrequest, hok, hcommits⟩ :=
      h.accepts hqueue htask hranges nowMs
    have hask : ask p.state (.commitStreamSetObject u.nodeId u.nodeEpoch request nowMs)
        = some state := ask_some_iff.mpr ⟨.unit, hok⟩
    simp only [Plane.step, hissuing, hprepared, head?_cons, hrequest, Plane.call, hask,
      Option.bind_eq_bind, Option.bind_some, tail_cons] at hstep
    obtain ⟨sys', hsys, rfl⟩ := Option.map_eq_some_iff.mp hstep
    refine ⟨h.accepted.step (a := .commit .answered) rfl trivial hsys, ?_⟩
    obtain ⟨rows, hfold, hends, hrest⟩ := advanceEndOffsets_accepts hdistinct hstarts
    have hrows : commitStreamSetObject p.sys.rows task.block = some rows := by
      rw [commitStreamSetObject, hranges]
      exact hfold
    obtain rfl := Option.some.inj
      ((commit_answered hpoisoned hidle hqueue htask huploaded hrows).symm.trans hsys)
    have hblocks : p.sys.commitBlocks = task.block :: Sys.commitBlocks { p.sys with
        commitQueue := queue, rows, commitWorker := .returned id true } :=
      commitBlocks_cons hqueue htask
    apply h.agrees.commit hprepared hblocks hcommits
    · intro range hrange
      rw [hstarts range hrange]
      rfl
    · exact hends
    · intro k hk
      rw [Sys.ends, hrest k hk]
      rfl

theorem PlaneInv.step {e : Int64 × Action} (hhealthy : Healthy e.2) (hsafe : PlaneSafe u p e)
    (hstep : Plane.step u p e = some p') :
  PlaneInv u p'
  := by
  obtain ⟨nowMs, a⟩ := e
  -- the steps without a command
  have hother (hopen : ∀ k, a ≠ .openStream k) (hprepare : ∀ ok, a ≠ .prepare ok)
      (hcommit : ∀ reply, a ≠ .commit reply)
      (hstep : ((Storage.step p.sys a).map fun sys => { p with sys }) = some p') :
      PlaneInv u p' := by
    obtain ⟨sys', hsys, rfl⟩ := Option.map_eq_some_iff.mp hstep
    exact ⟨h.accepted.step hhealthy hsafe.1 hsys,
      h.agrees.steady (steady_step h.accepted.node hopen hprepare hcommit hsys)⟩
  cases a with
  | openStream streamId =>
    obtain ⟨created, hcreate, hstep⟩ := Option.bind_eq_some_iff.mp hstep
    obtain ⟨state, hopen, hstep⟩ := Option.bind_eq_some_iff.mp hstep
    split at hstep
    next hid =>
      obtain ⟨sys', hsys, rfl⟩ := Option.map_eq_some_iff.mp hstep
      exact ⟨h.accepted.step hhealthy hsafe.1 hsys, h.agrees.openStream hcreate hopen hid hsys⟩
    next => cases hstep
  | prepare ok =>
    cases hhealthy
    obtain ⟨id, hid, hstep⟩ := Option.bind_eq_some_iff.mp hstep
    obtain ⟨task, htask, hstep⟩ := Option.bind_eq_some_iff.mp hstep
    dsimp only at hstep
    split at hstep
    next state objectId happly =>
      obtain ⟨sys', hsys, rfl⟩ := Option.map_eq_some_iff.mp hstep
      refine ⟨h.accepted.step (a := .prepare true) rfl trivial hsys, ?_⟩
      obtain ⟨hagrees, hnodup, hfree⟩ :=
        h.agrees.prepare (hsafe.2 rfl id hid task htask) (apply_ok_iff.mp happly)
      obtain ⟨id', queue, hqueue, ⟨-, rfl⟩ | ⟨hfalse, -⟩⟩ := prepare_cases hsys
      · obtain rfl : id' = id := by
          rw [hqueue] at hid
          exact Option.some.inj hid
        have hblocks : Sys.commitBlocks { p.sys with
            prepareQueue := queue
            commitQueue := p.sys.commitQueue ++ [id'] } = p.sys.commitBlocks ++ [task.block] := by
          rw [Sys.commitBlocks, filterMap_append, filterMap_cons, htask]
          rfl
        apply hagrees.join hblocks rfl hnodup
        intro objectId' hid'
        refine ⟨(hfree objectId' hid').1, (hfree objectId' hid').2.1, ?_⟩
        intro hmem
        exact absurd (h.agrees.free objectId' hmem).2 (UInt64.not_lt.mpr (hfree objectId' hid').2.2)
      · cases hfalse
    next => cases hstep
  | commit reply =>
    cases hhealthy
    exact h.commit hstep
  | closeStream streamId reply =>
    simp only [Plane.step] at hstep
    rcases Plane.call_cases hstep with ⟨sys', hsys, rfl⟩ | ⟨sys', state, hask, hsys, rfl⟩
    · have hclose : p.sys.closeStream streamId .failed = some sys' := hsys
      have hsteady := steady_closeStream hclose
      exact ⟨h.accepted.step (a := .closeStream streamId .failed) trivial trivial hsys,
        h.agrees.steady hsteady⟩
    · have hsteady : Steady p.sys sys' := steady_closeStream hsys
      exact ⟨h.accepted.step hhealthy hsafe.1 hsys, (h.agrees.steady hsteady).close hask⟩
  | _ => exact hother nofun nofun nofun hstep

end

/-- In a run without failures whose steps meet the condition, every request that the commit worker
sends is accepted by the metadata plane: the pipeline is not poisoned, no commit has returned an
error, and the metadata plane accepts the next request at any time. The node is registered at the
start, and the ids of the objects that are committed there have been handed out. -/
theorem requests_accepted {capacity cacheBlockMaxSize maxCacheBlockStreamCount : Nat}
    {s : MetadataState} {events : List (Int64 × Action)} {p : Plane}
    (hcount : 0 < maxCacheBlockStreamCount)
    (hnode : nodeEpochCheck s u.nodeId u.nodeEpoch = .ok ())
    (hids : ∀ id, CommittedId s id → id < s.nextObjectId)
    (hhealthy : ∀ e ∈ events, Healthy e.2)
    (hsafe : Along (Plane.step u) (PlaneSafe u) events
      { sys := Sys.start capacity cacheBlockMaxSize maxCacheBlockStreamCount, state := s })
    (hrun : Plane.run u
      { sys := Sys.start capacity cacheBlockMaxSize maxCacheBlockStreamCount, state := s } events
      = some p) :
  ¬ p.sys.Failing ∧ ∀ task, p.sys.issuing = some task → ∀ nowMs, ∃ objectId request state,
    p.prepared.head? = some objectId ∧
    (u.plan task.block).commitRequest u objectId = some request ∧
    Metadata.apply p.state (.commitStreamSetObject u.nodeId u.nodeEpoch request nowMs)
      = some (state, .ok .unit)
  := by
  have hstart := durableInv_start capacity cacheBlockMaxSize hcount
  have hinv : PlaneInv u p := by
    apply Along.induction (I := PlaneInv u) _ (hsafe.and_forall hhealthy) _ hrun
    · intro p e p' he h hstep
      exact h.step he.2 he.1 hstep
    · refine ⟨⟨hstart.node, hstart.placed, hstart.fits, acceptInv_start _ _ _⟩, ?_⟩
      refine ⟨hnode, ?_, rfl, nodup_nil, nofun, hids⟩
      intro k e he
      simp [Sys.ends, Sys.start] at he
  refine ⟨hinv.accepted.accept.going, ?_⟩
  intro task hissuing nowMs
  obtain ⟨-, -, -, id, queue, hqueue, htask⟩ := issuing_some_iff.mp hissuing
  obtain ⟨hwhole, -, -⟩ := hinv.accepted.accept.first hqueue htask
  obtain ⟨ranges, hranges, -⟩ := commitRanges_spec hwhole
  obtain ⟨objectId, rest, request, state, hprepared, hrequest, hok, -⟩ :=
    hinv.accepts hqueue htask hranges nowMs
  refine ⟨objectId, request, state, by rw [hprepared]; rfl, hrequest, ?_⟩
  rw [Metadata.apply, Metadata.applyInner, hok]

/-- Two batches of a stream are sealed and the first is committed. -/
def sameStreamRun : List Action :=
  [.openStream 0] ++ appendRun 0 ++ [.upload matchAllStreams] ++ appendRun 0 ++
    [.upload matchAllStreams, .submit 0, .submit 0] ++ commitRun 0 ++
    [.prepare true, .uploaded 1 true]

theorem requests_accepted_sameStreamRun :
  ∃ p task objectId request state, Plane.run sampleUploader
      { sys := Sys.start 1000000 1000 100, state := registered }
      (sameStreamRun.map fun a => (5, a)) = some p ∧
    p.sys.rows[0]? = some ⟨1, true⟩ ∧ ¬ p.sys.Failing ∧ p.sys.issuing = some task ∧
    (sampleUploader.plan task.block).commitRequest sampleUploader objectId = some request ∧
    Metadata.apply p.state (.commitStreamSetObject 7 1 request 9) = some (state, .ok .unit)
  := by
  have hsafe : Along (Plane.step sampleUploader) (PlaneSafe sampleUploader)
      (sameStreamRun.map fun a => (5, a))
      { sys := Sys.start 1000000 1000 100, state := registered } := by
    decide +kernel
  obtain ⟨p, hrun, hrow, hissuing⟩ : ∃ p, Plane.run sampleUploader
      { sys := Sys.start 1000000 1000 100, state := registered }
      (sameStreamRun.map fun a => (5, a)) = some p ∧ p.sys.rows[0]? = some ⟨1, true⟩ ∧
      p.sys.issuing.isSome := by
    decide +kernel
  obtain ⟨task, htask⟩ := Option.isSome_iff_exists.mp hissuing
  have hids : ∀ id, CommittedId registered id → id < registered.nextObjectId := by
    have hnone : registered.streamSetObjects = ∅ ∧ registered.streamObjectIds = ∅ := by
      decide +kernel
    intro id hid
    rw [CommittedId, hnone.1, hnone.2] at hid
    simp at hid
  obtain ⟨hgoing, haccepted⟩ := requests_accepted (by decide) (by decide) hids (by decide) hsafe hrun
  obtain ⟨objectId, request, state, -, hrequest, happly⟩ := haccepted task htask 9
  exact ⟨p, task, objectId, request, state, hrun, hrow, hgoing, htask, hrequest, happly⟩

/-- Two uploads seal a block each with a batch of the same stream, and the one that has sealed the
second block submits it first. -/
def submittedLateRun : List Action :=
  [.openStream 0] ++ appendRun 0 ++ [.upload matchAllStreams] ++ appendRun 0 ++
    [.upload matchAllStreams, .submit 1, .prepare true, .uploaded 1 true]

/-- The metadata plane rejects the request for the second block although nothing has failed and the
stream is open, and the pipeline is poisoned. -/
theorem request_rejected_submittedLateRun :
  (∀ a ∈ submittedLateRun, Healthy a) ∧ ∃ p, Plane.run sampleUploader
      { sys := Sys.start 1000000 1000 100, state := registered }
      (submittedLateRun.map fun a => (5, a)) = some p ∧
    (∃ task, p.sys.issuing = some task ∧ ∃ objectId, p.prepared.head? = some objectId ∧
      ∃ request, (sampleUploader.plan task.block).commitRequest sampleUploader objectId
        = some request ∧
      ∃ out, Metadata.apply p.state (.commitStreamSetObject 7 1 request 5) = some out ∧
        out.2.isOk = false) ∧
    ∃ p', Plane.run sampleUploader p [(5, .commit .answered), (5, .commitDone)] = some p' ∧
      p'.sys.rows[0]? = some ⟨0, true⟩ ∧ p'.sys.poisoned = true
  := by
  decide +kernel

end Storage
