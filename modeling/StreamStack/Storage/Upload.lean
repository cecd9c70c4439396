import StreamStack.Metadata.Accept
import StreamStack.Storage.Pipeline

/-!
# The upload of a block

An upload task has a block of batches. It plans which streams have an object of their own and which
share the stream-set object, prepares one id for each object, and writes the objects. What it makes
is the request that the commit worker sends: it names every object with its streams and their
offsets, and every batch of the block is in one of them.
-/

namespace Storage

open Run List
open Metadata (MetadataState CommitStreamSetObjectRequest noopObjectId)

/-! ### Planning and writing -/

/-- How a node uploads: who it is to the metadata plane, the size from which on a stream has an
object of its own, and the size and attributes of the object that is written under an id. -/
structure Uploader where
  nodeId : Int32
  nodeEpoch : Int64
  streamSplitSize : Nat
  written : UInt64 → UInt64 × UInt32

def streamSize (records : List StreamRecordBatch) : Nat :=
  (records.map StreamRecordBatch.size).sum

/-- The batches of a block, by the objects that they go to. -/
structure UploadWalTask where
  streamSetObjectMap : List (Nat × List StreamRecordBatch)
  streamObjectMap : List (Nat × List StreamRecordBatch)

namespace UploadWalTask

/-- A single stream has an object of its own, and of several streams the large ones have. -/
def plan (streamSplitSize : Nat) (records : List (Nat × List StreamRecordBatch)) : UploadWalTask :=
  if records.length = 1 then ⟨[], records⟩
  else ⟨records.filter fun e => ¬ streamSize e.2 ≥ streamSplitSize,
    records.filter fun e => streamSize e.2 ≥ streamSplitSize⟩

def objectCount (task : UploadWalTask) : Nat :=
  task.streamObjectMap.length + if task.streamSetObjectMap.isEmpty then 0 else 1

/-- The stream-set object takes the first id, if there is one. -/
def streamSetObjectId (task : UploadWalTask) (objectId : UInt64) : UInt64 :=
  if task.streamSetObjectMap.isEmpty then noopObjectId else objectId

/-- The id of the first stream object. -/
def firstStreamObject (task : UploadWalTask) (objectId : UInt64) : UInt64 :=
  if task.streamSetObjectMap.isEmpty then objectId else objectId + 1

/-- The range of a stream in the stream-set object. -/
def streamRange (e : Nat × List StreamRecordBatch) : Option Metadata.ObjectStreamRange :=
  (commitRange e).map fun range =>
    { streamId := UInt64.ofNat range.streamId
      epoch := Metadata.u64Max
      startOffset := UInt64.ofNat range.startOffset
      endOffset := UInt64.ofNat range.endOffset
      size := UInt64.ofNat (streamSize e.2) }

/-- The stream object of a stream, under an id. -/
def streamObject (u : Uploader) (objectId : UInt64) (e : Nat × List StreamRecordBatch) :
    Option Metadata.StreamObject :=
  (commitRange e).map fun range =>
    { objectId
      objectSize := (u.written objectId).1
      streamId := UInt64.ofNat range.streamId
      startOffset := UInt64.ofNat range.startOffset
      endOffset := UInt64.ofNat range.endOffset
      attributes := (u.written objectId).2 }

/-- The request that an upload makes, with the ids from a first one on. -/
def commitRequest (u : Uploader) (task : UploadWalTask) (objectId : UInt64) :
    Option CommitStreamSetObjectRequest := do
  let setObjectId := task.streamSetObjectId objectId
  let streamObjects ← task.streamObjectMap.zipIdx.mapM fun e =>
    streamObject u (task.firstStreamObject objectId + UInt64.ofNat e.2) e.1
  let request : CommitStreamSetObjectRequest :=
    { objectId := setObjectId, objectSize := 0, attributes := 0, streamRanges := [], streamObjects,
      compactedObjectIds := [] }
  if setObjectId = noopObjectId then return request
  else
    let streamRanges ← task.streamSetObjectMap.mapM streamRange
    let (objectSize, attributes) := u.written setObjectId
    return { request with objectSize, attributes, streamRanges }

/-- What an upload writes: into the object of an id, a stream with its batches. -/
def writes (task : UploadWalTask) (objectId : UInt64) :
    List (UInt64 × Nat × List StreamRecordBatch) :=
  (task.streamSetObjectMap.map fun e => (task.streamSetObjectId objectId, e)) ++
    task.streamObjectMap.zipIdx.map fun e =>
      (task.firstStreamObject objectId + UInt64.ofNat e.2, e.1)

end UploadWalTask

def Uploader.plan (u : Uploader) (block : LogCacheBlock) : UploadWalTask :=
  UploadWalTask.plan u.streamSplitSize block.records

/-! ### The request of a task -/

/-- A range as it is in a request. -/
def CommitRange.sent (range : CommitRange) : UInt64 × UInt64 × UInt64 :=
  (UInt64.ofNat range.streamId, UInt64.ofNat range.startOffset, UInt64.ofNat range.endOffset)

/-- The ids of a task, from a first one on. -/
def taskIds (objectId : UInt64) (count : Nat) : List UInt64 :=
  (List.range count).map fun i => objectId + UInt64.ofNat i

/-- The outputs of a request: an object, a stream in it and the offsets of the stream. -/
def outputs (request : CommitStreamSetObjectRequest) : List (UInt64 × UInt64 × UInt64 × UInt64) :=
  (request.streamRanges.map fun r => (request.objectId, r.streamId, r.startOffset, r.endOffset)) ++
    request.streamObjects.map fun so => (so.objectId, so.streamId, so.startOffset, so.endOffset)

/-- The output of what is written into an object. -/
def output (w : UInt64 × Nat × List StreamRecordBatch) :
    Option (UInt64 × UInt64 × UInt64 × UInt64) :=
  (commitRange w.2).map fun range => (w.1, range.sent)

variable {u : Uploader} {task : UploadWalTask} {block : LogCacheBlock} {ranges : List CommitRange}
  {objectId : UInt64}

theorem taskIds_succ (objectId : UInt64) (count : Nat) :
  taskIds objectId (count + 1) = objectId :: taskIds (objectId + 1) count
  := by
  rw [taskIds, taskIds, range_succ_eq_map, map_cons, map_map]
  congr 1
  · simp
  · apply map_congr_left
    intro i _
    rw [Function.comp_apply, Nat.succ_eq_add_one, UInt64.ofNat_add, UInt64.add_assoc,
      UInt64.add_comm 1]
    rfl

/-- The ids of a task are those that the metadata plane hands out for it. -/
theorem mem_taskIds {count : Nat} {next id : UInt64} (hcount : count < 2 ^ 32)
    (hnext : Metadata.checkedAdd objectId (UInt32.ofNat count).toUInt64 = .ok next) :
  id ∈ taskIds objectId count ↔ objectId ≤ id ∧ id < next
  := by
  have hids : taskIds objectId count = Metadata.idRange objectId (UInt32.ofNat count) := by
    rw [taskIds, Metadata.idRange, UInt32.toNat_ofNat_of_lt' hcount]
  refine ⟨fun hid => Metadata.mem_idRange hnext (hids ▸ hid), ?_⟩
  rintro ⟨hle, hlt⟩
  have hsum := Metadata.checkedAdd_ok hnext
  rw [UInt32.toNat_toUInt64, UInt32.toNat_ofNat_of_lt' hcount] at hsum
  rw [UInt64.le_iff_toNat_le] at hle
  rw [UInt64.lt_iff_toNat_lt] at hlt
  refine mem_map.mpr ⟨id.toNat - objectId.toNat, mem_range.mpr (by omega), ?_⟩
  have hbound := id.toNat_lt
  apply UInt64.toNat_inj.mp
  rw [UInt64.toNat_add, UInt64.toNat_ofNat_of_lt' (Nat.lt_of_le_of_lt (Nat.sub_le _ _) hbound),
    Nat.add_sub_cancel' hle, Nat.mod_eq_of_lt hbound]

theorem nodup_taskIds {count : Nat} (objectId : UInt64) (hcount : count < 2 ^ 32) :
  (taskIds objectId count).Nodup
  := by
  have h := Metadata.nodup_idRange objectId (UInt32.ofNat count)
  rwa [Metadata.idRange, UInt32.toNat_ofNat_of_lt' hcount] at h

theorem isSome_of_commitRanges (hranges : commitRanges block = some ranges) :
  (∀ e ∈ block.records, (commitRange e).isSome) ∧ ranges = block.records.filterMap commitRange
  := by
  have hsome : ∀ e ∈ block.records, (commitRange e).isSome := by
    rw [commitRanges] at hranges
    generalize block.records = l at hranges ⊢
    induction l generalizing ranges with
    | nil => exact fun _ => nofun
    | cons x l ih =>
      rw [mapM_cons] at hranges
      obtain ⟨range, hrange, hranges⟩ := Option.bind_eq_some_iff.mp hranges
      obtain ⟨rest, hrest, -⟩ := Option.bind_eq_some_iff.mp hranges
      intro e he
      rcases mem_cons.mp he with rfl | he
      · rw [hrange]
        rfl
      · exact ih hrest e he
  refine ⟨hsome, ?_⟩
  rw [commitRanges, mapM_eq_filterMap hsome] at hranges
  exact (Option.some.inj hranges).symm

/-- The two parts of a plan hold the batches of the block. -/
theorem plan_perm (streamSplitSize : Nat) (records : List (Nat × List StreamRecordBatch)) :
  ((UploadWalTask.plan streamSplitSize records).streamSetObjectMap ++
    (UploadWalTask.plan streamSplitSize records).streamObjectMap).Perm records
  := by
  unfold UploadWalTask.plan
  split
  next => exact Perm.refl _
  next =>
    apply perm_append_comm.trans
    convert filter_append_perm (fun e => decide (streamSize e.2 ≥ streamSplitSize)) records using 3
    exact funext fun _ => decide_not

/-- What is written are the two parts of the plan. -/
theorem writes_map_snd (task : UploadWalTask) (objectId : UInt64) :
  (task.writes objectId).map Prod.snd = task.streamSetObjectMap ++ task.streamObjectMap
  := by
  rw [UploadWalTask.writes, map_append, map_map, map_map]
  congr 1
  · exact map_id _
  · exact zipIdx_map_fst 0 task.streamObjectMap

/-- The objects of the streams have the ids from a first one on, each with the output of its
stream. -/
theorem streamObjects_spec {entries : List (Nat × List StreamRecordBatch)}
    (hsome : ∀ e ∈ entries, (commitRange e).isSome) :
  ∃ streamObjects, entries.zipIdx.mapM (fun e =>
      UploadWalTask.streamObject u (objectId + UInt64.ofNat e.2) e.1) = some streamObjects ∧
    streamObjects.map Metadata.StreamObject.objectId = taskIds objectId entries.length ∧
    (streamObjects.map fun so => (so.objectId, so.streamId, so.startOffset, so.endOffset)) =
      (entries.zipIdx.map fun e => (objectId + UInt64.ofNat e.2, e.1)).filterMap output
  := by
  refine ⟨entries.zipIdx.filterMap fun e =>
    UploadWalTask.streamObject u (objectId + UInt64.ofNat e.2) e.1, ?_, ?_, ?_⟩
  · apply mapM_eq_filterMap
    intro e he
    rw [UploadWalTask.streamObject, Option.isSome_map]
    exact hsome e.1 (fst_mem_of_mem_zipIdx he)
  · have hids : entries.zipIdx.filterMap (fun e => (UploadWalTask.streamObject u
          (objectId + UInt64.ofNat e.2) e.1).map Metadata.StreamObject.objectId)
        = entries.zipIdx.map fun e => objectId + UInt64.ofNat e.2 := by
      rw [← filterMap_eq_map]
      apply filterMap_congr
      intro e he
      obtain ⟨range, hrange⟩ := Option.isSome_iff_exists.mp (hsome e.1 (fst_mem_of_mem_zipIdx he))
      rw [UploadWalTask.streamObject, hrange]
      rfl
    rw [map_filterMap, hids, taskIds, range_eq_range', ← zipIdx_map_snd 0 entries, map_map]
    rfl
  · rw [map_filterMap, filterMap_map]
    apply filterMap_congr
    intro e _
    rw [UploadWalTask.streamObject, Option.map_map]
    rfl

/-- The request of a task has the ids from its first one on, and one output for each stream that
the upload writes. -/
theorem commitRequest_outputs
    (hsome : ∀ e ∈ task.streamSetObjectMap ++ task.streamObjectMap, (commitRange e).isSome)
    (hnoop : noopObjectId ∉ taskIds objectId task.objectCount) :
  ∃ request, task.commitRequest u objectId = some request ∧ request.compactedObjectIds = [] ∧
    request.ids = taskIds objectId task.objectCount ∧
    request.ranges = (outputs request).map Prod.snd ∧
    outputs request = (task.writes objectId).filterMap output
  := by
  have hset : ∀ e ∈ task.streamSetObjectMap, (UploadWalTask.streamRange e).isSome := by
    intro e he
    rw [UploadWalTask.streamRange, Option.isSome_map]
    exact hsome e (mem_append_left _ he)
  obtain ⟨streamObjects, hobjects, hids, houtputs⟩ := @streamObjects_spec u
    (task.firstStreamObject objectId) task.streamObjectMap fun e he =>
      hsome e (mem_append_right _ he)
  unfold UploadWalTask.commitRequest UploadWalTask.writes
  rw [hobjects, filterMap_append, ← houtputs]
  unfold UploadWalTask.firstStreamObject at hids
  unfold UploadWalTask.objectCount at hnoop ⊢
  unfold UploadWalTask.streamSetObjectId
  by_cases hempty : task.streamSetObjectMap = []
  · simp only [hempty, isEmpty_nil, if_true, Nat.add_zero] at hids hnoop ⊢
    refine ⟨_, rfl, rfl, ?_, ?_, ?_⟩
    · simpa [CommitStreamSetObjectRequest.ids] using hids
    · simp [CommitStreamSetObjectRequest.ranges, outputs]
    · simp [outputs]
  · simp only [List.isEmpty_iff, hempty, if_false] at hids hnoop ⊢
    rw [taskIds_succ] at hnoop ⊢
    have hne : objectId ≠ noopObjectId := fun heq => hnoop (by simp [heq])
    rw [mapM_eq_filterMap hset]
    refine ⟨_, (if_neg hne).trans rfl, rfl, ?_, ?_, ?_⟩
    · simp [CommitStreamSetObjectRequest.ids, hids, hne]
    · simp [CommitStreamSetObjectRequest.ranges, outputs, hne, Function.comp_def]
    · rw [outputs]
      congr 1
      rw [map_filterMap, filterMap_map]
      apply filterMap_congr
      intro e _
      rw [UploadWalTask.streamRange, Option.map_map]
      rfl

/-- The request of a block has the ids from its first one on, and the ranges of the block. -/
theorem commitRequest_spec (hranges : commitRanges block = some ranges)
    (hnoop : noopObjectId ∉ taskIds objectId (u.plan block).objectCount) :
  ∃ request, (u.plan block).commitRequest u objectId = some request ∧
    request.compactedObjectIds = [] ∧
    request.ids = taskIds objectId (u.plan block).objectCount ∧
    request.ranges.Perm (ranges.map CommitRange.sent)
  := by
  obtain ⟨hsome, rfl⟩ := isSome_of_commitRanges hranges
  have hperm := plan_perm u.streamSplitSize block.records
  obtain ⟨request, hrequest, hnew, hids, hsent, houtputs⟩ := @commitRequest_outputs u
    (u.plan block) objectId (fun e he => hsome e (hperm.mem_iff.mp he)) hnoop
  refine ⟨request, hrequest, hnew, hids, ?_⟩
  have hoffsets : ((u.plan block).writes objectId).filterMap (fun w => (output w).map Prod.snd)
      = (((u.plan block).writes objectId).map Prod.snd).filterMap fun e =>
        (commitRange e).map CommitRange.sent := by
    rw [filterMap_map]
    apply filterMap_congr
    intro w _
    rw [output, Option.map_map]
    rfl
  rw [hsent, houtputs, map_filterMap, hoffsets, writes_map_snd, map_filterMap]
  exact hperm.filterMap _

/-! ### What an upload partitions -/

/-- An upload of fewer than 2³² objects puts the batches of every stream into one object. The
request has one output for each stream, with the first base offset and the last end offset of its
batches, and names the object that they are written into. The ids of the objects are distinct, and
they are the ids that the metadata plane has handed out. -/
theorem upload_partitions {streamSplitSize : Nat} {records : List (Nat × List StreamRecordBatch)}
    {state state' : MetadataState} {nowMs : Int64}
    (hbatches : ∀ e ∈ records, e.2 ≠ [])
    (hplan : UploadWalTask.plan streamSplitSize records = task)
    (hcount : task.objectCount < 2 ^ 32)
    (hprepare : Metadata.apply state (.prepareObject u.nodeId u.nodeEpoch
      (UInt32.ofNat task.objectCount) (60 * 60 * 1000) nowMs) = some (state', .ok (.id objectId))) :
  ∃ request, task.commitRequest u objectId = some request ∧
    ((task.writes objectId).map Prod.snd).Perm records ∧
    Forall₂ (fun o w => o.1 = w.1 ∧ o.2.1 = UInt64.ofNat w.2.1 ∧
      (w.2.2.head?.map fun b => UInt64.ofNat b.baseOffset) = some o.2.2.1 ∧
      (w.2.2.getLast?.map fun b => UInt64.ofNat b.lastOffset) = some o.2.2.2)
      (outputs request) (task.writes objectId) ∧
    request.ids.Nodup ∧ request.ids.length = task.objectCount ∧
    ∀ id, id ∈ request.ids ↔ state.nextObjectId ≤ id ∧ id < state'.nextObjectId
  := by
  subst hplan
  have hok := Metadata.apply_ok_iff.mp hprepare
  simp only [Metadata.applyInner, Metadata.prepareObject, ok_of_do] at hok
  obtain ⟨-, -, -, -, next, hnext, deadline, -, hok⟩ := hok
  cases hok
  have hmem {id : UInt64} := @mem_taskIds state.nextObjectId _ next id hcount hnext
  have hperm := plan_perm streamSplitSize records
  have hsome : ∀ e ∈ records, (commitRange e).isSome := by
    intro e he
    rw [commitRange, head?_eq_some_head (hbatches e he), getLast?_eq_some_getLast (hbatches e he)]
    rfl
  -- no id is the one that stands for no object: it is not below any other
  have hnoop : noopObjectId ∉ taskIds state.nextObjectId
      (UploadWalTask.plan streamSplitSize records).objectCount := by
    intro hid
    have hlt := UInt64.lt_iff_toNat_lt.mp (hmem.mp hid).2
    have hbound := next.toNat_lt
    simp [noopObjectId] at hlt
    omega
  obtain ⟨request, hrequest, -, hids, -, houtputs⟩ := @commitRequest_outputs u
    (UploadWalTask.plan streamSplitSize records) state.nextObjectId
    (fun e he => hsome e (hperm.mem_iff.mp he)) hnoop
  refine ⟨request, hrequest, ?_, ?_, ?_, ?_, ?_⟩
  · rwa [writes_map_snd]
  · rw [houtputs]
    have hwritten : ∀ w ∈ (UploadWalTask.plan streamSplitSize records).writes state.nextObjectId,
        (output w).isSome := by
      intro w hw
      rw [output, Option.isSome_map]
      apply hsome w.2 (hperm.mem_iff.mp _)
      rw [← writes_map_snd _ state.nextObjectId]
      exact mem_map_of_mem hw
    apply (forall₂_filterMap hwritten).imp
    intro o w howns
    simp only [output, commitRange, Option.map_eq_some_iff, Option.bind_eq_bind,
      Option.bind_eq_some_iff, Option.pure_def, Option.some.injEq] at howns
    obtain ⟨_, ⟨first, hfirst, last, hlast, rfl⟩, rfl⟩ := howns
    simp [CommitRange.sent, hfirst, hlast]
  · rw [hids]
    exact nodup_taskIds _ hcount
  · rw [hids, taskIds, length_map, length_range]
  · intro id
    rw [hids]
    exact hmem

/-- A registered node. -/
def registered : MetadataState :=
  (Metadata.apply .new (.registerNode 7 1 "" 1)).elim .new Prod.fst

def sampleUploader : Uploader where
  nodeId := 7
  nodeEpoch := 1
  streamSplitSize := 100
  written _ := (1, 0)

/-- A stream of the split size has an object of its own, and two streams share the stream-set
object. -/
theorem upload_partitions_three :
  ∃ state' request, Metadata.apply registered (.prepareObject 7 1 2 (60 * 60 * 1000) 5)
      = some (state', .ok (.id 0)) ∧
    (UploadWalTask.plan 3 [(4, [⟨4, 0, 2, [1]⟩]), (5, [⟨5, 7, 1, [1, 2, 3]⟩]),
      (6, [⟨6, 1, 1, []⟩, ⟨6, 2, 3, [0]⟩])]).commitRequest sampleUploader 0 = some request ∧
    outputs request = [(0, 4, 0, 2), (0, 6, 1, 5), (1, 5, 7, 8)] ∧ request.ids.Nodup ∧
    ∀ id, id ∈ request.ids ↔ registered.nextObjectId ≤ id ∧ id < state'.nextObjectId
  := by
  obtain ⟨⟨state', _⟩, hprepare, rfl⟩ : ∃ out, Metadata.apply registered
      (.prepareObject 7 1 2 (60 * 60 * 1000) 5) = some out ∧ out.2 = .ok (.id 0) := by
    decide +kernel
  obtain ⟨request, hrequest, -, -, hnodup, -, hids⟩ := @upload_partitions sampleUploader _ 0 3
    [(4, [⟨4, 0, 2, [1]⟩]), (5, [⟨5, 7, 1, [1, 2, 3]⟩]), (6, [⟨6, 1, 1, []⟩, ⟨6, 2, 3, [0]⟩])]
    registered state' 5 (by decide) rfl (by decide) hprepare
  refine ⟨state', request, hprepare, hrequest, ?_, hnodup, hids⟩
  have houtputs : (UploadWalTask.commitRequest sampleUploader (UploadWalTask.plan 3
      [(4, [⟨4, 0, 2, [1]⟩]), (5, [⟨5, 7, 1, [1, 2, 3]⟩]),
        (6, [⟨6, 1, 1, []⟩, ⟨6, 2, 3, [0]⟩])]) 0).map outputs
      = some [(0, 4, 0, 2), (0, 6, 1, 5), (1, 5, 7, 8)] := by
    decide +kernel
  rw [hrequest] at houtputs
  exact Option.some.inj houtputs

/-- A number of streams with one batch each. -/
def singleBatches (n : Nat) : List (Nat × List StreamRecordBatch) :=
  (List.range n).map fun i => (i, [⟨i, 0, 1, []⟩])

/-- With a split size of 0 they have an object each. -/
theorem objectCount_singleBatches {n : Nat} (hn : n ≠ 1) :
  (UploadWalTask.plan 0 (singleBatches n)).objectCount = n
  := by
  unfold UploadWalTask.plan UploadWalTask.objectCount
  simp [singleBatches, hn]

theorem commitRequest_singleBatches {n : Nat} (hn : n ≠ 1) (hlt : n < 2 ^ 63) :
  ∃ request, (UploadWalTask.plan 0 (singleBatches n)).commitRequest u 0 = some request ∧
    request.ids.length = n
  := by
  have hsome : ∀ e ∈ (UploadWalTask.plan 0 (singleBatches n)).streamSetObjectMap ++
      (UploadWalTask.plan 0 (singleBatches n)).streamObjectMap, (commitRange e).isSome := by
    intro e he
    obtain ⟨i, -, rfl⟩ := mem_map.mp ((plan_perm 0 (singleBatches n)).mem_iff.mp he)
    rfl
  have hnoop : noopObjectId ∉ taskIds 0 (UploadWalTask.plan 0 (singleBatches n)).objectCount := by
    rw [objectCount_singleBatches hn]
    intro hid
    obtain ⟨i, hi, heq⟩ := mem_map.mp hid
    have hi := mem_range.mp hi
    have hval := congrArg UInt64.toNat heq
    rw [UInt64.zero_add, UInt64.toNat_ofNat_of_lt' (hi.trans (hlt.trans (by decide)))] at hval
    simp [noopObjectId] at hval
    omega
  obtain ⟨request, hrequest, -, hids, -⟩ := @commitRequest_outputs u _ 0 hsome hnoop
  refine ⟨request, hrequest, ?_⟩
  rw [hids, objectCount_singleBatches hn, taskIds, length_map, length_range]

/-- The count of the objects is sent with 32 bits. For 2³² + 1 streams one id is handed out, and the
request has 2³² + 1 objects. -/
theorem upload_exceeds_prepared :
  ∃ state' request,
    Metadata.apply registered (.prepareObject 7 1
      (UInt32.ofNat (UploadWalTask.plan 0 (singleBatches (2 ^ 32 + 1))).objectCount)
      (60 * 60 * 1000) 5) = some (state', .ok (.id 0)) ∧
    state'.nextObjectId = 1 ∧
    (UploadWalTask.plan 0 (singleBatches (2 ^ 32 + 1))).commitRequest sampleUploader 0
      = some request ∧
    request.ids.length = 2 ^ 32 + 1
  := by
  rw [objectCount_singleBatches (by decide)]
  obtain ⟨request, hrequest, hlength⟩ :=
    @commitRequest_singleBatches sampleUploader (2 ^ 32 + 1) (by decide) (by decide)
  obtain ⟨⟨state', _⟩, hprepare, rfl, hnext⟩ : ∃ out, Metadata.apply registered (.prepareObject 7 1
      (UInt32.ofNat (2 ^ 32 + 1)) (60 * 60 * 1000) 5) = some out ∧ out.2 = .ok (.id 0) ∧
      out.1.nextObjectId = 1 := by
    decide +kernel
  exact ⟨state', request, hprepare, hnext, hrequest, hlength⟩

end Storage
