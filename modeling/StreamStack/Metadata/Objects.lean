import StreamStack.Lib.Catalog
import StreamStack.Metadata.Accept

/-!
# The catalog of objects

What the metadata state says about object ids is a catalog: the ids that are prepared, the
committed objects under their ids, and the ids in the destruction queue. The objects are spread
over several maps, and an invariant ties the maps together. Each step that the handlers are made
of is read here as a change of the catalog.
-/

namespace Metadata

open OrdMap Run List Catalog

variable {s s' : MetadataState} {result : MetadataResult}

/-- The object waits in the destruction queue. -/
def QueuedId (s : MetadataState) (id : UInt64) : Prop :=
  ∃ (seq : UInt64) (op : CompactOperations), s.markDestroyed[seq]? = some (id, op)

/-- The committed object with an id, whichever map it is in. -/
def liveObject (s : MetadataState) (id : UInt64) : Option S3ObjectMetadata :=
  match s.streamSetObjects[id]? with
  | some row => some row.object
  | none => (s.streamObjectIds[id]?).bind fun key =>
    (s.streamObjects[key]?).map StreamObjectRow.object

/-- The objects of a state, as a catalog. -/
def MetadataState.catalog (s : MetadataState) : Catalog UInt64 S3ObjectMetadata where
  prepared := {id | id ∈ s.prepared}
  live := liveObject s
  queued := {id | QueuedId s id}

/-- The part of the invariant that is about objects. -/
structure ObjectsInv (s : MetadataState) : Prop where
  prepared : PreparedInv s.nextObjectId s.prepared s.preparedByDeadline
  streamObjects : StreamObjectsInv s.streamObjects s.streamObjectIds
  destroyed : DestroyedInv s.nextDestroyedSeq s.markDestroyed s.destroyedById
  separate : ∀ id, id ∈ s.streamSetObjects → id ∉ s.streamObjectIds

theorem objectsInv_new :
  ObjectsInv .new
  where
  prepared := ⟨by simp [MetadataState.new], rfl⟩
  streamObjects := ⟨by simp [MetadataState.new], by simp [MetadataState.new]⟩
  destroyed := ⟨by simp [MetadataState.new], by simp [MetadataState.new]⟩
  separate := by simp [MetadataState.new]

namespace ObjectsInv

theorem queued_iff (h : ObjectsInv s) (id : UInt64) :
  QueuedId s id ↔ id ∈ s.destroyedById
  := by
  rw [mem_iff_lookup]
  exact exists_congr fun seq => (h.destroyed.ids id seq).symm

variable {key : StreamOffsetKey} (h : ObjectsInv s)

include h

/-- The key under which an object is listed is the key of its row. -/
theorem row_of_id {id : UInt64} (hid : s.streamObjectIds[id]? = some key) :
  key.2.2 = id ∧ ∃ row, s.streamObjects[key]? = some row
  := by
  obtain ⟨hmem, hkey⟩ := (h.streamObjects.ids id key).mp hid
  exact ⟨hkey, (mem_iff_lookup _ _).mp hmem⟩

theorem id_of_row {row : StreamObjectRow} (hrow : s.streamObjects[key]? = some row) :
  s.streamObjectIds[key.2.2]? = some key
  := (h.streamObjects.ids _ _).mpr ⟨(mem_iff_lookup _ _).mpr ⟨row, hrow⟩, rfl⟩

theorem set_none {id : UInt64} (hid : s.streamObjectIds[id]? = some key) :
  s.streamSetObjects[id]? = none
  := by
  cases hset : s.streamSetObjects[id]? with
  | none => rfl
  | some row =>
    refine absurd ((mem_iff_lookup _ _).mpr ⟨key, hid⟩) (h.separate id ?_)
    exact (mem_iff_lookup _ _).mpr ⟨row, hset⟩

/-- A committed object is a stream-set object or a stream object. -/
theorem live_iff (id : UInt64) (object : S3ObjectMetadata) :
  liveObject s id = some object ↔
    (∃ row, s.streamSetObjects[id]? = some row ∧ row.object = object) ∨
      ∃ key row, s.streamObjectIds[id]? = some key ∧ s.streamObjects[key]? = some row ∧
        row.object = object
  := by
  unfold liveObject
  cases hset : s.streamSetObjects[id]? with
  | some row =>
    have hids : s.streamObjectIds[id]? = none := by
      cases hkey : s.streamObjectIds[id]? with
      | none => rfl
      | some key =>
        rw [h.set_none hkey] at hset
        cases hset
    simp [hids]
  | none =>
    simp only [Option.bind_eq_some_iff, Option.map_eq_some_iff, reduceCtorEq, false_and,
      exists_false, false_or]
    exact exists_congr fun key => by simp

/-- A live object is a committed one. -/
theorem live_isSome (id : UInt64) :
  (liveObject s id).isSome ↔ CommittedId s id
  := by
  rw [Option.isSome_iff_exists, CommittedId, mem_iff_lookup, mem_iff_lookup]
  constructor
  · rintro ⟨object, hlive⟩
    rcases (h.live_iff id object).mp hlive with ⟨row, hrow, -⟩ | ⟨key, row, hid, -, -⟩
    · exact .inl ⟨row, hrow⟩
    · exact .inr ⟨key, hid⟩
  · rintro (⟨row, hrow⟩ | ⟨key, hid⟩)
    · exact ⟨row.object, (h.live_iff _ _).mpr (.inl ⟨row, hrow, rfl⟩)⟩
    · obtain ⟨-, row, hrow⟩ := h.row_of_id hid
      exact ⟨row.object, (h.live_iff _ _).mpr (.inr ⟨key, row, hid, hrow, rfl⟩)⟩

end ObjectsInv

/-! ### What leaves the objects alone -/

/-- The maps of objects are the same. -/
structure SameObjects (s s' : MetadataState) : Prop where
  nextObjectId : s'.nextObjectId = s.nextObjectId
  prepared : s'.prepared = s.prepared
  preparedByDeadline : s'.preparedByDeadline = s.preparedByDeadline
  streamSetObjects : s'.streamSetObjects = s.streamSetObjects
  streamObjects : s'.streamObjects = s.streamObjects
  streamObjectIds : s'.streamObjectIds = s.streamObjectIds
  markDestroyed : s'.markDestroyed = s.markDestroyed
  destroyedById : s'.destroyedById = s.destroyedById
  nextDestroyedSeq : s'.nextDestroyedSeq = s.nextDestroyedSeq

theorem SameObjects.refl (s : MetadataState) :
  SameObjects s s
  := ⟨rfl, rfl, rfl, rfl, rfl, rfl, rfl, rfl, rfl⟩

variable {s'' : MetadataState}

theorem SameObjects.trans (h : SameObjects s s') (h' : SameObjects s' s'') :
  SameObjects s s''
  := ⟨h'.1.trans h.1, h'.2.trans h.2, h'.3.trans h.3, h'.4.trans h.4, h'.5.trans h.5,
    h'.6.trans h.6, h'.7.trans h.7, h'.8.trans h.8, h'.9.trans h.9⟩

/-- The catalog has changed to another one, and the invariant holds. -/
structure Becomes (s s' : MetadataState) (c : Catalog UInt64 S3ObjectMetadata) : Prop where
  inv : ObjectsInv s'
  nextObjectId : s'.nextObjectId = s.nextObjectId
  catalog : s'.catalog = c

theorem SameObjects.becomes (h : SameObjects s s') (hs : ObjectsInv s) :
  Becomes s s' s.catalog
  := by
  refine ⟨?_, h.nextObjectId, ?_⟩
  · constructor
    · rw [h.nextObjectId, h.prepared, h.preparedByDeadline]
      exact hs.prepared
    · rw [h.streamObjects, h.streamObjectIds]
      exact hs.streamObjects
    · rw [h.nextDestroyedSeq, h.markDestroyed, h.destroyedById]
      exact hs.destroyed
    · rw [h.streamSetObjects, h.streamObjectIds]
      exact hs.separate
  · simp only [MetadataState.catalog, h.prepared, QueuedId, h.markDestroyed]
    congr 1
    funext x
    simp only [liveObject, h.streamSetObjects, h.streamObjectIds, h.streamObjects]

theorem Becomes.refl (hs : ObjectsInv s) :
  Becomes s s s.catalog
  := ⟨hs, rfl, rfl⟩

/-- Steps compose. -/
theorem Becomes.trans {c c' : Catalog UInt64 S3ObjectMetadata} (h : Becomes s s' c)
    (h' : Becomes s' s'' c') :
  Becomes s s'' c'
  := ⟨h'.inv, h'.nextObjectId.trans h.nextObjectId, h'.catalog⟩

/-- Folds of changes, with the fold of what the changes do to the catalog. -/
theorem Becomes.foldlM {γ : Type} {f : MetadataState → γ → Except Fault MetadataState}
    {op : Catalog UInt64 S3ObjectMetadata → γ → Catalog UInt64 S3ObjectMetadata}
    (hf : ∀ t x t', ObjectsInv t → f t x = .ok t' → Becomes t t' (op t.catalog x)) {l : List γ}
    (hs : ObjectsInv s) (h : l.foldlM f s = .ok s') :
  Becomes s s' (l.foldl op s.catalog)
  := by
  induction l generalizing s with
  | nil =>
    obtain rfl : s = s' := by simpa using h
    apply Becomes.refl hs
  | cons x l ih =>
    rw [foldlM_cons, ok_of_do] at h
    obtain ⟨t, ht, h⟩ := h
    have hx := hf s x t hs ht
    rw [foldl_cons, ← hx.catalog]
    apply hx.trans (ih hx.inv h)

/-- Loops are composed of their steps. -/
theorem Becomes.foldl {γ : Type} {f : MetadataState → γ → MetadataState}
    {op : Catalog UInt64 S3ObjectMetadata → γ → Catalog UInt64 S3ObjectMetadata}
    (hf : ∀ t x, ObjectsInv t → Becomes t (f t x) (op t.catalog x)) (hs : ObjectsInv s)
    (l : List γ) :
  Becomes s (l.foldl f s) (l.foldl op s.catalog)
  := by
  induction l generalizing s with
  | nil => apply Becomes.refl hs
  | cons x l ih =>
    have hx := hf s x hs
    rw [foldl_cons, foldl_cons, ← hx.catalog]
    apply hx.trans (ih hx.inv)

/-! ### The destruction queue -/

variable {objectId : UInt64}

/-- An object that is marked is queued. -/
theorem markDestroyed_becomes (hs : ObjectsInv s) {op : CompactOperations}
    (hok : markDestroyed s objectId op = .ok s') :
  Becomes s s' (s.catalog.queue [objectId])
  := by
  have hother (i : UInt64) {t : MetadataState} (ht : ObjectsInv t)
      (hids : i ∈ t.destroyedById ↔ objectId = i ∨ i ∈ s.destroyedById) :
      QueuedId t i ↔ QueuedId s i ∨ i = objectId := by
    rw [ht.queued_iff, hs.queued_iff, hids, or_comm, eq_comm]
  unfold markDestroyed at hok
  split at hok
  next seq hseq =>
    obtain rfl := ok_of_return.mp hok
    have ht : ObjectsInv { s with markDestroyed := s.markDestroyed.insert seq (objectId, op) } :=
      { hs with destroyed := hs.destroyed.remark hseq op }
    refine ⟨ht, rfl, ?_⟩
    ext i
    · rfl
    · rfl
    · have hi := hother i ht (by
        constructor
        · exact .inr
        · rintro (rfl | hi)
          · exact (mem_iff_lookup _ _).mpr ⟨seq, hseq⟩
          · exact hi)
      simpa [MetadataState.catalog, queue, or_comm] using hi
  next hnone =>
    simp only [ok_of_do, ok_of_return] at hok
    obtain ⟨next, hnext, rfl⟩ := hok
    have ht : ObjectsInv { s with
        nextDestroyedSeq := next
        markDestroyed := s.markDestroyed.insert s.nextDestroyedSeq (objectId, op)
        destroyedById := s.destroyedById.insert objectId s.nextDestroyedSeq } :=
      { hs with destroyed := hs.destroyed.mark hnone (lt_of_checkedAdd_one hnext) op }
    refine ⟨ht, rfl, ?_⟩
    ext i
    · rfl
    · rfl
    · have hi := hother i ht (OrdMap.mem_insert_iff _ _ _ _)
      simpa [MetadataState.catalog, queue, or_comm] using hi

theorem foldl_queue (c : Catalog UInt64 S3ObjectMetadata) (ids : List UInt64) :
  ids.foldl (fun c id => c.queue [id]) c = c.queue ids
  := foldl_op (fun _ => queue_nil) (fun _ _ => queue_cons) ids

theorem markDestroyObjects_becomes (hs : ObjectsInv s) {ids : List UInt64}
    {ops : List CompactOperations} (hok : markDestroyObjects s ids ops = .ok s') :
  Becomes s s' (s.catalog.queue ids)
  := by
  unfold markDestroyObjects at hok
  split at hok
  next hempty =>
    obtain rfl := ok_of_return.mp hok
    rw [List.isEmpty_iff.mp hempty, queue_nil]
    apply Becomes.refl hs
  next =>
    split at hok
    · rw [← foldl_queue]
      apply Becomes.foldlM _ hs hok
      intro t id t' ht hstep
      apply markDestroyed_becomes ht hstep
    · simp only [ok_of_do, reject_ok_iff, ne_eq, not_not] at hok
      obtain ⟨-, hlen, hok⟩ := hok
      have hfst : (ids.zip ops).map Prod.fst = ids := map_fst_zip (by omega)
      rw [← hfst, ← foldl_queue, foldl_map]
      apply Becomes.foldlM _ hs hok
      intro t e t' ht hstep
      apply markDestroyed_becomes ht hstep

/-- An object that is cleaned leaves the queue. -/
theorem cleanDestroyedObject_becomes (hs : ObjectsInv s) (id : UInt64) :
  Becomes s (cleanDestroyedObject s id) (s.catalog.clean [id])
  := by
  unfold cleanDestroyedObject
  split
  next seq hseq =>
    have ht : ObjectsInv { s with
        destroyedById := s.destroyedById.erase id
        markDestroyed := s.markDestroyed.erase seq } :=
      { hs with destroyed := hs.destroyed.clean hseq }
    refine ⟨ht, rfl, ?_⟩
    ext i
    · rfl
    · rfl
    · have hi := (ht.queued_iff i).trans (mem_erase_iff _ _ _)
      rw [← hs.queued_iff] at hi
      simpa [MetadataState.catalog, clean, and_comm, eq_comm] using hi
  next hnone =>
    refine ⟨hs, rfl, ?_⟩
    ext i
    · rfl
    · rfl
    · have hid : ¬ QueuedId s id := by
        rw [hs.queued_iff, mem_iff_lookup, hnone]
        rintro ⟨_, h⟩
        cases h
      simp only [MetadataState.catalog, clean, Set.mem_sdiff, Set.mem_ofPred_eq,
        mem_singleton]
      constructor
      · intro hi
        exact ⟨hi, fun heq => hid (heq ▸ hi)⟩
      · exact And.left

theorem cleanDestroyedObjects_becomes (hs : ObjectsInv s) {objectIds : List UInt64}
    (hok : cleanDestroyedObjects s objectIds = .ok (s', result)) :
  Becomes s s' (s.catalog.clean objectIds)
  := by
  cases hok
  rw [← foldl_op (fun _ => clean_nil) (fun _ _ => clean_cons)]
  apply Becomes.foldl _ hs
  intro t id ht
  apply cleanDestroyedObject_becomes ht

/-! ### Prepared objects -/

/-- A committed object is prepared no more. -/
theorem commitPrepared_becomes (hs : ObjectsInv s) (objectId : UInt64) :
  Becomes s (commitPrepared s objectId) (s.catalog.forget [objectId])
  := by
  unfold commitPrepared
  split
  next deadline hd =>
    refine ⟨{ hs with prepared := hs.prepared.remove hd }, rfl, ?_⟩
    ext i
    · have hi := mem_erase_iff s.prepared objectId i
      simpa [MetadataState.catalog, forget, and_comm, eq_comm] using hi
    · rfl
    · rfl
  next hnone =>
    refine ⟨hs, rfl, ?_⟩
    ext i
    · have hid : objectId ∉ s.prepared := by
        rw [mem_iff_lookup, hnone]
        rintro ⟨_, h⟩
        cases h
      simp only [MetadataState.catalog, forget, Set.mem_sdiff, Set.mem_ofPred_eq,
        mem_singleton]
      constructor
      · intro hi
        exact ⟨hi, fun heq => hid (heq ▸ hi)⟩
      · exact And.left
    · rfl
    · rfl

variable {nowMs : Int64}

/-- New ids are prepared, and nothing else changes. -/
theorem prepareObject_spec (hs : ObjectsInv s) {nodeId : Int32} {nodeEpoch : Int64}
    {count : UInt32} {ttlMs : Int64}
    (hok : prepareObject s nodeId nodeEpoch count ttlMs nowMs = .ok (s', result)) :
  s'.streams = s.streams ∧ ObjectsInv s' ∧ result = .id s.nextObjectId ∧
    s.nextObjectId ≤ s'.nextObjectId ∧
    (∀ id ∈ idRange s.nextObjectId count, s.nextObjectId ≤ id ∧ id < s'.nextObjectId) ∧
    s'.catalog = s.catalog.prepare (idRange s.nextObjectId count)
  := by
  simp only [prepareObject, ok_of_do, ok_of_return, Prod.mk.injEq] at hok
  obtain ⟨-, -, -, -, next, hnext, deadline, -, rfl, rfl⟩ := hok
  have hnone : ∀ id ∈ idRange s.nextObjectId count, s.prepared[id]? = none := by
    intro id hid
    cases hd : s.prepared[id]? with
    | none => rfl
    | some d =>
      have hlt := hs.prepared.fresh id d hd
      have hle := (mem_idRange hnext hid).1
      exact absurd (UInt64.lt_of_lt_of_le hlt hle) (UInt64.lt_irrefl _)
  refine ⟨rfl, { hs with prepared := ?_ }, rfl, le_of_checkedAdd hnext,
    fun id hid => mem_idRange hnext hid, ?_⟩
  · apply (hs.prepared.mono (le_of_checkedAdd hnext)).prepareAll (nodup_idRange _ _)
    · intro id hid
      exact (mem_idRange hnext hid).2
    · exact hnone
  · ext i
    · have hi : i ∈ (idRange s.nextObjectId count).foldl (fun m id => m.insert id deadline)
          s.prepared ↔ i ∈ s.prepared ∨ i ∈ idRange s.nextObjectId count := by
        rw [mem_iff_lookup, lookup_foldl_insert_keys, mem_iff_lookup]
        by_cases hmem : i ∈ idRange s.nextObjectId count
        · simp [hmem]
        · simp [hmem]
      exact hi
    · rfl
    · rfl

theorem le_u64Max (x : UInt64) :
  (compare x u64Max).isLE
  := by
  rw [Std.isLE_compare, UInt64.le_iff_toNat_le]
  have hx := x.toNat_lt
  have hmax : u64Max.toNat = 2 ^ 64 - 1 := rfl
  omega

theorem zero_le_u64 (x : UInt64) :
  (compare 0 x).isLE
  := by
  rw [Std.isLE_compare]
  exact UInt64.zero_le

/-- An id that has expired is prepared no more. -/
theorem dropPrepared_becomes (hs : ObjectsInv s) {e : Int64 × UInt64} (he : OnlyDeadline s e) :
  Becomes s (dropPrepared s e) (s.catalog.forget [e.2])
  := by
  have hcommit := commitPrepared_becomes hs e.2
  have heq : dropPrepared s e = commitPrepared s e.2 := by
    unfold commitPrepared
    split
    next deadline hd =>
      rw [he deadline hd, dropPrepared]
    next hd =>
      have hindex : s.preparedByDeadline[e]? = none := by
        cases hu : s.preparedByDeadline[e]? with
        | none => rfl
        | some u =>
          rw [hs.prepared.mem_index hu] at hd
          cases hd
      rw [dropPrepared, erase_of_lookup_eq_none hd, erase_of_lookup_eq_none hindex]
  rw [heq]
  exact hcommit

/-- A prepared object is in the index by deadline. -/
theorem PreparedInv.index_of_mem {next : UInt64} {prepared : OrdMap UInt64 Int64}
    {byDeadline : OrdMap (Int64 × UInt64) Unit} (h : PreparedInv next prepared byDeadline)
    {id : UInt64} {deadline : Int64} (hd : prepared[id]? = some deadline) :
  byDeadline[(deadline, id)]? = some ()
  := by
  rw [h.index, lookup_derive deadlineEntries_owned, Option.bind_eq_some_iff]
  refine ⟨deadline, hd, ?_⟩
  rw [deadlineEntries, lookup_ofEntries_cons, lookup_ofEntries_nil]
  simp

/-- The prepared objects whose deadline has passed are forgotten. -/
theorem expirePreparedObjects_becomes (hs : ObjectsInv s)
    (hok : expirePreparedObjects s nowMs = .ok (s', result)) :
  ∃ ids, (∀ id, id ∈ ids ↔ ∃ deadline, s.prepared[id]? = some deadline ∧ deadline ≤ nowMs) ∧
    Becomes s s' (s.catalog.forget ids)
  := by
  obtain ⟨rfl, -⟩ := Prod.mk.inj (Except.ok.inj hok)
  generalize hexpired : (s.preparedByDeadline.toList.filter
    fun e => (compare e.1 (nowMs, u64Max)).isLE).map Prod.fst = expired
  have hdeadline : ∀ e ∈ expired, s.prepared[e.2]? = some e.1 ∧ e.1 ≤ nowMs := by
    intro e he
    subst hexpired
    obtain ⟨⟨e, u⟩, hentry, rfl⟩ := mem_map.mp he
    obtain ⟨hmem, hle⟩ := mem_filter.mp hentry
    rw [Std.ExtTreeMap.mem_toList_iff_getElem?_eq_some] at hmem
    refine ⟨hs.prepared.mem_index hmem, ?_⟩
    rcases (isLE_lex _ _).mp hle with hlt | ⟨heq, -⟩
    · exact Std.isLE_compare.mp (by rw [hlt]; rfl)
    · exact Std.isLE_compare.mp (by rw [heq]; rfl)
  refine ⟨expired.map Prod.snd, ?_, ?_⟩
  · intro id
    constructor
    · intro hid
      obtain ⟨e, he, rfl⟩ := mem_map.mp hid
      exact ⟨e.1, hdeadline e he⟩
    · rintro ⟨deadline, hd, hle⟩
      subst hexpired
      have hindex := hs.prepared.index_of_mem hd
      refine mem_map.mpr ⟨(deadline, id), mem_map.mpr ⟨((deadline, id), ()), ?_, rfl⟩, rfl⟩
      rw [mem_filter, Std.ExtTreeMap.mem_toList_iff_getElem?_eq_some, isLE_lex]
      refine ⟨hindex, ?_⟩
      have hcmp := Std.isLE_compare.mpr hle
      cases hc : compare deadline nowMs with
      | lt => exact .inl rfl
      | eq => exact .inr ⟨rfl, le_u64Max id⟩
      | gt =>
        rw [hc] at hcmp
        cases hcmp
  · rw [← foldl_op (fun _ => forget_nil) (fun _ _ => forget_cons),
      foldl_map]
    have honly : ∀ e ∈ expired, OnlyDeadline s e := by
      intro e he deadline hd
      rw [(hdeadline e he).1] at hd
      exact (Option.some.inj hd).symm
    clear hexpired hdeadline hok
    -- an entry that is dropped stays the only deadline the others can have
    induction expired generalizing s with
    | nil => apply Becomes.refl hs
    | cons e expired ih =>
      have he := dropPrepared_becomes hs (honly e mem_cons_self)
      rw [foldl_cons, foldl_cons, ← he.catalog]
      apply he.trans (ih he.inv _)
      intro other hother deadline hd
      simp only [dropPrepared, lookup_erase] at hd
      split at hd
      · cases hd
      · exact honly other (mem_cons_of_mem e hother) deadline hd

/-! ### Stream objects -/

/-- The object that a stream object is registered as. -/
def streamObjectOf (streamId objectId startOffset endOffset objectSize : UInt64)
    (attributes : UInt32) (dataTimeMs nowMs : Int64) : S3ObjectMetadata where
  objectId := objectId
  objectType := .stream
  offsetRanges := [{ streamId, startOffset, endOffset }]
  objectSize := objectSize
  attributes := attributes
  committedTimestampMs := nowMs
  dataTimestampMs := dataTimeMs

/-- An object whose entries in the maps are the same is the same. -/
theorem liveObject_congr {id : UInt64} (hset : s'.streamSetObjects[id]? = s.streamSetObjects[id]?)
    (hids : s'.streamObjectIds[id]? = s.streamObjectIds[id]?)
    (hobjects : ∀ key : StreamOffsetKey, s.streamObjectIds[id]? = some key →
      s'.streamObjects[key]? = s.streamObjects[key]?) :
  liveObject s' id = liveObject s id
  := by
  rw [liveObject, liveObject, hset, hids]
  cases hkey : s.streamObjectIds[id]? with
  | none => rfl
  | some key => simp only [Option.bind_some, hobjects key hkey]

theorem insertStreamObject_becomes (hs : ObjectsInv s)
    {streamId startOffset endOffset objectSize : UInt64} {attributes : UInt32}
    {dataTimeMs : Int64} (hset : s.streamSetObjects[objectId]? = none)
    (honly : OnlyKey s (streamId, startOffset, objectId)) (hprepared : objectId ∉ s.prepared) :
  Becomes s (insertStreamObject s streamId objectId startOffset endOffset objectSize attributes
    dataTimeMs nowMs) (s.catalog.add (objectId, streamObjectOf streamId objectId startOffset
      endOffset objectSize attributes dataTimeMs nowMs))
  := by
  have hinsert := hs.streamObjects.insert (streamId, startOffset, objectId)
    ⟨streamObjectOf streamId objectId startOffset endOffset objectSize attributes dataTimeMs nowMs⟩
    ⟨rfl, endOffset, rfl⟩ honly
  have hinv : ObjectsInv (insertStreamObject s streamId objectId startOffset endOffset objectSize
      attributes dataTimeMs nowMs) := by
    refine { hs with streamObjects := hinsert, separate := ?_ }
    intro id hid
    rw [insertStreamObject, OrdMap.mem_insert_iff, not_or]
    refine ⟨?_, hs.separate id hid⟩
    rintro rfl
    obtain ⟨row, hrow⟩ := (mem_iff_lookup _ _).mp hid
    rw [insertStreamObject, hset] at hrow
    cases hrow
  refine ⟨hinv, rfl, ?_⟩
  apply Catalog.ext
  · ext i
    simp only [MetadataState.catalog, insertStreamObject, add, Set.mem_sdiff,
      Set.mem_ofPred_eq, Set.mem_singleton_iff]
    constructor
    · intro hi
      exact ⟨hi, fun heq => hprepared (heq ▸ hi)⟩
    · exact And.left
  · funext i
    rw [add_live]
    split
    next hi =>
      obtain rfl : i = objectId := hi
      simp [MetadataState.catalog, insertStreamObject, liveObject, hset, streamObjectOf]
    next hi =>
      apply liveObject_congr
      · rfl
      · rw [insertStreamObject, lookup_insert, if_neg (Ne.symm hi)]
      · intro key hkey
        have hid := (hs.row_of_id hkey).1
        rw [insertStreamObject, lookup_insert, if_neg]
        rintro rfl
        exact hi hid.symm
  · rfl

/-- Dropping a stream object from both maps. -/
theorem eraseStreamObject_becomes (hs : ObjectsInv s) {key : StreamOffsetKey}
    (hkey : s.streamObjectIds[key.2.2]? = some key) :
  Becomes s { s with
    streamObjects := s.streamObjects.erase key
    streamObjectIds := s.streamObjectIds.erase key.2.2 } (s.catalog.remove [key.2.2])
  := by
  have honly : OnlyKey s key := fun key' hkey' => Option.some.inj (hkey'.symm.trans hkey)
  refine ⟨{ hs with streamObjects := hs.streamObjects.remove honly, separate := ?_ }, rfl, ?_⟩
  · intro id hid
    rw [mem_erase_iff, not_and]
    exact fun _ => hs.separate id hid
  · apply Catalog.ext
    · rfl
    · funext i
      simp only [remove, mem_singleton]
      split
      next hi =>
        subst hi
        simp [MetadataState.catalog, liveObject, hs.set_none hkey]
      next hi =>
        apply liveObject_congr
        · rfl
        · rw [lookup_erase, if_neg (Ne.symm hi)]
        · intro key' hkey'
          have hid := (hs.row_of_id hkey').1
          rw [lookup_erase, if_neg]
          rintro rfl
          exact hi hid.symm
    · rfl

theorem streamObjectCommitted_iff {streamId : UInt64} :
  streamObjectCommitted s streamId objectId = true ↔
    ∃ key, s.streamObjectIds[objectId]? = some key ∧ key.1 = streamId
  := by
  rw [streamObjectCommitted, Option.any_eq_true]
  simp only [decide_eq_true_eq]

/-- A source is removed if it is an object of this stream. -/
theorem removeSourceObject_becomes (hs : ObjectsInv s) (streamId sourceId : UInt64) :
  Becomes s (removeSourceObject streamId s sourceId)
    (s.catalog.remove ([sourceId].filter (streamObjectCommitted s streamId)))
  := by
  unfold removeSourceObject
  split
  next key hkey =>
    obtain ⟨rfl, -⟩ := hs.row_of_id hkey
    split
    next hstream =>
      have hcommitted := streamObjectCommitted_iff.mpr ⟨key, hkey, hstream⟩
      rw [filter_cons_of_pos hcommitted, filter_nil]
      exact eraseStreamObject_becomes hs hkey
    next hstream =>
      have hnot : ¬ streamObjectCommitted s streamId key.2.2 = true := by
        rw [streamObjectCommitted_iff]
        rintro ⟨key', hkey', hstream'⟩
        cases hkey'.symm.trans hkey
        exact hstream hstream'
      rw [filter_cons_of_neg hnot, filter_nil, remove_nil]
      apply Becomes.refl hs
  next hnone =>
    have hnot : ¬ streamObjectCommitted s streamId sourceId = true := by
      rw [streamObjectCommitted_iff, hnone]
      nofun
    rw [filter_cons_of_neg hnot, filter_nil, remove_nil]
    apply Becomes.refl hs

/-- Dropping a source leaves the other objects of the stream. -/
theorem removeSourceObject_committed (s : MetadataState) (streamId sourceId id : UInt64) :
  streamObjectCommitted (removeSourceObject streamId s sourceId) streamId id = true ↔
    streamObjectCommitted s streamId id = true ∧ id ≠ sourceId
  := by
  rw [streamObjectCommitted_iff, streamObjectCommitted_iff]
  by_cases hid : id = sourceId
  · subst hid
    refine iff_of_false ?_ (fun h => h.2 rfl)
    rintro ⟨key, hkey, hstream⟩
    unfold removeSourceObject at hkey
    split at hkey
    next key₀ hkey₀ =>
      split at hkey
      next => simp at hkey
      next hne =>
        cases hkey₀.symm.trans hkey
        exact hne hstream
    next hnone =>
      rw [hnone] at hkey
      cases hkey
  · have hsame : (removeSourceObject streamId s sourceId).streamObjectIds[id]? =
        s.streamObjectIds[id]? := by
      unfold removeSourceObject
      split
      next =>
        split
        next => rw [lookup_erase, if_neg (Ne.symm hid)]
        next => rfl
      next => rfl
    rw [hsame]
    exact (and_iff_left hid).symm

/-- The sources that are committed objects of the stream are dropped. -/
theorem removeSourceObjects_becomes (hs : ObjectsInv s) (streamId : UInt64)
    (sourceIds : List UInt64) :
  Becomes s (sourceIds.foldl (removeSourceObject streamId) s)
    (s.catalog.remove (sourceIds.filter (streamObjectCommitted s streamId)))
  := by
  induction sourceIds generalizing s with
  | nil =>
    rw [filter_nil, remove_nil]
    apply Becomes.refl hs
  | cons sourceId sourceIds ih =>
    have hsource := removeSourceObject_becomes hs streamId sourceId
    have hrest := hsource.trans (ih hsource.inv)
    rw [hsource.catalog] at hrest
    have heq : s.catalog.remove
        ((sourceId :: sourceIds).filter (streamObjectCommitted s streamId)) =
        (s.catalog.remove ([sourceId].filter (streamObjectCommitted s streamId))).remove
          (sourceIds.filter
            (streamObjectCommitted (removeSourceObject streamId s sourceId) streamId)) := by
      apply Catalog.ext
      · rfl
      · funext i
        by_cases hi : i = sourceId
        · subst hi
          by_cases hcommitted : streamObjectCommitted s streamId i = true
          · simp [remove, removeSourceObject_committed, hcommitted]
          · simp [remove, removeSourceObject_committed, hcommitted]
        · simp [remove, removeSourceObject_committed, hi]
      · rfl
    rw [foldl_cons, heq]
    exact hrest

theorem destroyStreamObject_ids {key : StreamOffsetKey}
    (hok : destroyStreamObject s key = .ok s') :
  s'.streamObjectIds = s.streamObjectIds.erase key.2.2
  := markDestroyed_streamObjectIds hok

/-- Dropping the objects of a deleted stream. -/
theorem destroyStreamObjects_becomes (hs : ObjectsInv s) {keys : List StreamOffsetKey}
    (hnodup : (keys.map fun key => key.2.2).Nodup)
    (hkeys : ∀ key ∈ keys, s.streamObjectIds[key.2.2]? = some key)
    (hok : keys.foldlM destroyStreamObject s = .ok s') :
  Becomes s s' (s.catalog.retire (keys.map fun key => key.2.2))
  := by
  induction keys generalizing s with
  | nil =>
    obtain rfl : s = s' := by simpa using hok
    rw [map_nil, retire_nil]
    apply Becomes.refl hs
  | cons key keys ih =>
    rw [foldlM_cons, ok_of_do] at hok
    obtain ⟨t, ht, hok⟩ := hok
    rw [map_cons, nodup_cons] at hnodup
    have herase := eraseStreamObject_becomes hs (hkeys key mem_cons_self)
    have hmark := herase.trans (markDestroyed_becomes herase.inv ht)
    rw [herase.catalog] at hmark
    have hrest := ih hmark.inv hnodup.2
      (by
        intro other hother
        rw [destroyStreamObject_ids ht, lookup_erase, if_neg]
        · exact hkeys other (mem_cons_of_mem key hother)
        · intro heq
          exact hnodup.1 (heq ▸ mem_map_of_mem hother))
      hok
    rw [map_cons, retire_cons]
    rw [hmark.catalog] at hrest
    exact hmark.trans hrest

end Metadata
