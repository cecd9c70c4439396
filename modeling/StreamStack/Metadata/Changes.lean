import StreamStack.Metadata.Objects

/-!
# What commands do to the catalog

A commit retires the objects it compacts and puts its own to use; a compaction puts its object to
use, drops the sources that are objects of its stream and queues all of its sources; deleting a
stream retires its objects. The other commands hand out ids, forget them, clean the queue, or
leave the catalog alone.
-/

namespace Metadata

open OrdMap Run List Catalog

variable {s s' : MetadataState} {result : MetadataResult}

/-! ### Deleting a stream -/

/-- A range over all second components is everything with the first. -/
theorem mem_rangeOf {α β ν : Type} [Ord α] [Ord β] [Std.TransOrd α] [Std.TransOrd β]
    [Std.LawfulEqOrd α] [Std.LawfulEqOrd β] (m : OrdMap (α × β) ν) {lo hi : β}
    (hlo : ∀ y, (compare lo y).isLE) (hhi : ∀ y, (compare y hi).isLE) (a : α)
    (e : (α × β) × ν) :
  e ∈ rangeOf m (a, lo) (a, hi) ↔ m[e.1]? = some e.2 ∧ e.1.1 = a
  := by
  rw [rangeOf, mem_filter, Std.ExtTreeMap.mem_toList_iff_getElem?_eq_some, between_iff hlo hhi]

/-- The stream objects of a stream. -/
def objectIdsOf (s : MetadataState) (streamId : UInt64) : List UInt64 :=
  ((rangeOf s.streamObjects (streamId, 0, 0) (streamId, u64Max, u64Max)).map Prod.fst).map
    fun key => key.2.2

theorem mem_streamObjectRange (s : MetadataState) (streamId : UInt64)
    (e : StreamOffsetKey × StreamObjectRow) :
  e ∈ rangeOf s.streamObjects (streamId, 0, 0) (streamId, u64Max, u64Max) ↔
    s.streamObjects[e.1]? = some e.2 ∧ e.1.1 = streamId
  := by
  apply mem_rangeOf
  · apply isLE_lex_of_least zero_le_u64 zero_le_u64
  · apply isLE_lex_of_greatest le_u64Max le_u64Max

section

variable {streamId id : UInt64}

/-- The objects of a stream are those committed for it. -/
theorem mem_objectIdsOf (hs : ObjectsInv s) :
  id ∈ objectIdsOf s streamId ↔ streamObjectCommitted s streamId id = true
  := by
  rw [streamObjectCommitted_iff, objectIdsOf, map_map, mem_map]
  constructor
  · rintro ⟨e, he, rfl⟩
    obtain ⟨hrow, hstream⟩ := (mem_streamObjectRange s streamId e).mp he
    exact ⟨e.1, hs.id_of_row hrow, hstream⟩
  · rintro ⟨key, hkey, hstream⟩
    obtain ⟨hid, row, hrow⟩ := hs.row_of_id hkey
    exact ⟨(key, row), (mem_streamObjectRange s streamId _).mpr ⟨hrow, hstream⟩, hid⟩

theorem nodup_objectIdsOf (hs : ObjectsInv s) (streamId : UInt64) :
  (objectIdsOf s streamId).Nodup
  := by
  apply List.Nodup.map_on
  · intro key hkey key' hkey' heq
    obtain ⟨e, he, rfl⟩ := mem_map.mp hkey
    obtain ⟨e', he', rfl⟩ := mem_map.mp hkey'
    have hid := hs.id_of_row ((mem_streamObjectRange s streamId e).mp he).1
    have hid' := hs.id_of_row ((mem_streamObjectRange s streamId e').mp he').1
    rw [heq] at hid
    exact Option.some.inj (hid.symm.trans hid')
  · have hkeys : (rangeOf s.streamObjects (streamId, 0, 0) (streamId, u64Max, u64Max)).Sublist
        s.streamObjects.toList := filter_sublist
    exact (hkeys.map Prod.fst).nodup (nodup_keys_toList _)

variable {nodeId : Int32} {nodeEpoch epoch : Int64}

/-- The objects of a deleted stream are retired. -/
theorem deleteStream_becomes (hs : ObjectsInv s)
    (hfold : ((rangeOf s.streamObjects (streamId, 0, 0) (streamId, u64Max, u64Max)).map
      Prod.fst).foldlM destroyStreamObject (s.withoutStream streamId) = .ok s') :
  s'.streams = s.streams.erase streamId ∧
    ∃ ids, (∀ id ∈ ids, streamObjectCommitted s streamId id = true) ∧
      Becomes s s' (s.catalog.retire ids)
  := by
  have hsame : SameObjects s (s.withoutStream streamId) :=
    ⟨rfl, rfl, rfl, rfl, rfl, rfl, rfl, rfl, rfl⟩
  have hstart := hsame.becomes hs
  refine ⟨?_, objectIdsOf s streamId, fun id hid => (mem_objectIdsOf hs).mp hid, ?_⟩
  · have hstreams := SameControl.foldlM (fun t key t' hstep =>
      destroyStreamObject_sameControl hstep) hfold
    rw [hstreams.streams]
    rfl
  · rw [← hstart.catalog]
    apply hstart.trans
    apply destroyStreamObjects_becomes hstart.inv (nodup_objectIdsOf hs streamId) _ hfold
    intro key hkey
    obtain ⟨e, he, rfl⟩ := mem_map.mp hkey
    exact hs.id_of_row ((mem_streamObjectRange s streamId e).mp he).1

/-! ### Commits -/

/-- The objects that a commit registers. -/
def CommitStreamSetObjectRequest.entries (request : CommitStreamSetObjectRequest)
    (nowMs dataTimeMs : Int64) : List (UInt64 × S3ObjectMetadata) :=
  (if request.objectId ≠ noopObjectId then
    [(request.objectId, committedObject request nowMs dataTimeMs)] else []) ++
    request.streamObjects.map fun so => (so.objectId, streamObjectOf so.streamId so.objectId
      so.startOffset so.endOffset so.objectSize so.attributes dataTimeMs nowMs)

theorem CommitStreamSetObjectRequest.entries_ids (request : CommitStreamSetObjectRequest)
    (nowMs dataTimeMs : Int64) :
  (request.entries nowMs dataTimeMs).map Prod.fst = request.ids
  := by
  rw [entries, ids, map_append, map_map]
  congr 1
  split
  · rfl
  · rfl

variable {compact : Bool}

theorem advanceEndOffset_sameObjects {startOffset endOffset : UInt64}
    (hok : advanceEndOffset s streamId startOffset endOffset compact = .ok s') :
  SameObjects s s'
  := by
  simp only [advanceEndOffset, ok_of_do] at hok
  obtain ⟨row, -, hok⟩ := hok
  split at hok
  next =>
    simp only [ok_of_do, ok_of_return] at hok
    obtain ⟨-, -, -, -, rfl⟩ := hok
    exact ⟨rfl, rfl, rfl, rfl, rfl, rfl, rfl, rfl, rfl⟩
  next =>
    simp only [ok_of_do, ok_of_return] at hok
    obtain ⟨-, -, rfl⟩ := hok
    exact ⟨rfl, rfl, rfl, rfl, rfl, rfl, rfl, rfl, rfl⟩

theorem forget_add (c : Catalog UInt64 S3ObjectMetadata) (id : UInt64) (object : S3ObjectMetadata) :
  (c.forget [id]).add (id, object) = c.add (id, object)
  := by
  ext i
  · simp [forget, add]
  · rfl
  · rfl

theorem not_mem_commitPrepared (s : MetadataState) (objectId : UInt64) :
  objectId ∉ (commitPrepared s objectId).prepared
  := by
  rw [mem_iff_lookup]
  unfold commitPrepared
  split
  next => simp
  next hnone => simp [hnone]

theorem removeStreamSetObject_becomes (hs : ObjectsInv s) (hid : id ∉ s.streamObjectIds) :
  Becomes s (removeStreamSetObject s id) (s.catalog.remove [id])
  := by
  have hnone : s.streamObjectIds[id]? = none := by
    rw [mem_iff_lookup] at hid
    exact Option.eq_none_iff_forall_ne_some.mpr fun key hkey => hid ⟨key, hkey⟩
  unfold removeStreamSetObject
  split
  next row hrow =>
    refine ⟨{ hs with separate := ?_ }, rfl, ?_⟩
    · intro i hi
      exact hs.separate i ((mem_erase_iff _ _ _).mp hi).2
    · apply Catalog.ext
      · rfl
      · funext i
        simp only [remove, mem_singleton]
        split
        next hi =>
          subst hi
          simp [MetadataState.catalog, liveObject, hnone]
        next hi =>
          apply liveObject_congr
          · rw [lookup_erase, if_neg (Ne.symm hi)]
          · rfl
          · exact fun _ _ => rfl
      · rfl
  next hset =>
    refine ⟨hs, rfl, ?_⟩
    apply Catalog.ext
    · rfl
    · funext i
      simp only [remove, mem_singleton]
      split
      next hi =>
        subst hi
        simp [MetadataState.catalog, liveObject, hnone, hset]
      next hi => rfl
    · rfl

theorem destroyCompacted_becomes (hs : ObjectsInv s) (hid : id ∉ s.streamObjectIds)
    (hok : destroyCompacted s id = .ok s') :
  Becomes s s' (s.catalog.retire [id]) ∧ s'.streamObjectIds = s.streamObjectIds
  := by
  have hremove := removeStreamSetObject_becomes hs hid
  have hmark := markDestroyed_becomes hremove.inv hok
  rw [hremove.catalog] at hmark
  refine ⟨hremove.trans hmark, ?_⟩
  rw [markDestroyed_streamObjectIds hok]
  unfold removeStreamSetObject
  split
  · rfl
  · rfl

/-- The compacted objects, none of which is a stream object, are retired. -/
theorem destroyCompactedAll_becomes (hs : ObjectsInv s) {ids : List UInt64}
    (hids : ∀ id ∈ ids, id ∉ s.streamObjectIds) (hok : ids.foldlM destroyCompacted s = .ok s') :
  Becomes s s' (s.catalog.retire ids)
  := by
  induction ids generalizing s with
  | nil =>
    obtain rfl : s = s' := by simpa using hok
    rw [retire_nil]
    apply Becomes.refl hs
  | cons id ids ih =>
    rw [foldlM_cons, ok_of_do] at hok
    obtain ⟨t, ht, hok⟩ := hok
    obtain ⟨hfirst, hsame⟩ := destroyCompacted_becomes hs (hids id mem_cons_self) ht
    have hrest := ih hfirst.inv
      (fun other hother => hsame ▸ hids other (mem_cons_of_mem id hother)) hok
    rw [hfirst.catalog, ← retire_cons] at hrest
    exact hfirst.trans hrest

variable {nowMs dataTimeMs : Int64}

/-- Compacted objects are committed stream-set objects. -/
theorem compactedDataTime_ok {ids : List UInt64}
    (hok : ids.foldlM (compactedDataTime s) nowMs = .ok dataTimeMs) :
  ∀ id ∈ ids, id ∈ s.streamSetObjects
  := by
  induction ids generalizing nowMs with
  | nil => nofun
  | cons id ids ih =>
    rw [foldlM_cons, ok_of_do] at hok
    obtain ⟨time, htime, hok⟩ := hok
    intro other hother
    rcases mem_cons.mp hother with rfl | hother
    · rw [mem_iff_lookup]
      unfold compactedDataTime at htime
      split at htime
      next row hrow => exact ⟨row, hrow⟩
      next => cases htime
    · exact ih hok other hother

variable {request : CommitStreamSetObjectRequest}

/-- A new object is live. -/
theorem insertStreamSetObject_becomes (hs : ObjectsInv s)
    (hids : s.streamObjectIds[request.objectId]? = none)
    (hprepared : request.objectId ∉ s.prepared) :
  Becomes s (insertStreamSetObject s nodeId request nowMs dataTimeMs)
    (s.catalog.add (request.objectId, committedObject request nowMs dataTimeMs))
  := by
  refine ⟨{ hs with separate := ?_ }, rfl, ?_⟩
  · intro id hid
    rw [insertStreamSetObject, OrdMap.mem_insert_iff] at hid
    rcases hid with rfl | hid
    · rw [mem_iff_lookup, insertStreamSetObject, hids]
      simp
    · exact hs.separate id hid
  · apply Catalog.ext
    · ext i
      simp only [MetadataState.catalog, insertStreamSetObject, add, Set.mem_sdiff,
        Set.mem_ofPred_eq, Set.mem_singleton_iff]
      constructor
      · intro hi
        exact ⟨hi, fun heq => hprepared (heq ▸ hi)⟩
      · exact And.left
    · funext i
      rw [add_live]
      split
      next hi =>
        obtain rfl : i = request.objectId := hi
        simp [MetadataState.catalog, insertStreamSetObject, liveObject]
      next hi =>
        apply liveObject_congr
        · rw [insertStreamSetObject, lookup_insert, if_neg (Ne.symm hi)]
        · rfl
        · exact fun _ _ => rfl
    · rfl

theorem commitPrepared_sameLive (s : MetadataState) (objectId : UInt64) :
  (commitPrepared s objectId).streamSetObjects = s.streamSetObjects ∧
    (commitPrepared s objectId).streamObjectIds = s.streamObjectIds
  := by
  obtain ⟨prepared, byDeadline, heq⟩ := commitPrepared_eq s objectId
  rw [heq]
  exact ⟨rfl, rfl⟩

/-- A stream set object is committed, unless the request names none. -/
theorem commitSetObject_becomes (hs : ObjectsInv s)
    (hok : commitSetObject s nodeId request nowMs dataTimeMs compact = .ok s') :
  Becomes s s' (s.catalog.commit (if request.objectId ≠ noopObjectId then
    [(request.objectId, committedObject request nowMs dataTimeMs)] else []))
  := by
  unfold commitSetObject at hok
  split at hok
  case isFalse hnoop =>
      cases hok
      rw [if_neg hnoop]
      apply Becomes.refl hs
  case isTrue hnoop =>
      simp only [ok_of_do, ok_of_return] at hok
      obtain ⟨⟨⟩, hfree, s₂, hfold, rfl⟩ := hok
      obtain ⟨-, hkey⟩ := checkObjectIdFree_ok hfree
      obtain ⟨-, hsame⟩ := commitPrepared_sameLive s request.objectId
      have hadvance : SameObjects (commitPrepared s request.objectId) s₂ := by
        apply foldlM_ok_induction (I := SameObjects (commitPrepared s request.objectId)) _
          (SameObjects.refl _) hfold
        intro t range t' _ ht hstep
        exact ht.trans (advanceEndOffset_sameObjects hstep)
      have hprepared := commitPrepared_becomes hs request.objectId
      have hmoved := hadvance.becomes hprepared.inv
      rw [hprepared.catalog] at hmoved
      have hinsert : Becomes s₂ (insertStreamSetObject s₂ nodeId request nowMs dataTimeMs)
          (s₂.catalog.add (request.objectId, committedObject request nowMs dataTimeMs)) := by
        apply insertStreamSetObject_becomes hmoved.inv
        · rw [hadvance.streamObjectIds, hsame]
          apply Option.eq_none_iff_forall_ne_some.mpr
          intro key hid
          cases hkey key hid
        · rw [hadvance.prepared]
          apply not_mem_commitPrepared
      rw [hmoved.catalog, forget_add] at hinsert
      rw [if_pos hnoop]
      exact hprepared.trans (hmoved.trans hinsert)

theorem commitStreamObject_becomes (hs : ObjectsInv s) {so : StreamObject}
    (hok : commitStreamObject nowMs dataTimeMs compact s so = .ok s') :
  Becomes s s' (s.catalog.add (so.objectId, streamObjectOf so.streamId so.objectId
    so.startOffset so.endOffset so.objectSize so.attributes dataTimeMs nowMs))
  := by
  simp only [commitStreamObject, ok_of_do, ok_of_return] at hok
  obtain ⟨⟨⟩, hfree, s₂, hadvance, rfl⟩ := hok
  obtain ⟨hset, hkey⟩ := checkObjectIdFree_ok hfree
  obtain ⟨hsameset, hsame⟩ := commitPrepared_sameLive s so.objectId
  have hadvance := advanceEndOffset_sameObjects hadvance
  have hprepared := commitPrepared_becomes hs so.objectId
  have hmoved := hadvance.becomes hprepared.inv
  rw [hprepared.catalog] at hmoved
  have hinsert : Becomes s₂ (insertStreamObject s₂ so.streamId so.objectId so.startOffset
      so.endOffset so.objectSize so.attributes dataTimeMs nowMs)
      (s₂.catalog.add (so.objectId, streamObjectOf so.streamId so.objectId so.startOffset
        so.endOffset so.objectSize so.attributes dataTimeMs nowMs)) := by
    apply insertStreamObject_becomes hmoved.inv
    · rw [hadvance.streamSetObjects, hsameset, hset]
    · intro key hid
      rw [hadvance.streamObjectIds, hsame] at hid
      exact (Option.some.inj (hkey key hid)).symm
    · rw [hadvance.prepared]
      apply not_mem_commitPrepared
  rw [hmoved.catalog, forget_add] at hinsert
  exact hprepared.trans (hmoved.trans hinsert)

/-- A commit retires the objects it compacts, which are stream-set objects, and puts its own to
use. -/
theorem commitStreamSetObject_becomes (hs : ObjectsInv s)
    (hok : commitStreamSetObject s nodeId nodeEpoch request nowMs = .ok (s', result)) :
  (∀ id ∈ request.compactedObjectIds, id ∈ s.streamSetObjects) ∧
    ∃ dataTimeMs, Becomes s s' ((s.catalog.retire request.compactedObjectIds).commit
      (request.entries nowMs dataTimeMs))
  := by
  simp only [commitStreamSetObject, ok_of_do, ok_of_return, Prod.mk.injEq] at hok
  obtain ⟨-, -, -, -, dataTimeMs, htime, s₁, hcompact, s₂, hset, s₃, hobjects, rfl, -⟩ := hok
  have hcompacted := compactedDataTime_ok htime
  have hretire := destroyCompactedAll_becomes hs
    (fun id hid => hs.separate id (hcompacted id hid)) hcompact
  have hcommit := commitSetObject_becomes hretire.inv hset
  have hrest : Becomes s₂ s₃ (s₂.catalog.commit (request.streamObjects.map fun so =>
      (so.objectId, streamObjectOf so.streamId so.objectId so.startOffset so.endOffset
        so.objectSize so.attributes dataTimeMs nowMs))) := by
    rw [commit, foldl_map]
    apply Becomes.foldlM _ hcommit.inv hobjects
    intro t so t' ht hstep
    apply commitStreamObject_becomes ht hstep
  refine ⟨hcompacted, dataTimeMs, ?_⟩
  rw [CommitStreamSetObjectRequest.entries, commit_append, ← hretire.catalog,
    ← hcommit.catalog]
  exact hretire.trans (hcommit.trans hrest)

/-! ### Compactions of one stream -/

/-- The object that a compaction registers, if it registers one. -/
def CompactStreamObjectRequest.entries (request : CompactStreamObjectRequest) (nowMs : Int64) :
    List (UInt64 × S3ObjectMetadata) :=
  if request.objectId ≠ noopObjectId then
    [(request.objectId, streamObjectOf request.streamId request.objectId request.startOffset
      request.endOffset request.objectSize request.attributes nowMs nowMs)]
  else []

/-- The object that a compaction puts to use. -/
def CompactStreamObjectRequest.ids (request : CompactStreamObjectRequest) : List UInt64 :=
  if request.objectId ≠ noopObjectId then [request.objectId] else []

/-- The sources that a compaction drops: those that are objects of its stream, which its own
object is too by then. -/
def CompactStreamObjectRequest.dropped (request : CompactStreamObjectRequest) (s : MetadataState) :
    List UInt64 :=
  request.sourceObjectIds.filter fun id =>
    streamObjectCommitted s request.streamId id || request.ids.contains id

theorem CompactStreamObjectRequest.entries_ids (request : CompactStreamObjectRequest)
    (nowMs : Int64) :
  (request.entries nowMs).map Prod.fst = request.ids
  := by
  unfold entries ids
  split
  · rfl
  · rfl

/-- The id that stands for no object is never given out. -/
theorem noop_not_prepared (hs : ObjectsInv s) :
  noopObjectId ∉ s.prepared
  := by
  rw [mem_iff_lookup]
  rintro ⟨deadline, hd⟩
  have hlt := hs.prepared.fresh _ _ hd
  rw [UInt64.lt_iff_toNat_lt] at hlt
  have hbound := s.nextObjectId.toNat_lt
  have hnoop : noopObjectId.toNat = 2 ^ 64 - 1 := rfl
  omega

/-- What a compaction that is accepted was checked for: its object is not committed yet, the
stream is at the epoch of the request, and the range is inside the stream. -/
theorem compactStreamObject_checks {request : CompactStreamObjectRequest}
    (hok : compactStreamObject s nodeId nodeEpoch request nowMs = .ok (s', result)) :
  (∀ id ∈ request.ids, ¬ CommittedId s id) ∧
    ∃ row, s.streams[request.streamId]? = some row ∧ row.epoch = request.streamEpoch.toInt64 ∧
      request.endOffset ≤ row.endOffset ∧ row.startOffset ≤ request.startOffset
  := by
  simp only [compactStreamObject, ok_of_do, ok_of_return, reject_ok_iff, Prod.mk.injEq] at hok
  obtain ⟨-, -, -, hnew, row, hrow, -, hepoch, -, hend, -, hstart, ⟨⟩, hfree, -⟩ := hok
  refine ⟨?_, row, requireStream_ok hrow, not_not.mp hepoch, UInt64.not_lt.mp hend,
    UInt64.not_lt.mp hstart⟩
  intro id hid
  rw [CompactStreamObjectRequest.ids] at hid
  split at hid
  next hnoop =>
    obtain rfl := mem_singleton.mp hid
    rw [checkReplacement, if_pos hnoop] at hfree
    obtain ⟨hset, hkey⟩ := checkObjectIdFree_ok hfree
    rw [CommittedId, mem_iff_lookup, mem_iff_lookup, hset]
    rintro (⟨row, hrow⟩ | ⟨key, hkey'⟩)
    · cases hrow
    · apply hnew
      refine ⟨hnoop, streamObjectCommitted_iff.mpr ⟨key, hkey', ?_⟩⟩
      rw [← Option.some.inj (hkey key hkey')]
  next => cases hid

/-- The state in which a compaction has registered its object and dropped no source yet. -/
def insertReplacement (s : MetadataState) (request : CompactStreamObjectRequest) (nowMs : Int64) :
    MetadataState :=
  if request.objectId ≠ noopObjectId then
    insertStreamObject (commitPrepared s request.objectId) request.streamId request.objectId
      request.startOffset request.endOffset request.objectSize request.attributes nowMs nowMs
  else commitPrepared s request.objectId

theorem insertReplacement_committed (s : MetadataState) (request : CompactStreamObjectRequest)
    (nowMs : Int64) (id : UInt64) :
  streamObjectCommitted (insertReplacement s request nowMs) request.streamId id =
    (streamObjectCommitted s request.streamId id || request.ids.contains id)
  := by
  have hsame := (commitPrepared_sameLive s request.objectId).2
  rw [streamObjectCommitted, streamObjectCommitted, insertReplacement,
    CompactStreamObjectRequest.ids]
  by_cases hnoop : request.objectId = noopObjectId
  · rw [if_neg (not_not_intro hnoop), if_neg (not_not_intro hnoop), hsame, contains_nil,
      Bool.or_false]
  · rw [if_pos hnoop, if_pos hnoop, insertStreamObject, hsame, lookup_insert]
    by_cases hid : request.objectId = id
    · simp [hid]
    · simp [hid, Ne.symm hid]

/-- The object of a compaction is put to use. -/
theorem insertReplacement_becomes (hs : ObjectsInv s) {request : CompactStreamObjectRequest}
    (nowMs : Int64) (hfree : ∀ id ∈ request.ids, ¬ CommittedId s id) :
  Becomes s (insertReplacement s request nowMs) (s.catalog.commit (request.entries nowMs))
  := by
  unfold insertReplacement
  have hprepared := commitPrepared_becomes hs request.objectId
  obtain ⟨hsameset, hsame⟩ := commitPrepared_sameLive s request.objectId
  by_cases hnoop : request.objectId = noopObjectId
  · rw [if_neg (not_not_intro hnoop), CompactStreamObjectRequest.entries,
      if_neg (not_not_intro hnoop)]
    have hforget : s.catalog.forget [request.objectId] = s.catalog := by
      ext i
      · simp only [forget, Set.mem_sdiff, Set.mem_ofPred_eq, mem_singleton]
        constructor
        · exact And.left
        · intro hi
          refine ⟨hi, ?_⟩
          rintro rfl
          rw [hnoop] at hi
          exact noop_not_prepared hs hi
      · rfl
      · rfl
    rw [hforget] at hprepared
    exact hprepared
  · rw [if_pos hnoop, CompactStreamObjectRequest.entries, if_pos hnoop]
    have hnot : ¬ CommittedId s request.objectId := by
      apply hfree
      rw [CompactStreamObjectRequest.ids, if_pos hnoop]
      exact mem_cons_self
    rw [CommittedId, mem_iff_lookup, mem_iff_lookup, not_or] at hnot
    have hinsert : Becomes (commitPrepared s request.objectId)
        (insertStreamObject (commitPrepared s request.objectId) request.streamId request.objectId
          request.startOffset request.endOffset request.objectSize request.attributes nowMs nowMs)
        ((commitPrepared s request.objectId).catalog.add (request.objectId,
          streamObjectOf request.streamId request.objectId request.startOffset request.endOffset
            request.objectSize request.attributes nowMs nowMs)) := by
      apply insertStreamObject_becomes hprepared.inv
      · rw [hsameset]
        exact Option.eq_none_iff_forall_ne_some.mpr fun row hrow => hnot.1 ⟨row, hrow⟩
      · intro key hid
        rw [hsame] at hid
        exact absurd ⟨key, hid⟩ hnot.2
      · apply not_mem_commitPrepared
    rw [hprepared.catalog, forget_add] at hinsert
    exact hprepared.trans hinsert

/-- A compaction puts its object to use, drops the sources that are objects of its stream, and
queues every source for destruction. -/
theorem compactStreamObject_becomes (hs : ObjectsInv s) {request : CompactStreamObjectRequest}
    (hok : compactStreamObject s nodeId nodeEpoch request nowMs = .ok (s', result)) :
  Becomes s s' (((s.catalog.commit (request.entries nowMs)).remove (request.dropped s)).queue
    request.sourceObjectIds)
  := by
  have hfree := (compactStreamObject_checks hok).1
  simp only [compactStreamObject, ok_of_do, ok_of_return, Prod.mk.injEq] at hok
  obtain ⟨-, -, -, -, row, -, -, -, -, -, -, -, -, -, s₂, hmark, rfl, -⟩ := hok
  have hinsert := insertReplacement_becomes hs nowMs hfree
  have hdrop := removeSourceObjects_becomes hinsert.inv request.streamId request.sourceObjectIds
  have hqueue := markDestroyObjects_becomes hdrop.inv hmark
  rw [hdrop.catalog, hinsert.catalog,
    filter_congr fun id _ => insertReplacement_committed s request nowMs id] at hqueue
  exact hinsert.trans (hdrop.trans hqueue)

/-! ### Commands without objects -/

/-- A command that leaves the objects alone, creates streams at most, and moves the offsets of a
stream only by raising its start offset up to its end offset. -/
structure Quiet (s s' : MetadataState) : Prop where
  same : SameObjects s s'
  rows : ∀ (id : UInt64) (row' : StreamRow), s'.streams[id]? = some row' →
    (s.nextStreamId ≤ id ∧ row' = createdRow id) ∨
      ∃ row, s.streams[id]? = some row ∧ row'.endOffset = row.endOffset ∧
        row.startOffset ≤ row'.startOffset ∧
        (row.startOffset ≤ row.endOffset → row'.startOffset ≤ row'.endOffset)

theorem quiet_of_streams (hsame : SameObjects s s') (hstreams : s'.streams = s.streams) :
  Quiet s s'
  := by
  refine ⟨hsame, ?_⟩
  intro id row hrow
  rw [hstreams] at hrow
  exact .inr ⟨row, hrow, rfl, UInt64.le_refl _, fun h => h⟩

theorem quiet_insert (hsame : SameObjects s s') {row row' : StreamRow}
    (hrow : s.streams[id]? = some row) (hstreams : s'.streams = s.streams.insert id row')
    (hend : row'.endOffset = row.endOffset) (hstart : row.startOffset ≤ row'.startOffset)
    (hle : row.startOffset ≤ row.endOffset → row'.startOffset ≤ row'.endOffset) :
  Quiet s s'
  := by
  refine ⟨hsame, ?_⟩
  intro k r hr
  rw [hstreams, lookup_insert] at hr
  split at hr
  next heq =>
    subst heq
    cases hr
    exact .inr ⟨row, hrow, hend, hstart, hle⟩
  next => exact .inr ⟨r, hr, rfl, UInt64.le_refl _, fun h => h⟩

theorem quiet_create (hsame : SameObjects s s') {ids : List UInt64}
    (hids : ∀ id ∈ ids, s.nextStreamId ≤ id)
    (hstreams : s'.streams = ids.foldl (fun m id => m.insert id (createdRow id)) s.streams) :
  Quiet s s'
  := by
  refine ⟨hsame, ?_⟩
  intro k r hr
  rw [hstreams, lookup_foldl_insert_keys] at hr
  split at hr
  next hk => exact .inl ⟨hids k hk, (Option.some.inj hr).symm⟩
  next => exact .inr ⟨r, hr, rfl, UInt64.le_refl _, fun h => h⟩

end

/-! ### Commands -/

/-- The commands that may change the catalog. -/
def MetadataCommand.HasObjects : MetadataCommand → Prop
  | .deleteStream .. | .prepareObject .. | .commitStreamSetObject .. | .compactStreamObject ..
  | .expirePreparedObjects _ | .cleanDestroyedObjects _ => True
  | _ => False

/-- What a command that succeeds does to the catalog. -/
inductive CatalogStep (s s' : MetadataState) : MetadataCommand → MetadataResult → Prop where
  | deleted {nodeId nodeEpoch streamId epoch result} (ids : List UInt64)
      (streams : s'.streams = s.streams.erase streamId)
      (ofStream : ∀ id ∈ ids, streamObjectCommitted s streamId id = true)
      (becomes : Becomes s s' (s.catalog.retire ids)) :
      CatalogStep s s' (.deleteStream nodeId nodeEpoch streamId epoch) result
  | prepared {nodeId nodeEpoch count ttlMs nowMs} (streams : s'.streams = s.streams)
      (inv : ObjectsInv s')
      (nextObjectId : s.nextObjectId ≤ s'.nextObjectId)
      (fresh : ∀ id ∈ idRange s.nextObjectId count, s.nextObjectId ≤ id ∧ id < s'.nextObjectId)
      (catalog : s'.catalog = s.catalog.prepare (idRange s.nextObjectId count)) :
      CatalogStep s s' (.prepareObject nodeId nodeEpoch count ttlMs nowMs) (.id s.nextObjectId)
  | committed {nodeId nodeEpoch request nowMs result} (dataTimeMs : Int64)
      (rows : ∀ streamId, Advanced (!request.compactedObjectIds.isEmpty) streamId
        (request.rangesOf streamId) s s')
      (compacted : ∀ id ∈ request.compactedObjectIds, id ∈ s.streamSetObjects)
      (becomes : Becomes s s' ((s.catalog.retire request.compactedObjectIds).commit
        (request.entries nowMs dataTimeMs))) :
      CatalogStep s s' (.commitStreamSetObject nodeId nodeEpoch request nowMs) result
  | compacted {nodeId nodeEpoch request nowMs result} (streams : s'.streams = s.streams)
      (free : ∀ id ∈ request.ids, ¬ CommittedId s id)
      (row : ∃ row, s.streams[request.streamId]? = some row ∧
        row.epoch = request.streamEpoch.toInt64 ∧ request.endOffset ≤ row.endOffset ∧
        row.startOffset ≤ request.startOffset)
      (becomes : Becomes s s' (((s.catalog.commit (request.entries nowMs)).remove
        (request.dropped s)).queue request.sourceObjectIds)) :
      CatalogStep s s' (.compactStreamObject nodeId nodeEpoch request nowMs) result
  | expired {nowMs result} (ids : List UInt64) (streams : s'.streams = s.streams)
      (passed : ∀ id, id ∈ ids ↔ ∃ deadline, s.prepared[id]? = some deadline ∧ deadline ≤ nowMs)
      (becomes : Becomes s s' (s.catalog.forget ids)) :
      CatalogStep s s' (.expirePreparedObjects nowMs) result
  | cleaned {objectIds result} (streams : s'.streams = s.streams)
      (becomes : Becomes s s' (s.catalog.clean objectIds)) :
      CatalogStep s s' (.cleanDestroyedObjects objectIds) result
  | same {command result} (noObjects : ¬ command.HasObjects) (quiet : Quiet s s')
      (becomes : Becomes s s' s.catalog) :
      CatalogStep s s' command result

variable {command : MetadataCommand}

/-- The other commands leave objects and ends alone. -/
theorem Handled.quiet (h : Handled s command s' result) (hcommand : ¬ command.HasObjects) :
  Quiet s s'
  := by
  cases h with
  | registered | replaced | reopened | reclosed | put | putAgain | putNew | removed | retransferred
  | transferred => exact quiet_of_streams ⟨rfl, rfl, rfl, rfl, rfl, rfl, rfl, rfl, rfl⟩ rfl
  | created =>
    refine quiet_create ⟨rfl, rfl, rfl, rfl, rfl, rfl, rfl, rfl, rfl⟩ ?_
      (show _ = [s.nextStreamId].foldl _ _ from rfl)
    intro id hid
    rw [mem_singleton.mp hid]
    apply UInt64.le_refl
  | createdAll nextStreamId next =>
    exact quiet_create ⟨rfl, rfl, rfl, rfl, rfl, rfl, rfl, rfl, rfl⟩
      (fun _ hid => (mem_idRange next hid).1) rfl
  | placed row winner score stored =>
    exact quiet_insert ⟨rfl, rfl, rfl, rfl, rfl, rfl, rfl, rfl, rfl⟩ stored rfl rfl
      (UInt64.le_refl _) (fun h => h)
  | opened row stored | closed row stored =>
    exact quiet_insert ⟨rfl, rfl, rfl, rfl, rfl, rfl, rfl, rfl, rfl⟩ stored rfl rfl
      (UInt64.le_refl _) (fun h => h)
  | trimmed row stored start stop =>
    exact quiet_insert ⟨rfl, rfl, rfl, rfl, rfl, rfl, rfl, rfl, rfl⟩ stored rfl rfl start
      (fun _ => stop)
  | completed row pending recorded stored =>
    exact quiet_insert ⟨rfl, rfl, rfl, rfl, rfl, rfl, rfl, rfl, rfl⟩ stored rfl rfl
      (UInt64.le_refl _) (fun h => h)
  | absent | deleted | prepared | committed | compacted | expired | cleaned =>
    exact (hcommand trivial).elim

theorem Quiet.step (h : Quiet s s') (hs : ObjectsInv s) (hcommand : ¬ command.HasObjects) :
  CatalogStep s s' command result
  := CatalogStep.same hcommand h (h.same.becomes hs)

/-- Every command changes the catalog only as it may. -/
theorem applyInner_catalogStep (hs : ObjectsInv s) (hok : applyInner s command = .ok (s', result)) :
  CatalogStep s s' command result
  := by
  by_cases hcommand : command.HasObjects
  case neg => exact ((applyInner_handled hok).quiet hcommand).step hs hcommand
  cases applyInner_handled hok with
  | absent hnone =>
    refine CatalogStep.deleted [] (erase_of_lookup_eq_none hnone).symm nofun ?_
    rw [retire_nil]
    apply Becomes.refl hs
  | deleted row stored closed destroyed =>
    obtain ⟨hstreams, ids, hids, hbecomes⟩ := deleteStream_becomes hs destroyed
    exact CatalogStep.deleted ids hstreams hids hbecomes
  | prepared =>
    obtain ⟨hstreams, hinv, -, hnext, hfresh, hcatalog⟩ := prepareObject_spec hs hok
    exact CatalogStep.prepared hstreams hinv hnext hfresh hcatalog
  | committed ok =>
    obtain ⟨hcompacted, dataTimeMs, hbecomes⟩ := commitStreamSetObject_becomes hs ok
    exact CatalogStep.committed dataTimeMs
      (fun streamId => commitStreamSetObject_advanced streamId ok) hcompacted hbecomes
  | compacted ok =>
    obtain ⟨hfree, hrow⟩ := compactStreamObject_checks ok
    exact CatalogStep.compacted (compactStreamObject_sameControl ok).streams hfree hrow
      (compactStreamObject_becomes hs ok)
  | expired ok =>
    obtain ⟨ids, hids, hbecomes⟩ := expirePreparedObjects_becomes hs ok
    have hstreams := (expirePreparedObjects_sameControl ok).streams
    exact CatalogStep.expired ids hstreams hids hbecomes
  | cleaned =>
    apply CatalogStep.cleaned (SameControl.foldl cleanDestroyedObject_sameControl _ _).streams
    exact cleanDestroyedObjects_becomes hs hok
  | _ => exact hcommand.elim

theorem CatalogStep.inv (h : CatalogStep s s' command result) :
  ObjectsInv s'
  := by
  cases h with
  | prepared streams inv => exact inv
  | deleted ids streams ofStream becomes => exact becomes.inv
  | committed dataTimeMs rows compacted becomes => exact becomes.inv
  | compacted streams free row becomes => exact becomes.inv
  | expired ids streams passed becomes => exact becomes.inv
  | cleaned streams becomes => exact becomes.inv
  | same noObjects quiet becomes => exact becomes.inv

end Metadata
