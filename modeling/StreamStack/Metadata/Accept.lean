import StreamStack.Metadata.Rows

/-!
# Commits that are accepted

The checks of a commit that its objects are new succeed when none of them is committed. A commit of
new data is accepted when moreover its ranges start where their streams end.
-/

namespace Metadata

open OrdMap Run List

variable {s s' s'' : MetadataState}

theorem apply_ok_iff {command : MetadataCommand} {result : MetadataResult} :
  apply s command = some (s', .ok result) ↔ applyInner s command = .ok (s', result)
  := by
  unfold apply
  rcases applyInner s command with (e | _) | ⟨t, result'⟩ <;> simp

theorem nodeEpochCheck_of_nodes (h : s'.nodes = s.nodes) (nodeId : Int32) (nodeEpoch : Int64) :
  nodeEpochCheck s' nodeId nodeEpoch = nodeEpochCheck s nodeId nodeEpoch
  := by
  rw [nodeEpochCheck, nodeEpochCheck, h]

/-! ### Committed objects -/

/-- The object is a stream-set object or a stream object. -/
def CommittedId (s : MetadataState) (id : UInt64) : Prop :=
  id ∈ s.streamSetObjects ∨ id ∈ s.streamObjectIds

/-- Objects were committed, and the streams of some ranges end where those do. Nothing else has
changed of the streams, and nothing of the nodes and of what is handed out. -/
structure Commits (ids : List UInt64) (ranges : List (UInt64 × UInt64 × UInt64))
    (s s' : MetadataState) : Prop where
  nodes : s'.nodes = s.nodes
  nextStreamId : s'.nextStreamId = s.nextStreamId
  nextObjectId : s'.nextObjectId = s.nextObjectId
  ends : ∀ r ∈ ranges, (s'.streams[r.1]?).map StreamRow.endOffset = some r.2.2
  rows : ∀ k, k ∉ ranges.map Prod.fst → s'.streams[k]? = s.streams[k]?
  committed : ∀ id, CommittedId s' id ↔ CommittedId s id ∨ id ∈ ids

theorem Commits.refl (s : MetadataState) :
  Commits [] [] s s
  := ⟨rfl, rfl, rfl, nofun, fun _ _ => rfl, fun _ => by simp⟩

theorem Commits.trans {ids ids' : List UInt64} {ranges ranges' : List (UInt64 × UInt64 × UInt64)}
    (h : Commits ids ranges s s') (h' : Commits ids' ranges' s' s'')
    (hdisjoint : ∀ r ∈ ranges, r.1 ∉ ranges'.map Prod.fst) :
  Commits (ids ++ ids') (ranges ++ ranges') s s''
  := by
  refine ⟨h'.nodes.trans h.nodes, h'.nextStreamId.trans h.nextStreamId,
    h'.nextObjectId.trans h.nextObjectId, ?_, ?_, ?_⟩
  · intro r hr
    rcases mem_append.mp hr with hr | hr
    · rw [h'.rows r.1 (hdisjoint r hr)]
      exact h.ends r hr
    · exact h'.ends r hr
  · intro k hk
    rw [map_append, mem_append, not_or] at hk
    exact (h'.rows k hk.2).trans (h.rows k hk.1)
  · intro id
    rw [h'.committed, h.committed, mem_append, or_assoc]

theorem Commits.of_perm {ids : List UInt64} {ranges ranges' : List (UInt64 × UInt64 × UInt64)}
    (h : Commits ids ranges s s') (hperm : ranges.Perm ranges') :
  Commits ids ranges' s s'
  := { h with
    ends := fun r hr => h.ends r (hperm.mem_iff.mpr hr)
    rows := fun k hk => h.rows k fun hmem => hk ((hperm.map Prod.fst).mem_iff.mp hmem) }

/-! ### The parts of a commit -/

theorem commitPrepared_commits (s : MetadataState) (objectId : UInt64) :
  Commits [] [] s (commitPrepared s objectId)
  := by
  unfold commitPrepared
  split
  · exact ⟨rfl, rfl, rfl, nofun, fun _ _ => rfl, fun _ => by simp [CommittedId]⟩
  · exact Commits.refl s

theorem checkObjectIdFree_of_not {objectId : UInt64} (hfree : ¬ CommittedId s objectId)
    (newKey : Option StreamOffsetKey) :
  checkObjectIdFree s objectId newKey = .ok ()
  := by
  obtain ⟨hset, hids⟩ := not_or.mp hfree
  have hnone : s.streamObjectIds[objectId]? = none := by
    cases hlookup : s.streamObjectIds[objectId]? with
    | none => rfl
    | some key => exact absurd ((mem_iff_lookup _ _).mpr ⟨key, hlookup⟩) hids
  have hcontains : s.streamSetObjects.contains objectId = false := by
    rw [Bool.eq_false_iff, ne_eq, Std.ExtTreeMap.contains_iff_mem]
    exact hset
  rw [checkObjectIdFree, ok_of_do, hnone]
  exact ⟨(), reject_ok_iff.mpr (by rw [hcontains]; exact Bool.false_ne_true), rfl⟩

/-- A range that starts where its stream ends is accepted. -/
theorem advanceEndOffset_accepts {streamId startOffset : UInt64} (endOffset : UInt64)
    (hstart : (s.streams[streamId]?).map StreamRow.endOffset = some startOffset) :
  ∃ s', advanceEndOffset s streamId startOffset endOffset false = .ok s' ∧
    Commits [] [(streamId, startOffset, endOffset)] s s'
  := by
  obtain ⟨row, hrow, hend⟩ := Option.map_eq_some_iff.mp hstart
  refine ⟨{ s with streams := s.streams.insert streamId { row with endOffset } }, ?_, ?_⟩
  · simp only [advanceEndOffset, ok_of_do, Bool.false_eq_true, if_false, reject_ok_iff,
      ok_of_return]
    exact ⟨row, by rw [requireStream, hrow], (), not_not_intro hend, rfl⟩
  · refine ⟨rfl, rfl, rfl, ?_, ?_, fun _ => by simp [CommittedId]⟩
    · intro r hr
      rw [mem_singleton.mp hr, lookup_insert, if_pos rfl]
      rfl
    · intro k hk
      rw [lookup_insert, if_neg fun heq => hk (by simp [heq])]

/-- The rule for steps that each commit some objects with a range of their own stream. -/
theorem foldlM_commits {γ : Type} {f : MetadataState → γ → Except Fault MetadataState}
    {ids : γ → List UInt64} {range : γ → UInt64 × UInt64 × UInt64} {l : List γ}
    (hf : ∀ t, ∀ x ∈ l, (∀ id ∈ ids x, ¬ CommittedId t id) →
      (t.streams[(range x).1]?).map StreamRow.endOffset = some (range x).2.1 →
      ∃ t', f t x = .ok t' ∧ Commits (ids x) [range x] t t')
    (hids : (l.flatMap ids).Nodup) (hfree : ∀ id ∈ l.flatMap ids, ¬ CommittedId s id)
    (hdistinct : (l.map fun x => (range x).1).Nodup)
    (hstarts : ∀ x ∈ l, (s.streams[(range x).1]?).map StreamRow.endOffset = some (range x).2.1) :
  ∃ s', l.foldlM f s = .ok s' ∧ Commits (l.flatMap ids) (l.map range) s s'
  := by
  induction l generalizing s with
  | nil => exact ⟨s, rfl, Commits.refl s⟩
  | cons x l ih =>
    rw [flatMap_cons] at hids hfree
    obtain ⟨-, hids, happart⟩ := nodup_append.mp hids
    obtain ⟨hfresh, hdistinct⟩ := nodup_cons.mp hdistinct
    obtain ⟨t, hstep, hone⟩ := hf s x mem_cons_self
      (fun id hid => hfree id (mem_append_left _ hid)) (hstarts x mem_cons_self)
    have hother {y : γ} (hy : y ∈ l) : (range y).1 ≠ (range x).1 :=
      fun heq => hfresh (mem_map.mpr ⟨y, hy, heq⟩)
    obtain ⟨s', hfold, hrest⟩ := ih (s := t) (fun t y hy => hf t y (mem_cons_of_mem x hy)) hids
      (by
        intro id hid hcommitted
        rcases (hone.committed id).mp hcommitted with hold | hself
        · exact hfree id (mem_append_right _ hid) hold
        · exact happart id hself id hid rfl) hdistinct
      (by
        intro y hy
        rw [hone.rows _ (by simpa using hother hy)]
        exact hstarts y (mem_cons_of_mem x hy))
    refine ⟨s', ?_, hone.trans hrest ?_⟩
    · rw [foldlM_cons, hstep]
      exact hfold
    · intro r hr hmem
      rw [mem_singleton.mp hr, map_map] at hmem
      exact hfresh hmem

/-- The objects that a request commits. -/
def CommitStreamSetObjectRequest.ids (request : CommitStreamSetObjectRequest) : List UInt64 :=
  (if request.objectId ≠ noopObjectId then [request.objectId] else []) ++
    request.streamObjects.map StreamObject.objectId

theorem redundantCommitCheck_of_not {request : CommitStreamSetObjectRequest}
    (hfree : ∀ id ∈ request.ids, ¬ CommittedId s id) :
  redundantCommitCheck s request = .ok ()
  := by
  unfold redundantCommitCheck
  split
  next hnoop =>
    rw [reject_ok_iff, Std.ExtTreeMap.contains_iff_mem]
    intro hmem
    apply hfree request.objectId _ (.inl hmem)
    rw [CommitStreamSetObjectRequest.ids, if_pos hnoop]
    exact mem_cons_self
  next =>
    split
    next => rfl
    next hne =>
      rw [reject_ok_iff, all_eq_true]
      intro hall
      obtain ⟨so, hso⟩ := exists_mem_of_ne_nil request.streamObjects
        fun hnil => hne (by rw [hnil, isEmpty_nil])
      have hcommitted := hall so hso
      rw [streamObjectCommitted, Option.any_eq_true] at hcommitted
      obtain ⟨key, hkey, -⟩ := hcommitted
      apply hfree so.objectId _ (.inr ((mem_iff_lookup _ _).mpr ⟨key, hkey⟩))
      exact mem_append_right _ (mem_map_of_mem hso)

/-- The ranges that a request commits, with their streams. -/
def CommitStreamSetObjectRequest.ranges (request : CommitStreamSetObjectRequest) :
    List (UInt64 × UInt64 × UInt64) :=
  (if request.objectId ≠ noopObjectId then
    request.streamRanges.map fun r => (r.streamId, r.startOffset, r.endOffset) else []) ++
    request.streamObjects.map fun so => (so.streamId, so.startOffset, so.endOffset)

variable {request : CommitStreamSetObjectRequest} {so : StreamObject}

theorem commitSetObject_accepts (nodeId : Int32) (nowMs dataTimeMs : Int64)
    (hnoop : request.objectId ≠ noopObjectId) (hfree : ¬ CommittedId s request.objectId)
    (hdistinct : (request.streamRanges.map ObjectStreamRange.streamId).Nodup)
    (hstarts : ∀ r ∈ request.streamRanges,
      (s.streams[r.streamId]?).map StreamRow.endOffset = some r.startOffset) :
  ∃ s', commitSetObject s nodeId request nowMs dataTimeMs false = .ok s' ∧
    Commits [request.objectId]
      (request.streamRanges.map fun r => (r.streamId, r.startOffset, r.endOffset)) s s'
  := by
  have hprepared := commitPrepared_commits s request.objectId
  have hnone : (request.streamRanges.flatMap fun _ => ([] : List UInt64)) = [] :=
    flatMap_eq_nil_iff.mpr fun _ _ => rfl
  obtain ⟨t, hfold, hcommits⟩ : ∃ t, request.streamRanges.foldlM (fun s range =>
      advanceEndOffset s range.streamId range.startOffset range.endOffset false)
        (commitPrepared s request.objectId) = .ok t ∧
      Commits [] (request.streamRanges.map fun r => (r.streamId, r.startOffset, r.endOffset))
        (commitPrepared s request.objectId) t := by
    rw [← hnone]
    apply foldlM_commits
    · exact fun t r _ _ hstart => advanceEndOffset_accepts r.endOffset hstart
    · rw [hnone]
      exact nodup_nil
    · rw [hnone]
      exact fun _ => nofun
    · exact hdistinct
    · intro r hr
      rw [hprepared.rows _ not_mem_nil]
      exact hstarts r hr
  refine ⟨insertStreamSetObject t nodeId request nowMs dataTimeMs, ?_, ?_⟩
  · rw [commitSetObject, if_pos hnoop, ok_of_do]
    refine ⟨(), checkObjectIdFree_of_not hfree none, ?_⟩
    rw [ok_of_do]
    exact ⟨t, hfold, rfl⟩
  · have hinsert : Commits [request.objectId] [] t
        (insertStreamSetObject t nodeId request nowMs dataTimeMs) := by
      refine ⟨rfl, rfl, rfl, nofun, fun _ _ => rfl, fun id => ?_⟩
      rw [CommittedId, insertStreamSetObject, OrdMap.mem_insert_iff, mem_singleton, CommittedId]
      tauto
    simpa using (hprepared.trans hcommits nofun).trans hinsert fun _ _ => not_mem_nil

theorem commitStreamObject_accepts (nowMs dataTimeMs : Int64) (hfree : ¬ CommittedId s so.objectId)
    (hstart : (s.streams[so.streamId]?).map StreamRow.endOffset = some so.startOffset) :
  ∃ s', commitStreamObject nowMs dataTimeMs false s so = .ok s' ∧
    Commits [so.objectId] [(so.streamId, so.startOffset, so.endOffset)] s s'
  := by
  have hprepared := commitPrepared_commits s so.objectId
  rw [← hprepared.rows _ not_mem_nil] at hstart
  obtain ⟨t, hadvance, hcommits⟩ := advanceEndOffset_accepts so.endOffset hstart
  refine ⟨insertStreamObject t so.streamId so.objectId so.startOffset so.endOffset so.objectSize
    so.attributes dataTimeMs nowMs, ?_, ?_⟩
  · rw [commitStreamObject, ok_of_do]
    refine ⟨(), checkObjectIdFree_of_not hfree _, ?_⟩
    rw [ok_of_do]
    exact ⟨t, hadvance, rfl⟩
  · have hinsert : Commits [so.objectId] [] t (insertStreamObject t so.streamId so.objectId
        so.startOffset so.endOffset so.objectSize so.attributes dataTimeMs nowMs) := by
      refine ⟨rfl, rfl, rfl, by simp, fun _ _ => rfl, fun id => ?_⟩
      rw [CommittedId, insertStreamObject, OrdMap.mem_insert_iff, mem_singleton, CommittedId]
      tauto
    simpa using (hprepared.trans hcommits (by simp)).trans hinsert fun _ _ => not_mem_nil

/-- A commit of new data is accepted when its ids are not in use, and its ranges are of distinct
streams and start where these end. -/
theorem commitStreamSetObject_accepts {nodeId : Int32} {nodeEpoch : Int64} (nowMs : Int64)
    (hnode : nodeEpochCheck s nodeId nodeEpoch = .ok ()) (hnew : request.compactedObjectIds = [])
    (hids : request.ids.Nodup) (hfree : ∀ id ∈ request.ids, ¬ CommittedId s id)
    (hdistinct : (request.ranges.map Prod.fst).Nodup)
    (hstarts : ∀ r ∈ request.ranges, (s.streams[r.1]?).map StreamRow.endOffset = some r.2.1) :
  ∃ s', commitStreamSetObject s nodeId nodeEpoch request nowMs = .ok (s', .unit) ∧
    Commits request.ids request.ranges s s'
  := by
  have hredundant := redundantCommitCheck_of_not hfree
  rw [CommitStreamSetObjectRequest.ids] at hids hfree
  rw [CommitStreamSetObjectRequest.ranges, map_append] at hdistinct
  rw [CommitStreamSetObjectRequest.ranges] at hstarts
  obtain ⟨hset, hobjects, happart⟩ := nodup_append.mp hdistinct
  obtain ⟨-, hobjectIds, hself⟩ := nodup_append.mp hids
  obtain ⟨t, hsetOk, hsetCommits⟩ : ∃ t,
      commitSetObject s nodeId request nowMs nowMs false = .ok t ∧
      Commits (if request.objectId ≠ noopObjectId then [request.objectId] else [])
        (if request.objectId ≠ noopObjectId then
          request.streamRanges.map fun r => (r.streamId, r.startOffset, r.endOffset)
        else []) s t := by
    by_cases hnoop : request.objectId = noopObjectId
    · simp only [hnoop, ne_eq, not_true_eq_false, if_false]
      refine ⟨s, ?_, Commits.refl s⟩
      rw [commitSetObject, if_neg (not_not_intro hnoop)]
    · rw [if_pos hnoop] at hset hfree hstarts
      rw [if_pos hnoop, if_pos hnoop]
      apply commitSetObject_accepts nodeId nowMs nowMs hnoop (hfree _ mem_cons_self)
      · rwa [map_map] at hset
      · intro r hr
        exact hstarts _ (mem_append_left _ (mem_map_of_mem hr))
  obtain ⟨s', hobjectsOk, hcommits⟩ : ∃ s', request.streamObjects.foldlM
      (commitStreamObject nowMs nowMs false) t = .ok s' ∧
      Commits (request.streamObjects.map StreamObject.objectId)
        (request.streamObjects.map fun so => (so.streamId, so.startOffset, so.endOffset)) t s' := by
    rw [map_eq_flatMap] at hobjectIds hself ⊢
    apply foldlM_commits
    · exact fun t so _ hfree hstart => commitStreamObject_accepts nowMs nowMs
        (hfree so.objectId mem_cons_self) hstart
    · exact hobjectIds
    · intro id hid hcommitted
      rcases (hsetCommits.committed id).mp hcommitted with hold | hmem
      · rw [← map_eq_flatMap] at hid
        exact hfree id (mem_append_right _ hid) hold
      · exact hself id hmem id hid rfl
    · rwa [map_map] at hobjects
    · intro so hso
      rw [hsetCommits.rows]
      · exact hstarts _ (mem_append_right _ (mem_map_of_mem hso))
      · exact fun hmem => happart _ hmem _ (mem_map_of_mem (mem_map_of_mem hso)) rfl
  refine ⟨s', ?_, ?_⟩
  · rw [commitStreamSetObject, ok_of_do]
    refine ⟨(), hnode, ok_of_do.mpr ⟨(), hredundant, ?_⟩⟩
    simp only [hnew, foldlM_nil, isEmpty_nil, Bool.not_true]
    refine ok_of_do.mpr ⟨nowMs, rfl, ok_of_do.mpr ⟨s, rfl, ok_of_do.mpr ⟨t, hsetOk, ?_⟩⟩⟩
    exact ok_of_do.mpr ⟨s', hobjectsOk, rfl⟩
  · exact hsetCommits.trans hcommits fun r hr hmem =>
      happart r.1 (mem_map_of_mem hr) r.1 hmem rfl

end Metadata
