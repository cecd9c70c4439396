import StreamStack.Metadata.Lifecycle

/-!
# Every id is accounted for

An id that was handed out is prepared, committed, queued for destruction, or has been cleaned out
of the queue. The state forgets ids that were cleaned, so a run is followed together with the ids
it has handed out and those it has cleaned. An id can still get lost: a prepared id that expires
is in none of the four places, and whatever was uploaded under it is never destroyed.
-/

namespace Metadata

open OrdMap Run List Catalog

/-- Where an id that was handed out can be. -/
inductive Stage where
  | prepared
  | live
  | queued
  | cleaned
deriving DecidableEq, Repr

/-- A state with the ids handed out and the ids cleaned on the way to it. -/
structure Tracked where
  state : MetadataState
  issued : List UInt64
  cleaned : List UInt64

def Tracked.new : Tracked where
  state := .new
  issued := []
  cleaned := []

/-- The ids that a command returns. -/
def MetadataCommand.issues (command : MetadataCommand) (result : MetadataResult) : List UInt64 :=
  match command, result with
  | .prepareObject _ _ count _ _, .id first => idRange first count
  | _, _ => []

/-- The ids that a command takes out of the destruction queue. -/
def MetadataCommand.cleans (command : MetadataCommand) (s : MetadataState) : List UInt64 :=
  match command with
  | .cleanDestroyedObjects objectIds => objectIds.filter fun id => s.destroyedById.contains id
  | _ => []

/-- The tracked state after a command that has led to the state `s'` with a result. -/
def Tracked.after (t : Tracked) (command : MetadataCommand) (s' : MetadataState)
    (result : MetadataResult) : Tracked where
  state := s'
  issued := t.issued ++ command.issues result
  cleaned := t.cleaned ++ command.cleans t.state

def Tracked.step (t : Tracked) (command : MetadataCommand) : Option Tracked :=
  match apply t.state command with
  | some (s', .ok result) => some (t.after command s' result)
  | some (_, .error _) => some t
  | none => none

variable {t t' : Tracked} {s s' : MetadataState} {command : MetadataCommand}
  {result : MetadataResult} {id : UInt64}

theorem Tracked.after_issues (h : command.cleans t.state = []) :
  t.after command s' result = ⟨s', t.issued ++ command.issues result, t.cleaned⟩
  := by rw [Tracked.after, h, append_nil]

theorem Tracked.after_cleans (h : command.issues result = []) :
  t.after command s' result = ⟨s', t.issued, t.cleaned ++ command.cleans t.state⟩
  := by rw [Tracked.after, h, append_nil]

theorem Tracked.after_plain (h : command.issues result = []) (h' : command.cleans t.state = []) :
  t.after command s' result = ⟨s', t.issued, t.cleaned⟩
  := by rw [Tracked.after_cleans h, h', append_nil]

theorem Tracked.after_same (h : ¬ command.HasObjects) :
  t.after command s' result = ⟨s', t.issued, t.cleaned⟩
  := by
  cases command with
  | prepareObject | cleanDestroyedObjects => exact absurd trivial h
  | _ => exact Tracked.after_plain rfl rfl

/-- The id is in this place. -/
def Tracked.At (t : Tracked) (id : UInt64) : Stage → Prop
  | .prepared => id ∈ t.state.prepared
  | .live => CommittedId t.state id
  | .queued => QueuedId t.state id
  | .cleaned => id ∈ t.cleaned

/-- Every id that was handed out is in exactly one place. -/
def Tracked.Accounted (t : Tracked) : Prop :=
  ∀ id ∈ t.issued, ∃! stage, t.At id stage

/-- Commits and compactions use ids that were handed out only. -/
def Tracked.UsesIssued (t : Tracked) (command : MetadataCommand) : Prop :=
  match command with
  | .commitStreamSetObject _ _ request _ =>
    ∀ id ∈ request.ids ++ request.compactedObjectIds, id ∈ t.issued
  | .compactStreamObject _ _ request _ =>
    ∀ id ∈ request.ids ++ request.sourceObjectIds, id ∈ t.issued
  | _ => True

/-- Of all ids, only those in the list are looked at. -/
instance (priority := 2000) decidableForallId {P : UInt64 → Prop} [DecidablePred P]
    (ids : List UInt64) : Decidable (∀ id ∈ ids, P id) :=
  List.decidableBAll P ids

instance decidableUsesIssued (t : Tracked) : DecidablePred t.UsesIssued :=
  fun command => by
    induction command using MetadataCommand.casesOn
    all_goals (dsimp only [Tracked.UsesIssued]; infer_instance)

/-- An accepted commit registers no object that is queued, was cleaned, or is compacted by it. An
accepted compaction registers and replaces no object that was cleaned; its object is not queued,
except as a source; its sources are not prepared, except its object, and those that are committed
are objects of its stream. Nothing expires. -/
def Tracked.Accounts (t : Tracked) (command : MetadataCommand) : Prop :=
  Accepts t.state command → match command with
    | .commitStreamSetObject _ _ request _ => ∀ id ∈ request.ids,
        ¬ QueuedId t.state id ∧ id ∉ t.cleaned ∧ id ∉ request.compactedObjectIds
    | .compactStreamObject _ _ request _ =>
      (∀ id ∈ request.ids, id ∉ t.cleaned ∧
        (id ∉ request.sourceObjectIds → ¬ QueuedId t.state id)) ∧
      ∀ id ∈ request.sourceObjectIds, id ∉ t.cleaned ∧
        (CommittedId t.state id →
          streamObjectCommitted t.state request.streamId id = true) ∧
        (id ∈ t.state.prepared → id ∈ request.ids)
    | .expirePreparedObjects nowMs => ∀ (id : UInt64) (deadline : Int64),
        t.state.prepared[id]? = some deadline → nowMs < deadline
    | _ => True

/-! ### One place -/

theorem existsUnique_stage_iff {P : Stage → Prop} :
  (∃! stage, P stage) ↔ OneOf (P .prepared) (P .live) (P .queued) (P .cleaned)
  := by
  constructor
  · rintro ⟨stage, hstage, huniq⟩
    have hother (other : Stage) (hne : other ≠ stage) : ¬ P other :=
      fun hp => hne (huniq other hp)
    cases stage with
    | prepared => simp [OneOf, hstage, hother]
    | live => simp [OneOf, hstage, hother]
    | queued => simp [OneOf, hstage, hother]
    | cleaned => simp [OneOf, hstage, hother]
  · rintro ⟨hp | hl | hq | hc, hpo, hlo, hqo⟩
    · refine ⟨.prepared, hp, ?_⟩
      rintro (_ | _ | _ | _) hstage <;> simp_all
    · refine ⟨.live, hl, ?_⟩
      rintro (_ | _ | _ | _) hstage <;> simp_all
    · refine ⟨.queued, hq, ?_⟩
      rintro (_ | _ | _ | _) hstage <;> simp_all
    · refine ⟨.cleaned, hc, ?_⟩
      rintro (_ | _ | _ | _) hstage <;> simp_all

/-- The four places of an id, read off the catalog. -/
def Tracked.Placed (t : Tracked) (id : UInt64) : Prop :=
  OneOf (id ∈ t.state.catalog.prepared) ((t.state.catalog.live id).isSome = true)
    (id ∈ t.state.catalog.queued) (id ∈ t.cleaned)

theorem accounted_iff (hs : ObjectsInv t.state) :
  t.Accounted ↔ ∀ id ∈ t.issued, t.Placed id
  := by
  apply forall_congr'
  intro id
  rw [existsUnique_stage_iff, Tracked.Placed]
  have hlive : (t.state.catalog.live id).isSome = true ↔ CommittedId t.state id :=
    hs.live_isSome id
  rw [hlive]
  rfl

/-- The id is in some place. -/
def Tracked.Anywhere (t : Tracked) (id : UInt64) : Prop :=
  id ∈ t.state.catalog.prepared ∨ (t.state.catalog.live id).isSome = true ∨
    id ∈ t.state.catalog.queued ∨ id ∈ t.cleaned

/-- The invariant of the objects, and that only ids that were handed out are anywhere. -/
structure Tracked.Inv (t : Tracked) : Prop where
  objects : ObjectsInv t.state
  below : ∀ id ∈ t.issued, id < t.state.nextObjectId
  known : ∀ id, t.Anywhere id → id ∈ t.issued

theorem Tracked.inv_new :
  Tracked.new.Inv
  where
  objects := objectsInv_new
  below := nofun
  known := by
    intro id h
    simp [Tracked.new, Tracked.Anywhere, MetadataState.catalog, MetadataState.new, QueuedId,
      liveObject] at h

/-! ### Steps -/

variable {cleaned : List UInt64}

/-- The condition for a change that leaves the ids handed out alone, id by id. -/
theorem accounted_iff_forall {K : UInt64 → Prop} (ht : t.Inv) (hacc : t.Accounted)
    (hs' : ObjectsInv s')
    (h : ∀ id ∈ t.issued, t.Placed id → ((Tracked.mk s' t.issued cleaned).Placed id ↔ K id)) :
  (Tracked.mk s' t.issued cleaned).Accounted ↔ ∀ id ∈ t.issued, K id
  := by
  rw [accounted_iff ht.objects] at hacc
  rw [accounted_iff hs']
  exact forall₂_congr fun id hid => h id hid (hacc id hid)

variable {nowMs : Int64}

section

variable (ht : t.Inv) (hacc : t.Accounted)

include ht hacc

theorem accounted_commit {request : CommitStreamSetObjectRequest} {dataTimeMs : Int64}
    (huses : ∀ id ∈ request.ids, id ∈ t.issued)
    (hcompacted : ∀ id ∈ request.compactedObjectIds, id ∈ t.state.streamSetObjects)
    (hbecomes : Becomes t.state s' ((t.state.catalog.retire request.compactedObjectIds).commit
      (request.entries nowMs dataTimeMs))) :
  (Tracked.mk s' t.issued t.cleaned).Accounted ↔ ∀ id ∈ request.ids,
    ¬ QueuedId t.state id ∧ id ∉ t.cleaned ∧ id ∉ request.compactedObjectIds
  := by
  rw [accounted_iff_forall (K := fun id => id ∈ request.ids →
    ¬ QueuedId t.state id ∧ id ∉ t.cleaned ∧ id ∉ request.compactedObjectIds) ht hacc hbecomes.inv]
  · exact ⟨fun h id hid => h id (huses id hid) hid, fun h id _ hid => h id hid⟩
  · intro id _ hplaced
    rw [Tracked.Placed] at hplaced ⊢
    simp only [hbecomes.catalog, mem_commit_prepared, commit_live_isSome,
      commit_queued, request.entries_ids, retire, queue_prepared,
      remove_prepared, queue_live, remove_live_isSome,
      mem_queue_queued, remove_queued]
    apply hplaced.commit_iff
    intro hid
    exact (ht.objects.live_isSome id).mpr (.inl (hcompacted id hid))

theorem accounted_compact {request : CompactStreamObjectRequest}
    (huses : ∀ id ∈ request.ids ++ request.sourceObjectIds, id ∈ t.issued)
    (hfree : ∀ id ∈ request.ids, ¬ CommittedId t.state id) (hbecomes : Becomes t.state s'
      (((t.state.catalog.commit (request.entries nowMs)).remove (request.dropped t.state)).queue
      request.sourceObjectIds)) :
  (Tracked.mk s' t.issued t.cleaned).Accounted ↔
    (∀ id ∈ request.ids, id ∉ t.cleaned ∧
      (id ∉ request.sourceObjectIds → ¬ QueuedId t.state id)) ∧
    ∀ id ∈ request.sourceObjectIds, id ∉ t.cleaned ∧
      (CommittedId t.state id → streamObjectCommitted t.state request.streamId id = true) ∧
      (id ∈ t.state.prepared → id ∈ request.ids)
  := by
  have hlive (id : UInt64) : (t.state.catalog.live id).isSome = true ↔ CommittedId t.state id :=
    ht.objects.live_isSome id
  rw [accounted_iff_forall (K := fun id => (id ∈ request.ids → id ∉ t.cleaned ∧
      (id ∉ request.sourceObjectIds → ¬ QueuedId t.state id)) ∧
    (id ∈ request.sourceObjectIds → id ∉ t.cleaned ∧
      (CommittedId t.state id → streamObjectCommitted t.state request.streamId id = true) ∧
      (id ∈ t.state.prepared → id ∈ request.ids))) ht hacc hbecomes.inv]
  · constructor
    · intro h
      constructor
      · intro id hid
        exact (h id (huses id (mem_append_left _ hid))).1 hid
      · intro id hid
        exact (h id (huses id (mem_append_right _ hid))).2 hid
    · rintro ⟨hids, hsources⟩ id -
      exact ⟨hids id, hsources id⟩
  · intro id _ hplaced
    rw [Tracked.Placed] at hplaced ⊢
    simp only [hbecomes.catalog, queue_prepared, remove_prepared,
      mem_commit_prepared, request.entries_ids, queue_live,
      remove_live_isSome, commit_live_isSome, mem_queue_queued,
      remove_queued, commit_queued, mem_dropped, hlive] at hplaced ⊢
    apply hplaced.replace_iff (hfree id)
    intro hcommitted
    obtain ⟨key, hkey, -⟩ := streamObjectCommitted_iff.mp hcommitted
    exact .inr ((mem_iff_lookup _ _).mpr ⟨key, hkey⟩)

theorem accounted_expire {ids : List UInt64}
    (hids : ∀ id, id ∈ ids ↔ ∃ deadline, t.state.prepared[id]? = some deadline ∧ deadline ≤ nowMs)
    (hbecomes : Becomes t.state s' (t.state.catalog.forget ids)) :
  (Tracked.mk s' t.issued t.cleaned).Accounted ↔ ∀ (id : UInt64) (deadline : Int64),
    t.state.prepared[id]? = some deadline → nowMs < deadline
  := by
  have hprepared (id : UInt64) (hid : id ∈ ids) : id ∈ t.state.catalog.prepared := by
    obtain ⟨deadline, hd, -⟩ := (hids id).mp hid
    exact (mem_iff_lookup _ _).mpr ⟨deadline, hd⟩
  rw [accounted_iff_forall (K := fun id => id ∉ ids) ht hacc hbecomes.inv]
  · constructor
    · intro h id deadline hd
      have hmem : id ∈ t.state.catalog.prepared := (mem_iff_lookup _ _).mpr ⟨deadline, hd⟩
      have hnot := h id (ht.known id (.inl hmem))
      rw [hids, not_exists] at hnot
      exact Int64.not_le.mp fun hle => hnot deadline ⟨hd, hle⟩
    · intro h id _ hid
      obtain ⟨deadline, hd, hle⟩ := (hids id).mp hid
      exact absurd (h id deadline hd) (Int64.not_lt.mpr hle)
  · intro id _ hplaced
    rw [Tracked.Placed] at hplaced ⊢
    simp only [hbecomes.catalog, mem_forget_prepared, forget_live,
      forget_queued]
    exact hplaced.forget_iff (hprepared id)

theorem accounted_clean {objectIds : List UInt64}
    (hbecomes : Becomes t.state s' (t.state.catalog.clean objectIds)) :
  (Tracked.mk s' t.issued
    (t.cleaned ++ objectIds.filter fun id => t.state.destroyedById.contains id)).Accounted
  := by
  rw [accounted_iff ht.objects] at hacc
  rw [accounted_iff hbecomes.inv]
  intro id hid
  have hplaced := hacc id hid
  have hqueued : id ∈ t.state.destroyedById ↔ id ∈ t.state.catalog.queued :=
    (ht.objects.queued_iff id).symm
  rw [Tracked.Placed] at hplaced ⊢
  simp only [hbecomes.catalog, clean_prepared, clean_live,
    mem_clean_queued, mem_append, mem_filter, Std.ExtTreeMap.contains_iff_mem,
    hqueued]
  apply hplaced.clean

theorem accounted_delete {ids : List UInt64} {streamId : UInt64}
    (hids : ∀ id ∈ ids, streamObjectCommitted t.state streamId id = true)
    (hbecomes : Becomes t.state s' (t.state.catalog.retire ids)) :
  (Tracked.mk s' t.issued t.cleaned).Accounted
  := by
  rw [accounted_iff ht.objects] at hacc
  rw [accounted_iff hbecomes.inv]
  intro id hid
  have hplaced := hacc id hid
  rw [Tracked.Placed] at hplaced ⊢
  simp only [hbecomes.catalog, retire, queue_prepared, remove_prepared,
    queue_live, remove_live_isSome, mem_queue_queued,
    remove_queued]
  apply hplaced.retire
  intro hmem
  obtain ⟨key, hkey, -⟩ := streamObjectCommitted_iff.mp (hids id hmem)
  exact (ht.objects.live_isSome id).mpr (.inr ((mem_iff_lookup _ _).mpr ⟨key, hkey⟩))

/-- Ids that are handed out are new. -/
theorem accounted_prepare {count : UInt32} (hs' : ObjectsInv s')
    (hfresh : ∀ id ∈ idRange t.state.nextObjectId count, t.state.nextObjectId ≤ id)
    (hcatalog : s'.catalog = t.state.catalog.prepare (idRange t.state.nextObjectId count)) :
  (Tracked.mk s' (t.issued ++ idRange t.state.nextObjectId count) t.cleaned).Accounted
  := by
  have hnew (id : UInt64) (hid : id ∈ idRange t.state.nextObjectId count) : id ∉ t.issued := by
    intro hissued
    exact UInt64.lt_irrefl _ (UInt64.lt_of_lt_of_le (ht.below id hissued) (hfresh id hid))
  rw [accounted_iff ht.objects] at hacc
  rw [accounted_iff hs']
  intro id hid
  rw [Tracked.Placed]
  simp only [hcatalog, mem_prepare_prepared, prepare_live, prepare_queued]
  rcases mem_append.mp hid with hold | hid
  · have hnot : id ∉ idRange t.state.nextObjectId count := fun hid => hnew id hid hold
    simpa [hnot, Tracked.Placed] using hacc id hold
  · have hnowhere := mt (ht.known id) (hnew id hid)
    simp only [Tracked.Anywhere, not_or] at hnowhere
    simp [OneOf, hid, hnowhere]

end

/-- Whether one accepted command keeps every id accounted for. -/
theorem accounted_step (ht : t.Inv) (huses : t.UsesIssued command) (hacc : t.Accounted)
    (haccepts : Accepts t.state command) (hstep : CatalogStep t.state s' command result) :
  (t.after command s' result).Accounted ↔ t.Accounts command
  := by
  cases hstep with
  | committed dataTimeMs rows compacted becomes =>
    rw [Tracked.after_plain rfl rfl,
      accounted_commit ht hacc (fun id hid => huses id (mem_append_left _ hid)) compacted
        becomes]
    exact ⟨fun h _ => h, fun h => h haccepts⟩
  | compacted streams free row becomes =>
    rw [Tracked.after_plain rfl rfl,
      accounted_compact ht hacc huses free becomes]
    exact ⟨fun h _ => h, fun h => h haccepts⟩
  | expired ids streams passed becomes =>
    rw [Tracked.after_plain rfl rfl,
      accounted_expire ht hacc passed becomes]
    exact ⟨fun h _ => h, fun h => h haccepts⟩
  | deleted ids streams ofStream becomes =>
    rw [Tracked.after_plain rfl rfl]
    exact iff_of_true (accounted_delete ht hacc ofStream becomes) (fun _ => trivial)
  | prepared streams inv nextObjectId fresh catalog =>
    rw [Tracked.after_issues rfl]
    refine iff_of_true (accounted_prepare ht hacc inv ?_ catalog) (fun _ => trivial)
    exact fun id hid => (fresh id hid).1
  | cleaned streams becomes =>
    rw [Tracked.after_cleans rfl]
    exact iff_of_true (accounted_clean ht hacc becomes) (fun _ => trivial)
  | same noObjects quiet becomes =>
    rw [Tracked.after_same noObjects]
    apply iff_of_true
    · rw [accounted_iff ht.objects] at hacc
      rw [accounted_iff becomes.inv]
      intro id hid
      have hplaced := hacc id hid
      rw [Tracked.Placed] at hplaced ⊢
      rw [becomes.catalog]
      exact hplaced
    · intro _
      cases command with
      | commitStreamSetObject | compactStreamObject | expirePreparedObjects =>
        exact absurd trivial noObjects
      | _ => trivial

/-- The invariant after a change that leaves the ids handed out alone. -/
theorem Tracked.Inv.of_becomes (ht : t.Inv) {c : Catalog UInt64 S3ObjectMetadata}
    (hbecomes : Becomes t.state s' c) (hknown : ∀ id, (id ∈ c.prepared ∨ (c.live id).isSome = true
      ∨ id ∈ c.queued ∨ id ∈ cleaned) → t.Anywhere id ∨ id ∈ t.issued) :
  (Tracked.mk s' t.issued cleaned).Inv
  where
  objects := hbecomes.inv
  below := by
    intro id hid
    rw [hbecomes.nextObjectId]
    exact ht.below id hid
  known := by
    intro id hid
    rw [Tracked.Anywhere, hbecomes.catalog] at hid
    rcases hknown id hid with hany | hissued
    · exact ht.known id hany
    · exact hissued

theorem Tracked.Inv.accepted (ht : t.Inv) (huses : t.UsesIssued command)
    (hstep : CatalogStep t.state s' command result) :
  (t.after command s' result).Inv
  := by
  cases hstep with
  | committed dataTimeMs rows compacted becomes =>
    rw [Tracked.after_plain rfl rfl]
    apply ht.of_becomes becomes
    intro id hid
    simp only [mem_commit_prepared, commit_live_isSome, commit_queued,
      CommitStreamSetObjectRequest.entries_ids, retire, queue_prepared,
      remove_prepared, queue_live, remove_live_isSome,
      mem_queue_queued, remove_queued] at hid
    rcases hid with ⟨hp, -⟩ | (⟨hl, -⟩ | hid) | (hq | hid) | hc
    · exact .inl (.inl hp)
    · exact .inl (.inr (.inl hl))
    · exact .inr (huses id (mem_append_left _ hid))
    · exact .inl (.inr (.inr (.inl hq)))
    · exact .inr (huses id (mem_append_right _ hid))
    · exact .inl (.inr (.inr (.inr hc)))
  | compacted streams free row becomes =>
    rw [Tracked.after_plain rfl rfl]
    apply ht.of_becomes becomes
    intro id hid
    simp only [queue_prepared, remove_prepared, mem_commit_prepared,
      CompactStreamObjectRequest.entries_ids, queue_live, remove_live_isSome,
      commit_live_isSome, mem_queue_queued, remove_queued,
      commit_queued] at hid
    rcases hid with ⟨hp, -⟩ | ⟨hl | hid, -⟩ | (hq | hid) | hc
    · exact .inl (.inl hp)
    · exact .inl (.inr (.inl hl))
    · exact .inr (huses id (mem_append_left _ hid))
    · exact .inl (.inr (.inr (.inl hq)))
    · exact .inr (huses id (mem_append_right _ hid))
    · exact .inl (.inr (.inr (.inr hc)))
  | expired ids streams passed becomes =>
    rw [Tracked.after_plain rfl rfl]
    apply ht.of_becomes becomes
    rintro id (⟨hp, -⟩ | hrest)
    · exact .inl (.inl hp)
    · exact .inl (.inr hrest)
  | deleted ids streams ofStream becomes =>
    rw [Tracked.after_plain rfl rfl]
    apply ht.of_becomes becomes
    intro id hid
    simp only [retire, queue_prepared, remove_prepared,
      queue_live, remove_live_isSome, mem_queue_queued,
      remove_queued] at hid
    rcases hid with hp | ⟨hl, -⟩ | (hq | hid) | hc
    · exact .inl (.inl hp)
    · exact .inl (.inr (.inl hl))
    · exact .inl (.inr (.inr (.inl hq)))
    · obtain ⟨key, hkey, -⟩ := streamObjectCommitted_iff.mp (ofStream id hid)
      have hlive : (t.state.catalog.live id).isSome = true := (ht.objects.live_isSome id).mpr
        (.inr ((mem_iff_lookup _ _).mpr ⟨key, hkey⟩))
      exact .inl (.inr (.inl hlive))
    · exact .inl (.inr (.inr (.inr hc)))
  | prepared streams inv nextObjectId fresh catalog =>
    rw [Tracked.after_issues rfl]
    refine ⟨inv, ?_, ?_⟩
    · intro id hid
      rcases mem_append.mp hid with hold | hnew
      · exact UInt64.lt_of_lt_of_le (ht.below id hold) nextObjectId
      · exact (fresh id hnew).2
    · intro id hid
      rw [Tracked.Anywhere, catalog] at hid
      rcases hid with (hp | hnew) | hrest
      · exact mem_append_left _ (ht.known id (.inl hp))
      · exact mem_append_right _ hnew
      · exact mem_append_left _ (ht.known id (.inr hrest))
  | cleaned streams becomes =>
    rw [Tracked.after_cleans rfl]
    apply ht.of_becomes becomes
    rintro id (hp | hl | ⟨hq, -⟩ | hc)
    · exact .inl (.inl hp)
    · exact .inl (.inr (.inl hl))
    · exact .inl (.inr (.inr (.inl hq)))
    · rcases mem_append.mp hc with hc | hmem
      · exact .inl (.inr (.inr (.inr hc)))
      · have hqueued := (mem_filter.mp hmem).2
        rw [Std.ExtTreeMap.contains_iff_mem, ← ht.objects.queued_iff] at hqueued
        exact .inl (.inr (.inr (.inl hqueued)))
  | same noObjects quiet becomes =>
    rw [Tracked.after_same noObjects]
    exact ht.of_becomes becomes fun id hid => .inl hid

/-- A step of a tracked run is a command that is refused, or one that is accepted. -/
theorem Tracked.step_cases (ht : t.Inv) (h : t.step command = some t') :
  (¬ Accepts t.state command ∧ t' = t) ∨
    (Accepts t.state command ∧ ∃ s' result, CatalogStep t.state s' command result ∧
      t' = t.after command s' result)
  := by
  unfold Tracked.step at h
  split at h
  next s' value happly =>
    refine .inr ⟨⟨s', value, happly⟩, s', value, ?_, (Option.some.inj h).symm⟩
    rcases apply_cases happly with ⟨value', hok, heq⟩ | ⟨-, e, he⟩
    · cases heq
      exact applyInner_catalogStep ht.objects hok
    · cases he
  next s' e happly =>
    refine .inl ⟨?_, (Option.some.inj h).symm⟩
    rintro ⟨s₁, value, happly'⟩
    cases happly.symm.trans happly'
  next => cases h

/-- In a run from the empty state whose commits and compactions use ids that were handed out only,
every id is accounted for throughout exactly if every accepted command meets the condition. -/
theorem accounted_always_iff {commands : List MetadataCommand}
    (huses : Along Tracked.step Tracked.UsesIssued commands .new) :
  Always Tracked.step Tracked.Accounted commands .new ↔
    Along Tracked.step Tracked.Accounts commands .new
  := by
  apply always_iff_along (J := Tracked.Inv) _ _ huses Tracked.inv_new
  · nofun
  · intro t command t' hu ht hstep
    rcases Tracked.step_cases ht hstep with ⟨-, rfl⟩ | ⟨-, s', result, hcatalog, rfl⟩
    · exact ht
    · exact ht.accepted hu hcatalog
  · intro t command hu ht hacc
    by_cases haccepts : Accepts t.state command
    · obtain ⟨s', value, happly⟩ := haccepts
      have haccepts : Accepts t.state command := ⟨s', value, happly⟩
      have hsome : t.step command = some (t.after command s' value) := by
        rw [Tracked.step, happly]
      rcases apply_cases happly with ⟨value', hok, heq⟩ | ⟨-, e, he⟩
      · cases heq
        rw [hsome, ← accounted_step ht hu hacc haccepts (applyInner_catalogStep ht.objects hok)]
        simp
      · cases he
    · apply iff_of_true
      · intro t' hstep
        rcases Tracked.step_cases ht hstep with ⟨-, rfl⟩ | ⟨hyes, -⟩
        · exact hacc
        · exact absurd hyes haccepts
      · exact fun hyes => absurd hyes haccepts

/-- Two objects are prepared and committed, compacted into a third one, and cleaned. -/
def accountedRun : List MetadataCommand :=
  [.registerNode 1 1 "" 1, .createStream 1 1, .openStream 1 1 0 0, .prepareObject 1 1 3 100 0,
    .commitStreamSetObject 1 1 ⟨noopObjectId, 0, 0, [], [⟨0, 8, 0, 0, 5, 0⟩, ⟨1, 8, 0, 5, 9, 0⟩], []⟩
      0,
    .compactStreamObject 1 1 ⟨2, 16, 0, 0, 0, 9, [0, 1], [], 0⟩ 0, .expirePreparedObjects 200,
    .cleanDestroyedObjects [0, 1]]

theorem accounted_always_iff_accountedRun :
  Along Tracked.step Tracked.UsesIssued accountedRun .new ∧
    (Always Tracked.step Tracked.Accounted accountedRun .new ↔
      Along Tracked.step Tracked.Accounts accountedRun .new)
  := by
  have huses : Along Tracked.step Tracked.UsesIssued accountedRun .new := by decide +kernel
  exact ⟨huses, accounted_always_iff huses⟩

/-- An object is prepared and expires. -/
def expiredRun : List MetadataCommand :=
  [.registerNode 1 1 "" 1, .prepareObject 1 1 1 100 0, .expirePreparedObjects 200]

/-- An id that expires is lost. -/
theorem accounted_expiredRun :
  Along Tracked.step Tracked.UsesIssued expiredRun .new ∧
    ∃ t, expiredRun.foldlM Tracked.step Tracked.new = some t ∧ 0 ∈ t.issued ∧
      ∀ stage, ¬ t.At 0 stage
  := by
  have huses : Along Tracked.step Tracked.UsesIssued expiredRun .new := by decide +kernel
  obtain ⟨t, ht, hissued, hcleaned, hempty⟩ : ∃ t,
      expiredRun.foldlM Tracked.step Tracked.new = some t ∧ 0 ∈ t.issued ∧ t.cleaned = [] ∧
      t.state.prepared.isEmpty ∧ t.state.streamSetObjects.isEmpty ∧
      t.state.streamObjectIds.isEmpty ∧ t.state.markDestroyed.isEmpty := by
    decide +kernel
  simp only [Std.ExtTreeMap.isEmpty_iff] at hempty
  obtain ⟨hprepared, hset, hids, hqueue⟩ := hempty
  refine ⟨huses, t, ht, hissued, ?_⟩
  intro stage
  cases stage with
  | prepared => simp [Tracked.At, hprepared]
  | live => simp [Tracked.At, CommittedId, hset, hids]
  | queued => simp [Tracked.At, QueuedId, hqueue]
  | cleaned => simp [Tracked.At, hcleaned]

end Metadata
