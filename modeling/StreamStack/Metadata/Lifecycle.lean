import StreamStack.Metadata.Changes
import StreamStack.Metadata.Fencing

/-!
# The life of an object id

Over runs of commands: which commands keep committed objects out of the destruction queue, and
which keep every id that was handed out accounted for. Both laws can be broken by commands that
the handlers accept, and the conditions under which they hold are exact.
-/

namespace Metadata

open OrdMap Run Catalog

variable {s s' : MetadataState} {command : MetadataCommand} {result : MetadataResult}

/-- The state after one command, whether it succeeds or fails. -/
def next (s : MetadataState) (command : MetadataCommand) : Option MetadataState :=
  (apply s command).map Prod.fst

/-- The command succeeds. -/
def Accepts (s : MetadataState) (command : MetadataCommand) : Prop :=
  ∃ s' result, apply s command = some (s', .ok result)

/-- After a command the state is the same, or the command was accepted and has changed the
catalog. -/
theorem next_cases (hs : ObjectsInv s) (h : next s command = some s') :
  (¬ Accepts s command ∧ s' = s) ∨
    (Accepts s command ∧ ∃ value, apply s command = some (s', .ok value) ∧
      CatalogStep s s' command value)
  := by
  obtain ⟨⟨t, outcome⟩, happly, rfl⟩ := Option.map_eq_some_iff.mp h
  rcases apply_cases happly with ⟨value, hok, rfl⟩ | ⟨rfl, e, rfl⟩
  · exact .inr ⟨⟨t, value, happly⟩, value, happly, applyInner_catalogStep hs hok⟩
  · refine .inl ⟨?_, rfl⟩
    rintro ⟨s₁, value, happly'⟩
    cases happly.symm.trans happly'

theorem objectsInv_of_next (hs : ObjectsInv s) (h : next s command = some s') :
  ObjectsInv s'
  := by
  rcases next_cases hs h with ⟨-, rfl⟩ | ⟨-, value, -, hstep⟩
  · exact hs
  · exact hstep.inv

/-! ### Committed objects and the queue -/

/-- No committed object waits in the destruction queue. -/
def Separated (s : MetadataState) : Prop :=
  ∀ id, ¬ (CommittedId s id ∧ QueuedId s id)

/-- An accepted commit does not register objects that are queued or that it compacts itself; an
accepted compaction registers no queued object, except one it lists as a source, and of its
sources those that are committed are objects of its stream. -/
def Separates (s : MetadataState) (command : MetadataCommand) : Prop :=
  Accepts s command → match command with
    | .commitStreamSetObject _ _ request _ =>
      ∀ id ∈ request.ids, ¬ QueuedId s id ∧ id ∉ request.compactedObjectIds
    | .compactStreamObject _ _ request _ =>
      (∀ id ∈ request.ids, id ∉ request.sourceObjectIds → ¬ QueuedId s id) ∧
        ∀ id ∈ request.sourceObjectIds, CommittedId s id →
          streamObjectCommitted s request.streamId id = true
    | _ => True

/-- The committed objects and the queue, read off the catalog. -/
theorem separated_iff (hs : ObjectsInv s) :
  Separated s ↔ ∀ id, (s.catalog.live id).isSome → id ∉ s.catalog.queued
  := by
  apply forall_congr'
  intro id
  rw [not_and, ← hs.live_isSome]
  rfl

variable {request : CompactStreamObjectRequest}

theorem mem_dropped {id : UInt64} :
  id ∈ request.dropped s ↔ id ∈ request.sourceObjectIds ∧
    (streamObjectCommitted s request.streamId id = true ∨ id ∈ request.ids)
  := by
  rw [CompactStreamObjectRequest.dropped, List.mem_filter, Bool.or_eq_true,
    List.contains_iff_mem]

/-- A commit keeps the queue apart from the committed objects exactly if its objects are neither
queued nor compacted by it. -/
theorem separated_commit {request : CommitStreamSetObjectRequest} {nowMs dataTimeMs : Int64}
    (hs : ObjectsInv s) (hsep : Separated s)
    (hbecomes : Becomes s s' ((s.catalog.retire request.compactedObjectIds).commit
      (request.entries nowMs dataTimeMs))) :
  Separated s' ↔ ∀ id ∈ request.ids, ¬ QueuedId s id ∧ id ∉ request.compactedObjectIds
  := by
  rw [separated_iff hs] at hsep
  rw [separated_iff hbecomes.inv, hbecomes.catalog]
  simp only [commit_live_isSome, commit_queued, request.entries_ids, retire,
    queue_live, remove_live_isSome, mem_queue_queued, remove_queued]
  constructor
  · intro h id hid
    exact not_or.mp (h id (.inr hid))
  · rintro h id (⟨hlive, hnot⟩ | hid)
    · exact not_or_intro (hsep id hlive) hnot
    · exact not_or_intro (h id hid).1 (h id hid).2

theorem separated_compact {nowMs : Int64} (hs : ObjectsInv s) (hsep : Separated s)
    (hfree : ∀ id ∈ request.ids, ¬ CommittedId s id) (hbecomes : Becomes s s' (((s.catalog.commit
      (request.entries nowMs)).remove (request.dropped s)).queue request.sourceObjectIds)) :
  Separated s' ↔ (∀ id ∈ request.ids, id ∉ request.sourceObjectIds → ¬ QueuedId s id) ∧
    ∀ id ∈ request.sourceObjectIds, CommittedId s id →
      streamObjectCommitted s request.streamId id = true
  := by
  rw [separated_iff hbecomes.inv, hbecomes.catalog]
  have hlive (id : UInt64) : (s.catalog.live id).isSome ↔ CommittedId s id := hs.live_isSome id
  simp only [queue_live, remove_live_isSome, commit_live_isSome, hlive,
    request.entries_ids, mem_queue_queued, remove_queued, commit_queued,
    mem_dropped, not_or]
  constructor
  · intro h
    constructor
    · intro id hid hsource
      exact (h id ⟨.inr hid, fun hdropped => hsource hdropped.1⟩).1
    · intro id hsource hcommitted
      by_contra hother
      refine (h id ⟨.inl hcommitted, ?_⟩).2 hsource
      rintro ⟨-, hstream | hid⟩
      · exact hother hstream
      · exact hfree id hid hcommitted
  · rintro ⟨hids, hsources⟩ id ⟨hcommitted | hid, hnot⟩
    · refine ⟨fun hqueued => hsep id ⟨hcommitted, hqueued⟩, ?_⟩
      intro hsource
      exact hnot ⟨hsource, .inl (hsources id hsource hcommitted)⟩
    · have hsource : id ∉ request.sourceObjectIds := fun hsource => hnot ⟨hsource, .inr hid⟩
      exact ⟨hids id hid hsource, hsource⟩

/-- Changes that add nothing to the committed objects, and to the queue only what they remove. -/
theorem separated_shrink (hs : ObjectsInv s) (hs' : ObjectsInv s') (hsep : Separated s)
    (h : ∀ id, (s'.catalog.live id).isSome → (s.catalog.live id).isSome ∧
      (id ∈ s'.catalog.queued → id ∈ s.catalog.queued)) :
  Separated s'
  := by
  rw [separated_iff hs] at hsep
  rw [separated_iff hs']
  intro id hlive hqueued
  obtain ⟨hlive, hold⟩ := h id hlive
  exact hsep id hlive (hold hqueued)

/-- Whether one accepted command keeps committed objects out of the queue. -/
theorem separated_step (hs : ObjectsInv s) (hsep : Separated s) (haccepts : Accepts s command)
    (hstep : CatalogStep s s' command result) :
  Separated s' ↔ Separates s command
  := by
  cases hstep with
  | committed dataTimeMs rows compacted becomes =>
    apply (separated_commit hs hsep becomes).trans
    exact ⟨fun h _ => h, fun h => h haccepts⟩
  | compacted streams free row becomes =>
    apply (separated_compact hs hsep free becomes).trans
    exact ⟨fun h _ => h, fun h => h haccepts⟩
  | deleted ids streams ofStream becomes =>
    refine iff_of_true (separated_shrink hs becomes.inv hsep ?_) (fun _ => trivial)
    intro id hlive
    rw [becomes.catalog] at hlive ⊢
    simp only [retire, queue_live, remove_live_isSome] at hlive
    refine ⟨hlive.1, ?_⟩
    rintro (hqueued | hmem)
    · exact hqueued
    · exact absurd hmem hlive.2
  | prepared streams inv nextObjectId fresh catalog =>
    refine iff_of_true (separated_shrink hs inv hsep ?_) (fun _ => trivial)
    intro id hlive
    rw [catalog] at hlive ⊢
    exact ⟨hlive, fun h => h⟩
  | expired ids streams passed becomes =>
    refine iff_of_true (separated_shrink hs becomes.inv hsep ?_) (fun _ => trivial)
    intro id hlive
    rw [becomes.catalog] at hlive ⊢
    exact ⟨hlive, fun h => h⟩
  | cleaned streams becomes =>
    refine iff_of_true (separated_shrink hs becomes.inv hsep ?_) (fun _ => trivial)
    intro id hlive
    rw [becomes.catalog] at hlive ⊢
    exact ⟨hlive, fun h => h.1⟩
  | same noObjects quiet becomes =>
    apply iff_of_true
    · apply separated_shrink hs becomes.inv hsep
      intro id hlive
      rw [becomes.catalog] at hlive ⊢
      exact ⟨hlive, fun h => h⟩
    · intro _
      cases command with
      | commitStreamSetObject | compactStreamObject => exact absurd trivial noObjects
      | _ => trivial

/-- A run of commands from the empty state keeps committed objects out of the destruction queue
throughout exactly if every commit and compaction that it accepts meets the condition. -/
theorem separated_always_iff (commands : List MetadataCommand) :
  Always next Separated commands .new ↔ Along next Separates commands .new
  := by
  apply always_iff_along (J := ObjectsInv) (Q := fun _ _ => True)
  · intro s command s' _ hs hnext
    exact objectsInv_of_next hs hnext
  · intro s command _ hs hsep
    by_cases haccepts : Accepts s command
    · obtain ⟨t, value, happly⟩ := haccepts
      have hnext : next s command = some t := by rw [next, happly, Option.map_some]
      rcases next_cases hs hnext with ⟨hnot, -⟩ | ⟨haccepts, value, -, hstep⟩
      · exact absurd ⟨t, value, happly⟩ hnot
      · rw [hnext, ← separated_step hs hsep haccepts hstep]
        simp
    · apply iff_of_true
      · intro s' hnext
        rcases next_cases hs hnext with ⟨-, rfl⟩ | ⟨hyes, -⟩
        · exact hsep
        · exact absurd hyes haccepts
      · exact fun hyes => absurd hyes haccepts
  · exact along_true commands MetadataState.new
  · exact objectsInv_new
  · intro id
    simp [CommittedId, MetadataState.new]

/-- Two streams with one object each, and a compaction of the first that lists the object of the
second among its sources. -/
def crossedRun : List MetadataCommand :=
  [.registerNode 1 1 "" 1, .createStreams 1 1 2, .openStream 1 1 0 0, .openStream 1 1 1 0,
    .prepareObject 1 1 3 100 0,
    .commitStreamSetObject 1 1 ⟨noopObjectId, 0, 0, [], [⟨0, 8, 0, 0, 5, 0⟩, ⟨1, 8, 1, 0, 5, 0⟩], []⟩
      0,
    .compactStreamObject 1 1 ⟨2, 8, 0, 0, 0, 5, [0, 1], [], 0⟩ 0]

/-- The object of the second stream is committed, and about to be destroyed. -/
theorem separated_crossedRun :
  ∃ s, applyAll .new crossedRun = some s ∧ CommittedId s 1 ∧ QueuedId s 1
  := by
  obtain ⟨s, hs, hlive, hqueued⟩ : ∃ s, applyAll .new crossedRun = some s ∧
      1 ∈ s.streamObjectIds ∧ s.markDestroyed[(1 : UInt64)]? = some (1, .delete) := by
    decide +kernel
  exact ⟨s, hs, .inr hlive, 1, .delete, hqueued⟩

end Metadata
