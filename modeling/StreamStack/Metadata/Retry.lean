import StreamStack.Metadata.Coverage

/-!
# Commits that are applied again

A node that does not learn the outcome of a commit or a compaction sends it again, at any time.
A commit finds the end offsets moved, or the objects it compacts gone, and is refused. A compaction
is recognised by its object being committed. Once that object has itself been compacted away,
nothing tells the second application from a first one, and it is accepted.
-/

namespace Metadata

open OrdMap Run List CommitStreamSetObjectRequest

variable {s s' : MetadataState} {command : MetadataCommand} {result : MetadataResult}
  {l l' : Ledger}

/-! ### Handlers that are refused or succeed -/

/-- The computation is refused or succeeds, and does not overflow. -/
def Decided {α : Type} (x : Except Fault α) : Prop := Refused x ∨ ∃ a, x = .ok a

variable {α : Type}

theorem decided_ok (a : α) :
  Decided (.ok a)
  := .inr ⟨a, rfl⟩

/-- A handler decides if its parts do. -/
theorem decided_bind {β : Type} {x : Except Fault α} {f : α → Except Fault β} (hx : Decided x)
    (hf : ∀ a, x = .ok a → Decided (f a)) :
  Decided (x >>= f)
  := by
  rcases hx with hx | ⟨a, ha⟩
  · exact .inl (hx.bind f)
  · have hfa := hf a ha
    rw [ha]
    exact hfa

theorem decided_foldlM {γ : Type} {f : α → γ → Except Fault α} (hf : ∀ a x, Decided (f a x))
    (l : List γ) (a : α) :
  Decided (l.foldlM f a)
  := by
  induction l generalizing a with
  | nil => exact decided_ok a
  | cons x l ih =>
    rw [foldlM_cons]
    exact decided_bind (hf a x) fun b _ => ih b

theorem advanceEndOffset_decided (s : MetadataState) (streamId startOffset endOffset : UInt64)
    (compact : Bool) :
  Decided (advanceEndOffset s streamId startOffset endOffset compact)
  := by
  apply decided_bind (requireStream_cases s streamId)
  intro row _
  split
  · apply decided_bind (reject_cases _ _)
    intro _ _
    apply decided_bind (reject_cases _ _)
    intro _ _
    exact decided_ok s
  · apply decided_bind (reject_cases _ _)
    intro _ _
    exact decided_ok _

theorem checkObjectIdFree_decided (s : MetadataState) (objectId : UInt64)
    (newKey : Option StreamOffsetKey) :
  Decided (checkObjectIdFree s objectId newKey)
  := by
  apply decided_bind (reject_cases _ _)
  intro _ _
  split
  · apply reject_cases
  · exact decided_ok ()

theorem redundantCommitCheck_decided (s : MetadataState) (request : CommitStreamSetObjectRequest) :
  Decided (redundantCommitCheck s request)
  := by
  unfold redundantCommitCheck
  split
  · apply reject_cases
  · split
    · exact decided_ok ()
    · apply reject_cases

theorem commitSetObject_decided (s : MetadataState) (nodeId : Int32)
    (request : CommitStreamSetObjectRequest) (nowMs dataTimeMs : Int64) (compact : Bool) :
  Decided (commitSetObject s nodeId request nowMs dataTimeMs compact)
  := by
  unfold commitSetObject
  split
  · apply decided_bind (checkObjectIdFree_decided _ _ _)
    intro _ _
    apply decided_bind (decided_foldlM (fun _ _ => advanceEndOffset_decided _ _ _ _ _) _ _)
    intro t _
    exact decided_ok _
  · exact decided_ok s

theorem commitStreamObject_decided (nowMs dataTimeMs : Int64) (compact : Bool) (s : MetadataState)
    (so : StreamObject) :
  Decided (commitStreamObject nowMs dataTimeMs compact s so)
  := by
  apply decided_bind (checkObjectIdFree_decided _ _ _)
  intro _ _
  apply decided_bind (advanceEndOffset_decided _ _ _ _ _)
  intro t _
  exact decided_ok _

theorem compactedDataTime_decided (s : MetadataState) (dataTimeMs : Int64) (id : UInt64) :
  Decided (compactedDataTime s dataTimeMs id)
  := by
  unfold compactedDataTime
  split
  · exact decided_ok _
  · exact .inl ⟨_, rfl⟩

variable {request : CommitStreamSetObjectRequest}

/-- A commit of new data does not overflow. -/
theorem commitStreamSetObject_decided (s : MetadataState) (nodeId : Int32) (nodeEpoch : Int64)
    (nowMs : Int64) (hnew : request.compactedObjectIds = []) :
  Decided (commitStreamSetObject s nodeId nodeEpoch request nowMs)
  := by
  apply decided_bind (nodeEpochCheck_cases s nodeId nodeEpoch)
  intro _ _
  apply decided_bind (redundantCommitCheck_decided s request)
  intro _ _
  rw [hnew]
  apply decided_bind (decided_ok nowMs)
  intro dataTimeMs _
  apply decided_bind (decided_ok s)
  intro s₁ _
  apply decided_bind (commitSetObject_decided _ _ _ _ _ _)
  intro s₂ _
  apply decided_bind (decided_foldlM (fun _ _ => commitStreamObject_decided _ _ _ _ _) _ _)
  intro s₃ _
  exact decided_ok _

/-- A commit that compacts an object which is not there is refused. -/
theorem commitStreamSetObject_gone (nodeId : Int32) (nodeEpoch : Int64) (nowMs : Int64)
    {id : UInt64} (hid : id ∈ request.compactedObjectIds) (hgone : id ∉ s.streamSetObjects) :
  Refused (commitStreamSetObject s nodeId nodeEpoch request nowMs)
  := by
  apply refused_bind (nodeEpochCheck_cases s nodeId nodeEpoch)
  intro _ _
  apply refused_bind (redundantCommitCheck_decided s request)
  intro _ _
  apply refused_bind (decided_foldlM (compactedDataTime_decided s) _ _)
  intro dataTimeMs htime
  exact absurd (compactedDataTime_ok htime id hid) hgone

/-- A refused command changes nothing. -/
theorem next_of_refused (h : Refused (applyInner s command)) :
  next s command = some s
  := by
  obtain ⟨outcome, happly⟩ := apply_of_refused h
  rw [next, happly, Option.map_some]

/-! ### Streams that a commit needs -/

theorem exists_of_foldlM {γ : Type} {f : MetadataState → γ → Except Fault MetadataState}
    (streamOf : γ → UInt64) (hneed : ∀ t x t', f t x = .ok t' → t.streams[streamOf x]? ≠ none)
    (hkeep : ∀ t x t' (k : UInt64), f t x = .ok t' → t.streams[k]? = none →
      t'.streams[k]? = none) {l : List γ} (h : l.foldlM f s = .ok s') :
  (∀ x ∈ l, s.streams[streamOf x]? ≠ none) ∧
    ∀ k : UInt64, s.streams[k]? = none → s'.streams[k]? = none
  := by
  induction l generalizing s with
  | nil =>
    obtain rfl : s = s' := by simpa using h
    exact ⟨nofun, fun _ hk => hk⟩
  | cons x l ih =>
    rw [foldlM_cons, ok_of_do] at h
    obtain ⟨t, ht, h⟩ := h
    obtain ⟨hrest, hnone⟩ := ih h
    constructor
    · intro y hy
      rcases mem_cons.mp hy with rfl | hy
      · exact hneed s y t ht
      · exact fun hk => hrest y hy (hkeep s x t _ ht hk)
    · exact fun k hk => hnone k (hkeep s x t k ht hk)

/-- A range is committed only for a stream that is there. -/
theorem advanceEndOffset_needs {streamId startOffset endOffset : UInt64} {compact : Bool}
    (hok : advanceEndOffset s streamId startOffset endOffset compact = .ok s') :
  s.streams[streamId]? ≠ none
  := by
  simp only [advanceEndOffset, ok_of_do] at hok
  obtain ⟨row, hrow, -⟩ := hok
  rw [requireStream_ok hrow]
  apply Option.some_ne_none

variable {nodeId : Int32} {nodeEpoch nowMs : Int64}

/-- A commit that is accepted found the streams of its ranges. -/
theorem commitStreamSetObject_needs
    (hok : commitStreamSetObject s nodeId nodeEpoch request nowMs = .ok (s', result))
    {streamId : UInt64} (hne : request.rangesOf streamId ≠ []) :
  s.streams[streamId]? ≠ none
  := by
  simp only [commitStreamSetObject, ok_of_do, ok_of_return, Prod.mk.injEq] at hok
  obtain ⟨-, -, -, -, dataTimeMs, -, s₁, hcompact, s₂, hset, s₃, hobjects, rfl, -⟩ := hok
  have hsame : SameControl s s₁ :=
    SameControl.foldlM (fun _ _ _ hstep => destroyCompacted_sameControl hstep) hcompact
  have hset₂ : Advanced _ streamId _ s₁ s₂ := commitSetObject_advanced hset
  obtain ⟨hneeds, -⟩ := exists_of_foldlM StreamObject.streamId
    (by
      intro t so t' hstep
      simp only [commitStreamObject, ok_of_do] at hstep
      obtain ⟨-, -, t₁, hadvance, -⟩ := hstep
      have hneed := advanceEndOffset_needs hadvance
      rwa [(commitPrepared_sameControl t so.objectId).streams] at hneed)
    (by
      intro t so t' k hstep
      have hadvanced : Advanced _ k _ t t' := commitStreamObject_advanced hstep
      exact hadvanced.2.1)
    hobjects
  intro hnone
  rw [← hsame.streams] at hnone
  apply hne
  rw [rangesOf, append_eq_nil_iff]
  constructor
  · split
    next hnoop =>
      rw [map_eq_nil_iff, filter_eq_nil_iff]
      intro range hrange hstream
      rw [commitSetObject, if_pos hnoop, ok_of_do] at hset
      obtain ⟨-, -, hset⟩ := hset
      rw [ok_of_do] at hset
      obtain ⟨t, hfold, -⟩ := hset
      obtain ⟨hneeds', -⟩ := exists_of_foldlM ObjectStreamRange.streamId
        (fun t range t' hstep => advanceEndOffset_needs hstep)
        (by
          intro t range t' k hstep
          have hadvanced : Advanced _ k _ t t' := advanceEndOffset_advanced hstep
          exact hadvanced.2.1)
        hfold
      apply hneeds' range hrange
      rw [(commitPrepared_sameControl s₁ request.objectId).streams, of_decide_eq_true hstream]
      exact hnone
    next => rfl
  · rw [map_eq_nil_iff, filter_eq_nil_iff]
    intro so hso hstream
    apply hneeds so hso
    rw [of_decide_eq_true hstream]
    exact hset₂.2.1 hnone

/-! ### Runs in which ids are used once -/

/-- What is asked of the commands that are accepted: ranges do not run backwards, ids are used once,
and no compaction names its own object as one to be replaced. -/
def Ledger.Orderly (l : Ledger) (command : MetadataCommand) : Prop :=
  Accepts l.state command → command.Forward ∧ l.Fresh command ∧ command.Apart

/-- The command registers objects, and all of its ranges have offsets. -/
def MetadataCommand.HasData : MetadataCommand → Prop
  | .commitStreamSetObject _ _ request _ => request.ids ≠ [] ∧
      (request.objectId ≠ noopObjectId → request.streamRanges ≠ [] ∧
        ∀ range ∈ request.streamRanges, range.startOffset < range.endOffset) ∧
      ∀ so ∈ request.streamObjects, so.startOffset < so.endOffset
  | .compactStreamObject _ _ request _ =>
    request.objectId ≠ noopObjectId ∧ request.startOffset < request.endOffset
  | _ => False

/-- When the node and the stream are still at the epochs of a compaction, and the stream was not
trimmed past its range, the object of the compaction is still committed. -/
def Settled (s : MetadataState) : MetadataCommand → Prop
  | .compactStreamObject nodeId nodeEpoch request _ =>
    nodeEpochCheck s nodeId nodeEpoch = .ok () →
    ∀ row : StreamRow, s.streams[request.streamId]? = some row →
      row.epoch = request.streamEpoch.toInt64 → row.startOffset ≤ request.startOffset →
      CommittedId s request.objectId
  | _ => True

/-- Since an earlier point of the run offsets have grown, and no object that was registered and
taken out of use has come back. -/
structure Ledger.Later (l l' : Ledger) : Prop where
  inv : l'.Inv
  grown : Grown l.state l'.state
  used : ∀ id ∈ l.used, id ∈ l'.used
  gone : ∀ id ∈ l.used, ¬ (l.state.catalog.live id).isSome = true →
    ¬ (l'.state.catalog.live id).isSome = true

variable {m : Ledger}

/-- A later ledger stays later. -/
theorem Ledger.Later.step (hl : l.Inv) (h : l.Later l') (horderly : l'.Orderly command)
    (hstep : l'.step command = some m) :
  l.Later m
  := by
  refine ⟨h.inv.step hstep, h.grown.step hl.below h.inv (fun ha => (horderly ha).1) hstep, ?_, ?_⟩
  · intro id hid
    rcases Ledger.step_cases h.inv.objects h.inv.below hstep with rfl | ⟨-, s', result, -, -, rfl⟩
    · exact h.used id hid
    · exact mem_append_left _ (h.used id hid)
  · intro id hid hnot hlive
    rcases Ledger.step_cases h.inv.objects h.inv.below hstep with
      rfl | ⟨haccepts, s', result, hcatalog, -, rfl⟩
    · exact h.gone id hid hnot hlive
    · rcases hcatalog.live_subset id hlive with hlive | hout
      · exact h.gone id hid hnot hlive
      · exact (horderly haccepts).2.1.2 id hout (h.used id hid)

/-- Whatever is run next, the ledger is later. -/
theorem Ledger.later_of_run (hl : l.Inv) {commands : List MetadataCommand}
    (horderly : Along Ledger.step Ledger.Orderly commands l)
    (hrun : commands.foldlM Ledger.step l = some l') :
  l.Later l'
  := by
  apply Along.induction (I := l.Later) _ horderly
    ⟨hl, Grown.refl hl.below, fun _ hid => hid, fun _ _ hnot => hnot⟩ hrun
  intro a command b hcommand ha hstep
  exact ha.step hl hcommand hstep

/-! ### Retries -/

/-- The end offset after ranges that do not run backwards is not before the end of the first. -/
theorem first_le_of_advance {range : UInt64 × UInt64} {ranges : List (UInt64 × UInt64)}
    (hforward : ∀ r ∈ range :: ranges, r.1 ≤ r.2) {endOffset endOffset' : UInt64}
    (h : (range :: ranges).foldlM (advance false) endOffset = some endOffset') :
  endOffset = range.1 ∧ range.2 ≤ endOffset'
  := by
  rw [foldlM_cons] at h
  obtain ⟨mid, hmid, h⟩ := Option.bind_eq_some_iff.mp h
  rw [advance, if_neg Bool.false_ne_true] at hmid
  split at hmid
  next heq =>
    cases hmid
    refine ⟨heq, ?_⟩
    exact (advance_forward (fun r hr => hforward r (mem_cons_of_mem range hr)) h).1
  next => cases hmid

/-- Some stream has a first range with offsets. -/
theorem exists_first_range (hids : request.ids ≠ [])
    (hset : request.objectId ≠ noopObjectId → request.streamRanges ≠ [] ∧
      ∀ range ∈ request.streamRanges, range.startOffset < range.endOffset)
    (hobjects : ∀ so ∈ request.streamObjects, so.startOffset < so.endOffset) :
  ∃ streamId range ranges, request.rangesOf streamId = range :: ranges ∧ range.1 < range.2
  := by
  have hforward (streamId : UInt64) : ∀ range ∈ request.rangesOf streamId, range.1 < range.2 := by
    intro range hrange
    rw [rangesOf, mem_append] at hrange
    rcases hrange with hrange | hrange
    · split at hrange
      next hnoop =>
        obtain ⟨r, hr, rfl⟩ := mem_map.mp hrange
        exact (hset hnoop).2 r (mem_filter.mp hr).1
      next => cases hrange
    · obtain ⟨so, hso, rfl⟩ := mem_map.mp hrange
      exact hobjects so (mem_filter.mp hso).1
  have hsome : ∃ streamId range, range ∈ request.rangesOf streamId := by
    by_cases hnoop : request.objectId = noopObjectId
    · rw [ids, if_neg (not_not_intro hnoop), nil_append] at hids
      obtain ⟨id, hid⟩ := exists_mem_of_ne_nil _ hids
      obtain ⟨so, hso, -⟩ := mem_map.mp hid
      refine ⟨so.streamId, (so.startOffset, so.endOffset), mem_append_right _ ?_⟩
      exact mem_map.mpr ⟨so, mem_filter.mpr ⟨hso, decide_eq_true rfl⟩, rfl⟩
    · obtain ⟨r, hr⟩ := exists_mem_of_ne_nil _ (hset hnoop).1
      refine ⟨r.streamId, (r.startOffset, r.endOffset), mem_append_left _ ?_⟩
      rw [if_pos hnoop]
      exact mem_map.mpr ⟨r, mem_filter.mpr ⟨hr, decide_eq_true rfl⟩, rfl⟩
  obtain ⟨streamId, range, hrange⟩ := hsome
  cases hranges : request.rangesOf streamId with
  | nil =>
    rw [hranges] at hrange
    cases hrange
  | cons first ranges =>
    refine ⟨streamId, first, ranges, hranges, hforward streamId first ?_⟩
    rw [hranges]
    exact mem_cons_self

/-- A commit that was accepted is refused ever after. -/
theorem commit_retry (hl : l.Inv)
    (hdata : MetadataCommand.HasData (.commitStreamSetObject nodeId nodeEpoch request nowMs))
    (hfresh : l.Fresh (.commitStreamSetObject nodeId nodeEpoch request nowMs))
    (hok : commitStreamSetObject l.state nodeId nodeEpoch request nowMs = .ok (s', result))
    (hstate : l'.state = s') (hused : l'.used = l.used ++ request.ids) (hlater : l'.Later m) :
  Refused (commitStreamSetObject m.state nodeId nodeEpoch request nowMs)
  := by
  subst hstate
  by_cases hnew : request.compactedObjectIds = []
  · -- the end offset of some stream has passed the start of its first range
    rcases commitStreamSetObject_decided m.state nodeId nodeEpoch nowMs hnew with
      hrefused | ⟨⟨t, value⟩, hagain⟩
    · exact hrefused
    · obtain ⟨hids, hset, hobjects⟩ := hdata
      obtain ⟨streamId, range, ranges, hranges, hlt⟩ := exists_first_range hids hset hobjects
      have hforward : ∀ r ∈ range :: ranges, r.1 ≤ r.2 := by
        rw [← hranges]
        apply forward_rangesOf
        · exact fun hnoop r hr => UInt64.le_of_lt ((hset hnoop).2 r hr)
        · exact fun so hso => UInt64.le_of_lt (hobjects so hso)
      have hne : request.rangesOf streamId ≠ [] := by
        rw [hranges]
        apply cons_ne_nil
      obtain ⟨row, hrow⟩ := Option.ne_none_iff_exists'.mp (commitStreamSetObject_needs hok hne)
      obtain ⟨row', hrow'⟩ := Option.ne_none_iff_exists'.mp (commitStreamSetObject_needs hagain hne)
      obtain ⟨e, he, hmoved⟩ := (commitStreamSetObject_advanced streamId hok).2.2 row hrow
      obtain ⟨e', he', -⟩ := (commitStreamSetObject_advanced streamId hagain).2.2 row' hrow'
      rw [hranges, hnew] at he he'
      have hgrown := (hlater.grown.offsets streamId _ row' hmoved hrow').2
      have hle := UInt64.le_trans (first_le_of_advance hforward he).2 hgrown
      rw [(first_le_of_advance hforward he').1] at hle
      exact absurd (UInt64.lt_of_lt_of_le hlt hle) (UInt64.lt_irrefl _)
  · -- the compacted objects are gone, and do not come back
    obtain ⟨id, hid⟩ := exists_mem_of_ne_nil _ hnew
    apply commitStreamSetObject_gone nodeId nodeEpoch nowMs hid
    obtain ⟨hcompacted, dataTimeMs, hbecomes⟩ := commitStreamSetObject_becomes hl.objects hok
    have hlive : (l.state.catalog.live id).isSome = true :=
      (hl.objects.live_isSome id).mpr (.inl (hcompacted id hid))
    have hnot : id ∉ request.ids := fun hout => hfresh.2 id hout (hl.used id hlive)
    have hgone : ¬ (l'.state.catalog.live id).isSome = true := by
      rw [hbecomes.catalog, Catalog.commit_live_of_not_mem (by rw [request.entries_ids]; exact hnot)]
      simp [Catalog.retire, Catalog.remove, hid]
    have hmem : id ∈ l'.used := by
      rw [hused]
      exact mem_append_left _ (hl.used id hlive)
    intro hset
    exact hlater.gone id hmem hgone ((hlater.inv.objects.live_isSome id).mpr (.inl hset))

theorem ok_bind {β : Type} (a : α) (f : α → Except Fault β) :
  ((Except.ok a : Except Fault α) >>= f) = f a
  := rfl

theorem reject_of_not {c : Prop} [Decidable c] (e : MetadataError) (hc : ¬ c) :
  reject c e = .ok ()
  := if_neg hc

theorem not_refused_bind {β : Type} {x : Except Fault α} {f : α → Except Fault β} (hx : ¬ Refused x)
    (hf : ∀ a, x = .ok a → ¬ Refused (f a)) :
  ¬ Refused (x >>= f)
  := by
  cases x with
  | ok a => exact hf a rfl
  | error fault =>
    rintro ⟨e, he⟩
    exact hx ⟨e, congrArg Except.error (Except.error.inj he)⟩

theorem markDestroyed_not_refused (s : MetadataState) (objectId : UInt64)
    (op : CompactOperations) :
  ¬ Refused (markDestroyed s objectId op)
  := by
  rintro ⟨e, he⟩
  unfold markDestroyed at he
  split at he
  · cases he
  · unfold checkedAdd at he
    split at he
    · cases he
    · cases he

theorem foldlM_not_refused {γ : Type} {f : MetadataState → γ → Except Fault MetadataState}
    (hf : ∀ t x, ¬ Refused (f t x)) (l : List γ) (s : MetadataState) :
  ¬ Refused (l.foldlM f s)
  := by
  induction l generalizing s with
  | nil => apply not_refused_ok
  | cons x l ih =>
    rw [foldlM_cons]
    exact not_refused_bind (hf s x) fun t _ => ih t

/-- The operations of a request go with its sources. -/
def CompactStreamObjectRequest.Paired (request : CompactStreamObjectRequest) : Prop :=
  request.sourceObjectIds = [] ∨ request.operations = [] ∨
    request.operations.length = request.sourceObjectIds.length

/-- A compaction that is accepted names one operation for each source. -/
theorem markDestroyObjects_paired {request : CompactStreamObjectRequest}
    (hok : markDestroyObjects s request.sourceObjectIds request.operations = .ok s') :
  request.Paired
  := by
  unfold markDestroyObjects at hok
  split at hok
  next hids => exact .inl (List.isEmpty_iff.mp hids)
  next =>
    split at hok
    next hops => exact .inr (.inl (List.isEmpty_iff.mp hops))
    next =>
      simp only [ok_of_do, reject_ok_iff, ne_eq, not_not] at hok
      obtain ⟨-, hlen, -⟩ := hok
      exact .inr (.inr hlen)

/-- Queueing objects is refused for the lengths of the lists alone. -/
theorem markDestroyObjects_not_refused {request : CompactStreamObjectRequest}
    (hpaired : request.Paired) (s : MetadataState) :
  ¬ Refused (markDestroyObjects s request.sourceObjectIds request.operations)
  := by
  unfold markDestroyObjects
  split
  next => apply not_refused_ok
  next hids =>
    split
    next =>
      apply foldlM_not_refused
      intro t id
      apply markDestroyed_not_refused
    next hops =>
      have hlen : request.operations.length = request.sourceObjectIds.length := by
        rcases hpaired with hnil | hnil | hlen
        · exact absurd (List.isEmpty_iff.mpr hnil) hids
        · exact absurd (List.isEmpty_iff.mpr hnil) hops
        · exact hlen
      rw [reject_of_not _ (not_not_intro hlen), ok_bind]
      apply foldlM_not_refused
      intro t e
      apply markDestroyed_not_refused

/-- A compaction whose checks pass puts its object to use, drops its sources and queues them. -/
theorem compactStreamObject_of_checks {request : CompactStreamObjectRequest} (nowMs : Int64)
    {row : StreamRow} (hnode : nodeEpochCheck s nodeId nodeEpoch = .ok ())
    (hrow : s.streams[request.streamId]? = some row)
    (hepoch : row.epoch = request.streamEpoch.toInt64) (hend : request.endOffset ≤ row.endOffset)
    (hstart : row.startOffset ≤ request.startOffset)
    (hfree : ∀ id ∈ request.ids, ¬ CommittedId s id) :
  compactStreamObject s nodeId nodeEpoch request nowMs =
    (markDestroyObjects (request.sourceObjectIds.foldl (removeSourceObject request.streamId)
      (insertReplacement s request nowMs)) request.sourceObjectIds request.operations >>=
        fun s => .ok (s, .unit))
  := by
  have hself (hnoop : request.objectId ≠ noopObjectId) : ¬ CommittedId s request.objectId := by
    apply hfree
    rw [CompactStreamObjectRequest.ids, if_pos hnoop]
    exact mem_cons_self
  have hnew : ¬ (request.objectId ≠ noopObjectId ∧
      streamObjectCommitted s request.streamId request.objectId = true) := by
    rintro ⟨hnoop, hcommitted⟩
    obtain ⟨key, hkey, -⟩ := streamObjectCommitted_iff.mp hcommitted
    exact hself hnoop (.inr ((mem_iff_lookup _ _).mpr ⟨key, hkey⟩))
  have hstream : requireStream s request.streamId = .ok row := by rw [requireStream, hrow]
  have hreplace : checkReplacement s request = .ok () := by
    unfold checkReplacement
    split
    next hnoop => exact checkObjectIdFree_of_not (hself hnoop) _
    next => rfl
  rw [compactStreamObject, hnode, ok_bind]
  dsimp only
  rw [reject_of_not _ hnew, ok_bind, hstream, ok_bind, reject_of_not _ (not_not_intro hepoch),
    ok_bind, reject_of_not _ (UInt64.not_lt.mpr hend), ok_bind,
    reject_of_not _ (UInt64.not_lt.mpr hstart), ok_bind, hreplace, ok_bind]
  rfl

/-- When a compaction that is sent again changes nothing. -/
theorem compact_retry_iff {request : CompactStreamObjectRequest}
    (hdata : MetadataCommand.HasData (.compactStreamObject nodeId nodeEpoch request nowMs))
    (hapart : MetadataCommand.Apart (.compactStreamObject nodeId nodeEpoch request nowMs))
    (hok : compactStreamObject l.state nodeId nodeEpoch request nowMs = .ok (s', result))
    (hstate : l'.state = s') (hlater : l'.Later m) :
  next m.state (.compactStreamObject nodeId nodeEpoch request nowMs) = some m.state ↔
    Settled m.state (.compactStreamObject nodeId nodeEpoch request nowMs)
  := by
  subst hstate
  obtain ⟨hnoop, -⟩ := hdata
  have hids : request.ids = [request.objectId] := by
    rw [CompactStreamObjectRequest.ids, if_pos hnoop]
  constructor
  · intro hnext hnode row hrow hepoch hstart
    by_contra hfree
    obtain ⟨-, row₀, hrow₀, -, hend, -⟩ := compactStreamObject_checks hok
    rw [← (compactStreamObject_sameControl hok).streams] at hrow₀
    have hgrown := (hlater.grown.offsets _ row₀ row hrow₀ hrow).2
    have hpaired : request.Paired := by
      simp only [compactStreamObject, ok_of_do] at hok
      obtain ⟨-, -, -, -, row, -, -, -, -, -, -, -, -, -, s₂, hmark, -⟩ := hok
      exact markDestroyObjects_paired hmark
    have hnot : ¬ Refused (compactStreamObject m.state nodeId nodeEpoch request nowMs) := by
      rw [compactStreamObject_of_checks nowMs hnode hrow hepoch (UInt64.le_trans hend hgrown) hstart
        (by
          rw [hids]
          intro id hid
          exact mem_singleton.mp hid ▸ hfree)]
      exact not_refused_bind (markDestroyObjects_not_refused hpaired _) fun _ _ => not_refused_ok _
    obtain ⟨⟨t, outcome⟩, happly, heq⟩ := Option.map_eq_some_iff.mp hnext
    obtain rfl : t = m.state := heq
    rcases apply_cases happly with ⟨value, hagain, -⟩ | ⟨-, e, rfl⟩
    · -- the object is committed afterwards, and was not before
      have hbecomes := compactStreamObject_becomes hlater.inv.objects hagain
      apply hfree
      rw [← hlater.inv.objects.live_isSome]
      change (m.state.catalog.live request.objectId).isSome = true
      rw [hbecomes.catalog, Catalog.queue_live, Catalog.remove_live_isSome,
        Catalog.commit_live_isSome, request.entries_ids, hids]
      refine ⟨.inr mem_cons_self, ?_⟩
      intro hdropped
      apply hapart request.objectId _ (mem_dropped.mp hdropped).1
      rw [hids]
      exact mem_cons_self
    · apply hnot
      unfold apply at happly
      split at happly
      next => cases happly
      next e' he' => exact ⟨e', he'⟩
      next => cases happly
  · intro hsettled
    apply next_of_refused
    apply refused_bind (nodeEpochCheck_cases _ _ _)
    intro _ hnode
    apply refused_bind (reject_cases _ _)
    intro _ hnew
    apply refused_bind (requireStream_cases _ _)
    intro row hrow
    apply refused_bind (reject_cases _ _)
    intro _ hepoch
    apply refused_bind (reject_cases _ _)
    intro _ _
    apply refused_bind (reject_cases _ _)
    intro _ hstart
    rw [reject_ok_iff] at hnew hepoch hstart
    have hcommitted := hsettled hnode row (requireStream_ok hrow) (not_not.mp hepoch)
      (UInt64.not_lt.mp hstart)
    apply Refused.bind
    rcases checkObjectIdFree_decided m.state request.objectId
      (some (request.streamId, request.startOffset, request.objectId)) with hrefused | ⟨_, hpass⟩
    · rw [checkReplacement, if_pos hnoop]
      exact hrefused
    · -- the object is free for its own key only, and then it is an object of the stream
      obtain ⟨hset, hkey⟩ := checkObjectIdFree_ok hpass
      rcases hcommitted with hmem | hmem
      · obtain ⟨setRow, hsetRow⟩ := (mem_iff_lookup _ _).mp hmem
        rw [hset] at hsetRow
        cases hsetRow
      · obtain ⟨key, hid⟩ := (mem_iff_lookup _ _).mp hmem
        refine absurd ⟨hnoop, streamObjectCommitted_iff.mpr ⟨key, hid, ?_⟩⟩ hnew
        rw [← Option.some.inj (hkey key hid)]

/-- In a run in which ranges do not run backwards, ids are used once and no compaction names its own
object as a source, take a commit or a compaction with data that was accepted at some point. Applied
again at a later point, a commit changes nothing, and a compaction changes nothing exactly if its
object is still committed, or it is turned down for its epochs or for the start offset of the
stream. -/
theorem retry_unchanged_iff {m : Ledger} {first rest : List MetadataCommand}
    (hfirst : Along Ledger.step Ledger.Orderly (first ++ command :: rest) .new)
    (hl : first.foldlM Ledger.step .new = some l) (haccepts : Accepts l.state command)
    (hdata : command.HasData) (hl' : l.step command = some l')
    (hm : rest.foldlM Ledger.step l' = some m) :
  next m.state command = some m.state ↔ Settled m.state command
  := by
  obtain ⟨hfirst, hrest⟩ := along_append.mp hfirst
  obtain ⟨horderly, hrest⟩ := hrest l hl
  have hinv : l.Inv := by
    apply Along.induction (I := Ledger.Inv) _ hfirst Ledger.inv_new hl
    intro a c b _ ha hstep
    exact ha.step hstep
  have hlater := Ledger.later_of_run (hinv.step hl') (hrest l' hl') hm
  obtain ⟨-, hfresh, hapart⟩ := horderly haccepts
  obtain ⟨s', value, happly⟩ := haccepts
  rw [Ledger.step, happly] at hl'
  cases hl'
  rcases apply_cases happly with ⟨value', hok, -⟩ | ⟨-, e, he⟩
  · cases command with
    | commitStreamSetObject nodeId nodeEpoch request nowMs =>
      apply iff_of_true _ trivial
      apply next_of_refused
      exact commit_retry hinv hdata hfresh hok rfl rfl hlater
    | compactStreamObject nodeId nodeEpoch request nowMs =>
      exact compact_retry_iff hdata hapart hok rfl hlater
    | _ => exact hdata.elim
  · cases he

/-- Two objects are compacted into one, which is then compacted with a third one. -/
def recompactedRun : List MetadataCommand :=
  [.registerNode 1 1 "" 1, .createStream 1 1, .openStream 1 1 0 0, .prepareObject 1 1 5 100 0,
    .commitStreamSetObject 1 1 ⟨noopObjectId, 0, 0, [], [⟨0, 8, 0, 0, 5, 0⟩, ⟨1, 8, 0, 5, 7, 0⟩,
      ⟨2, 8, 0, 7, 9, 0⟩], []⟩ 0]

/-- The first compaction. -/
def firstCompaction : MetadataCommand :=
  .compactStreamObject 1 1 ⟨3, 16, 0, 0, 0, 7, [0, 1], [], 0⟩ 0

/-- The compaction of its object. -/
def secondCompaction : MetadataCommand :=
  .compactStreamObject 1 1 ⟨4, 24, 0, 0, 0, 9, [3, 2], [], 0⟩ 0

/-- The first compaction is accepted again: its object is committed a second time, and was queued
for destruction in between. -/
theorem retry_recompactedRun :
  ∃ r r' s t, applyAll .new recompactedRun = some r ∧
    apply r firstCompaction = some (r', .ok .unit) ∧
    apply r' secondCompaction = some (s, .ok .unit) ∧
    apply s firstCompaction = some (t, .ok .unit) ∧ ¬ CommittedId s 3 ∧ CommittedId t 3 ∧
    QueuedId t 3 ∧ t ≠ s
  := by
  obtain ⟨r, hr, ⟨r', _⟩, hr', rfl, ⟨s, _⟩, hs, rfl, hset, hids, ⟨t, _⟩, happly, rfl, hlive,
      hqueued⟩ : ∃ r, applyAll .new recompactedRun = some r ∧
      ∃ r', apply r firstCompaction = some r' ∧ r'.2 = .ok .unit ∧
      ∃ s, apply r'.1 secondCompaction = some s ∧ s.2 = .ok .unit ∧
      3 ∉ s.1.streamSetObjects ∧ 3 ∉ s.1.streamObjectIds ∧
      ∃ t, apply s.1 firstCompaction = some t ∧ t.2 = .ok .unit ∧ 3 ∈ t.1.streamObjectIds ∧
        t.1.markDestroyed[(2 : UInt64)]? = some (3, .delete) := by
    decide +kernel
  have hnot : ¬ CommittedId s 3 := not_or.mpr ⟨hset, hids⟩
  refine ⟨r, r', s, t, hr, hr', hs, happly, hnot, .inr hlive, ⟨2, .delete, hqueued⟩, ?_⟩
  rintro rfl
  exact hids hlive

theorem retry_unchanged_iff_recompactedRun :
  ∃ l l' m, recompactedRun.foldlM Ledger.step .new = some l ∧ l.step firstCompaction = some l' ∧
    [secondCompaction].foldlM Ledger.step l' = some m ∧
    (next m.state firstCompaction = some m.state ↔ Settled m.state firstCompaction)
  := by
  have horderly : Along Ledger.step (fun l command => command.Forward ∧ l.Fresh command ∧
      command.Apart)
      (recompactedRun ++ firstCompaction :: [secondCompaction]) .new := by decide +kernel
  obtain ⟨l, hl, ⟨⟨t, outcome⟩, happly, rfl⟩, l', hl', m, hm, -⟩ : ∃ l,
      recompactedRun.foldlM Ledger.step .new = some l ∧
      (∃ r, apply l.state firstCompaction = some r ∧ r.2 = .ok .unit) ∧
      ∃ l', l.step firstCompaction = some l' ∧
      ∃ m, [secondCompaction].foldlM Ledger.step l' = some m ∧ True := by
    decide +kernel
  have horderly : Along Ledger.step Ledger.Orderly
      (recompactedRun ++ firstCompaction :: [secondCompaction]) .new := by
    apply Along.mono _ horderly
    intro l command h _
    exact h
  refine ⟨l, l', m, hl, hl', hm, ?_⟩
  apply retry_unchanged_iff horderly hl ⟨t, .unit, happly⟩ _ hl' hm
  exact ⟨by decide, by decide⟩

end Metadata
