import StreamStack.Metadata.Accounts

/-!
# The committed range stays covered

The offsets of a stream between its start and its end are those that can be read, so every one of
them has to be in a committed object. The handlers check a commit of new data against the end
offset only, and trust a compaction with what it replaces.
-/

namespace Metadata

open OrdMap Run List Catalog

variable {s s' : MetadataState} {command : MetadataCommand} {result : MetadataResult}

/-! ### Offsets in objects -/

/-- The offset of the stream is in the range. -/
def StreamOffsetRange.Has (range : StreamOffsetRange) (streamId offset : UInt64) : Prop :=
  range.streamId = streamId ∧ range.startOffset ≤ offset ∧ offset < range.endOffset

/-- The offset of the stream is in a range of the object. -/
def S3ObjectMetadata.Covers (object : S3ObjectMetadata) (streamId offset : UInt64) : Prop :=
  ∃ range ∈ object.offsetRanges, range.Has streamId offset

/-- The offset of the stream is in a stream-set object or in a stream object. -/
def Covered (s : MetadataState) (streamId offset : UInt64) : Prop :=
  (∃ (id : UInt64) (row : StreamSetObjectRow), s.streamSetObjects[id]? = some row ∧
    row.object.Covers streamId offset) ∨
  ∃ (key : StreamOffsetKey) (row : StreamObjectRow), s.streamObjects[key]? = some row ∧
    row.object.Covers streamId offset

variable {streamId offset : UInt64}

theorem covered_iff (hs : ObjectsInv s) :
  Covered s streamId offset ↔
    ∃ id object, s.catalog.live id = some object ∧ object.Covers streamId offset
  := by
  constructor
  · rintro (⟨id, row, hrow, hcovers⟩ | ⟨key, row, hrow, hcovers⟩)
    · exact ⟨id, row.object, (hs.live_iff _ _).mpr (.inl ⟨row, hrow, rfl⟩), hcovers⟩
    · exact ⟨key.2.2, row.object,
        (hs.live_iff _ _).mpr (.inr ⟨key, row, hs.id_of_row hrow, hrow, rfl⟩), hcovers⟩
  · rintro ⟨id, object, hlive, hcovers⟩
    rcases (hs.live_iff _ _).mp hlive with ⟨row, hrow, rfl⟩ | ⟨key, row, -, hrow, rfl⟩
    · exact .inl ⟨id, row, hrow, hcovers⟩
    · exact .inr ⟨key, row, hrow, hcovers⟩

/-- A stream object covers offsets of its own stream only. -/
theorem covers_ofStream (hs : ObjectsInv s) {id other : UInt64} {object : S3ObjectMetadata}
    (hcommitted : streamObjectCommitted s streamId id = true)
    (hlive : s.catalog.live id = some object) (hcovers : object.Covers other offset) :
  other = streamId ∧ ∃ key row, s.streamObjectIds[id]? = some key ∧ key.1 = streamId ∧
    s.streamObjects[key]? = some row ∧ row.object = object
  := by
  obtain ⟨key, hkey, hstream⟩ := streamObjectCommitted_iff.mp hcommitted
  rcases (hs.live_iff _ _).mp hlive with ⟨row, hrow, -⟩ | ⟨key', row, hkey', hrow, rfl⟩
  · rw [hs.set_none hkey] at hrow
    cases hrow
  · obtain rfl := Option.some.inj (hkey'.symm.trans hkey)
    refine ⟨?_, key', row, hkey', hstream, hrow, rfl⟩
    obtain ⟨-, endOffset, hranges⟩ := hs.streamObjects.rows key' row hrow
    obtain ⟨range, hrange, hother, -⟩ := hcovers
    rw [hranges, mem_singleton] at hrange
    subst hrange
    exact hother.symm.trans hstream

variable {request : CommitStreamSetObjectRequest}

/-- The range is among those a commit registers. -/
theorem covers_of_mem_rangesOf (nowMs dataTimeMs : Int64) {range : UInt64 × UInt64}
    (hrange : range ∈ request.rangesOf streamId) (hlo : range.1 ≤ offset) (hhi : offset < range.2) :
  ∃ e ∈ request.entries nowMs dataTimeMs, e.2.Covers streamId offset
  := by
  rw [CommitStreamSetObjectRequest.rangesOf, mem_append] at hrange
  rcases hrange with hset | hobject
  · split at hset
    next hnoop =>
      obtain ⟨r, hr, rfl⟩ := mem_map.mp hset
      obtain ⟨hr, hstream⟩ := mem_filter.mp hr
      refine ⟨(request.objectId, committedObject request nowMs dataTimeMs), ?_,
        ⟨r.streamId, r.startOffset, r.endOffset⟩, ?_, of_decide_eq_true hstream, hlo, hhi⟩
      · rw [CommitStreamSetObjectRequest.entries, if_pos hnoop]
        exact mem_cons_self
      · exact mem_map.mpr ⟨r, hr, rfl⟩
    next => cases hset
  · obtain ⟨so, hso, rfl⟩ := mem_map.mp hobject
    obtain ⟨hso, hstream⟩ := mem_filter.mp hso
    refine ⟨_, mem_append_right _ (mem_map.mpr ⟨so, hso, rfl⟩),
      ⟨so.streamId, so.startOffset, so.endOffset⟩, mem_cons_self, of_decide_eq_true hstream,
      hlo, hhi⟩

/-! ### Ids that are used once -/

/-- The objects that a command registers. -/
def MetadataCommand.outputs : MetadataCommand → List UInt64
  | .commitStreamSetObject _ _ request _ => request.ids
  | .compactStreamObject _ _ request _ => request.ids
  | _ => []

/-- A state with the ids handed out and the ids registered on the way to it. -/
structure Ledger where
  state : MetadataState
  issued : List UInt64
  used : List UInt64

def Ledger.new : Ledger where
  state := .new
  issued := []
  used := []

def Ledger.step (l : Ledger) (command : MetadataCommand) : Option Ledger :=
  match apply l.state command with
  | some (s', .ok result) => some
      { state := s'
        issued := l.issued ++ command.issues result
        used := l.used ++ command.outputs }
  | some (_, .error _) => some l
  | none => none

variable {l l' : Ledger}

/-- Committed ranges do not end before they start. -/
def MetadataCommand.Forward : MetadataCommand → Prop
  | .commitStreamSetObject _ _ request _ =>
    (request.objectId ≠ noopObjectId →
      ∀ range ∈ request.streamRanges, range.startOffset ≤ range.endOffset) ∧
    ∀ so ∈ request.streamObjects, so.startOffset ≤ so.endOffset
  | .compactStreamObject _ _ request _ =>
    request.objectId ≠ noopObjectId → request.startOffset ≤ request.endOffset
  | _ => True

instance decidableForward : DecidablePred MetadataCommand.Forward :=
  fun command => by
    induction command using MetadataCommand.casesOn
    all_goals (dsimp only [MetadataCommand.Forward]; infer_instance)

/-- The ids of the objects are used for the first time and once. -/
def Ledger.Fresh (l : Ledger) (command : MetadataCommand) : Prop :=
  command.outputs.Nodup ∧ ∀ id ∈ command.outputs, id ∉ l.used

instance decidableFresh (l : Ledger) : DecidablePred l.Fresh :=
  fun _ => inferInstanceAs (Decidable (_ ∧ _))

/-- A compaction does not name its own object as one to be replaced. -/
def MetadataCommand.Apart : MetadataCommand → Prop
  | .compactStreamObject _ _ request _ => ∀ id ∈ request.ids, id ∉ request.sourceObjectIds
  | _ => True

instance decidableApart : DecidablePred MetadataCommand.Apart :=
  fun command => by
    induction command using MetadataCommand.casesOn
    all_goals (dsimp only [MetadataCommand.Apart]; infer_instance)

/-- The objects of a compaction cover what the objects it removes cover, from the start offsets of
the streams on. -/
def CoversRemoved (s : MetadataState) : MetadataCommand → Prop
  | .commitStreamSetObject _ _ request _ =>
    ∀ id ∈ request.compactedObjectIds, ∀ row : StreamSetObjectRow,
      s.streamSetObjects[id]? = some row →
      ∀ (streamId : UInt64) (stream : StreamRow) (offset : UInt64),
        s.streams[streamId]? = some stream → stream.startOffset ≤ offset →
        row.object.Covers streamId offset →
        ∃ range ∈ request.rangesOf streamId, range.1 ≤ offset ∧ offset < range.2
  | .compactStreamObject _ _ request _ =>
    ∀ id ∈ request.sourceObjectIds, ∀ (key : StreamOffsetKey) (row : StreamObjectRow),
      s.streamObjectIds[id]? = some key → key.1 = request.streamId →
      s.streamObjects[key]? = some row →
      ∀ (stream : StreamRow) (offset : UInt64), s.streams[request.streamId]? = some stream →
        stream.startOffset ≤ offset → row.object.Covers request.streamId offset →
        request.objectId ≠ noopObjectId ∧ request.startOffset ≤ offset ∧
          offset < request.endOffset
  | _ => True

/-- What is asked of the commands that are accepted. -/
def Ledger.Careful (l : Ledger) (command : MetadataCommand) : Prop :=
  Accepts l.state command →
    command.Forward ∧ l.Fresh command ∧ command.Apart ∧ CoversRemoved l.state command

/-! ### Moving along ranges -/

theorem CommitStreamSetObjectRequest.forward_rangesOf (hset : request.objectId ≠ noopObjectId →
      ∀ range ∈ request.streamRanges, range.startOffset ≤ range.endOffset)
    (hobjects : ∀ so ∈ request.streamObjects, so.startOffset ≤ so.endOffset) (streamId : UInt64) :
  ∀ range ∈ request.rangesOf streamId, range.1 ≤ range.2
  := by
  intro range hrange
  rw [rangesOf, mem_append] at hrange
  rcases hrange with hrange | hrange
  · split at hrange
    next hnoop =>
      obtain ⟨r, hr, rfl⟩ := mem_map.mp hrange
      exact hset hnoop r (mem_filter.mp hr).1
    next => cases hrange
  · obtain ⟨so, hso, rfl⟩ := mem_map.mp hrange
    exact hobjects so (mem_filter.mp hso).1

/-- Moving along ranges that do not run backwards, the end offset grows, and passes offsets of the
ranges only. -/
theorem advance_forward {compact : Bool} {ranges : List (UInt64 × UInt64)}
    (hforward : ∀ range ∈ ranges, range.1 ≤ range.2) {endOffset endOffset' : UInt64}
    (h : ranges.foldlM (advance compact) endOffset = some endOffset') :
  endOffset ≤ endOffset' ∧ ∀ offset, endOffset ≤ offset → offset < endOffset' →
    ∃ range ∈ ranges, range.1 ≤ offset ∧ offset < range.2
  := by
  induction ranges generalizing endOffset with
  | nil =>
    obtain rfl : endOffset = endOffset' := by simpa using h
    refine ⟨UInt64.le_refl _, ?_⟩
    intro offset hlo hhi
    exact absurd (UInt64.lt_of_lt_of_le hhi hlo) (UInt64.lt_irrefl _)
  | cons range ranges ih =>
    rw [foldlM_cons] at h
    obtain ⟨mid, hmid, h⟩ := Option.bind_eq_some_iff.mp h
    obtain ⟨hle, hcovers⟩ := ih (fun r hr => hforward r (mem_cons_of_mem range hr)) h
    unfold advance at hmid
    split at hmid
    next =>
      cases hmid
      refine ⟨hle, ?_⟩
      intro offset hlo hhi
      obtain ⟨r, hr, hin⟩ := hcovers offset hlo hhi
      exact ⟨r, mem_cons_of_mem range hr, hin⟩
    next =>
      split at hmid
      next heq =>
        cases hmid
        subst heq
        refine ⟨UInt64.le_trans (hforward range mem_cons_self) hle, ?_⟩
        intro offset hlo hhi
        by_cases hpast : offset < range.2
        · exact ⟨range, mem_cons_self, hlo, hpast⟩
        · obtain ⟨r, hr, hin⟩ := hcovers offset (UInt64.not_lt.mp hpast) hhi
          exact ⟨r, mem_cons_of_mem range hr, hin⟩
      next => cases hmid

/-! ### Steps -/

/-- Every stream starts before it ends, and every offset in between is in an object. -/
def RowsCovered (s : MetadataState) : Prop :=
  ∀ (streamId : UInt64) (row : StreamRow), s.streams[streamId]? = some row →
    row.startOffset ≤ row.endOffset ∧
    ∀ offset, row.startOffset ≤ offset → offset < row.endOffset → Covered s streamId offset

/-- The offsets of the streams that are in both states have grown. -/
def OffsetsGrow (s s' : MetadataState) : Prop :=
  ∀ (streamId : UInt64) (row row' : StreamRow), s.streams[streamId]? = some row →
    s'.streams[streamId]? = some row' →
    row.startOffset ≤ row'.startOffset ∧ row.endOffset ≤ row'.endOffset

/-- Changes that leave the objects in use alone. -/
theorem Covered.of_live (hs : ObjectsInv s) (hs' : ObjectsInv s')
    (hlive : s'.catalog.live = s.catalog.live) (h : Covered s streamId offset) :
  Covered s' streamId offset
  := by
  rw [covered_iff hs] at h
  rw [covered_iff hs', hlive]
  exact h

theorem rowsCovered_quiet (hs : ObjectsInv s) (hrows : RowsCovered s) (hquiet : Quiet s s')
    (hbecomes : Becomes s s' s.catalog) :
  RowsCovered s'
  := by
  have hlive : s'.catalog.live = s.catalog.live := by rw [hbecomes.catalog]
  intro k row' hrow'
  rcases hquiet.rows k row' hrow' with ⟨-, rfl⟩ | ⟨row, hrow, hend, hstart, hle⟩
  · refine ⟨UInt64.le_refl _, ?_⟩
    intro offset hlo hhi
    exact absurd (UInt64.lt_of_lt_of_le hhi hlo) (UInt64.lt_irrefl _)
  · obtain ⟨hle₀, hcovered⟩ := hrows k row hrow
    refine ⟨hle hle₀, ?_⟩
    intro offset hlo hhi
    apply Covered.of_live hs hbecomes.inv hlive
    exact hcovered offset (UInt64.le_trans hstart hlo) (hend ▸ hhi)

theorem rowsCovered_of_streams (hs : ObjectsInv s) (hs' : ObjectsInv s') (hrows : RowsCovered s)
    (hstreams : s'.streams = s.streams) (hlive : s'.catalog.live = s.catalog.live) :
  RowsCovered s'
  := by
  intro k row hrow
  rw [hstreams] at hrow
  obtain ⟨hle, hcovered⟩ := hrows k row hrow
  exact ⟨hle, fun offset hlo hhi => Covered.of_live hs hs' hlive (hcovered offset hlo hhi)⟩

/-- The objects of a deleted stream are in no other stream. -/
theorem rowsCovered_delete {ids : List UInt64} (hs : ObjectsInv s) (hrows : RowsCovered s)
    (hstreams : s'.streams = s.streams.erase streamId)
    (hids : ∀ id ∈ ids, streamObjectCommitted s streamId id = true)
    (hbecomes : Becomes s s' (s.catalog.retire ids)) :
  RowsCovered s'
  := by
  intro k row hrow
  rw [hstreams] at hrow
  obtain ⟨hne, hrow⟩ := lookup_erase_iff.mp hrow
  obtain ⟨hle, hcovered⟩ := hrows k row hrow
  refine ⟨hle, ?_⟩
  intro offset hlo hhi
  obtain ⟨id, object, hlive, hcovers⟩ := (covered_iff hs).mp (hcovered offset hlo hhi)
  refine (covered_iff hbecomes.inv).mpr ⟨id, object, ?_, hcovers⟩
  have hid : id ∉ ids := fun hid => hne (covers_ofStream hs (hids id hid) hlive hcovers).1.symm
  rw [hbecomes.catalog]
  simpa [retire, remove, hid] using hlive

/-- The row of a stream after a commit whose ranges do not run backwards. -/
theorem commit_moved {compact : Bool}
    (hforward : ∀ range ∈ request.rangesOf streamId, range.1 ≤ range.2)
    (hadvanced : Advanced compact streamId (request.rangesOf streamId) s s') {row' : StreamRow}
    (hrow' : s'.streams[streamId]? = some row') :
  ∃ row endOffset, s.streams[streamId]? = some row ∧ row' = { row with endOffset } ∧
    row.endOffset ≤ endOffset ∧ ∀ offset, row.endOffset ≤ offset → offset < endOffset →
      ∃ range ∈ request.rangesOf streamId, range.1 ≤ offset ∧ offset < range.2
  := by
  obtain ⟨-, hnone, hsome⟩ := hadvanced
  cases hrow : s.streams[streamId]? with
  | none =>
    rw [hnone hrow] at hrow'
    cases hrow'
  | some row =>
    obtain ⟨endOffset, hadvance, hrow₁⟩ := hsome row hrow
    cases hrow₁.symm.trans hrow'
    obtain ⟨hle, hbetween⟩ := advance_forward hforward hadvance
    exact ⟨row, endOffset, rfl, rfl, hle, hbetween⟩

/-- A commit of new ids covers what it moves the end offsets over, and what it compacts. -/
theorem rowsCovered_commit {nowMs dataTimeMs : Int64} (hs : ObjectsInv s) (hrows : RowsCovered s)
    (hforward : ∀ streamId, ∀ range ∈ request.rangesOf streamId, range.1 ≤ range.2)
    (hnodup : request.ids.Nodup) (hnew : ∀ id ∈ request.ids, ¬ (s.catalog.live id).isSome = true)
    (hcovers : ∀ id ∈ request.compactedObjectIds, ∀ row : StreamSetObjectRow,
      s.streamSetObjects[id]? = some row →
      ∀ (streamId : UInt64) (stream : StreamRow) (offset : UInt64),
        s.streams[streamId]? = some stream → stream.startOffset ≤ offset →
        row.object.Covers streamId offset →
        ∃ range ∈ request.rangesOf streamId, range.1 ≤ offset ∧ offset < range.2)
    (hadvanced : ∀ streamId, Advanced (!request.compactedObjectIds.isEmpty) streamId
      (request.rangesOf streamId) s s')
    (hcompacted : ∀ id ∈ request.compactedObjectIds, id ∈ s.streamSetObjects)
    (hbecomes : Becomes s s' ((s.catalog.retire request.compactedObjectIds).commit
      (request.entries nowMs dataTimeMs))) :
  RowsCovered s'
  := by
  have hentries : ((request.entries nowMs dataTimeMs).map Prod.fst).Nodup := by
    rw [request.entries_ids]
    exact hnodup
  have hof (k offset : UInt64) (h : ∃ range ∈ request.rangesOf k, range.1 ≤ offset ∧
      offset < range.2) : Covered s' k offset := by
    obtain ⟨range, hrange, hlo, hhi⟩ := h
    obtain ⟨e, he, hcov⟩ :=
      covers_of_mem_rangesOf nowMs dataTimeMs hrange hlo hhi
    refine (covered_iff hbecomes.inv).mpr ⟨e.1, e.2, ?_, hcov⟩
    rw [hbecomes.catalog]
    exact commit_live_of_mem hentries he
  intro k row' hrow'
  obtain ⟨row, endOffset, hrow, rfl, hle, hbetween⟩ := commit_moved (hforward k) (hadvanced k) hrow'
  obtain ⟨hle₀, hcovered⟩ := hrows k row hrow
  refine ⟨UInt64.le_trans hle₀ hle, ?_⟩
  intro offset hlo hhi
  by_cases hpast : offset < row.endOffset
  · obtain ⟨id, object, hlive, hcov⟩ := (covered_iff hs).mp (hcovered offset hlo hpast)
    by_cases hid : id ∈ request.compactedObjectIds
    · apply hof
      obtain ⟨set, hset⟩ := (mem_iff_lookup _ _).mp (hcompacted id hid)
      apply hcovers id hid set hset k row offset hrow hlo
      have hobject := (hs.live_iff id set.object).mpr (.inl ⟨set, hset, rfl⟩)
      cases hobject.symm.trans hlive
      exact hcov
    · refine (covered_iff hbecomes.inv).mpr ⟨id, object, ?_, hcov⟩
      have hnot : id ∉ (request.entries nowMs dataTimeMs).map Prod.fst := by
        rw [request.entries_ids]
        intro hmem
        exact hnew id hmem (by rw [hlive]; rfl)
      rw [hbecomes.catalog, commit_live_of_not_mem hnot]
      simpa [retire, remove, hid] using hlive
  · exact hof k offset (hbetween offset (UInt64.not_lt.mp hpast) hhi)

/-- A compaction whose object is new covers what it drops. -/
theorem rowsCovered_compact {request : CompactStreamObjectRequest} {nowMs : Int64}
    (hs : ObjectsInv s) (hrows : RowsCovered s) (hstreams : s'.streams = s.streams)
    (hsource : ∀ id ∈ request.ids, id ∉ request.sourceObjectIds)
    (hcovers : ∀ id ∈ request.sourceObjectIds, ∀ (key : StreamOffsetKey) (row : StreamObjectRow),
      s.streamObjectIds[id]? = some key → key.1 = request.streamId →
      s.streamObjects[key]? = some row →
      ∀ (stream : StreamRow) (offset : UInt64), s.streams[request.streamId]? = some stream →
        stream.startOffset ≤ offset → row.object.Covers request.streamId offset →
        request.objectId ≠ noopObjectId ∧ request.startOffset ≤ offset ∧
          offset < request.endOffset)
    (hfree : ∀ id ∈ request.ids, ¬ CommittedId s id)
    (hbecomes : Becomes s s' (((s.catalog.commit (request.entries nowMs)).remove
      (request.dropped s)).queue request.sourceObjectIds)) :
  RowsCovered s'
  := by
  have hlive_of (id : UInt64) (object : S3ObjectMetadata) (hnot : id ∉ request.dropped s)
      (h : (s.catalog.commit (request.entries nowMs)).live id = some object) :
      s'.catalog.live id = some object := by
    rw [hbecomes.catalog, queue_live, remove]
    simpa [hnot] using h
  intro k row hrow
  rw [hstreams] at hrow
  obtain ⟨hle, hcovered⟩ := hrows k row hrow
  refine ⟨hle, ?_⟩
  intro offset hlo hhi
  obtain ⟨id, object, hlive, hcov⟩ := (covered_iff hs).mp (hcovered offset hlo hhi)
  have hcommitted : CommittedId s id := (hs.live_isSome id).mp (Option.isSome_of_eq_some hlive)
  have hnot : id ∉ request.ids := fun hid => hfree id hid hcommitted
  by_cases hdropped : id ∈ request.dropped s
  · -- the object is a source of the same stream, so the new object covers the offset
    obtain ⟨hid, hofStream | hmem⟩ := mem_dropped.mp hdropped
    · obtain ⟨rfl, key, sourceRow, hkey, hkeystream, hsourceRow, rfl⟩ :=
        covers_ofStream hs hofStream hlive hcov
      obtain ⟨hnoop, hin⟩ :=
        hcovers id hid key sourceRow hkey hkeystream hsourceRow row offset hrow hlo hcov
      have hids : request.objectId ∈ request.ids := by
        rw [CompactStreamObjectRequest.ids, if_pos hnoop]
        exact mem_cons_self
      refine (covered_iff hbecomes.inv).mpr ⟨request.objectId, streamObjectOf request.streamId
        request.objectId request.startOffset request.endOffset request.objectSize
        request.attributes nowMs nowMs, ?_, ?_⟩
      · apply hlive_of
        · exact fun hmem => hsource _ hids (mem_dropped.mp hmem).1
        · rw [CompactStreamObjectRequest.entries, if_pos hnoop]
          exact commit_live_of_mem (by simp) mem_cons_self
      · exact ⟨_, mem_cons_self, rfl, hin⟩
    · exact absurd hmem hnot
  · refine (covered_iff hbecomes.inv).mpr ⟨id, object, hlive_of id object hdropped ?_, hcov⟩
    rw [commit_live_of_not_mem (by rw [request.entries_ids]; exact hnot)]
    exact hlive

/-! ### Runs -/

/-- Every object in use was registered on the way. -/
structure Ledger.Inv (l : Ledger) : Prop where
  objects : ObjectsInv l.state
  below : IdsBelow l.state
  used : ∀ id, (l.state.catalog.live id).isSome = true → id ∈ l.used

theorem Ledger.inv_new :
  Ledger.new.Inv
  where
  objects := objectsInv_new
  below := by
    intro id row hrow
    simp [Ledger.new, MetadataState.new] at hrow
  used := by
    intro id hid
    simp [Ledger.new, MetadataState.catalog, MetadataState.new, liveObject] at hid

/-- A step is a command that is refused, or one that is accepted. -/
theorem Ledger.step_cases (hobjects : ObjectsInv l.state) (hbelow : IdsBelow l.state)
    (h : l.step command = some l') :
  l' = l ∨ (Accepts l.state command ∧ ∃ s' result, CatalogStep l.state s' command result ∧
    RowsStep command l.state s' ∧
    l' = ⟨s', l.issued ++ command.issues result, l.used ++ command.outputs⟩)
  := by
  unfold Ledger.step at h
  split at h
  next s' value happly =>
    rcases apply_cases happly with ⟨value', hok, heq⟩ | ⟨-, e, he⟩
    · cases heq
      exact .inr ⟨⟨s', value, happly⟩, s', value, applyInner_catalogStep hobjects hok,
        applyInner_rowsStep hbelow hok, (Option.some.inj h).symm⟩
    · cases he
  next => exact .inl (Option.some.inj h).symm
  next => cases h

/-- Only objects that are registered come into use. -/
theorem CatalogStep.live_subset (h : CatalogStep s s' command result) (id : UInt64)
    (hid : (s'.catalog.live id).isSome = true) :
  (s.catalog.live id).isSome = true ∨ id ∈ command.outputs
  := by
  cases h with
  | committed dataTimeMs rows compacted becomes =>
    rw [becomes.catalog, commit_live_isSome, CommitStreamSetObjectRequest.entries_ids,
      retire, queue_live, remove_live_isSome] at hid
    rcases hid with ⟨hlive, -⟩ | hid
    · exact .inl hlive
    · exact .inr hid
  | compacted streams free row becomes =>
    rw [becomes.catalog, queue_live, remove_live_isSome,
      commit_live_isSome, CompactStreamObjectRequest.entries_ids] at hid
    exact hid.1
  | deleted ids streams ofStream becomes =>
    rw [becomes.catalog, retire, queue_live, remove_live_isSome] at hid
    exact .inl hid.1
  | prepared streams inv nextObjectId fresh catalog =>
    rw [catalog, prepare_live] at hid
    exact .inl hid
  | expired ids streams passed becomes =>
    rw [becomes.catalog, forget_live] at hid
    exact .inl hid
  | cleaned streams becomes =>
    rw [becomes.catalog, clean_live] at hid
    exact .inl hid
  | same noObjects quiet becomes =>
    rw [becomes.catalog] at hid
    exact .inl hid

theorem Ledger.Inv.step (hl : l.Inv) (h : l.step command = some l') :
  l'.Inv
  := by
  rcases Ledger.step_cases hl.objects hl.below h with rfl | ⟨-, s', result, hstep, hrows, rfl⟩
  · exact hl
  · refine ⟨hstep.inv, hrows.below, ?_⟩
    intro id hid
    rcases hstep.live_subset id hid with hlive | hout
    · exact mem_append_left _ (hl.used id hlive)
    · exact mem_append_right _ hout

/-- One accepted command keeps the committed ranges covered. -/
theorem rowsCovered_step (hl : l.Inv) (hrows : RowsCovered l.state) (hforward : command.Forward)
    (hfresh : l.Fresh command) (hapart : command.Apart) (hcovers : CoversRemoved l.state command)
    (hstep : CatalogStep l.state s' command result) :
  RowsCovered s'
  := by
  have hinv := hstep.inv
  cases hstep with
  | committed dataTimeMs rows compacted becomes =>
    apply rowsCovered_commit hl.objects hrows _ hfresh.1 _ hcovers rows compacted becomes
    · exact CommitStreamSetObjectRequest.forward_rangesOf hforward.1 hforward.2
    · intro id hid hlive
      exact hfresh.2 id hid (hl.used id hlive)
  | compacted streams free row becomes =>
    exact rowsCovered_compact hl.objects hrows streams hapart hcovers free becomes
  | deleted ids streams ofStream becomes =>
    exact rowsCovered_delete hl.objects hrows streams ofStream becomes
  | prepared streams inv nextObjectId fresh catalog =>
    apply rowsCovered_of_streams hl.objects inv hrows streams
    rw [catalog, prepare_live]
  | expired ids streams passed becomes =>
    apply rowsCovered_of_streams hl.objects hinv hrows streams
    rw [becomes.catalog, forget_live]
  | cleaned streams becomes =>
    apply rowsCovered_of_streams hl.objects hinv hrows streams
    rw [becomes.catalog, clean_live]
  | same noObjects quiet becomes => exact rowsCovered_quiet hl.objects hrows quiet becomes

theorem offsetsGrow_of_streams (hstreams : s'.streams = s.streams) :
  OffsetsGrow s s'
  := by
  intro k row row' hrow hrow'
  rw [hstreams] at hrow'
  cases hrow.symm.trans hrow'
  exact ⟨UInt64.le_refl _, UInt64.le_refl _⟩

/-- One accepted command whose ranges do not run backwards does not move offsets back. -/
theorem offsetsGrow_step (hbelow : IdsBelow s) (hforward : command.Forward)
    (hstep : CatalogStep s s' command result) :
  OffsetsGrow s s'
  := by
  cases hstep with
  | committed dataTimeMs rows compacted becomes =>
    intro k row row' hrow hrow'
    obtain ⟨row₀, endOffset, hrow₀, rfl, hle, -⟩ := commit_moved
      (CommitStreamSetObjectRequest.forward_rangesOf hforward.1 hforward.2 k) (rows k) hrow'
    cases hrow.symm.trans hrow₀
    exact ⟨UInt64.le_refl _, hle⟩
  | deleted ids streams ofStream becomes =>
    intro k row row' hrow hrow'
    rw [streams] at hrow'
    obtain ⟨-, hrow'⟩ := lookup_erase_iff.mp hrow'
    cases hrow.symm.trans hrow'
    exact ⟨UInt64.le_refl _, UInt64.le_refl _⟩
  | compacted streams free row becomes => exact offsetsGrow_of_streams streams
  | prepared streams inv nextObjectId fresh catalog => exact offsetsGrow_of_streams streams
  | expired ids streams passed becomes => exact offsetsGrow_of_streams streams
  | cleaned streams becomes => exact offsetsGrow_of_streams streams
  | same noObjects quiet becomes =>
    intro k row row' hrow hrow'
    rcases quiet.rows k row' hrow' with ⟨hnext, -⟩ | ⟨row₀, hrow₀, hend, hstart, -⟩
    · exact absurd (UInt64.lt_of_lt_of_le (hbelow k row hrow) hnext) (UInt64.lt_irrefl _)
    · cases hrow.symm.trans hrow₀
      exact ⟨hstart, hend ▸ UInt64.le_refl _⟩

/-- What has become of the offsets since an earlier state: streams of that state that still exist
have existed all the time, and their offsets have grown. -/
structure Grown (s t : MetadataState) : Prop where
  since : Since s t
  offsets : OffsetsGrow s t

theorem Grown.refl (hs : IdsBelow s) :
  Grown s s
  := ⟨Since.refl hs, offsetsGrow_of_streams rfl⟩

theorem Grown.step (hs : IdsBelow s) (h : Grown s l.state) (hl : l.Inv)
    (hforward : Accepts l.state command → command.Forward) (hstep : l.step command = some l') :
  Grown s l'.state
  := by
  rcases Ledger.step_cases hl.objects hl.below hstep with
    rfl | ⟨haccepts, s', result, hcatalog, hrows, rfl⟩
  · exact h
  · refine ⟨h.since.step hs hrows, ?_⟩
    intro k row row' hrow hrow'
    obtain ⟨mid, hmid⟩ := h.since.row_of_step hrows hrow hs hrow'
    obtain ⟨hstart, hend⟩ := h.offsets k row mid hrow hmid
    obtain ⟨hstart', hend'⟩ :=
      offsetsGrow_step hl.below (hforward haccepts) hcatalog k mid row' hmid hrow'
    exact ⟨UInt64.le_trans hstart hstart', UInt64.le_trans hend hend'⟩

/-- In every run whose accepted commands commit ranges that do not run backwards, use fresh ids,
and cover what they remove: the start of a stream is not after its end, every offset in between is
in a committed object, and neither offset ever decreases. -/
theorem committed_stays_covered {first rest : List MetadataCommand}
    (hfirst : Along Ledger.step Ledger.Careful first .new)
    (hl : first.foldlM Ledger.step .new = some l) (hrest : Along Ledger.step Ledger.Careful rest l)
    (hl' : rest.foldlM Ledger.step l = some l') :
  (∀ (streamId : UInt64) (row : StreamRow), l'.state.streams[streamId]? = some row →
      row.startOffset ≤ row.endOffset ∧
      ∀ offset, row.startOffset ≤ offset → offset < row.endOffset →
        Covered l'.state streamId offset) ∧
    ∀ (streamId : UInt64) (row row' : StreamRow), l.state.streams[streamId]? = some row →
      l'.state.streams[streamId]? = some row' →
      row.startOffset ≤ row'.startOffset ∧ row.endOffset ≤ row'.endOffset
  := by
  have hkeep (a : Ledger) (command : MetadataCommand) (b : Ledger) (hcareful : a.Careful command)
      (ha : a.Inv ∧ RowsCovered a.state) (hstep : a.step command = some b) :
      b.Inv ∧ RowsCovered b.state := by
    refine ⟨ha.1.step hstep, ?_⟩
    rcases Ledger.step_cases ha.1.objects ha.1.below hstep with
      rfl | ⟨haccepts, s', result, hcatalog, -, rfl⟩
    · exact ha.2
    · obtain ⟨hforward, hfresh, hapart, hcovers⟩ := hcareful haccepts
      exact rowsCovered_step ha.1 ha.2 hforward hfresh hapart hcovers hcatalog
  have hnew : RowsCovered Ledger.new.state := by
    intro id row hrow
    simp [Ledger.new, MetadataState.new] at hrow
  have hinv : l.Inv ∧ RowsCovered l.state :=
    Along.induction (I := fun a => a.Inv ∧ RowsCovered a.state) hkeep hfirst
      ⟨Ledger.inv_new, hnew⟩ hl
  have hboth : (l'.Inv ∧ RowsCovered l'.state) ∧ Grown l.state l'.state := by
    apply Along.induction (I := fun b => (b.Inv ∧ RowsCovered b.state) ∧ Grown l.state b.state) _
      hrest ⟨hinv, Grown.refl hinv.1.below⟩ hl'
    rintro a command b hcareful ⟨ha, hgrown⟩ hstep
    refine ⟨hkeep a command b hcareful ha hstep, ?_⟩
    exact hgrown.step hinv.1.below ha.1 (fun haccepts => (hcareful haccepts).1) hstep
  exact ⟨hboth.1.2, hboth.2.offsets⟩

/-- A stream with a stream-set object and a stream object. -/
def coveredRun : List MetadataCommand :=
  [.registerNode 1 1 "" 1, .createStream 1 1, .openStream 1 1 0 0, .prepareObject 1 1 3 100 0,
    .commitStreamSetObject 1 1 ⟨0, 8, 0, [⟨0, 0, 0, 5, 8⟩], [⟨1, 8, 0, 5, 9, 0⟩], []⟩ 0]

/-- A commit that replaces nothing, or a compaction into a range that has those of its sources. -/
def Encloses (s : MetadataState) : MetadataCommand → Prop
  | .commitStreamSetObject _ _ request _ => request.compactedObjectIds = []
  | .compactStreamObject _ _ request _ => request.objectId ≠ noopObjectId ∧
      ∀ id ∈ request.sourceObjectIds, ∀ row ∈ s.streamObjectIds[id]?.bind (s.streamObjects[·]?),
        ∀ range ∈ row.object.offsetRanges,
          request.startOffset ≤ range.startOffset ∧ range.endOffset ≤ request.endOffset
  | _ => True

instance decidableEncloses (s : MetadataState) : DecidablePred (Encloses s) :=
  fun command => by
    induction command using MetadataCommand.casesOn
    all_goals (dsimp only [Encloses]; infer_instance)

theorem Encloses.coversRemoved (h : Encloses s command) :
  CoversRemoved s command
  := by
  cases command with
  | commitStreamSetObject _ _ request _ =>
    intro id hid
    rw [h] at hid
    cases hid
  | compactStreamObject _ _ request _ =>
    rintro id hid key row hkey - hrow stream offset - - ⟨range, hrange, -, hlo, hhi⟩
    obtain ⟨hstart, hend⟩ :=
      h.2 id hid row (Option.bind_eq_some_iff.mpr ⟨key, hkey, hrow⟩) range hrange
    exact ⟨h.1, UInt64.le_trans hstart hlo, UInt64.lt_of_lt_of_le hhi hend⟩
  | _ => trivial

/-- The stream object is compacted, and the stream is trimmed within the stream-set object. -/
def recoveredRun : List MetadataCommand :=
  [.compactStreamObject 1 1 ⟨2, 8, 0, 0, 5, 9, [1], [], 0⟩ 0, .trimStream 1 1 0 0 3]

theorem committed_stays_covered_coveredRun :
  ∃ l l', coveredRun.foldlM Ledger.step .new = some l ∧
    recoveredRun.foldlM Ledger.step l = some l' ∧ 1 ∉ l'.state.streamObjectIds ∧
    ∃ row : StreamRow, l'.state.streams[(0 : UInt64)]? = some row ∧ row.startOffset = 3 ∧
      row.endOffset = 9 ∧ ∀ offset, row.startOffset ≤ offset → offset < row.endOffset →
        Covered l'.state 0 offset
  := by
  have hruns : Along Ledger.step (fun l command => command.Forward ∧ l.Fresh command ∧
      command.Apart ∧ Encloses l.state command) (coveredRun ++ recoveredRun) .new := by
    decide +kernel
  have hcareful : Along Ledger.step Ledger.Careful (coveredRun ++ recoveredRun) .new := by
    apply hruns.mono
    rintro l command ⟨hforward, hfresh, hapart, hencloses⟩ -
    exact ⟨hforward, hfresh, hapart, hencloses.coversRemoved⟩
  obtain ⟨l, hl, l', hl', hgone, row, hrow, hstart, hend⟩ : ∃ l,
      coveredRun.foldlM Ledger.step .new = some l ∧ ∃ l',
      recoveredRun.foldlM Ledger.step l = some l' ∧ 1 ∉ l'.state.streamObjectIds ∧ ∃ row,
      l'.state.streams[(0 : UInt64)]? = some row ∧ row.startOffset = 3 ∧ row.endOffset = 9 := by
    decide +kernel
  obtain ⟨hfirst, hrest⟩ := along_append.mp hcareful
  have hcovered := committed_stays_covered hfirst hl (hrest l hl) hl'
  exact ⟨l, l', hl, hl', hgone, row, hrow, hstart, hend, (hcovered.1 0 row hrow).2⟩

/-- The object of a compaction is inserted before its sources are removed. Named among them, with an
id that was handed out and is used for the first time, it is removed with those that it covers. -/
theorem uncovered_ownSource :
  ∃ l l', coveredRun.foldlM Ledger.step .new = some l ∧
    l.step (.compactStreamObject 1 1 ⟨2, 8, 0, 0, 5, 9, [1, 2], [], 0⟩ 0) = some l' ∧
    Along Ledger.step (fun l command => command.Forward ∧ l.Fresh command ∧
      (∀ id ∈ command.outputs, id ∈ l.issued) ∧ CoversRemoved l.state command)
      (coveredRun ++ [.compactStreamObject 1 1 ⟨2, 8, 0, 0, 5, 9, [1, 2], [], 0⟩ 0]) .new ∧
    ∃ row : StreamRow, l'.state.streams[(0 : UInt64)]? = some row ∧ row.startOffset ≤ 5 ∧
      5 < row.endOffset ∧ ¬ Covered l'.state 0 5
  := by
  obtain ⟨l, hl, l', hl', ⟨row, hrow, hstart, hend⟩, hset, hobjects⟩ : ∃ l,
      coveredRun.foldlM Ledger.step .new = some l ∧ ∃ l',
      l.step (.compactStreamObject 1 1 ⟨2, 8, 0, 0, 5, 9, [1, 2], [], 0⟩ 0) = some l' ∧
      (∃ row, l'.state.streams[(0 : UInt64)]? = some row ∧ row.startOffset ≤ 5 ∧
        5 < row.endOffset) ∧
      (∀ e ∈ l'.state.streamSetObjects.toList, ∀ range ∈ e.2.object.offsetRanges,
        range.endOffset ≤ 5) ∧ l'.state.streamObjects.toList = [] := by
    decide +kernel
  have hruns : Along Ledger.step (fun l command => command.Forward ∧ l.Fresh command ∧
      (∀ id ∈ command.outputs, id ∈ l.issued) ∧ Encloses l.state command)
      (coveredRun ++ [.compactStreamObject 1 1 ⟨2, 8, 0, 0, 5, 9, [1, 2], [], 0⟩ 0]) .new := by
    decide +kernel
  refine ⟨l, l', hl, hl', hruns.mono ?_, row, hrow, hstart, hend, ?_⟩
  · rintro l command ⟨hforward, hfresh, hissued, hencloses⟩
    exact ⟨hforward, hfresh, hissued, hencloses.coversRemoved⟩
  · rintro (⟨id, set, hset', range, hrange, -, -, hhi⟩ | ⟨key, object, hobject, -⟩)
    · have hle := hset _ (Std.ExtTreeMap.mem_toList_iff_getElem?_eq_some.mpr hset') range hrange
      exact UInt64.lt_irrefl _ (UInt64.lt_of_lt_of_le hhi hle)
    · have hmem := Std.ExtTreeMap.mem_toList_iff_getElem?_eq_some.mpr hobject
      rw [hobjects] at hmem
      cases hmem

end Metadata
