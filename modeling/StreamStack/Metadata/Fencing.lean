import StreamStack.Metadata.Rows

/-!
# Epochs fence

Over any sequence of commands from the empty state the epoch of a stream only grows, an epoch
belongs to one node, an id is given to one stream only, and a command that carries an epoch older
than one the stream was opened at changes nothing.
-/

namespace Metadata

open OrdMap Run MetadataCommand

variable {s s' s'' : MetadataState} {command : MetadataCommand}

/-! ### Since a state -/

variable {result : Except MetadataError MetadataResult}

/-- A command that is applied succeeds or leaves the state as it was. -/
theorem apply_cases (h : apply s command = some (s', result)) :
  (∃ value, applyInner s command = .ok (s', value) ∧ result = .ok value) ∨
    (s' = s ∧ ∃ e, result = .error e)
  := by
  unfold apply at h
  split at h
  next t value hinner =>
    cases h
    exact .inl ⟨value, hinner, rfl⟩
  next e _ =>
    cases h
    exact .inr ⟨rfl, e, rfl⟩
  next => cases h

/-- What has become of the rows of an earlier state. -/
structure Since (s t : MetadataState) : Prop where
  nextStreamId : s.nextStreamId ≤ t.nextStreamId
  below : IdsBelow t
  epoch : ∀ (id : UInt64) (row row' : StreamRow), s.streams[id]? = some row →
    t.streams[id]? = some row' → row.epoch ≤ row'.epoch
  /-- An epoch that was open on a node is not open on another. -/
  nodeId : ∀ (id : UInt64) (row row' : StreamRow), s.streams[id]? = some row →
    t.streams[id]? = some row' → row.state = .opened → row'.state = .opened →
    row.epoch = row'.epoch → row.nodeId = row'.nodeId

theorem Since.refl (hbelow : IdsBelow s) :
  Since s s
  := by
  constructor
  · apply UInt64.le_refl
  · exact hbelow
  · intro id row row' hrow hrow'
    cases hrow.symm.trans hrow'
    apply Int64.le_refl
  · intro id row row' hrow hrow' _ _ _
    cases hrow.symm.trans hrow'
    rfl

variable {t t' : MetadataState} {id : UInt64}

/-- A row of the earlier state that has a row after a step had one before the step. -/
theorem Since.row_of_step (h : Since s t) (hstep : RowsStep command t t') {row row' : StreamRow}
    (hrow : s.streams[id]? = some row) (hs : IdsBelow s) (hrow' : t'.streams[id]? = some row') :
  ∃ row₁, t.streams[id]? = some row₁
  := by
  cases hmid : t.streams[id]? with
  | some row₁ => exact ⟨row₁, rfl⟩
  | none =>
    have hfresh := hstep.fresh id hmid (by simp [hrow'])
    have hlt := UInt64.lt_of_lt_of_le (hs id row hrow) h.nextStreamId
    exact absurd (UInt64.lt_of_lt_of_le hlt hfresh) (UInt64.lt_irrefl _)

/-- A step keeps what was passed. -/
theorem Since.step (h : Since s t) (hs : IdsBelow s) (hstep : RowsStep command t t') :
  Since s t'
  := by
  have hmoved (id : UInt64) (row row' : StreamRow) (hrow : s.streams[id]? = some row)
      (hrow' : t'.streams[id]? = some row') :
      row.epoch ≤ row'.epoch ∧ (row.state = .opened → row'.state = .opened →
        row.epoch = row'.epoch → row.nodeId = row'.nodeId) := by
    obtain ⟨row₁, hrow₁⟩ := h.row_of_step hstep hrow hs hrow'
    have hle := h.epoch id row row₁ hrow hrow₁
    have hnode := h.nodeId id row row₁ hrow hrow₁
    have hmove := hstep.row id
    rw [hrow₁, hrow'] at hmove
    cases hmove with
    | kept _ _ epoch state nodeId _ =>
      rw [epoch, state]
      refine ⟨hle, ?_⟩
      intro hopen hopen₁ heq
      rw [nodeId hopen₁]
      apply hnode hopen hopen₁ heq
    | opened _ nodeId nodeEpoch epoch _ _ newer =>
      refine ⟨Int64.le_trans hle (Int64.le_of_lt newer), ?_⟩
      intro _ _ heq
      -- the epoch is newer than any before
      have hlt := Int64.lt_of_le_of_lt hle newer
      rw [heq] at hlt
      exact absurd hlt Int64.lt_irrefl
    | closed _ nodeId nodeEpoch _ _ =>
      refine ⟨hle, ?_⟩
      intro _ hopen _
      cases hopen
  constructor
  · apply UInt64.le_trans h.nextStreamId hstep.nextStreamId
  · exact hstep.below
  · intro id row row' hrow hrow'
    apply (hmoved id row row' hrow hrow').1
  · intro id row row' hrow hrow'
    apply (hmoved id row row' hrow hrow').2

theorem Since.apply (h : Since s t) (hs : IdsBelow s)
    (happly : apply t command = some (t', result)) :
  Since s t'
  := by
  rcases apply_cases happly with ⟨value, hok, -⟩ | ⟨rfl, -⟩
  · apply h.step hs (applyInner_rowsStep h.below hok)
  · exact h

variable {commands : List MetadataCommand}

/-- Epochs only go forward, along every run. -/
theorem since_of_applyAll (hs : IdsBelow s) (h : applyAll s commands = some s') :
  Since s s'
  := by
  apply foldlM_some_induction (I := Since s) _ (Since.refl hs) h
  intro t c t' _ ht hstep
  obtain ⟨⟨t₁, result⟩, happly, rfl⟩ := Option.map_eq_some_iff.mp hstep
  apply ht.apply hs happly

theorem idsBelow_new :
  IdsBelow .new
  := by
  intro id row hrow
  simp [MetadataState.new] at hrow

theorem idsBelow_of_applyAll (h : applyAll .new commands = some s) :
  IdsBelow s
  := by
  apply (since_of_applyAll idsBelow_new h).below

/-- A row that is gone stays gone. -/
theorem gone_of_applyAll (hbelow : IdsBelow s) (hid : id < s.nextStreamId)
    (hnone : s.streams[id]? = none) (h : applyAll s commands = some s') :
  s'.streams[id]? = none
  := by
  have hinv : Since s s' ∧ s'.streams[id]? = none := by
    apply foldlM_some_induction (I := fun t => Since s t ∧ t.streams[id]? = none) _
      ⟨Since.refl hbelow, hnone⟩ h
    rintro t c t' - ⟨hsince, ht⟩ hstep
    obtain ⟨⟨t₁, result⟩, happly, rfl⟩ := Option.map_eq_some_iff.mp hstep
    refine ⟨hsince.apply hbelow happly, ?_⟩
    rcases apply_cases happly with ⟨value, hok, -⟩ | ⟨rfl, -⟩
    · have hrows := applyInner_rowsStep hsince.below hok
      by_contra hsome
      have hfresh := hrows.fresh id ht hsome
      have hlt := UInt64.lt_of_lt_of_le hid hsince.nextStreamId
      exact absurd (UInt64.lt_of_lt_of_le hlt hfresh) (UInt64.lt_irrefl _)
    · exact ht
  exact hinv.2

/-! ### Ids -/

/-- The ids that a successful create hands out, when its result is `first`. -/
def MetadataCommand.createdIds (command : MetadataCommand) (first : UInt64) : List UInt64 :=
  match command with
  | .createStream _ _ => [first]
  | .createStreams _ _ count => idRange first count
  | _ => []

/-- A create hands out ids from the next one on. -/
theorem le_of_mem_createdIds {first : UInt64}
    (happly : apply s command = some (s', .ok (.id first))) (hid : id ∈ command.createdIds first) :
  s.nextStreamId ≤ id
  := by
  rcases apply_cases happly with ⟨value, hok, heq⟩ | ⟨-, e, he⟩
  · cases heq
    cases command with
    | createStream =>
      simp only [applyInner, createStream, ok_of_do, ok_of_return, Prod.mk.injEq] at hok
      obtain ⟨-, -, next, hnext, -, hfirst⟩ := hok
      obtain rfl := MetadataResult.id.inj hfirst
      rw [createdIds, List.mem_singleton] at hid
      rw [hid]
      apply UInt64.le_refl
    | createStreams =>
      simp only [applyInner, createStreams, ok_of_do, ok_of_return, Prod.mk.injEq] at hok
      obtain ⟨-, -, -, -, -, -, next, hnext, -, hfirst⟩ := hok
      obtain rfl := MetadataResult.id.inj hfirst
      apply (mem_idRange hnext hid).1
    | _ => simp [createdIds] at hid
  · cases he

/-! ### Stale commands -/

/-- The epoch that a command carries for a stream, if it is one of those that epochs fence. -/
def MetadataCommand.epochFor (command : MetadataCommand) (streamId : UInt64) : Option Int64 :=
  match command with
  | .openStream _ _ id epoch => if id = streamId then some epoch else none
  | .trimStream _ _ id epoch _ => if id = streamId then some epoch else none
  | .closeStream _ _ id epoch => if id = streamId then some epoch else none
  | .deleteStream _ _ id epoch => if id = streamId then some epoch else none
  | .compactStreamObject _ _ request _ =>
    if request.streamId = streamId then some request.streamEpoch.toInt64 else none
  | _ => none

/-- A handler that is refused before it changes anything. -/
def Refused {α : Type} (x : Except Fault α) : Prop := ∃ e, x = .error (.error e)

theorem not_refused_ok {α : Type} (a : α) :
  ¬ Refused (.ok a)
  := by
  rintro ⟨e, he⟩
  cases he

theorem Refused.bind {α β : Type} {x : Except Fault α} (h : Refused x) (f : α → Except Fault β) :
  Refused (x >>= f)
  := by
  obtain ⟨e, rfl⟩ := h
  exact ⟨e, rfl⟩

/-- A check that passes or is refused, before a handler that is refused. -/
theorem refused_bind {α β : Type} {x : Except Fault α} {f : α → Except Fault β}
    (hx : Refused x ∨ ∃ a, x = .ok a) (hf : ∀ a, x = .ok a → Refused (f a)) :
  Refused (x >>= f)
  := by
  rcases hx with hx | ⟨a, ha⟩
  · apply hx.bind
  · rw [ha]
    apply hf a ha

theorem reject_cases (c : Prop) [Decidable c] (e : MetadataError) :
  Refused (reject c e) ∨ ∃ u, reject c e = .ok u
  := by
  unfold reject
  split
  · exact .inl ⟨e, rfl⟩
  · exact .inr ⟨(), rfl⟩

theorem refused_reject {c : Prop} [Decidable c] (e : MetadataError) (hc : c) :
  Refused (reject c e)
  := ⟨e, by rw [reject, if_pos hc]⟩

theorem nodeEpochCheck_cases (s : MetadataState) (nodeId : Int32) (nodeEpoch : Int64) :
  Refused (nodeEpochCheck s nodeId nodeEpoch) ∨ ∃ u, nodeEpochCheck s nodeId nodeEpoch = .ok u
  := by
  unfold nodeEpochCheck
  split
  · exact .inl ⟨_, rfl⟩
  · apply reject_cases

theorem requireStream_cases (s : MetadataState) (streamId : UInt64) :
  Refused (requireStream s streamId) ∨ ∃ row, requireStream s streamId = .ok row
  := by
  unfold requireStream
  split
  next row _ => exact .inr ⟨row, rfl⟩
  next => exact .inl ⟨_, rfl⟩

/-- A refused command leaves the state as it was. -/
theorem apply_of_refused (h : Refused (applyInner s command)) :
  ∃ result, apply s command = some (s, result)
  := by
  obtain ⟨e, he⟩ := h
  use .error e
  rw [apply, he]

/-- The row of a stream, if there is one, has passed an epoch. -/
def Passed (s : MetadataState) (streamId : UInt64) (epoch : Int64) : Prop :=
  ∀ row, s.streams[streamId]? = some row → epoch < row.epoch

section Stale

variable {streamId : UInt64} {epoch : Int64} (hpassed : Passed s streamId epoch)

include hpassed

/-- An epoch that has passed is not that of the row. -/
theorem Passed.ne {row : StreamRow} (hrow : requireStream s streamId = .ok row) :
  row.epoch ≠ epoch
  := by
  rintro rfl
  exact absurd (hpassed row (requireStream_ok hrow)) Int64.lt_irrefl

theorem openStream_refused (nodeId : Int32) (nodeEpoch : Int64) :
  Refused (openStream s nodeId nodeEpoch streamId epoch)
  := by
  apply refused_bind (nodeEpochCheck_cases s nodeId nodeEpoch)
  intro _ _
  apply refused_bind (requireStream_cases s streamId)
  intro row hrow
  apply Refused.bind
  apply refused_reject _ (hpassed row (requireStream_ok hrow))

/-- An epoch that has passed is refused wherever an opened stream is required. -/
theorem requireOpenedStream_refused :
  Refused (requireOpenedStream s streamId epoch)
  := by
  apply refused_bind (requireStream_cases s streamId)
  intro row hrow
  apply refused_bind (reject_cases _ _)
  intro _ _
  apply Refused.bind
  apply refused_reject _ (hpassed.ne hrow)

section

variable (nodeId : Int32) (nodeEpoch : Int64)

include nodeId nodeEpoch

theorem trimStream_refused (newStartOffset : UInt64) :
  Refused (trimStream s nodeId nodeEpoch streamId epoch newStartOffset)
  := by
  apply refused_bind (nodeEpochCheck_cases s nodeId nodeEpoch)
  intro _ _
  apply Refused.bind
  apply requireOpenedStream_refused hpassed

theorem closeStream_refused :
  Refused (closeStream s nodeId nodeEpoch streamId epoch)
  := by
  apply refused_bind (nodeEpochCheck_cases s nodeId nodeEpoch)
  intro _ _
  apply refused_bind (requireStream_cases s streamId)
  intro row hrow
  have hne := hpassed.ne hrow
  rw [if_neg (fun h => hne h.2)]
  apply refused_bind (reject_cases _ _)
  intro _ _
  apply Refused.bind
  apply refused_reject _ hne

/-- Deleting a stream that is not there succeeds, and changes nothing either. -/
theorem deleteStream_stale :
  Refused (deleteStream s nodeId nodeEpoch streamId epoch) ∨
    deleteStream s nodeId nodeEpoch streamId epoch = .ok (s, .unit)
  := by
  unfold deleteStream
  rcases nodeEpochCheck_cases s nodeId nodeEpoch with hcheck | ⟨_, hcheck⟩
  · left
    apply hcheck.bind
  · rw [hcheck]
    cases hrow : s.streams[streamId]? with
    | none => exact .inr rfl
    | some row =>
      left
      apply refused_bind (reject_cases _ _)
      intro _ _
      apply Refused.bind
      apply refused_reject
      rintro rfl
      exact absurd (hpassed row hrow) Int64.lt_irrefl

theorem compactStreamObject_refused {request : CompactStreamObjectRequest} (nowMs : Int64)
    (hid : request.streamId = streamId) (hepoch : request.streamEpoch.toInt64 = epoch) :
  Refused (compactStreamObject s nodeId nodeEpoch request nowMs)
  := by
  subst hid hepoch
  apply refused_bind (nodeEpochCheck_cases s nodeId nodeEpoch)
  intro _ _
  apply refused_bind (reject_cases _ _)
  intro _ _
  apply refused_bind (requireStream_cases s request.streamId)
  intro row hrow
  apply Refused.bind
  apply refused_reject _ (hpassed.ne hrow)

end

/-- A command with an epoch that the stream has passed leaves the whole state unchanged. -/
theorem apply_stale (hepoch : command.epochFor streamId = some epoch) :
  ∃ result, apply s command = some (s, result)
  := by
  cases command with
  | openStream nodeId nodeEpoch id e =>
    obtain ⟨rfl, rfl⟩ : id = streamId ∧ e = epoch := by
      simpa [epochFor] using hepoch
    apply apply_of_refused
    apply openStream_refused hpassed
  | trimStream nodeId nodeEpoch id e offset =>
    obtain ⟨rfl, rfl⟩ : id = streamId ∧ e = epoch := by
      simpa [epochFor] using hepoch
    apply apply_of_refused
    apply trimStream_refused hpassed
  | closeStream nodeId nodeEpoch id e =>
    obtain ⟨rfl, rfl⟩ : id = streamId ∧ e = epoch := by
      simpa [epochFor] using hepoch
    apply apply_of_refused
    apply closeStream_refused hpassed
  | deleteStream nodeId nodeEpoch id e =>
    obtain ⟨rfl, rfl⟩ : id = streamId ∧ e = epoch := by
      simpa [epochFor] using hepoch
    rcases deleteStream_stale hpassed nodeId nodeEpoch with hrefused | hok
    · apply apply_of_refused
      exact hrefused
    · use .ok .unit
      rw [apply, applyInner, hok]
  | compactStreamObject nodeId nodeEpoch request nowMs =>
    obtain ⟨hid, he⟩ : request.streamId = streamId ∧ request.streamEpoch.toInt64 = epoch := by
      simpa [epochFor] using hepoch
    apply apply_of_refused
    apply compactStreamObject_refused hpassed nodeId nodeEpoch nowMs hid he
  | _ => simp [epochFor] at hepoch

end Stale

/-- After a stream was opened at an epoch, its row never has an older one. -/
theorem passed_of_opened {nodeId : Int32} {nodeEpoch epoch older : Int64} {streamId : UInt64}
    {value : MetadataResult} (hbelow : IdsBelow s)
    (hopen : apply s (.openStream nodeId nodeEpoch streamId epoch) = some (s', .ok value))
    (hrest : applyAll s' commands = some s'') (hlt : older < epoch) :
  Passed s'' streamId older
  := by
  rcases apply_cases hopen with ⟨value, hok, -⟩ | ⟨-, e, he⟩
  · have hbelow' := (applyInner_rowsStep hbelow hok).below
    have hrow : ∃ row, s'.streams[streamId]? = some row ∧ row.epoch = epoch := by
      cases applyInner_handled hok with
      | reopened row stored => exact ⟨row, stored, rfl⟩
      | opened row =>
        rw [lookup_insert, if_pos rfl]
        exact ⟨_, rfl, rfl⟩
    obtain ⟨row, hrow, rfl⟩ := hrow
    intro row' hrow'
    apply Int64.lt_of_lt_of_le hlt
    apply (since_of_applyAll hbelow' hrest).epoch streamId row row' hrow hrow'
  · cases he

/-- In every sequence of commands from the empty state: epochs do not decrease, an epoch is open
on one node only, an id that had a row is not handed out again and does not come back once its
stream is gone, and what carries an epoch older than one the stream was opened at changes
nothing. -/
theorem epochs_fence {first rest : List MetadataCommand} (hs : applyAll .new first = some s)
    (hs' : applyAll s rest = some s') :
  (∀ (id : UInt64) (row row' : StreamRow), s.streams[id]? = some row →
      s'.streams[id]? = some row' →
      row.epoch ≤ row'.epoch ∧ (row.state = .opened → row'.state = .opened →
        row.epoch = row'.epoch → row.nodeId = row'.nodeId)) ∧
    (∀ (id : UInt64) (row : StreamRow), s.streams[id]? = some row →
      (∀ command t start, apply s' command = some (t, .ok (.id start)) →
        id ∉ command.createdIds start) ∧
      (s'.streams[id]? = none → ∀ more t, applyAll s' more = some t → t.streams[id]? = none)) ∧
    (∀ nodeId nodeEpoch id epoch value t,
      apply s (.openStream nodeId nodeEpoch id epoch) = some (t, .ok value) →
      ∀ more t', applyAll t more = some t' →
        ∀ command older, command.epochFor id = some older → older < epoch →
          ∃ result, apply t' command = some (t', result))
  := by
  have hbelow := idsBelow_of_applyAll hs
  have hsince := since_of_applyAll hbelow hs'
  refine ⟨?_, ?_, ?_⟩
  · intro id row row' hrow hrow'
    exact ⟨hsince.epoch id row row' hrow hrow', hsince.nodeId id row row' hrow hrow'⟩
  · intro id row hrow
    have hlt := UInt64.lt_of_lt_of_le (hbelow id row hrow) hsince.nextStreamId
    constructor
    · intro command t start happly hid
      have hle := le_of_mem_createdIds happly hid
      exact absurd (UInt64.lt_of_lt_of_le hlt hle) (UInt64.lt_irrefl _)
    · intro hnone more t hmore
      apply gone_of_applyAll hsince.below hlt hnone hmore
  · intro nodeId nodeEpoch id epoch value t hopen more t' hmore command older hepoch hlt
    apply apply_stale (passed_of_opened hbelow hopen hmore hlt) hepoch

/-- A stream opened at epoch 1 and closed, then opened at epoch 2 on another node. -/
def reopenedRun : List MetadataCommand × List MetadataCommand :=
  ([.registerNode 1 1 "" 1, .registerNode 2 1 "" 1, .createStream 1 1, .openStream 1 1 0 1],
    [.closeStream 1 1 0 1, .openStream 2 1 0 2])

theorem epochs_fence_reopenedRun :
  ∃ s s', applyAll .new reopenedRun.1 = some s ∧ applyAll s reopenedRun.2 = some s' ∧
    ∃ row row' : StreamRow, s.streams[(0 : UInt64)]? = some row ∧
      s'.streams[(0 : UInt64)]? = some row' ∧ row.epoch = 1 ∧ row'.epoch = 2 ∧
      row.epoch ≤ row'.epoch
  := by
  obtain ⟨s, hs, s', hs', row, hrow, hepoch, row', hrow', hepoch'⟩ : ∃ s,
      applyAll .new reopenedRun.1 = some s ∧ ∃ s', applyAll s reopenedRun.2 = some s' ∧
      ∃ row, s.streams[(0 : UInt64)]? = some row ∧ row.epoch = 1 ∧
      ∃ row', s'.streams[(0 : UInt64)]? = some row' ∧ row'.epoch = 2 := by
    decide +kernel
  refine ⟨s, s', hs, hs', row, row', hrow, hrow', hepoch, hepoch', ?_⟩
  exact ((epochs_fence hs hs').1 0 row row' hrow hrow').1

end Metadata
