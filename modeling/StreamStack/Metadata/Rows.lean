import StreamStack.Metadata.Reachable

/-!
# What a command does to the row of a stream

The lifecycle of a stream is in its row: a command opens it at a newer epoch, closes it at its
epoch, hands a closed one to another node, moves its end offset, or leaves all of that alone.
Each command is inverted once here, so that what runs of commands keep can be read off the rows.
-/

namespace Metadata

open OrdMap Run

variable {s s' s'' : MetadataState} {result : MetadataResult}

/-! ### Commands that leave the rows alone -/

/-- The rows and the next stream id are the same. -/
structure SameStreams (s s' : MetadataState) : Prop where
  streams : s'.streams = s.streams
  nextStreamId : s'.nextStreamId = s.nextStreamId

theorem SameStreams.refl (s : MetadataState) :
  SameStreams s s
  := ⟨rfl, rfl⟩

/-- The nodes and the pending transfers are the same. -/
structure SameNodes (s s' : MetadataState) : Prop where
  pendingTransfers : s'.pendingTransfers = s.pendingTransfers
  nodes : s'.nodes = s.nodes

theorem SameNodes.trans (h : SameNodes s s') (h' : SameNodes s' s'') :
  SameNodes s s''
  := ⟨h'.pendingTransfers.trans h.pendingTransfers, h'.nodes.trans h.nodes⟩

/-- The nodes and the pending transfers are the same as well. -/
structure SameControl (s s' : MetadataState) : Prop extends SameStreams s s', SameNodes s s'

theorem SameControl.refl (s : MetadataState) :
  SameControl s s
  := ⟨⟨rfl, rfl⟩, rfl, rfl⟩

theorem SameControl.trans (h : SameControl s s') (h' : SameControl s' s'') :
  SameControl s s''
  := ⟨⟨h'.streams.trans h.streams, h'.nextStreamId.trans h.nextStreamId⟩,
    h.toSameNodes.trans h'.toSameNodes⟩

variable {γ : Type}

/-- Folds of steps that leave the rows alone leave the rows alone. -/
theorem SameControl.foldlM {f : MetadataState → γ → Except Fault MetadataState}
    (hf : ∀ t x t', f t x = .ok t' → SameControl t t') {l : List γ} (h : l.foldlM f s = .ok s') :
  SameControl s s'
  := by
  apply foldlM_ok_induction (I := SameControl s) _ (SameControl.refl s) h
  intro t x t' _ ht hstep
  apply ht.trans (hf t x t' hstep)

theorem SameControl.foldl {f : MetadataState → γ → MetadataState}
    (hf : ∀ t x, SameControl t (f t x)) (l : List γ) (s : MetadataState) :
  SameControl s (l.foldl f s)
  := by
  induction l generalizing s with
  | nil => apply SameControl.refl
  | cons x l ih => apply (hf s x).trans (ih (f s x))

theorem markDestroyed_sameControl {objectId : UInt64} {op : CompactOperations}
    (hok : markDestroyed s objectId op = .ok s') :
  SameControl s s'
  := by
  unfold markDestroyed at hok
  split at hok
  next =>
    obtain rfl := ok_of_return.mp hok
    exact ⟨⟨rfl, rfl⟩, rfl, rfl⟩
  next =>
    simp only [ok_of_do, ok_of_return] at hok
    obtain ⟨next, -, rfl⟩ := hok
    exact ⟨⟨rfl, rfl⟩, rfl, rfl⟩

theorem destroyStreamObject_sameControl {key : StreamOffsetKey}
    (hok : destroyStreamObject s key = .ok s') :
  SameControl s s'
  := by
  obtain ⟨⟨hstreams, hnext⟩, hpending, hnodes⟩ := markDestroyed_sameControl hok
  exact ⟨⟨hstreams, hnext⟩, hpending, hnodes⟩

theorem commitPrepared_sameControl (s : MetadataState) (objectId : UInt64) :
  SameControl s (commitPrepared s objectId)
  := by
  obtain ⟨prepared, byDeadline, heq⟩ := commitPrepared_eq s objectId
  rw [heq]
  exact ⟨⟨rfl, rfl⟩, rfl, rfl⟩

theorem removeStreamSetObject_sameControl (s : MetadataState) (objectId : UInt64) :
  SameControl s (removeStreamSetObject s objectId)
  := by
  unfold removeStreamSetObject
  split
  · exact ⟨⟨rfl, rfl⟩, rfl, rfl⟩
  · apply SameControl.refl

variable {id : UInt64}

theorem destroyCompacted_sameControl (hok : destroyCompacted s id = .ok s') :
  SameControl s s'
  := (removeStreamSetObject_sameControl s id).trans (markDestroyed_sameControl hok)

theorem removeSourceObject_sameControl (streamId : UInt64) (s : MetadataState) (sourceId : UInt64) :
  SameControl s (removeSourceObject streamId s sourceId)
  := by
  unfold removeSourceObject
  split
  · split
    · exact ⟨⟨rfl, rfl⟩, rfl, rfl⟩
    · apply SameControl.refl
  · apply SameControl.refl

theorem markDestroyObjects_sameControl {ids : List UInt64} {ops : List CompactOperations}
    (hok : markDestroyObjects s ids ops = .ok s') :
  SameControl s s'
  := by
  unfold markDestroyObjects at hok
  split at hok
  next =>
    obtain rfl := ok_of_return.mp hok
    apply SameControl.refl
  next =>
    split at hok
    next =>
      apply SameControl.foldlM _ hok
      intro t id t' hstep
      apply markDestroyed_sameControl hstep
    next =>
      simp only [ok_of_do] at hok
      obtain ⟨-, -, hok⟩ := hok
      apply SameControl.foldlM _ hok
      intro t e t' hstep
      apply markDestroyed_sameControl hstep

theorem cleanDestroyedObject_sameControl (s : MetadataState) (id : UInt64) :
  SameControl s (cleanDestroyedObject s id)
  := by
  unfold cleanDestroyedObject
  split
  · exact ⟨⟨rfl, rfl⟩, rfl, rfl⟩
  · apply SameControl.refl

variable {nodeId : Int32} {nodeEpoch nowMs : Int64}

theorem expirePreparedObjects_sameControl
    (hok : expirePreparedObjects s nowMs = .ok (s', result)) :
  SameControl s s'
  := by
  cases hok
  exact SameControl.foldl (f := dropPrepared) (fun _ _ => ⟨⟨rfl, rfl⟩, rfl, rfl⟩) _ _

/-- A compaction changes objects only. -/
theorem compactStreamObject_sameControl {request : CompactStreamObjectRequest}
    (hok : compactStreamObject s nodeId nodeEpoch request nowMs = .ok (s', result)) :
  SameControl s s'
  := by
  simp only [compactStreamObject, ok_of_do, ok_of_return, Prod.mk.injEq] at hok
  obtain ⟨-, -, -, -, -, -, -, -, -, -, -, -, -, -, s₂, hmark, rfl, -⟩ := hok
  apply SameControl.trans _ (markDestroyObjects_sameControl hmark)
  apply SameControl.trans _ (SameControl.foldl (removeSourceObject_sameControl _) _ _)
  have hprepared := commitPrepared_sameControl s request.objectId
  split
  · exact ⟨⟨hprepared.streams, hprepared.nextStreamId⟩, hprepared.pendingTransfers,
      hprepared.nodes⟩
  · exact hprepared

/-! ### Commits -/

/-- The end offset after a committed range: a range of new data must start at the end, a range of
compacted data does not move it. -/
def advance (compact : Bool) (endOffset : UInt64) (range : UInt64 × UInt64) : Option UInt64 :=
  if compact then some endOffset
  else if endOffset = range.1 then some range.2 else none

/-- The ranges of a stream in a commit, in the order in which they are applied. -/
def CommitStreamSetObjectRequest.rangesOf (request : CommitStreamSetObjectRequest)
    (streamId : UInt64) : List (UInt64 × UInt64) :=
  (if request.objectId ≠ noopObjectId then
    (request.streamRanges.filter fun r => r.streamId = streamId).map fun r =>
      (r.startOffset, r.endOffset)
  else []) ++
    (request.streamObjects.filter fun so => so.streamId = streamId).map fun so =>
      (so.startOffset, so.endOffset)

/-- The row of a stream moves along ranges, and nothing else of it changes. -/
def Advanced (compact : Bool) (streamId : UInt64) (ranges : List (UInt64 × UInt64))
    (s s' : MetadataState) : Prop :=
  s'.nextStreamId = s.nextStreamId ∧
    (s.streams[streamId]? = none → s'.streams[streamId]? = none) ∧
    ∀ row, s.streams[streamId]? = some row →
      ∃ endOffset, ranges.foldlM (advance compact) row.endOffset = some endOffset ∧
        s'.streams[streamId]? = some { row with endOffset }

variable {compact : Bool} {streamId : UInt64}

theorem SameStreams.advanced (h : SameStreams s s') :
  Advanced compact streamId [] s s'
  := by
  refine ⟨h.nextStreamId, ?_, ?_⟩
  · rw [h.streams]
    exact id
  · intro row hrow
    rw [h.streams]
    exact ⟨row.endOffset, rfl, hrow⟩

theorem Advanced.trans {ranges ranges' : List (UInt64 × UInt64)}
    (h : Advanced compact streamId ranges s s') (h' : Advanced compact streamId ranges' s' s'') :
  Advanced compact streamId (ranges ++ ranges') s s''
  := by
  obtain ⟨hnext, hnone, hsome⟩ := h
  obtain ⟨hnext', hnone', hsome'⟩ := h'
  refine ⟨hnext'.trans hnext, fun hrow => hnone' (hnone hrow), ?_⟩
  intro row hrow
  obtain ⟨e, he, hrow₁⟩ := hsome row hrow
  obtain ⟨e', he', hrow₂⟩ := hsome' _ hrow₁
  use e'
  constructor
  · rw [List.foldlM_append]
    apply Option.bind_eq_some_iff.mpr ⟨e, he, he'⟩
  · exact hrow₂

/-- The end of the stream moves by the range, those of others stay. -/
theorem advanceEndOffset_advanced {startOffset endOffset : UInt64}
    (hok : advanceEndOffset s id startOffset endOffset compact = .ok s') :
  Advanced compact streamId (if id = streamId then [(startOffset, endOffset)] else []) s s'
  := by
  simp only [advanceEndOffset, ok_of_do] at hok
  obtain ⟨row₀, hrow₀, hok⟩ := hok
  have hrow₀ := requireStream_ok hrow₀
  cases compact with
  | true =>
    simp only [if_true, ok_of_do, ok_of_return] at hok
    obtain ⟨-, -, -, -, rfl⟩ := hok
    refine ⟨rfl, fun hrow => hrow, ?_⟩
    intro row hrow
    use row.endOffset
    constructor
    · split
      · rfl
      · rfl
    · exact hrow
  | false =>
    simp only [Bool.false_eq_true, if_false, ok_of_do, reject_ok_iff, not_not, ok_of_return] at hok
    obtain ⟨-, hstart, rfl⟩ := hok
    by_cases hid : id = streamId
    · subst hid
      refine ⟨rfl, ?_, ?_⟩
      · intro hrow
        rw [hrow₀] at hrow
        cases hrow
      · intro row hrow
        cases hrow₀.symm.trans hrow
        use endOffset
        simp [advance, hstart]
    · refine ⟨rfl, ?_, ?_⟩
      · intro hrow
        simpa [lookup_insert, hid] using hrow
      · intro row hrow
        use row.endOffset
        simpa [lookup_insert, hid] using hrow

/-- A fold of steps that move the row of a stream along their ranges moves it along all of them. -/
theorem Advanced.foldlM {f : MetadataState → γ → Except Fault MetadataState}
    {rangeOf : γ → List (UInt64 × UInt64)}
    (hf : ∀ t x t', f t x = .ok t' → Advanced compact streamId (rangeOf x) t t') {l : List γ}
    (h : l.foldlM f s = .ok s') :
  Advanced compact streamId (l.flatMap rangeOf) s s'
  := by
  induction l generalizing s with
  | nil =>
    obtain rfl : s = s' := by simpa using h
    apply (SameStreams.refl s).advanced
  | cons x l ih =>
    rw [List.foldlM_cons, ok_of_do] at h
    obtain ⟨t, ht, h⟩ := h
    apply (hf s x t ht).trans (ih h)

theorem flatMap_ite_eq (p : γ → Prop) [DecidablePred p] (g : γ → UInt64 × UInt64) (l : List γ) :
  (l.flatMap fun x => if p x then [g x] else []) = (l.filter fun x => p x).map g
  := by
  induction l with
  | nil => rfl
  | cons x l ih => by_cases hx : p x <;> simp [hx, ih]

variable {request : CommitStreamSetObjectRequest} {dataTimeMs : Int64}

/-- The ranges of the stream that one object holds. -/
theorem commitSetObject_advanced
    (hok : commitSetObject s nodeId request nowMs dataTimeMs compact = .ok s') :
  Advanced compact streamId (if request.objectId ≠ noopObjectId then
    (request.streamRanges.filter fun r => r.streamId = streamId).map fun r =>
      (r.startOffset, r.endOffset)
    else []) s s'
  := by
  unfold commitSetObject at hok
  split at hok
  case isFalse h =>
      cases hok
      rw [if_neg h]
      apply (SameStreams.refl s).advanced
  case isTrue h =>
      simp only [ok_of_do, ok_of_return] at hok
      obtain ⟨-, -, s₂, hfold, rfl⟩ := hok
      rw [if_pos h, ← flatMap_ite_eq]
      apply (commitPrepared_sameControl s request.objectId).advanced.trans
      apply Advanced.foldlM _ hfold
      intro t range t' hstep
      apply advanceEndOffset_advanced hstep

theorem commitStreamObject_advanced {so : StreamObject}
    (hok : commitStreamObject nowMs dataTimeMs compact s so = .ok s') :
  Advanced compact streamId
    (if so.streamId = streamId then [(so.startOffset, so.endOffset)] else []) s s'
  := by
  simp only [commitStreamObject, ok_of_do, ok_of_return] at hok
  obtain ⟨-, -, s₂, hadvance, rfl⟩ := hok
  apply (commitPrepared_sameControl s so.objectId).advanced.trans
  apply advanceEndOffset_advanced hadvance

/-- A commit moves the row of every stream along the ranges it has for it. -/
theorem commitStreamSetObject_advanced (streamId : UInt64)
    (hok : commitStreamSetObject s nodeId nodeEpoch request nowMs = .ok (s', result)) :
  Advanced (!request.compactedObjectIds.isEmpty) streamId (request.rangesOf streamId) s s'
  := by
  simp only [commitStreamSetObject, ok_of_do, ok_of_return, Prod.mk.injEq] at hok
  obtain ⟨-, -, -, -, dataTimeMs, -, s₁, hcompact, s₂, hset, s₃, hobjects, rfl, -⟩ := hok
  have hsame : SameControl s s₁ := by
    apply SameControl.foldlM _ hcompact
    intro t id t' hstep
    apply destroyCompacted_sameControl hstep
  apply hsame.advanced.trans
  apply (commitSetObject_advanced hset).trans
  rw [← flatMap_ite_eq]
  apply Advanced.foldlM _ hobjects
  intro t so t' hstep
  apply commitStreamObject_advanced hstep

/-! ### One command, one row -/

/-- The ranges that a command commits for a stream. -/
def MetadataCommand.rangesOf (command : MetadataCommand) (streamId : UInt64) :
    List (UInt64 × UInt64) :=
  match command with
  | .commitStreamSetObject _ _ request _ => request.rangesOf streamId
  | _ => []

/-- What a command can do to the row of a stream. -/
inductive RowStep (streamId : UInt64) (command : MetadataCommand) :
    Option StreamRow → Option StreamRow → Prop where
  | absent : RowStep streamId command none none
  | created : RowStep streamId command none (some (createdRow streamId))
  | kept (row row' : StreamRow) (epoch : row'.epoch = row.epoch) (state : row'.state = row.state)
      (nodeId : row.state = .opened → row'.nodeId = row.nodeId)
      (endOffset : command.rangesOf streamId = [] → row'.endOffset = row.endOffset) :
      RowStep streamId command (some row) (some row')
  | opened (row : StreamRow) (nodeId : Int32) (nodeEpoch epoch : Int64)
      (isOpen : command = .openStream nodeId nodeEpoch streamId epoch)
      (closed : row.state = .closed) (newer : row.epoch < epoch) :
      RowStep streamId command (some row) (some { row with epoch, state := .opened, nodeId })
  | closed (row : StreamRow) (nodeId : Int32) (nodeEpoch : Int64)
      (isClose : command = .closeStream nodeId nodeEpoch streamId row.epoch)
      (opened : row.state = .opened) :
      RowStep streamId command (some row) (some { row with state := .closed })
  | deleted (row : StreamRow) (nodeId : Int32) (nodeEpoch : Int64)
      (isDelete : command = .deleteStream nodeId nodeEpoch streamId row.epoch)
      (closed : row.state = .closed) :
      RowStep streamId command (some row) none

/-- Every row has an id that was handed out. -/
def IdsBelow (s : MetadataState) : Prop :=
  ∀ (id : UInt64) (row : StreamRow), s.streams[id]? = some row → id < s.nextStreamId

/-- A command that moves rows as it may and keeps the ids below the next one. -/
structure RowsStep (command : MetadataCommand) (s s' : MetadataState) : Prop where
  row : ∀ id, RowStep id command s.streams[id]? s'.streams[id]?
  below : IdsBelow s'
  nextStreamId : s.nextStreamId ≤ s'.nextStreamId
  /-- Only ids that were not handed out before get a row. -/
  fresh : ∀ id, s.streams[id]? = none → s'.streams[id]? ≠ none → s.nextStreamId ≤ id

variable {command : MetadataCommand}

theorem RowStep.refl (streamId : UInt64) (command : MetadataCommand) (row : Option StreamRow) :
  RowStep streamId command row row
  := by
  cases row with
  | none => apply RowStep.absent
  | some row => apply RowStep.kept row row rfl rfl (fun _ => rfl) (fun _ => rfl)

theorem SameStreams.rowsStep (h : SameStreams s s') (hbelow : IdsBelow s) :
  RowsStep command s s'
  := by
  constructor
  · intro id
    rw [h.streams]
    apply RowStep.refl
  · intro id row hrow
    rw [h.streams] at hrow
    rw [h.nextStreamId]
    apply hbelow id row hrow
  · rw [h.nextStreamId]
    apply UInt64.le_refl
  · intro id hnone hsome
    rw [h.streams] at hsome
    contradiction

/-- A command that replaces one row. -/
theorem rowsStep_insert (hbelow : IdsBelow s) {row row' : StreamRow}
    (hrow : s.streams[id]? = some row) (hnext : s'.nextStreamId = s.nextStreamId)
    (hstreams : s'.streams = s.streams.insert id row')
    (hstep : RowStep id command (some row) (some row')) :
  RowsStep command s s'
  := by
  constructor
  · intro k
    rw [hstreams, lookup_insert]
    split
    next heq =>
      subst heq
      rw [hrow]
      exact hstep
    next => apply RowStep.refl
  · intro k r hr
    rw [hstreams, lookup_insert] at hr
    rw [hnext]
    split at hr
    next heq =>
      subst heq
      apply hbelow id row hrow
    next => apply hbelow k r hr
  · rw [hnext]
    apply UInt64.le_refl
  · intro k hnone hsome
    rw [hstreams, lookup_insert] at hsome
    split at hsome
    next heq =>
      subst heq
      rw [hrow] at hnone
      cases hnone
    next => contradiction

/-- A command that gives rows to new ids. -/
theorem rowsStep_create (hbelow : IdsBelow s) (ids : List UInt64)
    (hids : ∀ id ∈ ids, s.nextStreamId ≤ id ∧ id < s'.nextStreamId)
    (hnext : s.nextStreamId ≤ s'.nextStreamId)
    (hstreams : s'.streams = ids.foldl (fun m id => m.insert id (createdRow id)) s.streams) :
  RowsStep command s s'
  := by
  have hlookup (k : UInt64) :
      s'.streams[k]? = if k ∈ ids then some (createdRow k) else s.streams[k]? := by
    rw [hstreams]
    apply lookup_foldl_insert_keys
  have hnone (k : UInt64) (hk : k ∈ ids) : s.streams[k]? = none := by
    cases hrow : s.streams[k]? with
    | none => rfl
    | some row =>
      have hlt := hbelow k row hrow
      exact absurd (UInt64.lt_of_lt_of_le hlt (hids k hk).1) (UInt64.lt_irrefl _)
  constructor
  · intro k
    rw [hlookup]
    split
    next hk =>
      rw [hnone k hk]
      apply RowStep.created
    next => apply RowStep.refl
  · intro k row hrow
    rw [hlookup] at hrow
    split at hrow
    next hk => apply (hids k hk).2
    next => apply UInt64.lt_of_lt_of_le (hbelow k row hrow) hnext
  · exact hnext
  · intro k hk hsome
    rw [hlookup] at hsome
    split at hsome
    next hmem => apply (hids k hmem).1
    next => contradiction

/-- A command that removes one row. -/
theorem rowsStep_erase (hbelow : IdsBelow s) {row : StreamRow} (hrow : s.streams[id]? = some row)
    (hnext : s'.nextStreamId = s.nextStreamId) (hstreams : s'.streams = s.streams.erase id)
    (hstep : RowStep id command (some row) none) :
  RowsStep command s s'
  := by
  constructor
  · intro k
    rw [hstreams, lookup_erase]
    split
    next heq =>
      subst heq
      rw [hrow]
      exact hstep
    next => apply RowStep.refl
  · intro k r hr
    rw [hstreams, lookup_erase] at hr
    rw [hnext]
    split at hr
    next => cases hr
    next => apply hbelow k r hr
  · rw [hnext]
    apply UInt64.le_refl
  · intro k hnone hsome
    rw [hstreams, lookup_erase] at hsome
    split at hsome
    next => contradiction
    next => contradiction

/-! ### The handlers -/

/-- A commit moves the ends of rows and changes nothing else in them. -/
theorem commitStreamSetObject_rowsStep (hbelow : IdsBelow s)
    (hok : commitStreamSetObject s nodeId nodeEpoch request nowMs = .ok (s', result)) :
  RowsStep (.commitStreamSetObject nodeId nodeEpoch request nowMs) s s'
  := by
  have hnext := (commitStreamSetObject_advanced 0 hok).1
  have hnone (id : UInt64) (h : s.streams[id]? = none) : s'.streams[id]? = none :=
    (commitStreamSetObject_advanced id hok).2.1 h
  constructor
  · intro id
    cases hrow : s.streams[id]? with
    | none =>
      rw [hnone id hrow]
      apply RowStep.absent
    | some row =>
      obtain ⟨e, he, hrow'⟩ := (commitStreamSetObject_advanced id hok).2.2 row hrow
      rw [hrow']
      refine RowStep.kept _ _ rfl rfl (fun _ => rfl) ?_
      intro hranges
      simp only [MetadataCommand.rangesOf] at hranges
      rw [hranges] at he
      exact (Option.some.inj he).symm
  · intro id row hrow
    rw [hnext]
    cases hold : s.streams[id]? with
    | none =>
      rw [hnone id hold] at hrow
      cases hrow
    | some row₀ => apply hbelow id row₀ hold
  · rw [hnext]
    apply UInt64.le_refl
  · intro id hold hsome
    exact absurd (hnone id hold) hsome

/-- Every command moves rows only as it may. -/
theorem applyInner_rowsStep (hbelow : IdsBelow s) (hok : applyInner s command = .ok (s', result)) :
  RowsStep command s s'
  := by
  cases applyInner_handled hok with
  | replaced | reopened | reclosed | absent | putAgain | retransferred =>
    apply (SameStreams.refl s).rowsStep hbelow
  | registered | prepared | put | putNew | removed | transferred =>
    exact SameStreams.rowsStep ⟨rfl, rfl⟩ hbelow
  | created nextStreamId next =>
    apply rowsStep_create hbelow [s.nextStreamId] _ (le_of_checkedAdd next) rfl
    intro id hid
    obtain rfl := List.mem_singleton.mp hid
    exact ⟨UInt64.le_refl _, lt_of_checkedAdd_one next⟩
  | createdAll nextStreamId next =>
    exact rowsStep_create hbelow _ (fun _ => mem_idRange next) (le_of_checkedAdd next) rfl
  | placed row winner score stored unplaced closed =>
    refine rowsStep_insert hbelow stored rfl rfl (RowStep.kept _ _ rfl rfl ?_ (fun _ => rfl))
    intro hopen
    cases closed.symm.trans hopen
  | opened row stored closed newer =>
    exact rowsStep_insert hbelow stored rfl rfl (RowStep.opened row _ _ _ rfl closed newer)
  | trimmed row stored =>
    exact rowsStep_insert hbelow stored rfl rfl
      (RowStep.kept _ _ rfl rfl (fun _ => rfl) (fun _ => rfl))
  | closed row stored opened =>
    exact rowsStep_insert hbelow stored rfl rfl (RowStep.closed row _ _ rfl opened)
  | deleted row stored closed destroyed =>
    have hsame := SameControl.foldlM (fun _ _ _ => destroyStreamObject_sameControl) destroyed
    apply rowsStep_erase hbelow stored hsame.nextStreamId hsame.streams
    exact RowStep.deleted row _ _ rfl closed
  | committed ok => apply commitStreamSetObject_rowsStep hbelow ok
  | compacted ok => apply (compactStreamObject_sameControl ok).rowsStep hbelow
  | expired ok => apply (expirePreparedObjects_sameControl ok).rowsStep hbelow
  | cleaned => apply (SameControl.foldl cleanDestroyedObject_sameControl _ _).rowsStep hbelow
  | completed row pending recorded stored closed =>
    refine rowsStep_insert hbelow stored rfl rfl (RowStep.kept _ _ rfl rfl ?_ (fun _ => rfl))
    intro hopen
    cases closed.symm.trans hopen

end Metadata
