import StreamStack.Lib.Owned
import StreamStack.Service.Views

/-!
# What one action of the service can do

The effects of the atomic actions, one constructor for each kind. Every action of every request on a
node has one of these effects, so that what all of them keep holds in every run.
-/

namespace Service

open Tasks Discipline List

/-- The effects of opening a handle on node `n`. -/
inductive OpenEffect (n : ℕ) : World → World → Prop where
  /-- Something was looked at. -/
  | look (w : World) : OpenEffect n w w
  | handles (w : World) (openStreams : List UInt64) :
      OpenEffect n w (w.setNode n fun node => { node with openStreams })
  | openLock (w : World) (openLock : Option ℕ) :
      OpenEffect n w (w.setNode n fun node => { node with openLock })
  | reopen (w : World) (id : UInt64) (s : EngineStream) (stored : w.streams id = some s)
      (closed : s.row = .closed) : OpenEffect n w (w.setStream id (some s.reopen))

/-- The effects that leave the registry and the rows of streams as they are, or open a row. -/
inductive Mild (n : ℕ) : World → World → Prop where
  | opening {w w' : World} (h : OpenEffect n w w') : Mild n w w'
  | submit (w : World) (id : UInt64) (s : EngineStream) (batch : RecordBatch)
      (messages : List Bytes) (stored : w.streams id = some s) (operable : s.operable) :
      Mild n w (w.setStream id (some (s.submit batch messages)))
  | closeHandle (w : World) (id : UInt64) (s : EngineStream) (stored : w.streams id = some s) :
      Mild n w (w.setStream id (some { s with operable := false }))
  | moveStart (w : World) (id : UInt64) (s : EngineStream) (startOffset : ℕ)
      (stored : w.streams id = some s) : Mild n w (w.setStream id (some { s with startOffset }))
  | resetTail (w : World) : Mild n w (w.setNode n fun node => { node with tail := .empty })
  | applied (w : World) (applied : Applied) :
      Mild n w (w.setTrace fun t => { t with applied := t.applied ++ [applied] })
  | failed (w : World) : Mild n w (w.setTrace fun t => { t with failed := true })

/-- The effect of one action of a request on node `n`. -/
inductive Effect (n : ℕ) : World → World → Prop where
  | mild {w w' : World} (h : Mild n w w') : Effect n w w'
  /-- The key changes, and the node sees it unless the answer is lost. -/
  | key (w : World) (value : Option RegistryEntry) (answered : Bool) : Effect n w
      (if answered then (w.putKv value).catchUp n
        else (w.putKv value).setTrace fun t => { t with failed := true })
  /-- An entry that was found expired is deleted. -/
  | expire (w : World) (entry : RegistryEntry) (nowMs : Int64) (answered : Bool)
      (expired : entry.expired nowMs) : Effect n w
      (if answered then (w.deleteExpired entry nowMs).catchUp n
        else (w.deleteExpired entry nowMs).noAnswer)
  | expireFailed (w : World) : Effect n w w.noAnswer
  | cache (w : World) (entry : Option RegistryEntry) :
      Effect n w (w.setNode n fun node => { node with entryCache := entry })
  | lock (w : World) (me : ℕ) (free : (w.nodes n).gate = none) : Effect n w
      ((w.setNode n fun node => { node with gate := some me }).setTrace fun t =>
        { t with clash := t.clash || t.looking.isSome })
  | unlock (w : World) : Effect n w (w.setNode n fun node => { node with gate := none })
  | startLooking (w : World) (me : ℕ) : Effect n w (w.setTrace fun t =>
    { t with
      looking := some me
      clash := t.clash || t.looking.isSome || (w.nodes n).gate.isSome })
  | stopLooking (w : World) : Effect n w (w.setTrace fun t => { t with looking := none })
  | recordAppend (w : World) (streamId : UInt64) (base : ℕ) (messages : List Bytes) : Effect n w
      ((w.setNode n fun node => { node with tail := node.tail.recordAppend base messages }).setTrace
        fun t => { t with late := t.late || w.kv.map RegistryEntry.streamId ≠ some streamId })
  /-- Cached records are taken. -/
  | serve (w : World) (start : ℕ) (cached : List StreamRecord)
      (hit : (w.nodes n).tail.tailRecords start = some cached) :
      Effect n w (w.setTrace fun t => { t with
        served := t.served ++ cached.map fun r => ⟨r, w.registeredAt r.offset⟩ })
  | create (w : World) (room : w.nextStreamId + 1 ≠ 0) : Effect n w
      { w.setStream w.nextStreamId (some .new) with nextStreamId := w.nextStreamId + 1 }
  | closeRow (w : World) (id : UInt64) (s : EngineStream) (stored : w.streams id = some s)
      (present : s.row ≠ .deleted) : Effect n w (w.setStream id (some { s with row := .closed }))
  | deleteRow (w : World) (id : UInt64) (s : EngineStream) (stored : w.streams id = some s) :
      Effect n w (w.setStream id (some { s with row := .deleted }))

/-- The effects of destroying a stream. -/
inductive Destroys (n : ℕ) (id : UInt64) : World → World → Prop where
  | mild {w w' : World} (h : Mild n w w') : Destroys n id w w'
  | closeRow (w : World) (s : EngineStream) (stored : w.streams id = some s)
      (present : s.row ≠ .deleted) :
      Destroys n id w (w.setStream id (some { s with row := .closed }))
  | deleteRow (w : World) (s : EngineStream) (stored : w.streams id = some s) :
      Destroys n id w (w.setStream id (some { s with row := .deleted }))

/-- What the destruction of a stream does is an effect of the node. -/
theorem Destroys.effect {n : ℕ} {id : UInt64} {w w' : World} (h : Destroys n id w w') :
  Effect n w w'
  := by
  cases h with
  | mild h => exact Effect.mild h
  | closeRow s hstored hpresent => exact Effect.closeRow w id s hstored hpresent
  | deleteRow s hstored => exact Effect.deleteRow w id s hstored

theorem Mild.look {n : ℕ} (w : World) :
  Mild n w w
  := Mild.opening (OpenEffect.look w)

theorem Effect.look {n : ℕ} (w : World) :
  Effect n w w
  := Effect.mild (Mild.look w)

/-- What opens handles only is mild. -/
theorem mild_of_opening {n : ℕ} {α : Type} {x : Op α} (h : Only (OpenEffect n) x) :
  Only (Mild n) x
  := h.weaken fun _ _ => Mild.opening

/-- A program with mild effects has effects of the node only. -/
theorem effect_of_mild {n : ℕ} {α : Type} {x : Op α} (h : Only (Mild n) x) :
  Only (Effect n) x
  := h.weaken fun _ _ => Effect.mild

/-! ### Actions -/

variable {f : EngineStream → Except String EngineStream}

section Actions

variable {n : ℕ} {α : Type} {C : World → World → Prop}

/-- Looking at the world changes nothing. -/
theorem only_look (hC : ∀ w, C w w) (f : World → α) :
  Only C (look f)
  := by
  apply Only.perform
  intro i s t r h
  cases h
  apply hC

theorem only_clock (hC : ∀ w, C w w) :
  Only C clock
  := by
  apply Only.perform
  intro i s t r h
  cases h
  apply hC

theorem only_change {f : World → World} (h : ∀ w, C w (f w)) :
  Only C (change f)
  := by
  apply Only.perform
  intro i s t r heq
  cases heq
  apply h

/-- A call that changes the key. -/
theorem only_callWith {value : World → Option RegistryEntry} {answer : World → α} :
  Only (Effect n) (callWith (fun w => w.putKv (value w)) (fun w => w.catchUp n) answer)
  := by
  apply Only.perform
  intro i s t r h
  split at h
  · cases h
    exact Effect.key s (value s) true
  · cases h
    exact Effect.key s (value s) false
  · cases h
    exact Effect.mild (Mild.failed s)

variable {id : UInt64}

section

variable (hC : ∀ w, C w w)

include hC

/-- A program that uses a handle stores the stream that it makes of it. -/
theorem only_onStream {f : EngineStream → Option (EngineStream × α)}
    (h : ∀ w s s' a, w.streams id = some s → f s = some (s', a) → C w (w.setStream id (some s'))) :
  Only C (onStream id f)
  := by
  apply Only.perform
  intro i w t r heq
  split at heq
  next =>
    cases heq
    apply hC
  next s hstored =>
    obtain ⟨⟨s', a⟩, hf, heq⟩ := Option.map_eq_some_iff.mp heq
    cases heq
    exact h w s s' a hstored hf

/-- Looking at a stream changes nothing. -/
theorem only_onStream_self {f : EngineStream → Option (EngineStream × α)}
    (h : ∀ s s' a, f s = some (s', a) → s' = s) :
  Only C (onStream id f)
  := by
  apply only_onStream hC
  intro w s s' a hstored hf
  rw [h s s' a hf, World.setStream_self hstored]
  apply hC

/-- A command for a row stores what it makes of the row, or fails. -/
theorem only_onRow
    (h : ∀ w s s', w.streams id = some s → f s = .ok s' → C w (w.setStream id (some s'))) :
  Only C (onRow id f)
  := by
  apply Only.perform
  intro i w t r heq
  split at heq
  next =>
    cases heq
    apply hC
  next s hstored =>
    split at heq
    next =>
      cases heq
      apply hC
    next s' hf _ =>
      cases heq
      exact h w s s' hstored hf
    next s' hf _ =>
      cases heq
      exact h w s s' hstored hf
    next =>
      cases heq
      apply hC

theorem only_lookStream (id : UInt64) (f : EngineStream → α) :
  Only C (lookStream id f)
  := by
  apply only_onStream_self hC
  intro s s' a h
  cases h
  rfl

theorem only_waitIdle (id : UInt64) :
  Only C (waitIdle id)
  := by
  apply only_onStream_self hC
  intro s s' a h
  obtain ⟨-, h⟩ := Option.ite_none_right_eq_some.mp h
  cases h
  rfl

theorem only_awaitDurable (id : UInt64) (places : List ℕ) :
  Only C (awaitDurable id places)
  := by
  apply Only.bind
  · apply only_onStream_self hC
    intro s s' a h
    obtain ⟨durable, -, h⟩ := Option.map_eq_some_iff.mp h
    cases h
    rfl
  · intro durable
    split
    · apply Only.pure
    · apply Only.throw

/-- The rest of a fetch is pure. -/
theorem only_fetch (id : UInt64) (start stop : ℕ) :
  Only C (fetchStream id start stop)
  := by
  apply Only.perform
  intro i w t r h
  split at h
  next =>
    cases h
    apply hC
  next =>
    split at h
    · cases h
      apply hC
    · cases h
      apply hC

end

/-- Taking the gate beside a lookup without it is a clash. -/
theorem only_lockGate (me : ℕ) :
  Only (Effect n) (lockGate n me)
  := by
  apply Only.perform
  intro i w t r h
  split at h
  next hfree =>
    cases h
    exact Effect.lock w me (Option.isNone_iff_eq_none.mp hfree)
  next => cases h

theorem only_cacheEntry (entry : Option RegistryEntry) :
  Only (Effect n) (cacheEntry n entry)
  := only_change fun w => Effect.cache w entry

theorem mild_resetTail :
  Only (Mild n) (resetTail n)
  := only_change Mild.resetTail

theorem only_recordAppend (id : UInt64) (base : ℕ) (messages : List Bytes) :
  Only (Effect n) (recordAppend n id base messages)
  := only_change fun w => Effect.recordAppend w id base messages

theorem opening_insertHandle (id : UInt64) :
  Only (OpenEffect n) (insertHandle n id)
  := only_change fun w => OpenEffect.handles w _

theorem opening_removeHandle (id : UInt64) :
  Only (OpenEffect n) (removeHandle n id)
  := only_change fun w => OpenEffect.handles w _

theorem opening_lockOpen (me : ℕ) :
  Only (OpenEffect n) (lockOpen n me)
  := by
  apply Only.perform
  intro i w t r h
  split at h
  next =>
    cases h
    exact OpenEffect.openLock w (some me)
  next => cases h

theorem opening_unlockOpen :
  Only (OpenEffect n) (unlockOpen n)
  := only_change fun w => OpenEffect.openLock w none

theorem opening_openStream (id : UInt64) :
  Only (OpenEffect n) (openStream id)
  := by
  apply only_onRow OpenEffect.look
  intro w s s' hstored h
  split at h
  next => cases h
  next hclosed =>
    cases h
    exact OpenEffect.reopen w id s hstored hclosed
  next => cases h

/-- A new stream takes the next id. -/
theorem only_createStream :
  Only (Effect n) createStream
  := by
  apply Only.perform
  intro i w t r h
  simp only at h
  split at h
  next => cases h
  next hroom =>
    split at h
    · cases h
      exact Effect.create w hroom
    · cases h
      exact Effect.create w hroom
    · cases h
      exact Effect.look w

theorem mild_closeHandle (id : UInt64) :
  Only (Mild n) (closeHandle id)
  := by
  apply only_onStream Mild.look
  intro w s s' a hstored h
  cases h
  exact Mild.closeHandle w id s hstored

/-- A row is closed unless it was deleted. -/
theorem only_closeRow (hC : ∀ w, C w w) (hclose : ∀ w s, w.streams id = some s → s.row ≠ .deleted →
      C w (w.setStream id (some { s with row := .closed }))) :
  Only C (closeRow id)
  := by
  apply only_onRow hC
  intro w s s' hstored h
  have hpresent : s.row ≠ .deleted ∧ s' = { s with row := .closed } := by
    cases hrow : s.row with
    | opened => exact ⟨nofun, by rw [hrow] at h; exact (Except.ok.inj h).symm⟩
    | closed => exact ⟨nofun, by rw [hrow] at h; exact (Except.ok.inj h).symm⟩
    | deleted =>
      rw [hrow] at h
      cases h
  rw [hpresent.2]
  exact hclose w s hstored hpresent.1

/-- Closing a stream has mild effects and closes the row. -/
theorem only_closeStream (hmild : ∀ w w', Mild n w w' → C w w')
    (hclose : ∀ w s, w.streams id = some s → s.row ≠ .deleted →
      C w (w.setStream id (some { s with row := .closed }))) :
  Only C (closeStream id)
  := by
  have hlook : ∀ w, C w w := fun w => hmild w w (Mild.look w)
  apply ((mild_closeHandle id).weaken hmild).bind
  intro _
  apply (only_waitIdle hlook id).bind
  intro _
  apply only_closeRow hlook hclose

theorem destroys_closeStream (id : UInt64) :
  Only (Destroys n id) (closeStream id)
  := only_closeStream (fun _ _ => Destroys.mild) Destroys.closeRow

/-- The row is closed before it is deleted. -/
theorem destroys_destroy (id : UInt64) :
  Only (Destroys n id) (destroy id)
  := by
  apply (destroys_closeStream id).bind
  intro _
  apply only_onRow fun w => Destroys.mild (Mild.look w)
  intro w s s' hstored h
  cases h
  exact Destroys.deleteRow w s hstored

/-- The gate is given back when the body has failed as well. -/
theorem only_withGate {me : ℕ} {body : Op α} (h : Only (Effect n) body) :
  Only (Effect n) (withGate n me body)
  := by
  apply (only_lockGate me).bind
  intro _
  apply h.attempt.bind
  intro result
  apply Only.bind
  · exact only_change Effect.unlock
  · intro _
    apply Only.conclude

/-- A lookup is marked from its start to its end. -/
theorem only_withoutGate {me : ℕ} {body : Op α} (h : Only (Effect n) body) :
  Only (Effect n) (withoutGate n me body)
  := by
  apply Only.bind
  · exact only_change fun w => Effect.startLooking w me
  · intro _
    apply h.attempt.bind
    intro result
    apply Only.bind
    · exact only_change Effect.stopLooking
    · intro _
      apply Only.conclude

end Actions

/-! ### Operations -/

section Operations

variable {n : ℕ}

theorem only_putEntry (entry : RegistryEntry) :
  Only (Effect n) (putEntry n entry)
  := by
  apply Only.bind
  · exact only_callWith
  · intro _
    apply only_cacheEntry

/-- Destroying a stream touches the handles and this stream. -/
theorem destroys_destroyStream (id : UInt64) :
  Only (Destroys n id) (destroyStream n id)
  := by
  have hopening : ∀ {α : Type} {x : Op α}, Only (OpenEffect n) x → Only (Destroys n id) x :=
    fun h => h.weaken fun _ _ h => Destroys.mild (Mild.opening h)
  apply (hopening (only_look OpenEffect.look _)).bind
  intro held
  apply (hopening (opening_removeHandle id)).bind
  intro _
  apply (hopening (opening_openStream id)).onlyIf.attempt.bind
  intro ready
  cases ready with
  | error e => apply Only.pure
  | ok _ =>
    apply (destroys_destroy id).attempt.bind
    intro _
    apply Only.pure

theorem only_destroyStream (id : UInt64) :
  Only (Effect n) (destroyStream n id)
  := (destroys_destroyStream id).weaken fun _ _ => Destroys.effect

variable {entry : RegistryEntry}

/-- Only an entry that was found expired is deleted this way. -/
theorem only_delExpired {nowMs : Int64} (h : entry.expired nowMs) :
  Only (Effect n) (delExpired n entry nowMs)
  := by
  apply Only.perform
  intro i w t r heq
  split at heq
  · cases heq
    exact Effect.expire w entry nowMs true h
  · cases heq
    exact Effect.expire w entry nowMs false h
  · cases heq
    exact Effect.expireFailed w

theorem only_expire {nowMs : Int64} (h : entry.expired nowMs) :
  Only (Effect n) (expire n entry nowMs)
  := by
  apply (only_delExpired h).attempt.bind
  intro _
  apply (only_cacheEntry none).bind
  intro _
  apply (only_destroyStream entry.streamId).bind
  intro _
  exact effect_of_mild mild_resetTail

theorem only_loadEntry :
  Only (Effect n) (loadEntry n)
  := by
  apply (only_look Effect.look _).bind
  intro cached
  cases cached with
  | some entry => apply Only.pure
  | none =>
    apply (only_look Effect.look _).bind
    intro stored
    cases stored with
    | none => apply Only.pure
    | some entry =>
      apply (only_cacheEntry (some entry)).bind
      intro _
      apply Only.pure

/-- The one lookup from which an entry expires, is cached or moves its deadline. -/
theorem only_getEntry (touch : Bool) :
  Only (Effect n) (getEntry n touch)
  := by
  apply only_loadEntry.bind
  intro loaded
  cases loaded with
  | none => apply Only.pure
  | some entry =>
    apply (only_clock Effect.look).bind
    intro nowMs
    split
    next hexpired =>
      apply (only_expire hexpired).bind
      intro _
      apply Only.pure
    next =>
      split
      next =>
        apply (only_clock Effect.look).bind
        intro nowMs
        simp only
        split
        next =>
          apply (only_putEntry _).bind
          intro _
          apply Only.pure
        next => apply Only.pure
      next => apply Only.pure

theorem only_requireEntry :
  Only (Effect n) (requireEntry n)
  := by
  apply (only_getEntry false).bind
  intro entry
  cases entry with
  | none => apply Only.throw
  | some entry => apply Only.pure

/-- Opening a handle takes the open lock and reopens a closed row. -/
theorem opening_ensureOpen (me : ℕ) (id : UInt64) :
  Only (OpenEffect n) (ensureOpen n me id)
  := by
  apply (only_look OpenEffect.look _).bind
  intro held
  split
  · apply Only.pure
  · apply (opening_lockOpen me).bind
    intro _
    apply Only.bind
    · apply Only.attempt
      apply (only_look OpenEffect.look _).bind
      intro held
      split
      · apply Only.pure
      · apply (opening_openStream id).bind
        intro _
        apply opening_insertHandle
    · intro result
      apply opening_unlockOpen.bind
      intro _
      apply Only.conclude

theorem only_ensureOpen (me : ℕ) (id : UInt64) :
  Only (Effect n) (ensureOpen n me id)
  := effect_of_mild (mild_of_opening (opening_ensureOpen me id))

theorem opening_toMetaLive (me : ℕ) (entry : RegistryEntry) :
  Only (OpenEffect n) (toMetaLive n me entry)
  := by
  apply (opening_ensureOpen me entry.streamId).bind
  intro _
  apply only_lookStream OpenEffect.look

theorem only_toMetaLive (me : ℕ) (entry : RegistryEntry) :
  Only (Effect n) (toMetaLive n me entry)
  := effect_of_mild (mild_of_opening (opening_toMetaLive me entry))

theorem mild_submitBatch (id : UInt64) (batch : RecordBatch) (messages : List Bytes) :
  Only (Mild n) (submitBatch id batch messages)
  := by
  apply Only.bind
  · apply only_onStream Mild.look
    intro w s s' a hstored h
    split at h
    next hoperable =>
      cases h
      exact Mild.submit w id s batch messages hstored hoperable
    next =>
      cases h
      rw [World.setStream_self hstored]
      apply Mild.look
  · intro placed
    cases placed with
    | none => apply Only.throw
    | some place => apply Only.pure

/-- The batches of an append go to the engine one by one. -/
theorem mild_submitAll (id : UInt64) (groups : List (RecordBatch × List Bytes)) :
  Only (Mild n) (submitAll id groups)
  := by
  induction groups with
  | nil => apply Only.pure
  | cons group rest ih =>
    apply (mild_submitBatch id group.1 group.2).bind
    intro place
    apply ih.bind
    intro places
    apply Only.pure

/-- A failed append leaves neither a handle nor a cached record. -/
theorem mild_dropHandle {α : Type} (id : UInt64) (e : ServiceError) :
  Only (Mild n) (dropHandle n id e : Op α)
  := by
  apply (mild_of_opening (opening_removeHandle id)).bind
  intro _
  apply mild_resetTail.bind
  intro _
  apply Only.throw

theorem only_dropHandle {α : Type} (id : UInt64) (e : ServiceError) :
  Only (Effect n) (dropHandle n id e : Op α)
  := effect_of_mild (mild_dropHandle id e)

theorem mild_noteApplied (applied : Applied) :
  Only (Mild n) (noteApplied applied)
  := only_change fun w => Mild.applied w applied

theorem only_offsetAfterSubmit {C : World → World → Prop} (hC : ∀ w, C w w) (id : UInt64)
    (base : ℕ) (messages : List Bytes) :
  Only C (offsetAfterSubmit id base messages)
  := by
  unfold offsetAfterSubmit
  split
  · apply Only.pure
  · apply only_lookStream hC

theorem only_closeEntry (entry : RegistryEntry) (command : AppendCommand) :
  Only (Effect n) (closeEntry n entry command)
  := by
  apply (only_clock Effect.look).bind
  intro nowMs
  apply only_putEntry

/-- An append that closes records its messages before the entry is closed. -/
theorem only_finishClosing (updated : RegistryEntry) (command : AppendCommand) (closeOnly : Bool)
    (p : Pipelined) :
  Only (Effect n) (finishClosing n updated command closeOnly p)
  := by
  apply (only_awaitDurable Effect.look p.streamId p.places).attempt.bind
  intro durable
  cases durable with
  | error e => apply only_dropHandle
  | ok _ =>
    apply (only_recordAppend _ _ _).onlyIf.bind
    intro _
    apply (only_closeEntry updated command).bind
    intro _
    apply Only.pure

theorem only_finishPipelined (entry updated : RegistryEntry) (p : Pipelined) :
  Only (Effect n) (finishPipelined n entry updated p)
  := by
  apply (only_clock Effect.look).bind
  intro nowMs
  apply (only_putEntry _).onlyIf.bind
  intro _
  apply Only.pure

theorem only_submitAppend (me : ℕ) (entry : RegistryEntry) (command : AppendCommand) (base : ℕ)
    (closeOnly : Bool) (messages : List Bytes) :
  Only (Effect n) (submitAppend n me entry command base closeOnly messages)
  := by
  apply (effect_of_mild (mild_submitAll entry.streamId _)).attempt.bind
  intro submitted
  cases submitted with
  | error e => apply only_dropHandle
  | ok places =>
    apply (only_offsetAfterSubmit Effect.look _ _ _).bind
    intro next
    apply (effect_of_mild (mild_noteApplied _)).onlyIf.bind
    intro _
    simp only
    split
    · apply only_finishClosing
    · apply only_finishPipelined

variable {parseJson : Bytes → Option JsonBody}

/-- The part of an append under the gate. -/
theorem only_appendGated (me : ℕ) (command : AppendCommand) :
  Only (Effect n) (appendGated parseJson n me command)
  := by
  apply (only_getEntry false).bind
  intro entry
  cases entry with
  | none => apply Only.throw
  | some entry =>
    apply (only_ensureOpen me entry.streamId).bind
    intro _
    apply (only_lookStream Effect.look _ _).bind
    intro next
    split
    · apply Only.throw
    · apply Only.pure
    · apply only_submitAppend

section

variable {C : World → World → Prop} (hmild : ∀ w w', Mild n w w' → C w w')

include hmild

/-- An append that has given up the gate has mild effects and records its messages. -/
theorem only_appendPipelined {p : Pipelined}
    (hrecord : Only C (recordAppend n p.streamId p.base p.messages)) :
  Only C (appendPipelined n p)
  := by
  apply (only_awaitDurable (fun w => hmild w w (Mild.look w)) p.streamId p.places).attempt.bind
  intro durable
  cases durable with
  | error e => exact (mild_dropHandle p.streamId e).weaken hmild
  | ok _ =>
    apply hrecord.bind
    intro _
    apply Only.pure

theorem only_appendInitialPayload {id : UInt64}
    (hrecord : ∀ base messages, Only C (recordAppend n id base messages))
    (command : CreateCommand) :
  Only C (appendInitialPayload parseJson n id command)
  := by
  have hlook : ∀ w, C w w := fun w => hmild w w (Mild.look w)
  unfold appendInitialPayload
  split
  · apply Only.pure
  · split
    · apply Only.throw
    · apply Only.pure
    · apply (only_lookStream hlook _ _).bind
      intro base
      apply ((mild_submitAll id _).weaken hmild).attempt.bind
      intro submitted
      cases submitted with
      | error e => apply Only.throw
      | ok places =>
        apply (only_awaitDurable hlook id places).attempt.bind
        intro durable
        cases durable with
        | error e => apply Only.throw
        | ok _ =>
          apply (hrecord _ _).bind
          intro _
          apply Only.pure

theorem only_releaseGated {id : UInt64} (hclose : Only C (closeStream id)) :
  Only C (releaseGated n id)
  := by
  apply (only_look (fun w => hmild w w (Mild.look w)) _).bind
  intro held
  apply ((mild_of_opening (opening_removeHandle id)).weaken hmild).bind
  intro _
  split
  · apply Only.pure
  · apply hclose.bind
    intro _
    apply (mild_resetTail.weaken hmild).bind
    intro _
    apply Only.pure

end

theorem only_append (me : ℕ) (command : AppendCommand) :
  Only (Effect n) (append parseJson n me command)
  := by
  apply (only_withGate (only_appendGated me _)).bind
  intro result
  cases result with
  | inl result => apply Only.pure
  | inr p => exact only_appendPipelined (fun _ _ => Effect.mild) (only_recordAppend _ _ _)

theorem only_resolveLostRace (me : ℕ) (id : UInt64) (current : RegistryEntry)
    (command : CreateCommand) :
  Only (Effect n) (resolveLostRace n me id current command)
  := by
  apply ((destroys_destroy id).weaken fun _ _ => Destroys.effect).attempt.bind
  intro _
  apply (effect_of_mild (mild_of_opening (opening_removeHandle id))).bind
  intro _
  split
  · apply Only.throw
  · apply (only_toMetaLive me current).bind
    intro info
    apply Only.pure

theorem only_closeCreated (command : CreateCommand) (current : RegistryEntry) :
  Only (Effect n) (closeCreated n command current)
  := by
  unfold closeCreated
  split
  · apply (only_putEntry _).bind
    intro _
    apply only_requireEntry
  · apply Only.pure

/-- A create stores an entry only where there is none. -/
theorem only_createGated (me : ℕ) (command : CreateCommand) :
  Only (Effect n) (createGated parseJson n me command)
  := by
  apply (only_getEntry false).bind
  intro existing
  cases existing with
  | some existing =>
    simp only
    split
    · apply Only.throw
    · apply (only_toMetaLive me existing).bind
      intro info
      apply Only.pure
  | none =>
    apply Only.bind
    · apply only_createStream.bind
      intro id
      apply (effect_of_mild (mild_of_opening (opening_insertHandle id))).bind
      intro _
      apply Only.pure
    · intro id
      apply (only_clock Effect.look).bind
      intro nowMs
      apply Only.bind
      · exact only_callWith
      · intro stored
        apply (only_cacheEntry (some stored)).bind
        intro _
        split
        · apply only_resolveLostRace
        · apply (only_appendInitialPayload (fun _ _ => Effect.mild) (only_recordAppend id)
            command).bind
          intro appended
          apply Only.bind
          · unfold entryAfterPayload
            split
            · apply only_requireEntry
            · apply Only.pure
          · intro current
            apply (only_closeCreated command current).bind
            intro current
            apply (only_lookStream Effect.look _ _).bind
            intro info
            apply Only.pure

theorem only_create (me : ℕ) (command : CreateCommand) :
  Only (Effect n) (create parseJson n me command)
  := by
  unfold create
  split
  · apply Only.throw
  · apply only_withGate
    apply only_createGated

/-- The key is deleted before its stream is destroyed. -/
theorem only_deleteGated :
  Only (Effect n) (deleteGated n)
  := by
  apply (only_getEntry false).bind
  intro entry
  cases entry with
  | none => apply Only.pure
  | some entry =>
    apply Only.bind
    · exact only_callWith
    · intro deleted
      apply (only_cacheEntry none).bind
      intro _
      split
      · apply Only.pure
      · apply (only_destroyStream entry.streamId).bind
        intro _
        apply (effect_of_mild mild_resetTail).bind
        intro _
        apply Only.pure

theorem mild_moveStart (id : UInt64) (startOffset : ℕ) :
  Only (Mild n) (moveStart id startOffset)
  := by
  apply Only.bind
  · apply only_onStream Mild.look
    intro w s s' a hstored h
    cases h
    exact Mild.moveStart w id s startOffset hstored
  · intro _
    apply Only.perform
    intro i w t r h
    split at h
    · cases h
      exact Mild.look w
    · cases h
      exact Mild.failed w
    · cases h
      exact Mild.failed w

theorem only_trimGated (me : ℕ) (newStartOffset : ℕ) :
  Only (Effect n) (trimGated n me newStartOffset)
  := by
  apply (only_getEntry false).bind
  intro entry
  cases entry with
  | none => apply Only.throw
  | some entry =>
    apply (only_ensureOpen me entry.streamId).bind
    intro _
    apply Only.bind
    · apply Only.perform
      intro i w t r h
      cases h
      exact Effect.look w
    · intro committedEnd
      apply (only_lookStream Effect.look _ _).bind
      intro bounds
      apply (effect_of_mild (mild_moveStart _ _)).onlyIf.bind
      intro _
      apply only_lookStream Effect.look

/-- The records that are served from the cache are traced. -/
theorem only_takeCached (start : ℕ) :
  Only (Effect n) (takeCached n start)
  := by
  apply Only.perform
  intro i w t r h
  cases h
  cases hcached : (w.nodes n).tail.tailRecords start with
  | none =>
    simp only [Option.getD_none, map_nil, append_nil]
    exact Effect.look w
  | some cached => exact Effect.serve w start cached hcached

theorem only_readGated (me start maxBytes maxRecords : ℕ) :
  Only (Effect n) (readGated n me start maxBytes maxRecords)
  := by
  apply (only_getEntry true).bind
  intro entry
  cases entry with
  | none => apply Only.throw
  | some entry =>
    apply (only_ensureOpen me entry.streamId).bind
    intro _
    apply (only_lookStream Effect.look _ _).bind
    intro stop
    split
    · apply Only.throw
    · split
      · apply Only.pure
      · apply (only_takeCached start).bind
        intro cached
        cases cached with
        | some cached => apply Only.pure
        | none =>
          apply (only_fetch Effect.look _ start stop).bind
          intro fetched
          split
          · apply Only.throw
          · apply Only.pure

/-- The answer to a read as it is computed from the tail cache of the node and the stream, each as
it was in a state with `A`. -/
def AnswersRead (n : ℕ) (A : World → Prop) (start maxBytes maxRecords : ℕ) (result : ReadResult) :
    Prop :=
  ∃ entry w w' w'' s s' count, A w ∧ A w' ∧ A w'' ∧ w.streams entry.streamId = some s ∧
    w''.streams entry.streamId = some s' ∧
    readFrom entry (w'.nodes n).tail
      (fun start stop _ => s'.fetch entry.streamId count start stop)
      start s.confirmOffset maxBytes maxRecords = .ok result

/-- Beside others that keep a property, the program of a read answers what a read of states with the
property does. -/
theorem ensures_readGated {L : Rules World} {A : World → Prop} (hstable : L.Stable A)
    (hkept : ∀ w w', A w → Effect n w w' → L.Allowed w' → L.Guar w w' ∧ A w')
    (me start maxBytes maxRecords : ℕ) :
  Ensures L A (readGated n me start maxBytes maxRecords)
    (fun result w => A w ∧ AnswersRead n A start maxBytes maxRecords result) fun _ => A
  := by
  apply ((only_getEntry true).ensures hstable hkept).bind
  intro entry
  cases entry with
  | none => exact Ensures.throw hstable fun _ h => h
  | some entry =>
    apply ((only_ensureOpen me entry.streamId).ensures hstable hkept).bind
    intro _
    have hlook := (only_lookStream Effect.look entry.streamId EngineStream.confirmOffset).observes
      (R := fun stop w => ∃ s, w.streams entry.streamId = some s ∧ s.confirmOffset = stop)
      (fun i w w' stop h => by
        split at h
        next => cases h
        next s hs =>
          cases h
          exact ⟨s, hs, rfl⟩) hstable hkept
    apply hlook.bind
    intro stop
    apply Ensures.of_and
    rintro ⟨w, hw, s, hs, rfl⟩
    split
    next => exact Ensures.throw hstable fun _ h => h
    next hle =>
      split
      next heq =>
        apply Ensures.pure hstable
        intro t ht
        refine ⟨ht, entry, w, w, w, s, s, 0, hw, hw, hw, hs, hs, ?_⟩
        rw [readFrom, if_neg hle, if_pos heq]
      next hne =>
        have hcached := (only_takeCached (n := n) start).observes
          (R := fun cached w => (w.nodes n).tail.tailRecords start = cached)
          (fun i w w' cached h => by cases h; rfl) hstable hkept
        apply hcached.bind
        intro cached
        apply Ensures.of_and
        rintro ⟨w', hw', hcached⟩
        cases cached with
        | some cached =>
          apply Ensures.pure hstable
          intro t ht
          refine ⟨ht, entry, w, w', w, s, s, 0, hw, hw', hw, hs, hs, ?_⟩
          rw [readFrom, if_neg hle, if_neg hne, hcached]
        | none =>
          have hfetch := (only_fetch Effect.look entry.streamId start s.confirmOffset).observes
            (R := fun fetched w => ∃ s' count, w.streams entry.streamId = some s' ∧
              s'.fetch entry.streamId count start s.confirmOffset = .ok fetched)
            (fun i w w' fetched h => by
              split at h
              next => cases h
              next s' hs' =>
                split at h
                next => cases h
                next hfetched =>
                  cases h
                  exact ⟨s', i.batches, hs', hfetched⟩) hstable hkept
          apply hfetch.bind
          intro fetched
          apply Ensures.of_and
          rintro ⟨w'', hw'', s', count, hs', hfetched⟩
          split
          next => exact Ensures.throw hstable fun _ h => h
          next result hresult =>
            apply Ensures.pure hstable
            intro t ht
            refine ⟨ht, entry, w, w', w'', s, s', count, hw, hw', hw'', hs, hs', ?_⟩
            rw [readFrom, if_neg hle, if_neg hne, hcached]
            simp only [hfetched]
            exact hresult

theorem only_head (me : ℕ) :
  Only (Effect n) (head n me)
  := by
  apply (only_withoutGate (only_getEntry false)).bind
  intro entry
  cases entry with
  | none => apply Only.pure
  | some entry =>
    apply (only_toMetaLive me entry).bind
    intro info
    apply Only.pure

theorem only_lookupStreamId (me : ℕ) :
  Only (Effect n) (lookupStreamId n me)
  := by
  apply (only_withoutGate (only_getEntry false)).bind
  intro entry
  apply Only.pure

theorem only_waitAppended (me start : ℕ) :
  Only (Effect n) (waitAppended n me start)
  := by
  apply (only_withoutGate (only_getEntry false)).bind
  intro entry
  cases entry with
  | none => apply Only.pure
  | some entry =>
    simp only
    split
    · apply Only.pure
    · apply (only_ensureOpen me entry.streamId).bind
      intro _
      apply (only_lookStream Effect.look _ _).bind
      intro confirmOffset
      split
      · apply Only.pure
      · apply Only.perform
        intro i w t r h
        cases h
        exact Effect.look w

/-- Every action of every request has one of the effects. -/
theorem only_serve (me : ℕ) (request : Request) :
  Only (Effect n) (serve parseJson n me request)
  := by
  cases request with
  | create command => exact (only_create me command).map
  | append command => exact (only_append me command).map
  | read start maxBytes maxRecords =>
    exact (only_withGate (only_readGated me start maxBytes maxRecords)).map
  | trim newStartOffset => exact (only_withGate (only_trimGated me newStartOffset)).map
  | delete => exact (only_withGate only_deleteGated).map
  | head => exact (only_head me).map
  | lookup => exact (only_lookupStreamId me).map
  | wait start => exact (only_waitAppended me start).map
  | release id =>
    have hclose := (destroys_closeStream (n := n) id).weaken fun _ _ => Destroys.effect
    exact (only_withGate (only_releaseGated (fun _ _ => Effect.mild) hclose)).map

end Operations

/-! ### Actions of the owner -/

section Owner

variable {D : Discipline World} {me : ℕ} {α : Type} {F E : World → Prop} {G : α → World → Prop}
  [D.Lasts F] [D.Lasts E]

/-- To look at something changes nothing. -/
theorem spec_look [∀ a, D.Lasts (G a)] {f : World → α} (h : ∀ w, D.Inv w → F w → G (f w) w) :
  D.Spec me F (look f) G E
  := by
  apply Spec.perform
  intro w i w' r heq hinv howner hf _
  cases heq
  exact ⟨hinv, D.kept_refl w, howner, h w hinv hf⟩

theorem spec_clock :
  D.Spec me F clock (fun _ => F) E
  := by
  apply Spec.perform
  intro w i w' r heq hinv howner hf _
  cases heq
  exact ⟨hinv, D.kept_refl w, howner, hf⟩

variable {id : UInt64}

/-- A handle on a missing stream fails. -/
theorem spec_lookStream [∀ a, D.Lasts (G a)] {f : EngineStream → α}
    (hmissing : ∀ w, D.Inv w → F w → E w)
    (h : ∀ w s, D.Inv w → F w → w.streams id = some s → G (f s) w) :
  D.Spec me F (lookStream id f) G E
  := by
  apply Spec.perform
  intro w i w' r heq hinv howner hf _
  split at heq
  next =>
    cases heq
    exact ⟨hinv, D.kept_refl w, howner, hmissing w hinv hf⟩
  next s hstored =>
    cases heq
    rw [World.setStream_self hstored]
    exact ⟨hinv, D.kept_refl w, howner, h w s hinv hf hstored⟩

/-- After waiting, all batches of an append are durable. -/
theorem spec_awaitDurable {places : List ℕ} {G : World → Prop} [D.Lasts G]
    (hfails : ∀ w, D.Inv w → F w → E w)
    (h : ∀ w s, D.Inv w → F w → w.streams id = some s → durability s.log places = some true →
      G w) :
  D.Spec me F (awaitDurable id places) (fun _ => G) E
  := by
  have hwait : D.Spec me F (onStream id fun s =>
      (durability s.log places).map fun durable => (s, durable))
      (fun durable w => F w ∧ (durable = true → G w)) E := by
    apply Spec.perform
    intro w i w' r heq hinv howner hf _
    split at heq
    next =>
      cases heq
      exact ⟨hinv, D.kept_refl w, howner, hfails w hinv hf⟩
    next s hstored =>
      obtain ⟨⟨s', durable⟩, hdurable, heq⟩ := Option.map_eq_some_iff.mp heq
      obtain ⟨durable', hknown, hpair⟩ := Option.map_eq_some_iff.mp hdurable
      cases hpair
      cases heq
      rw [World.setStream_self hstored]
      refine ⟨hinv, D.kept_refl w, howner, hf, ?_⟩
      rintro rfl
      exact h w s hinv hf hstored hknown
  apply hwait.bind
  intro durable
  split
  next htrue => exact Spec.pure fun w _ hw => hw.2 htrue
  next => exact Spec.throw fun w hinv hw => hfails w hinv hw.1

omit [D.Lasts E] in
/-- Waiting without being the owner. -/
theorem ensures_awaitDurable {places : List ℕ} {L K : World → Prop} [D.Persists L]
    [hK : D.Persists K] [hE : D.Persists E]
    (hmissing : ∀ w, D.Inv w → L w → w.streams id = none → E w) (hfailed : ∀ w s, D.Inv w → L w →
      w.streams id = some s → durability s.log places = some false → E w)
    (h : ∀ w s, D.Inv w → L w → w.streams id = some s → durability s.log places = some true → K w) :
  Ensures (D.rules me) (D.Known L) (awaitDurable id places) (fun _ => D.Known K)
    fun _ => D.Known E
  := by
  have hpersists : ∀ durable : Bool, D.Persists fun w => if durable then K w else E w := by
    intro durable
    cases durable with
    | true => exact hK
    | false => exact hE
  have hwait : Ensures (D.rules me) (D.Known L) (onStream id fun s =>
      (durability s.log places).map fun durable => (s, durable))
      (fun durable => D.Known fun w => if durable then K w else E w) fun _ => D.Known E := by
    apply ensures_known
    intro w i w' r hw hl heq _
    split at heq
    next hnone =>
      obtain ⟨rfl, rfl⟩ := Prod.mk.inj (Option.some.inj heq)
      exact ⟨hw.1, D.kept_refl w, rfl, D.quiet_refl w, hmissing w hw.1 hl hnone⟩
    next s hstored =>
      obtain ⟨⟨s', durable⟩, hdurable, heq⟩ := Option.map_eq_some_iff.mp heq
      obtain ⟨durable', hknown, hpair⟩ := Option.map_eq_some_iff.mp hdurable
      obtain ⟨rfl, rfl⟩ := Prod.mk.inj hpair
      obtain ⟨rfl, rfl⟩ := Prod.mk.inj heq
      rw [World.setStream_self hstored]
      refine ⟨hw.1, D.kept_refl w, rfl, D.quiet_refl w, ?_⟩
      cases durable' with
      | true => exact h w s hw.1 hl hstored hknown
      | false => exact hfailed w s hw.1 hl hstored hknown
  apply hwait.bind
  intro durable
  cases durable with
  | true => exact Ensures.pure stable_known fun _ hw => hw
  | false => exact Ensures.throw stable_known fun _ hw => hw

/-- A change of the state that leads from one assertion to another. -/
theorem spec_change {f : World → World} {G : Unit → World → Prop} [D.Lasts (G ())]
    (h : ∀ w, D.Leads me F w (G ()) (f w)) :
  D.Spec me F (change f) G E
  := by
  have hG : ∀ u, D.Lasts (G u) := fun _ => inferInstance
  apply Spec.perform
  intro w i w' r heq hinv howner hf hallowed
  cases heq
  exact h w hinv howner hf hallowed

/-- A call has three endings. -/
theorem spec_callWith [∀ a, D.Lasts (G a)] {effect seen : World → World} {value : World → α}
    (hanswered : ∀ w, D.Leads me F w (G (value w)) (seen (effect w)))
    (hlost : ∀ w, D.Leads me F w E ((effect w).setTrace fun t => { t with failed := true }))
    (hfailed : ∀ w, D.Leads me F w E (w.setTrace fun t => { t with failed := true })) :
  D.Spec me F (callWith effect seen value) G E
  := by
  apply Spec.perform
  intro w i w' r heq hinv howner hf hallowed
  split at heq
  · cases heq
    exact hanswered w hinv howner hf hallowed
  · cases heq
    exact hlost w hinv howner hf hallowed
  · cases heq
    exact hfailed w hinv howner hf hallowed

/-- A command for the row of a stream leaves the world alone or changes the row, and its caller may
not learn which. -/
theorem spec_onRow {G : Unit → World → Prop} [D.Lasts (G ())] (hsame : ∀ w, D.Inv w → F w → E w)
    (h : ∀ w s s', D.Inv w → D.owner w = some me → F w → w.streams id = some s → f s = .ok s' →
      D.Inv (w.setStream id (some s')) ∧ D.Kept w (w.setStream id (some s')) ∧ D.owner
      (w.setStream id (some s')) = some me ∧ G () (w.setStream id (some s')) ∧ E (w.setStream id
      (some s'))) :
  D.Spec me F (onRow id f) G E
  := by
  have hG : ∀ u, D.Lasts (G u) := fun _ => inferInstance
  apply Spec.perform
  intro w i w' r heq hinv howner hf _
  have hunchanged : D.Inv w ∧ D.Kept w w ∧ D.owner w = some me ∧ E w :=
    ⟨hinv, D.kept_refl w, howner, hsame w hinv hf⟩
  split at heq
  next =>
    cases heq
    exact hunchanged
  next s hstored =>
    split at heq
    next =>
      cases heq
      exact hunchanged
    next s' hs' _ =>
      cases heq
      obtain ⟨hinv', hkept, howner', hg, -⟩ := h w s s' hinv howner hf hstored hs'
      exact ⟨hinv', hkept, howner', hg⟩
    next s' hs' _ =>
      cases heq
      obtain ⟨hinv', hkept, howner', -, he⟩ := h w s s' hinv howner hf hstored hs'
      exact ⟨hinv', hkept, howner', he⟩
    next =>
      cases heq
      exact hunchanged

variable {n : ℕ} {Found : Option RegistryEntry → World → Prop} [∀ entry, D.Lasts (Found entry)]

/-- Loading the entry, if a cached entry and the one in the view of the node may be found. -/
theorem spec_loadWith
    (hcached : ∀ w entry, D.Inv w → F w → (w.nodes n).entryCache = some entry →
      Found (some entry) w)
    (hstored : ∀ w, D.Inv w → F w → Found (w.kvAt (w.nodes n).seen) w)
    (hcache : ∀ entry, D.Spec me (Found (some entry)) (cacheEntry n (some entry))
      (fun _ => Found (some entry)) E) :
  D.Spec me F (loadEntry n) Found E
  := by
  have hlook : D.Spec me F (cachedEntry n)
      (fun cached w => F w ∧ (cached.isSome → Found cached w)) E := by
    apply spec_look
    intro w hinv hf
    refine ⟨hf, ?_⟩
    intro hsome
    obtain ⟨entry, hentry⟩ := Option.isSome_iff_exists.mp hsome
    rw [hentry]
    exact hcached w entry hinv hf hentry
  apply hlook.bind
  intro cached
  cases cached with
  | some entry => exact Spec.pure fun _ _ h => h.2 rfl
  | none =>
    apply Spec.bind (G := Found)
    · exact spec_look fun w hinv h => hstored w hinv h.1
    · intro stored
      cases stored with
      | none => exact Spec.pure fun _ _ h => h
      | some entry =>
        apply (hcache entry).bind
        intro _
        exact Spec.pure fun _ _ h => h

omit [D.Lasts F] in
/-- The entry of the name, from what loading, expiry and a new deadline do. -/
theorem spec_getWith {touch : Bool}
    (hload : D.Spec me F (loadEntry n) Found E)
    (hexpire : ∀ entry nowMs, D.Spec me (Found (some entry)) (expire n entry nowMs)
      (fun _ => Found none) E)
    (htouch : ∀ entry nowMs, D.Spec me (Found (some entry))
      (putEntry n (touchDeadline entry nowMs))
      (fun _ => Found (some (touchDeadline entry nowMs))) E) :
  D.Spec me F (getEntry n touch) Found E
  := by
  apply hload.bind
  intro loaded
  cases loaded with
  | none => exact Spec.pure fun _ _ h => h
  | some entry =>
    apply spec_clock.bind
    intro nowMs
    split
    next =>
      apply (hexpire entry nowMs).bind
      intro _
      exact Spec.pure fun _ _ h => h
    next =>
      split
      next =>
        apply spec_clock.bind
        intro nowMs
        simp only
        split
        next =>
          apply (htouch entry nowMs).bind
          intro _
          exact Spec.pure fun _ _ h => h
        next => exact Spec.pure fun _ _ h => h
      next => exact Spec.pure fun _ _ h => h

omit [D.Lasts E] in
/-- The batches of an append, one after the other. `A` says what the stream holds. -/
theorem spec_submitWith {content groups : List (RecordBatch × List Bytes)}
    {A : List (RecordBatch × List Bytes) → World → Prop} [∀ content, D.Lasts (A content)]
    (hsubmit : ∀ content, ∀ group ∈ groups, D.Spec me (A content)
      (submitBatch id group.1 group.2)
      (fun place w => A (content ++ [group]) w ∧ place = content.length) E) :
  D.Spec me (A content) (submitAll id groups)
    (fun places w => A (content ++ groups) w ∧
      places = List.range' content.length groups.length) E
  := by
  induction groups generalizing content with
  | nil =>
    apply Spec.pure
    intro w _ h
    rw [append_nil]
    exact ⟨h, rfl⟩
  | cons group rest ih =>
    apply (hsubmit content group mem_cons_self).bind
    intro place
    apply Spec.of_and
    rintro rfl
    apply (ih fun content group hgroup =>
      hsubmit content group (mem_cons_of_mem _ hgroup)).bind
    intro places
    apply Spec.pure
    rintro w _ ⟨hw, rfl⟩
    rw [append_assoc] at hw
    refine ⟨hw, ?_⟩
    rw [length_append, length_singleton, length_cons, range'_succ]

end Owner

/-! ### Runs -/

/-- What happens outside: a batch settles, or a view advances. -/
theorem Outside.change_cases {x : Outside} {w w' : World} (h : x.change w = some w') :
  (∃ id place durable s s', w.streams id = some s ∧ s.settle place durable = some s' ∧
    w' = w.setStream id (some s')) ∨
  ∃ m, (w.nodes m).seen < w.kvLog.length ∧
    w' = w.setNode m fun node => { node with seen := node.seen + 1 }
  := by
  cases x with
  | settle id place durable =>
    obtain ⟨s, hstored, h⟩ := Option.bind_eq_some_iff.mp h
    obtain ⟨s', hsettled, h⟩ := Option.bind_eq_some_iff.mp h
    cases h
    exact .inl ⟨id, place, durable, s, s', hstored, hsettled, rfl⟩
  | publish m =>
    obtain ⟨hlt, h⟩ := Option.ite_none_right_eq_some.mp h
    cases h
    exact .inr ⟨m, hlt, rfl⟩

/-- A property that no effect and nothing from outside breaks holds throughout a run. -/
theorem invariant_of_runPool {parseJson : Bytes → Option JsonBody} {A I : World → Prop} {w : World}
    {events : List Happening} {pool : Pool}
    (heffect : ∀ n w w', I w → Effect n w w' → A w' → I w')
    (houtside : ∀ (x : Outside) w w', I w → x.change w = some w' → I w') (hw : I w)
    (hthrough : Through parseJson A w events) (hrun : runPool parseJson w events = some pool) :
  I pool.shared
  := by
  apply invariant_of_run (C := fun w w' => ∃ n, Effect n w w') _ houtside hw _ hthrough hrun
  · rintro w w' hI ⟨n, h⟩ hA
    exact heffect n w w' hI h hA
  · intro request _ me
    exact Does.weaken (only_serve me request.2) fun w w' h => ⟨request.1, h⟩

end Service
