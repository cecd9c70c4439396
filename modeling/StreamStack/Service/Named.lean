import StreamStack.Service.Effects

/-!
# The registry never names a destroyed stream

An operation that holds the gate, or looks up the entry without it, is the owner of the entry: as
long as no two of them overlap, every entry that is stored, cached or still in the published view
of the node names a stream whose row is there. `expire` and `delete` make the entry invisible
before they destroy its stream.
-/

namespace Service.Naming

open Tasks Discipline List World

/-! ### What the registry names -/

/-- A stream that is there in the metadata. -/
def Present (w : World) (id : UInt64) : Prop :=
  id < w.nextStreamId ∧ ∃ s, w.streams id = some s ∧ s.row ≠ .deleted

/-- What others do while a task owns the entry. -/
structure NameQuiet (n : ℕ) (w w' : World) : Prop where
  kvLog : w'.kvLog = w.kvLog
  cache : (w'.nodes n).entryCache = (w.nodes n).entryCache
  seen : (w.nodes n).seen ≤ (w'.nodes n).seen
  present : ∀ id, Present w id → Present w' id

/-- Others make no new entry visible. -/
theorem NameQuiet.visible {n : ℕ} {w w' : World} (h : NameQuiet n w w') {entry : RegistryEntry}
    (hvisible : Visible n w' entry) :
  Visible n w entry
  := hvisible.of_later h.kvLog h.cache h.seen

/-- What holds in every state. -/
structure NameInv (n : ℕ) (w : World) : Prop where
  exclusive : (w.nodes n).gate = none ∨ w.trace.looking = none
  seen : (w.nodes n).seen ≤ w.kvLog.length
  present : ∀ entry, Visible n w entry → Present w entry.streamId

/-- No lookup without the gate overlaps another access, and the deletion of an expired entry is
answered. -/
def Undisturbed (w : World) : Prop :=
  w.trace.clash = false ∧ w.trace.unanswered = false

instance : DecidablePred Undisturbed :=
  fun _ => inferInstanceAs (Decidable (_ ∧ _))

/-- The task that holds the gate or looks the entry up without it is the owner of the entry. -/
def naming (n : ℕ) : Discipline World where
  Allowed := Undisturbed
  owner w := (w.nodes n).gate.or w.trace.looking
  Inv := NameInv n
  Rest _ := True
  Kept _ _ := True
  Quiet := NameQuiet n
  kept_refl _ := trivial
  kept_trans _ _ := trivial
  quiet_refl _ := ⟨rfl, rfl, le_rfl, fun _ h => h⟩
  quiet_trans h h' := ⟨h'.kvLog.trans h.kvLog, h'.cache.trans h.cache, h.seen.trans h'.seen,
    fun id hid => h'.present id (h.present id hid)⟩
  rest_quiet _ _ _ _ := trivial

/-! ### Calm steps -/

section Calm

variable {n : ℕ} {w w' : World}

/-- A step that leaves the registry and the locks alone. -/
theorem calm_of_sameRegistry (hnode : (w'.nodes n).gate = (w.nodes n).gate ∧
      (w'.nodes n).entryCache = (w.nodes n).entryCache ∧
      (w.nodes n).seen ≤ (w'.nodes n).seen ∧
      (w'.nodes n).seen ≤ max (w.nodes n).seen w.kvLog.length)
    (hlog : w'.kvLog = w.kvLog) (hlooking : w'.trace.looking = w.trace.looking)
    (hpresent : ∀ id, Present w id → Present w' id) :
  (naming n).Calm w w'
  := by
  obtain ⟨hgate, hcache, hseen, hmost⟩ := hnode
  rintro ⟨hinv, -⟩
  have hquiet : NameQuiet n w w' := ⟨hlog, hcache, hseen, hpresent⟩
  refine ⟨?_, trivial, ?_, hquiet⟩
  · constructor
    · rw [hgate, hlooking]
      exact hinv.exclusive
    · rw [hlog]
      exact hmost.trans (max_le hinv.seen le_rfl)
    · intro entry hvisible
      exact hpresent _ (hinv.present entry (hquiet.visible hvisible))
  · change (w'.nodes n).gate.or w'.trace.looking = (w.nodes n).gate.or w.trace.looking
    rw [hgate, hlooking]

theorem calm_setTrace {f : Trace → Trace} (h : (f w.trace).looking = w.trace.looking) :
  (naming n).Calm w (w.setTrace f)
  := calm_of_sameRegistry ⟨rfl, rfl, le_rfl, le_max_left ..⟩ rfl h fun _ hid => hid

theorem calm_setNode {f : NodeState → NodeState} (hgate : (f (w.nodes n)).gate = (w.nodes n).gate)
    (hcache : (f (w.nodes n)).entryCache = (w.nodes n).entryCache)
    (hseen : (f (w.nodes n)).seen = (w.nodes n).seen) :
  (naming n).Calm w (w.setNode n f)
  := by
  refine calm_of_sameRegistry ?_ rfl rfl fun _ hid => hid
  rw [nodes_setNode, hgate, hcache, hseen]
  exact ⟨rfl, rfl, le_rfl, le_max_left ..⟩

/-- A change that does not delete the row leaves every stream present. -/
theorem present_setStream {id id' : UInt64} {s s' : EngineStream} (hstored : w.streams id = some s)
    (hrow : s.row ≠ .deleted → s'.row ≠ .deleted) (h : Present w id') :
  Present (w.setStream id (some s')) id'
  := by
  obtain ⟨hlt, t, ht, hpresent⟩ := h
  refine ⟨hlt, ?_⟩
  by_cases heq : id' = id
  · subst heq
    cases hstored.symm.trans ht
    exact ⟨s', Function.update_self .., hrow hpresent⟩
  · exact ⟨t, (Function.update_of_ne heq ..).trans ht, hpresent⟩

theorem calm_setStream {id : UInt64} {s s' : EngineStream} (hstored : w.streams id = some s)
    (hrow : s.row ≠ .deleted → s'.row ≠ .deleted) :
  (naming n).Calm w (w.setStream id (some s'))
  := calm_of_sameRegistry ⟨rfl, rfl, le_rfl, le_max_left ..⟩ rfl rfl
      fun _ => present_setStream hstored hrow

theorem calm_of_mild (h : Mild n w w') :
  (naming n).Calm w w'
  := by
  cases h with
  | opening h =>
    cases h with
    | look => exact calm_setTrace (f := fun t => t) rfl
    | handles openStreams => exact calm_setNode rfl rfl rfl
    | openLock openLock => exact calm_setNode rfl rfl rfl
    | reopen id s hstored hclosed => exact calm_setStream hstored fun _ => nofun
  | submit id s batch messages hstored hoperable => exact calm_setStream hstored fun h => h
  | closeHandle id s hstored => exact calm_setStream hstored fun h => h
  | moveStart id s startOffset hstored => exact calm_setStream hstored fun h => h
  | resetTail => exact calm_setNode rfl rfl rfl
  | applied applied => exact calm_setTrace rfl
  | failed => exact calm_setTrace rfl

theorem calm_closeStream (id : UInt64) :
  Only (naming n).Calm (closeStream id)
  := by
  apply only_closeStream (fun _ _ => calm_of_mild)
  intro w s hstored _
  exact calm_setStream hstored fun _ => nofun

theorem calm_recordAppend (id : UInt64) (base : ℕ) (messages : List Bytes) :
  Only (naming n).Calm (recordAppend n id base messages)
  := by
  apply only_change
  intro w
  exact Calm.trans (calm_setNode rfl rfl rfl) (calm_setTrace rfl)

theorem calm_takeCached (start : ℕ) :
  Only (naming n).Calm (takeCached n start)
  := by
  apply Only.perform
  intro i w w' r h
  cases h
  exact calm_setTrace rfl

theorem calm_look (w : World) :
  (naming n).Calm w w
  := calm_of_mild (Mild.look w)

/-- Nothing outside of the calls makes a stream go. -/
theorem calm_outside {x : Outside} (h : x.change w = some w') :
  (naming n).Calm w w'
  := by
  obtain ⟨id, place, durable, s, s', hstored, hsettled, rfl⟩ | ⟨m, hlt, rfl⟩ := x.change_cases h
  · apply calm_setStream hstored
    rw [s.row_settle hsettled]
    exact fun h => h
  · refine calm_of_sameRegistry ?_ rfl rfl fun _ hid => hid
    by_cases heq : n = m
    · subst heq
      rw [nodes_setNode]
      exact ⟨rfl, rfl, Nat.le_succ _, hlt.trans_le (le_max_right ..)⟩
    · rw [nodes_setNode_of_ne w heq]
      exact ⟨rfl, rfl, le_rfl, le_max_left ..⟩

end Calm

/-! ### What the owner knows -/

section Facts

variable {n : ℕ}

instance (id : UInt64) : (naming n).Lasts fun w => Present w id :=
  ⟨fun _ _ _ _ hquiet => hquiet.present id⟩

/-- The key is gone. -/
def NoKey (n : ℕ) (w : World) : Prop :=
  ∀ j, (w.nodes n).seen ≤ j → w.kvAt j = none

instance : (naming n).Lasts (NoKey n) where
  lasting := by
    intro w w' _ _ hquiet h j hj
    have hnone := h j (hquiet.seen.trans hj)
    rw [kvAt] at hnone ⊢
    rw [hquiet.kvLog]
    exact hnone

/-- The node comes across no entry. -/
def Unregistered (n : ℕ) (w : World) : Prop :=
  ∀ entry, ¬ Visible n w entry

instance : (naming n).Lasts (Unregistered n) :=
  ⟨fun _ _ _ _ hquiet h entry hvisible => h entry (hquiet.visible hvisible)⟩

/-- A stream that no entry names. -/
def Nameless (n : ℕ) (id : UInt64) (w : World) : Prop :=
  ∀ entry, Visible n w entry → entry.streamId ≠ id

instance (id : UInt64) : (naming n).Lasts (Nameless n id) :=
  ⟨fun _ _ _ _ hquiet h entry hvisible => h entry (hquiet.visible hvisible)⟩

end Facts

/-! ### Changes of the registry -/

section Changes

variable {n : ℕ} {w w' : World} {value : Option RegistryEntry}

theorem present_putKv (h : PutsKey n w value w') {id : UInt64} :
  Present w' id ↔ Present w id
  := by
  rw [Present, Present, h.streams, h.nextStreamId]

/-- A write to the key leaves the gate alone. -/
theorem owner_putKv (h : PutsKey n w value w') :
  (naming n).owner w' = (naming n).owner w
  := by
  change (w'.nodes n).gate.or w'.trace.looking = (w.nodes n).gate.or w.trace.looking
  rw [h.gate, h.looking]

/-- The entry that is stored names a stream that is there. -/
theorem inv_putKv (h : PutsKey n w value w') (hinv : NameInv n w)
    (hvalue : ∀ entry, value = some entry → Present w entry.streamId) :
  NameInv n w'
  := by
  constructor
  · rw [h.gate, h.looking]
    exact hinv.exclusive
  · exact h.seen_le hinv.seen
  · intro entry hvisible
    rw [present_putKv h]
    rcases h.visible hinv.seen hvisible with hvisible | hentry
    · exact hinv.present entry hvisible
    · exact hvalue entry hentry

/-- A node that has its own deletion answered sees no key. -/
theorem noKey_answered :
  NoKey n ((w.putKv none).catchUp n)
  := by
  intro j hj
  have hat : ((w.putKv none).catchUp n).kvAt j = (w.putKv none).kvAt j := rfl
  have hseen : w.kvLog.length + 1 ≤ j := by
    simpa [catchUp, World.putKv] using hj
  rw [hat, kvAt_putKv]
  split
  next => rfl
  next hne =>
    rw [kvAt]
    split
    next => rfl
    next => rw [getElem?_eq_none (by omega), Option.join_none]

/-- The cached entry changes. -/
theorem inv_cache (hinv : NameInv n w)
    (hvalue : ∀ entry, value = some entry → Present w entry.streamId) :
  NameInv n (w.setNode n fun node => { node with entryCache := value })
  := by
  constructor
  · rw [nodes_setNode]
    exact hinv.exclusive
  · rw [nodes_setNode]
    exact hinv.seen
  · intro entry hvisible
    rcases hvisible.of_cache with hvisible | hentry
    · exact hinv.present entry hvisible
    · exact hvalue entry hentry

/-- A row is deleted that no entry names. -/
theorem inv_deleteRow {id : UInt64} {s : EngineStream} (hinv : NameInv n w)
    (hnameless : Nameless n id w) :
  NameInv n (w.setStream id (some { s with row := .deleted }))
  := by
  constructor
  · exact hinv.exclusive
  · exact hinv.seen
  · intro entry hvisible
    obtain ⟨hlt, t, ht, hpresent⟩ := hinv.present entry hvisible
    exact ⟨hlt, t, (Function.update_of_ne (hnameless entry hvisible) ..).trans ht, hpresent⟩

end Changes

/-! ### Entries -/

variable {α : Type} {x : Op α}

section Entries

variable {n me : ℕ} {F : World → Prop} [(naming n).Lasts F]

/-- The spec of a program that only has mild effects. -/
theorem spec_mild (h : Only (Mild n) x) :
  (naming n).Preserves me F x
  := Spec.calm (h.weaken fun _ _ => calm_of_mild)

/-- Caching an entry whose stream is there, or forgetting one. -/
theorem spec_cacheEntry {value : Option RegistryEntry} {G E : World → Prop} [(naming n).Lasts G]
    [(naming n).Lasts E]
    (hvalue : ∀ w, NameInv n w → F w → ∀ entry, value = some entry → Present w entry.streamId)
    (h : ∀ w, NameInv n w → F w → G (w.setNode n fun node => { node with entryCache := value })) :
  (naming n).Spec me F (cacheEntry n value) (fun _ => G) E
  := by
  apply spec_change
  intro w hinv howner hf _
  refine ⟨inv_cache hinv (hvalue w hinv hf), trivial, ?_, h w hinv hf⟩
  change ((w.setNode n _).nodes n).gate.or _ = some me
  rw [nodes_setNode]
  exact howner

/-- A call that stores a value which names a stream that is there, if any. -/
theorem spec_putWith {value : World → Option RegistryEntry} {answer : World → α}
    {G : α → World → Prop} [∀ a, (naming n).Lasts (G a)]
    (hvalue : ∀ w, NameInv n w → F w → ∀ entry, value w = some entry → Present w entry.streamId)
    (h : ∀ w, NameInv n w → F w → G (answer w) ((w.putKv (value w)).catchUp n)) :
  (naming n).Spec me F (callWith (fun w => w.putKv (value w)) (fun w => w.catchUp n) answer) G
    fun _ => True
  := by
  apply spec_callWith
  · intro w hinv howner hf _
    exact ⟨inv_putKv putsKey_answered hinv (hvalue w hinv hf), trivial,
      (owner_putKv putsKey_answered).trans howner, h w hinv hf⟩
  · intro w hinv howner hf _
    exact ⟨inv_putKv putsKey_lost hinv (hvalue w hinv hf), trivial,
      (owner_putKv putsKey_lost).trans howner, trivial⟩
  · intro w hinv howner _ _
    obtain ⟨hinv', -, howner', -⟩ := calm_of_mild (n := n) (Mild.failed w) ⟨hinv, fun _ => trivial⟩
    exact ⟨hinv', trivial, howner'.trans howner, trivial⟩

variable {entry : RegistryEntry}

/-- An entry is written for a stream that is present. -/
theorem spec_putEntry :
  (naming n).Spec me (fun w => Present w entry.streamId) (putEntry n entry)
    (fun _ w => Present w entry.streamId) fun _ => True
  := by
  apply Spec.bind (G := fun _ w => Present w entry.streamId)
  · apply spec_putWith
    · intro w _ hf entry' heq
      cases heq
      exact hf
    · intro w _ hf
      exact (present_putKv putsKey_answered).mpr hf
  · intro _
    apply spec_cacheEntry
    · intro w _ hf entry' heq
      cases heq
      exact hf
    · exact fun _ _ hf => hf

/-- Destroying a stream that no entry names. -/
theorem step_destroys {id : UInt64} {w w' : World} (h : Destroys n id w w') (hinv : NameInv n w)
    (howner : (naming n).owner w = some me) (hnameless : Nameless n id w) :
  NameInv n w' ∧ (naming n).owner w' = some me ∧ ∀ entry, Visible n w' entry → Visible n w entry
  := by
  cases h with
  | mild h =>
    obtain ⟨hinv', -, howner', hquiet⟩ := calm_of_mild h ⟨hinv, fun _ => trivial⟩
    exact ⟨hinv', howner'.trans howner, fun _ => hquiet.visible⟩
  | closeRow s hstored hpresent =>
    have hcalm : (naming n).Calm w (w.setStream id (some { s with row := .closed })) :=
      calm_setStream hstored fun _ => nofun
    obtain ⟨hinv', -, howner', hquiet⟩ := hcalm ⟨hinv, fun _ => trivial⟩
    exact ⟨hinv', howner'.trans howner, fun _ => hquiet.visible⟩
  | deleteRow s hstored => exact ⟨inv_deleteRow hinv hnameless, howner, fun _ h => h⟩

/-- A stream is destroyed after the node comes across no entry any more. -/
theorem spec_destroyStream {id : UInt64} :
  (naming n).Preserves me (Unregistered n) (destroyStream n id)
  := by
  apply Spec.only (destroys_destroyStream id)
  intro w w' hstep hinv howner h _
  have hnameless : Nameless n id w := fun entry hvisible => absurd hvisible (h entry)
  obtain ⟨hinv', howner', hvisible⟩ := step_destroys hstep hinv howner hnameless
  exact ⟨hinv', trivial, howner', fun entry hentry => h entry (hvisible entry hentry)⟩

/-- After an answer the key is gone. -/
theorem spec_delExpired {nowMs : Int64} :
  (naming n).Spec me (fun _ => True) (delExpired n entry nowMs) (fun _ => NoKey n) fun _ => False
  := by
  apply Spec.perform
  intro w i w' r heq hinv howner _ hallowed
  split at heq
  · cases heq
    have hputs : PutsKey n w none ((w.deleteExpired entry nowMs).catchUp n) := putsKey_expired
    refine ⟨inv_putKv hputs hinv nofun, trivial, (owner_putKv hputs).trans howner, ?_⟩
    exact noKey_answered (w := w)
  · cases heq
    exact absurd hallowed.2 nofun
  · cases heq
    exact absurd hallowed.2 nofun

/-- With the key gone, forgetting the cached entry leaves none. -/
theorem spec_forget {E : World → Prop} [(naming n).Lasts E] :
  (naming n).Spec me (NoKey n) (cacheEntry n none) (fun _ => Unregistered n) E
  := by
  apply spec_cacheEntry
  · intro _ _ _ entry heq
    cases heq
  · rintro w _ hnokey entry (⟨j, hj, hentry⟩ | hcache)
    · rw [nodes_setNode] at hj
      exact absurd (hentry.symm.trans (hnokey j hj)) nofun
    · rw [nodes_setNode] at hcache
      cases hcache

theorem spec_expire {nowMs : Int64} :
  (naming n).Preserves me (fun _ => True) (expire n entry nowMs)
  := by
  have hdel : (naming n).Spec me (fun _ => True) (attempt (delExpired n entry nowMs))
      (fun _ => NoKey n) fun _ => True := by
    apply spec_delExpired.attempt.grant
    intro r w _ hr
    cases r with
    | ok _ => exact hr
    | error e => exact hr.elim
  apply hdel.bind
  intro _
  apply spec_forget.bind
  intro _
  apply (spec_destroyStream.excuse fun _ _ _ => trivial).bind
  intro _
  exact (spec_mild mild_resetTail).assume fun _ _ _ => trivial

/-- A loaded entry names a stream that is there. -/
def Found (entry : Option RegistryEntry) (w : World) : Prop :=
  ∀ found, entry = some found → Present w found.streamId

instance (entry : Option RegistryEntry) : (naming n).Lasts (Found entry) :=
  ⟨fun _ _ _ _ hquiet h found heq => hquiet.present found.streamId (h found heq)⟩

theorem found_some {w : World} :
  Found (some entry) w ↔ Present w entry.streamId
  := by
  constructor
  · intro h
    exact h entry rfl
  · intro h found heq
    cases heq
    exact h

/-- Whatever entry is loaded, its stream is present. -/
theorem spec_loadEntry :
  (naming n).Spec me (fun _ => True) (loadEntry n) Found fun _ => True
  := by
  apply spec_loadWith
  · intro w entry hinv _ hcached
    exact found_some.mpr (hinv.present entry (.inr hcached))
  · intro w hinv _ found heq
    exact hinv.present found (.inl ⟨_, le_rfl, heq⟩)
  · intro entry
    exact spec_cacheEntry (fun _ _ h => h) fun _ _ h => h

theorem spec_getEntry (touch : Bool) :
  (naming n).Spec me (fun _ => True) (getEntry n touch) Found fun _ => True
  := by
  apply spec_getWith spec_loadEntry
  · intro entry nowMs
    exact (spec_expire.assume fun _ _ _ => trivial).grant fun _ _ _ _ => nofun
  · intro entry nowMs
    apply spec_putEntry.weaken _ (fun _ w _ h => found_some.mpr h) fun _ _ h => h
    intro w _ h
    rw [streamId_touchDeadline]
    exact h entry rfl

omit [(naming n).Lasts F] in
theorem spec_requireEntry :
  (naming n).Spec me F (requireEntry n) (fun entry w => Present w entry.streamId) fun _ => True
  := by
  apply ((spec_getEntry false).assume fun _ _ _ => trivial).bind
  intro entry
  cases entry with
  | none => exact Spec.throw fun _ _ _ => trivial
  | some entry => exact Spec.pure fun w _ h => h entry rfl

end Entries

/-! ### Operations -/

section Operations

variable {n me : ℕ} {parseJson : Bytes → Option JsonBody}

/-- Calm programs may follow whatever is known. -/
theorem spec_calm {F : World → Prop} (h : Only (naming n).Calm x) :
  (naming n).Spec me F x (fun _ _ => True) fun _ => True
  := (Spec.calm h).assume fun _ _ _ => trivial

theorem calm_mild (h : Only (Mild n) x) :
  Only (naming n).Calm x
  := h.weaken fun _ _ => calm_of_mild

theorem calm_toMetaLive (entry : RegistryEntry) :
  Only (naming n).Calm (toMetaLive n me entry)
  := calm_mild (mild_of_opening (opening_toMetaLive me entry))

theorem calm_dropHandle (id : UInt64) (e : ServiceError) :
  Only (naming n).Calm (dropHandle n id e : Op α)
  := calm_mild (mild_dropHandle id e)

/-- What is known stays so over a calm program. -/
theorem spec_past {F : World → Prop} [(naming n).Lasts F] (h : Only (naming n).Calm x) :
  (naming n).Spec me F x (fun _ => F) fun _ => True
  := (Spec.calm h).excuse fun _ _ _ => trivial

theorem spec_finishClosing {updated : RegistryEntry} {command : AppendCommand} {closeOnly : Bool}
    {p : Pipelined} :
  (naming n).Spec me (fun w => Present w updated.streamId)
    (finishClosing n updated command closeOnly p) (fun _ _ => True) fun _ => True
  := by
  apply (spec_past (only_awaitDurable calm_look p.streamId p.places).attempt).bind
  intro durable
  cases durable with
  | error e => exact spec_calm (calm_dropHandle p.streamId e)
  | ok _ =>
    apply (spec_past (calm_recordAppend _ _ _).onlyIf).bind
    intro _
    apply Spec.bind (G := fun _ _ => True)
    · apply spec_clock.bind
      intro nowMs
      apply spec_putEntry.weaken _ (fun _ _ _ _ => trivial) fun _ _ h => h
      intro w _ h
      rw [streamId_touchDeadline]
      exact h
    · intro _
      exact Spec.pure fun _ _ h => h

theorem spec_finishPipelined {entry updated : RegistryEntry} {p : Pipelined} :
  (naming n).Spec me (fun w => Present w updated.streamId) (finishPipelined n entry updated p)
    (fun _ _ => True) fun _ => True
  := by
  apply spec_clock.bind
  intro nowMs
  apply Spec.bind (G := fun _ _ => True)
  · apply Spec.onlyIf _ fun _ _ _ _ => trivial
    intro _
    apply spec_putEntry.weaken _ (fun _ _ _ _ => trivial) fun _ _ h => h
    intro w _ h
    rw [streamId_touchDeadline]
    exact h
  · intro _
    exact Spec.pure fun _ _ h => h

theorem spec_submitAppend {entry : RegistryEntry} {command : AppendCommand} {base : ℕ}
    {closeOnly : Bool} {messages : List Bytes} :
  (naming n).Spec me (fun w => Present w entry.streamId)
    (submitAppend n me entry command base closeOnly messages) (fun _ _ => True) fun _ => True
  := by
  apply (spec_past (calm_mild (mild_submitAll entry.streamId _)).attempt).bind
  intro submitted
  cases submitted with
  | error e => exact spec_calm (calm_dropHandle entry.streamId e)
  | ok places =>
    apply (spec_past (only_offsetAfterSubmit calm_look _ _ _)).bind
    intro next
    apply (spec_past (calm_mild (mild_noteApplied _)).onlyIf).bind
    intro _
    have hsame := streamId_applyAppendState entry command (decisionOf entry command)
    simp only
    split
    · apply spec_finishClosing.assume
      intro w _ h
      rw [hsame]
      exact h
    · apply spec_finishPipelined.assume
      intro w _ h
      rw [hsame]
      exact h

theorem spec_appendGated (command : AppendCommand) :
  (naming n).Preserves me (fun _ => True) (appendGated parseJson n me command)
  := by
  apply (spec_getEntry false).bind
  intro entry
  cases entry with
  | none => exact Spec.throw fun _ _ _ => trivial
  | some entry =>
    apply (spec_past (calm_mild (mild_of_opening (opening_ensureOpen me entry.streamId)))).bind
    intro _
    apply (spec_past (only_lookStream calm_look _ _)).bind
    intro next
    split
    · exact Spec.throw fun _ _ _ => trivial
    · exact Spec.pure fun _ _ _ => trivial
    · apply spec_submitAppend.assume
      intro w _ h
      exact found_some.mp h

theorem spec_deleteGated :
  (naming n).Preserves me (fun _ => True) (deleteGated n)
  := by
  apply (spec_getEntry false).bind
  intro entry
  cases entry with
  | none => exact Spec.pure fun _ _ _ => trivial
  | some entry =>
    have hdel : (naming n).Spec me (Found (some entry)) (delKv n) (fun _ => NoKey n)
        fun _ => True := by
      apply spec_putWith
      · intro _ _ _ entry' heq
        cases heq
      · intro w _ _
        exact noKey_answered
    apply hdel.bind
    intro deleted
    apply spec_forget.bind
    intro _
    split
    · exact Spec.pure fun _ _ _ => trivial
    · apply (spec_destroyStream.excuse fun _ _ _ => trivial).bind
      intro _
      apply (spec_calm (calm_mild mild_resetTail)).bind
      intro _
      exact Spec.pure fun _ _ h => h

theorem spec_trimGated (newStartOffset : ℕ) :
  (naming n).Preserves me (fun _ => True) (trimGated n me newStartOffset)
  := by
  apply (spec_getEntry false).bind
  intro entry
  cases entry with
  | none => exact Spec.throw fun _ _ _ => trivial
  | some entry =>
    apply spec_calm
    apply (calm_mild (mild_of_opening (opening_ensureOpen me entry.streamId))).bind
    intro _
    apply Only.bind
    · apply Only.perform
      intro i w t r h
      cases h
      apply calm_look
    · intro committedEnd
      apply (only_lookStream calm_look _ _).bind
      intro bounds
      apply (calm_mild (mild_moveStart _ _)).onlyIf.bind
      intro _
      apply only_lookStream calm_look

theorem spec_readGated (start maxBytes maxRecords : ℕ) :
  (naming n).Preserves me (fun _ => True) (readGated n me start maxBytes maxRecords)
  := by
  apply (spec_getEntry true).bind
  intro entry
  cases entry with
  | none => exact Spec.throw fun _ _ _ => trivial
  | some entry =>
    apply spec_calm
    apply (calm_mild (mild_of_opening (opening_ensureOpen me entry.streamId))).bind
    intro _
    apply (only_lookStream calm_look _ _).bind
    intro stop
    split
    · apply Only.throw
    · split
      · apply Only.pure
      · apply (calm_takeCached start).bind
        intro cached
        cases cached with
        | some cached => apply Only.pure
        | none =>
          apply (only_fetch calm_look _ start stop).bind
          intro fetched
          split
          · apply Only.throw
          · apply Only.pure

/-! ### Creation -/

/-- A created stream is there, and no entry names it. -/
theorem inv_create {w : World} (hinv : NameInv n w) (hroom : w.nextStreamId + 1 ≠ 0) :
  let created := { w.setStream w.nextStreamId (some .new) with nextStreamId := w.nextStreamId + 1 }
  NameInv n created ∧ Present created w.nextStreamId ∧ Nameless n w.nextStreamId created
  := by
  have hlt := lt_add_one_of_room hroom
  have hne : ∀ entry, Visible n w entry → entry.streamId ≠ w.nextStreamId :=
    fun entry hvisible => UInt64.ne_of_lt (hinv.present entry hvisible).1
  refine ⟨⟨hinv.exclusive, hinv.seen, ?_⟩, ⟨hlt, .new, Function.update_self .., nofun⟩, hne⟩
  intro entry hvisible
  obtain ⟨hbelow, s, hs, hpresent⟩ := hinv.present entry hvisible
  have hsame := Function.update_of_ne (hne entry hvisible) (some EngineStream.new) w.streams
  exact ⟨UInt64.lt_trans hbelow hlt, s, hsame.trans hs, hpresent⟩

/-- A new stream is present and no entry names it. -/
theorem spec_createStream :
  (naming n).Spec me (fun _ => True) createStream
    (fun id w => Present w id ∧ Nameless n id w) fun _ => True
  := by
  apply Spec.perform
  intro w i w' r heq hinv howner _ _
  simp only at heq
  split at heq
  next => cases heq
  next hroom =>
    obtain ⟨hinv', hpresent, hnameless⟩ := inv_create hinv hroom
    split at heq
    · cases heq
      exact ⟨hinv', trivial, howner, hpresent, hnameless⟩
    · cases heq
      exact ⟨hinv', trivial, howner, trivial⟩
    · cases heq
      exact ⟨hinv, trivial, howner, trivial⟩

/-- What is known of the entry that is stored after a creation. -/
def Stored (n : ℕ) (id : UInt64) (stored : RegistryEntry) (w : World) : Prop :=
  Present w stored.streamId ∧ (stored.streamId ≠ id → Nameless n id w)

instance (id : UInt64) (stored : RegistryEntry) : (naming n).Lasts (Stored n id stored) :=
  Lasts.and _ _

/-- Either the entry is stored, or another was there and the new stream stays nameless. -/
theorem spec_putKvIfAbsent (entry : RegistryEntry) :
  (naming n).Spec me (fun w => Present w entry.streamId ∧ Nameless n entry.streamId w)
    (putKvIfAbsent n entry) (Stored n entry.streamId) fun _ => True
  := by
  have hvalue : ∀ w, NameInv n w → Present w entry.streamId →
      Present w (w.kv.getD entry).streamId := by
    intro w hinv hpresent
    cases hkv : w.kv with
    | none => exact hpresent
    | some stored => exact hinv.present stored (visible_kv hinv.seen hkv)
  apply spec_putWith
  · intro w hinv hf stored heq
    cases heq
    exact hvalue w hinv hf.1
  · rintro w hinv ⟨hpresent, hnameless⟩
    have hputs : PutsKey n w (some (w.kv.getD entry)) _ := putsKey_answered
    refine ⟨(present_putKv hputs).mpr (hvalue w hinv hpresent), ?_⟩
    intro hne other hvisible
    rcases hputs.visible hinv.seen hvisible with hvisible | heq
    · exact hnameless other hvisible
    · rw [← Option.some.inj heq]
      exact hne

theorem spec_cacheStored {id : UInt64} {stored : RegistryEntry} :
  (naming n).Spec me (Stored n id stored) (cacheEntry n (some stored))
    (fun _ => Stored n id stored) fun _ => True
  := by
  apply spec_cacheEntry
  · intro w _ h entry heq
    cases heq
    exact h.1
  · rintro w _ ⟨hpresent, hnameless⟩
    refine ⟨hpresent, ?_⟩
    intro hne entry hvisible
    rcases hvisible.of_cache with hvisible | heq
    · exact hnameless hne entry hvisible
    · rw [← Option.some.inj heq]
      exact hne

variable {current : RegistryEntry} {command : CreateCommand}

/-- The loser destroys its own stream, which no entry names. -/
theorem spec_resolveLostRace {id : UInt64} :
  (naming n).Spec me (Nameless n id) (resolveLostRace n me id current command) (fun _ _ => True)
    fun _ => True
  := by
  have hdestroy : (naming n).Preserves me (Nameless n id) (destroy id) := by
    apply Spec.only (destroys_destroy id)
    intro w w' hstep hinv howner h _
    obtain ⟨hinv', howner', hvisible⟩ := step_destroys hstep hinv howner h
    exact ⟨hinv', trivial, howner', fun entry hentry => h entry (hvisible entry hentry)⟩
  apply hdestroy.attempt_same.bind
  intro _
  apply spec_calm
  apply (calm_mild (mild_of_opening (opening_removeHandle id))).bind
  intro _
  split
  · apply Only.throw
  · apply (calm_toMetaLive current).bind
    intro info
    apply Only.pure

theorem spec_closeCreated :
  (naming n).Spec me (fun w => Present w current.streamId) (closeCreated n command current)
    (fun entry w => Present w entry.streamId) fun _ => True
  := by
  unfold closeCreated
  split
  · apply Spec.bind (G := fun _ _ => True)
    · exact spec_putEntry.weaken (fun _ _ h => h) (fun _ _ _ _ => trivial) fun _ _ h => h
    · intro _
      exact spec_requireEntry
  · exact Spec.pure fun _ _ h => h

/-- The whole of a creation behind the gate. -/
theorem spec_createGated (command : CreateCommand) :
  (naming n).Preserves me (fun _ => True) (createGated parseJson n me command)
  := by
  apply (spec_getEntry false).bind
  intro existing
  cases existing with
  | some existing =>
    apply spec_calm
    simp only
    split
    · apply Only.throw
    · apply (calm_toMetaLive existing).bind
      intro info
      apply Only.pure
  | none =>
    have hprovision : (naming n).Spec me (Found none) (provisionStream n)
        (fun id w => Present w id ∧ Nameless n id w) fun _ => True := by
      apply (spec_createStream.assume fun _ _ _ => trivial).bind
      intro id
      apply (spec_past (calm_mild (mild_of_opening (opening_insertHandle id)))).bind
      intro _
      exact Spec.pure fun _ _ h => h
    apply hprovision.bind
    intro id
    apply spec_clock.bind
    intro nowMs
    apply (spec_putKvIfAbsent (candidateOf command id nowMs)).bind
    intro stored
    apply spec_cacheStored.bind
    intro _
    split
    next hne => exact spec_resolveLostRace.assume fun _ _ h => h.2 hne
    next =>
      apply ((spec_past (only_appendInitialPayload (fun _ _ => calm_of_mild)
        (calm_recordAppend id) command)).assume fun _ _ h => h.1).bind
      intro appended
      apply Spec.bind (G := fun entry w => Present w entry.streamId)
      · unfold entryAfterPayload
        split
        · exact spec_requireEntry
        · exact Spec.pure fun _ _ h => h
      · intro current
        apply spec_closeCreated.bind
        intro current
        apply spec_calm
        apply (only_lookStream calm_look _ _).bind
        intro info
        apply Only.pure

/-! ### Turns -/

/-- The owner changes and the registry stays. -/
theorem NameInv.turn {w w' : World} (hinv : NameInv n w)
    (hexclusive : (w'.nodes n).gate = none ∨ w'.trace.looking = none)
    (hcache : (w'.nodes n).entryCache = (w.nodes n).entryCache)
    (hseen : (w'.nodes n).seen = (w.nodes n).seen) (hlog : w'.kvLog = w.kvLog)
    (hpresent : ∀ id, Present w id → Present w' id) :
  NameInv n w'
  := by
  have hquiet : NameQuiet n w w' := ⟨hlog, hcache, hseen.ge, hpresent⟩
  refine ⟨hexclusive, ?_, ?_⟩
  · rw [hseen, hlog]
    exact hinv.seen
  · intro entry hvisible
    exact hpresent _ (hinv.present entry (hquiet.visible hvisible))

theorem none_of_unclashed {a : Bool} {task : Option ℕ} (h : (a || task.isSome) = false) :
  task = none
  := Option.not_isSome_iff_eq_none.mp (ne_true_of_eq_false (Bool.or_eq_false_iff.mp h).2)

/-- A program under the gate. -/
theorem ensures_withGate {body : Op α}
    (h : (naming n).Preserves me (fun _ => True) body) :
  (naming n).Behaves me (withGate n me body)
  := by
  apply ensures_turn _ _ h (fun _ _ _ _ => trivial) fun _ _ _ _ => trivial
  · rintro w i w' r ⟨hinv, -⟩ heq hallowed
    obtain ⟨hfree, heq⟩ := Option.ite_none_right_eq_some.mp heq
    cases heq
    have hlooking : w.trace.looking = none := none_of_unclashed hallowed.1
    have hgate : (w.nodes n).gate = none := Option.isNone_iff_eq_none.mp hfree
    refine ⟨?_, hinv.turn (.inr hlooking) ?_ ?_ rfl fun _ hid => hid, trivial, ?_, trivial⟩
    · simp [naming, hgate, hlooking]
    · simp
    · simp
    · simp [naming]
  · rintro w i w' r hinv howner - heq -
    cases heq
    refine ⟨⟨hinv.turn (.inl ?_) ?_ ?_ rfl fun _ hid => hid, fun _ => trivial⟩, trivial⟩
    · simp
    · simp
    · simp

/-- A lookup without the gate. -/
theorem ensures_withoutGate {body : Op α}
    (h : (naming n).Preserves me (fun _ => True) body) :
  (naming n).Behaves me (withoutGate n me body)
  := by
  apply ensures_turn _ _ h (fun _ _ _ _ => trivial) fun _ _ _ _ => trivial
  · rintro w i w' r ⟨hinv, -⟩ heq hallowed
    cases heq
    have hgate : (w.nodes n).gate = none := none_of_unclashed hallowed.1
    have hlooking : w.trace.looking = none :=
      none_of_unclashed (Bool.or_eq_false_iff.mp hallowed.1).1
    refine ⟨?_, hinv.turn (.inl hgate) rfl rfl rfl fun _ hid => hid, trivial, ?_, trivial⟩
    · simp [naming, hgate, hlooking]
    · simp [naming, hgate]
  · rintro w i w' r hinv howner - heq -
    cases heq
    exact ⟨⟨hinv.turn (.inr rfl) rfl rfl rfl fun _ hid => hid, fun _ => trivial⟩, trivial⟩

/-- What follows a turn is calm. -/
theorem ensures_after {β : Type} {f : α → Op β} (hx : Ensures ((naming n).rules me) (naming
      n).Good x (fun _ => (naming n).Known fun _ => True) fun _ => (naming n).Good)
    (hf : ∀ a, Only (naming n).Calm (f a)) :
  (naming n).Behaves me (x >>= f)
  := by
  apply hx.bind
  intro a
  exact (ensures_calm (hf a)).weaken (fun _ h => h) (fun _ _ h => h) fun _ _ h => h.1

/-- Every request keeps the discipline. -/
theorem ensures_serve (request : Request) :
  (naming n).Behaves me (serve parseJson n me request)
  := by
  have hmap : ∀ {α : Type} {x : Op α} (f : α → Answer),
      (naming n).Behaves me x →
      (naming n).Behaves me (f <$> x) := by
    intro α x f hx
    exact hx.map fun _ _ h => h
  have hlookup : (naming n).Behaves me (withoutGate n me (getEntry n false)) :=
    ensures_withoutGate ((spec_getEntry false).grant fun _ _ _ _ => trivial)
  cases request with
  | create command =>
    apply hmap
    unfold create
    split
    · exact Ensures.throw stable_good fun _ h => h
    · exact ensures_withGate (spec_createGated command)
  | append command =>
    apply hmap
    apply ensures_after (ensures_withGate (spec_appendGated command.normalized))
    intro result
    cases result with
    | inl result => apply Only.pure
    | inr p => exact only_appendPipelined (fun _ _ => calm_of_mild) (calm_recordAppend _ _ _)
  | read start maxBytes maxRecords =>
    apply hmap
    exact ensures_withGate (spec_readGated start maxBytes maxRecords)
  | trim newStartOffset =>
    apply hmap
    exact ensures_withGate (spec_trimGated newStartOffset)
  | delete =>
    apply hmap
    exact ensures_withGate spec_deleteGated
  | head =>
    apply hmap
    apply ensures_after hlookup
    intro entry
    cases entry with
    | none => apply Only.pure
    | some entry =>
      apply (calm_toMetaLive entry).bind
      intro info
      apply Only.pure
  | lookup =>
    apply hmap
    apply ensures_after hlookup
    intro entry
    apply Only.pure
  | wait start =>
    apply hmap
    apply ensures_after hlookup
    intro entry
    cases entry with
    | none => apply Only.pure
    | some entry =>
      simp only
      split
      · apply Only.pure
      · apply (calm_mild (mild_of_opening (opening_ensureOpen me entry.streamId))).bind
        intro _
        apply (only_lookStream calm_look _ _).bind
        intro confirmOffset
        split
        · apply Only.pure
        · apply Only.perform
          intro i w t r h
          cases h
          apply calm_look
  | release id =>
    apply hmap
    have hrelease := only_releaseGated (fun _ _ => calm_of_mild) (calm_closeStream (n := n) id)
    exact ensures_withGate (spec_calm hrelease)

end Operations

/-! ### Runs -/

/-- In every run of requests to one node in which lookups without the gate overlap no other access
of the registry and `expire` gets its answers, the entry of the name, if there is one, refers to a
stream that is there. -/
theorem registered_present {parseJson : Bytes → Option JsonBody} {n : ℕ} {events : List Happening}
    {pool : Pool} (hnode : ∀ request, Event.call request ∈ events → request.1 = n)
    (hundisturbed : Through parseJson Undisturbed .new events)
    (hrun : runPool parseJson .new events = some pool) :
  ∀ entry, pool.shared.kv = some entry →
    ∃ s, pool.shared.streams entry.streamId = some s ∧ s.row ≠ .deleted
  := by
  have hstart : (naming n).Good .new := by
    refine ⟨⟨.inl rfl, le_rfl, ?_⟩, fun _ => trivial⟩
    rintro entry (⟨j, -, hentry⟩ | hcache)
    · rw [kvAt] at hentry
      split at hentry
      · cases hentry
      · cases hentry
    · cases hcache
  have hcalls : ∀ request, Event.call request ∈ events → ∀ me w, (naming n).Good w →
      Safe ((naming n).rules me) (fun _ _ => True) (taskOf parseJson request me) w := by
    intro request hcall me w hgood
    have hserve : (naming n).Behaves me (serve parseJson n me request.2) :=
      ensures_serve request.2
    rw [taskOf, hnode request hcall]
    exact (hserve w hgood).weaken fun _ _ _ => trivial
  obtain ⟨⟨hinv, -⟩, -⟩ := safe_of_run (Q := fun _ _ _ _ => True)
    (fits fun x w w' h _ => calm_outside h) (fun _ _ h => h) hstart hcalls hundisturbed hrun
  intro entry hentry
  exact (hinv.present entry (visible_kv hinv.seen hentry)).2

/-- A name is created and looked up when its minute is over, and created again. -/
def createdTwice : List Happening :=
  [.call (0, .create minuteStream)] ++ acts 0 10 1 ++ [.call (0, .head)] ++ acts 1 13 60002 ++
    [.call (0, .create minuteStream)] ++ acts 2 10 60003

theorem registered_present_createdTwice :
  ∃ pool, runPool (fun _ => none) .new createdTwice = some pool ∧
    ∃ entry, pool.shared.kv = some entry ∧ entry.streamId = 1 ∧
      ∃ s, pool.shared.streams entry.streamId = some s ∧ s.row ≠ .deleted
  := by
  obtain ⟨pool, hguarded, entry, hkv, hid⟩ : ∃ pool, createdTwice.foldlM (Run.guarded
      (stepPool fun _ => none) (Keeps (taskOf fun _ => none) Outside.change Undisturbed))
      ⟨.new, []⟩ = some pool ∧ ∃ entry, pool.shared.kv = some entry ∧ entry.streamId = 1 := by
    decide +kernel
  obtain ⟨hundisturbed, hrun⟩ := Run.along_of_guarded hguarded
  refine ⟨pool, hrun, entry, hkv, hid, ?_⟩
  apply registered_present (n := 0) _ hundisturbed hrun entry hkv
  intro request hcall
  simp only [createdTwice, acts, mem_append, mem_singleton, mem_replicate,
    Event.call.injEq, reduceCtorEq, and_false, or_false] at hcall
  rcases hcall with (rfl | rfl) | rfl
  · rfl
  · rfl
  · rfl

/-- An append has read the entry when its minute ends. A lookup finds it expired, deletes it and
destroys the stream, and the append stores the entry with a new deadline. -/
def expiredUnderAppend : List Happening :=
  [.call (0, .create minuteStream)] ++ acts 0 10 1 ++ [.call (0, .append (appendOne [7]))] ++
    acts 1 6 59999 ++ [.outside (.settle 0 0 true), .call (0, .head)] ++ acts 2 13 60002 ++
    acts 1 8 60003

/-- All operations are over and the entry of the name refers to a destroyed stream. -/
theorem registered_deleted_expiredUnderAppend :
  ∃ pool, runPool (fun _ => none) .new expiredUnderAppend = some pool ∧
    (∀ task ∈ pool.tasks, task.2.finished) ∧
    ∃ entry, pool.shared.kv = some entry ∧
      ∃ s, pool.shared.streams entry.streamId = some s ∧ s.row = .deleted
  := by
  decide +kernel

end Service.Naming
