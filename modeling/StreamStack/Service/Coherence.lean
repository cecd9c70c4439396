import StreamStack.Service.Effects
import StreamStack.Service.Streams

/-!
# Coherence of the tail cache

The tail cache of a name is filled after the gate is given up, by appends that know where their
messages are in their stream. As long as this stream is still the registered one, the cache holds
what the registered stream holds: the stream is open at its first epoch, so that it has only become
longer since.
-/

namespace Service

open List World

/-- The stream registered under the name. -/
def World.registeredId (w : World) : Option UInt64 :=
  w.kv.map RegistryEntry.streamId

namespace Coherence

open Tasks Discipline EngineStream

/-! ### The discipline -/

/-- What holds in every state. -/
structure CacheInv (n : ℕ) (w : World) : Prop where
  seen : (w.nodes n).seen = w.kvLog.length
  below : ∀ id s, w.streams id = some s → id < w.nextStreamId ∧ Logged s
  registered : ∀ id, w.registeredId = some id → ∃ s, w.streams id = some s ∧ s.row = .opened ∧
    s.epoch = 1 ∧ Agrees (messageAt s.content) (w.nodes n).tail.recent
  served : ∀ x ∈ w.trace.served, x.registered = some x.record.payload

/-- What holds when nobody has the gate. -/
structure CacheRest (n : ℕ) (w : World) : Prop where
  cache : ∀ entry, (w.nodes n).entryCache = some entry → w.registeredId = some entry.streamId
  tail : w.registeredId = none → (w.nodes n).tail = .empty

/-- Streams get longer until they are opened again. -/
def StreamsGrow (w w' : World) : Prop :=
  ∀ id s, w.streams id = some s → ∃ s', w'.streams id = some s' ∧ Grows s s'

/-- What others do while a task has the gate. -/
structure CacheQuiet (n : ℕ) (w w' : World) : Prop where
  kvLog : w'.kvLog = w.kvLog
  cache : (w'.nodes n).entryCache = (w.nodes n).entryCache
  tail : w.registeredId = none → (w.nodes n).tail = .empty → (w'.nodes n).tail = .empty
  streams : ∀ id s, w.streams id = some s → ∃ s', w'.streams id = some s' ∧ Settles s s'

/-- Which stream is registered depends on the writes to the key alone. -/
theorem registeredId_of_kvLog {w w' : World} (h : w'.kvLog = w.kvLog) :
  w'.registeredId = w.registeredId
  := by
  rw [registeredId, kv, kvAt, h]
  rfl

/-- Appends are recorded while their stream is registered, and the calls that change the key are
answered. -/
def Timely (w : World) : Prop :=
  w.trace.late = false ∧ w.trace.failed = false

instance : DecidablePred Timely :=
  fun _ => inferInstanceAs (Decidable (_ ∧ _))

/-- The task that has the gate is the owner. -/
def caching (n : ℕ) : Discipline World where
  Allowed := Timely
  owner w := (w.nodes n).gate
  Inv := CacheInv n
  Rest := CacheRest n
  Kept := StreamsGrow
  Quiet := CacheQuiet n
  kept_refl _ id s h := ⟨s, h, Grows.refl s⟩
  kept_trans := by
    intro w w' w'' h h' id s hs
    obtain ⟨s', hs', hgrows⟩ := h id s hs
    obtain ⟨s'', hs'', hgrows'⟩ := h' id s' hs'
    exact ⟨s'', hs'', hgrows.trans hgrows'⟩
  quiet_refl _ := ⟨rfl, rfl, fun _ h => h, fun _ s h => ⟨s, h, Settles.refl s⟩⟩
  quiet_trans := by
    intro w w' w'' h h'
    refine ⟨h'.kvLog.trans h.kvLog, h'.cache.trans h.cache, ?_, ?_⟩
    · intro hnone htail
      exact h'.tail ((registeredId_of_kvLog h.kvLog).trans hnone) (h.tail hnone htail)
    · intro id s hs
      obtain ⟨s', hs', hsettles⟩ := h.streams id s hs
      obtain ⟨s'', hs'', hsettles'⟩ := h'.streams id s' hs'
      exact ⟨s'', hs'', hsettles.trans hsettles'⟩
  rest_quiet := by
    intro w w' _ _ hquiet hrest
    have hid := registeredId_of_kvLog hquiet.kvLog
    constructor
    · intro entry hentry
      rw [hid]
      exact hrest.cache entry (hquiet.cache ▸ hentry)
    · intro hnone
      rw [hid] at hnone
      exact hquiet.tail hnone (hrest.tail hnone)

theorem StreamsGrow.of_quiet {n : ℕ} {w w' : World} (h : CacheQuiet n w w') :
  StreamsGrow w w'
  := by
  intro id s hs
  obtain ⟨s', hs', hsettles⟩ := h.streams id s hs
  exact ⟨s', hs', hsettles.grows⟩

instance {n : ℕ} : (caching n).Lasts (CacheRest n) :=
  lasting_rest

instance {n : ℕ} {K : World → Prop} [h : (caching n).Persists K] : (caching n).Lasts K :=
  ⟨fun w w' hw hw' hquiet => h.persistent w w' hw hw' (StreamsGrow.of_quiet hquiet)⟩

/-! ### Steps that leave the names alone -/

section Steps

variable {n : ℕ} {w w' : World}

/-- The names stay, and the cache may be emptied. -/
structure SameNames (n : ℕ) (w w' : World) : Prop where
  gate : (w'.nodes n).gate = (w.nodes n).gate
  kvLog : w'.kvLog = w.kvLog
  cache : (w'.nodes n).entryCache = (w.nodes n).entryCache
  tail : (w'.nodes n).tail = (w.nodes n).tail ∨ (w'.nodes n).tail = .empty

theorem SameNames.refl (w : World) :
  SameNames n w w
  := ⟨rfl, rfl, rfl, .inl rfl⟩

theorem StreamsGrow.refl (w : World) :
  StreamsGrow w w
  := (caching 0).kept_refl w

theorem inv_setTrace {f : Trace → Trace} (hinv : CacheInv n w)
    (h : (f w.trace).served = w.trace.served) :
  CacheInv n (w.setTrace f)
  := by
  refine ⟨hinv.seen, hinv.below, hinv.registered, ?_⟩
  rw [trace_setTrace, h]
  exact hinv.served

variable {f : NodeState → NodeState}

/-- What the node has seen stays, and its tail may only stay or be emptied. -/
theorem inv_setNode (hinv : CacheInv n w) (hseen : (f (w.nodes n)).seen = (w.nodes n).seen)
    (htail : (f (w.nodes n)).tail = (w.nodes n).tail ∨ (f (w.nodes n)).tail = .empty) :
  CacheInv n (w.setNode n f)
  := by
  refine ⟨?_, hinv.below, ?_, hinv.served⟩
  · rw [nodes_setNode, hseen]
    exact hinv.seen
  · intro id hid
    obtain ⟨s, hs, hrow, hepoch, hagrees⟩ := hinv.registered id hid
    refine ⟨s, hs, hrow, hepoch, ?_⟩
    rw [nodes_setNode]
    rcases htail with htail | htail
    · rw [htail]
      exact hagrees
    · rw [htail]
      exact Agrees.nil

theorem sameNames_setNode (hgate : (f (w.nodes n)).gate = (w.nodes n).gate)
    (hcache : (f (w.nodes n)).entryCache = (w.nodes n).entryCache)
    (htail : (f (w.nodes n)).tail = (w.nodes n).tail ∨ (f (w.nodes n)).tail = .empty) :
  SameNames n w (w.setNode n f)
  := by
  refine ⟨w.gate_setNode hgate, rfl, ?_, ?_⟩
  · rw [nodes_setNode]
    exact hcache
  · rw [nodes_setNode]
    exact htail

variable {id : UInt64} {s s' : EngineStream}

theorem streamsGrow_setStream (hstored : w.streams id = some s) (hgrows : Grows s s') :
  StreamsGrow w (w.setStream id (some s'))
  := by
  intro id' t ht
  by_cases heq : id' = id
  · subst heq
    cases hstored.symm.trans ht
    exact ⟨s', w.streams_setStream .., hgrows⟩
  · exact ⟨t, (w.streams_setStream_of_ne heq _).trans ht, Grows.refl t⟩

section

variable (hinv : CacheInv n w) (hstored : w.streams id = some s) (hgrows : Grows s s')
  (hopen : w.registeredId = some id → s.row = .opened → s'.row = .opened ∧ s'.epoch = s.epoch)

include hinv hstored hgrows hopen

/-- A stream changes. The registered one stays open. -/
theorem inv_setStream :
  CacheInv n (w.setStream id (some s'))
  := by
  refine ⟨hinv.seen, ?_, ?_, hinv.served⟩
  · intro id' t ht
    by_cases heq : id' = id
    · subst heq
      cases (w.streams_setStream ..).symm.trans ht
      obtain ⟨hlt, hlogged⟩ := hinv.below id' s hstored
      exact ⟨hlt, hgrows.logged hlogged⟩
    · exact hinv.below id' t ((w.streams_setStream_of_ne heq _).symm.trans ht)
  · intro id' hid
    obtain ⟨t, ht, hrow, hepoch, hagrees⟩ := hinv.registered id' hid
    by_cases heq : id' = id
    · subst heq
      cases hstored.symm.trans ht
      obtain ⟨hrow', hepoch'⟩ := hopen hid hrow
      refine ⟨s', w.streams_setStream .., hrow', hepoch'.trans hepoch, hagrees.consecutive, ?_⟩
      intro r hr
      exact messageAt_of_prefix (hgrows.content hepoch') (hagrees.holds r hr)
    · exact ⟨t, (w.streams_setStream_of_ne heq _).trans ht, hrow, hepoch, hagrees⟩

theorem step_setStream :
  CacheInv n (w.setStream id (some s')) ∧ StreamsGrow w (w.setStream id (some s')) ∧
    SameNames n w (w.setStream id (some s'))
  := ⟨inv_setStream hinv hstored hgrows hopen, streamsGrow_setStream hstored hgrows,
      ⟨rfl, rfl, rfl, .inl rfl⟩⟩

end

theorem step_setNode (hinv : CacheInv n w) (hgate : (f (w.nodes n)).gate = (w.nodes n).gate)
    (hcache : (f (w.nodes n)).entryCache = (w.nodes n).entryCache)
    (hseen : (f (w.nodes n)).seen = (w.nodes n).seen)
    (htail : (f (w.nodes n)).tail = (w.nodes n).tail ∨ (f (w.nodes n)).tail = .empty) :
  CacheInv n (w.setNode n f) ∧ StreamsGrow w (w.setNode n f) ∧ SameNames n w (w.setNode n f)
  := ⟨inv_setNode hinv hseen htail, StreamsGrow.refl w, sameNames_setNode hgate hcache htail⟩

/-- An effect that only looks, or touches what the invariant does not speak of. -/
theorem step_mild (h : Mild n w w') (hinv : CacheInv n w) :
  CacheInv n w' ∧ StreamsGrow w w' ∧ SameNames n w w'
  := by
  cases h with
  | opening h =>
    cases h with
    | look => exact ⟨hinv, StreamsGrow.refl w, SameNames.refl w⟩
    | handles openStreams => exact step_setNode hinv rfl rfl rfl (.inl rfl)
    | openLock openLock => exact step_setNode hinv rfl rfl rfl (.inl rfl)
    | reopen id s hstored hclosed =>
      -- the registered stream is not closed
      apply step_setStream hinv hstored (grows_reopen s)
      intro _ hrow
      exact absurd (hclosed.symm.trans hrow) nofun
  | submit id s batch messages hstored hoperable =>
    exact step_setStream hinv hstored (grows_submit s batch messages) fun _ h => ⟨h, rfl⟩
  | closeHandle id s hstored =>
    exact step_setStream hinv hstored (Grows.of_log rfl rfl) fun _ h => ⟨h, rfl⟩
  | moveStart id s startOffset hstored =>
    exact step_setStream hinv hstored (Grows.of_log rfl rfl) fun _ h => ⟨h, rfl⟩
  | resetTail => exact step_setNode hinv rfl rfl rfl (.inr rfl)
  | applied applied =>
    exact ⟨inv_setTrace hinv rfl, StreamsGrow.refl w, ⟨rfl, rfl, rfl, .inl rfl⟩⟩
  | failed => exact ⟨inv_setTrace hinv rfl, StreamsGrow.refl w, ⟨rfl, rfl, rfl, .inl rfl⟩⟩

/-- Nothing that happens outside of the calls disturbs the owner of the gate. -/
theorem calm_outside {x : Outside} (h : x.change w = some w') :
  (caching n).Calm w w'
  := by
  rintro ⟨hinv, -⟩
  obtain ⟨id, place, durable, s, s', hstored, hsettled, rfl⟩ | ⟨m, hlt, rfl⟩ := x.change_cases h
  · have hsettles := settles_settle hsettled
    obtain ⟨hinv', hgrow, -⟩ := step_setStream hinv hstored hsettles.grows
      fun _ hrow => ⟨hsettles.row.trans hrow, hsettles.epoch⟩
    refine ⟨hinv', hgrow, rfl, rfl, rfl, fun _ h => h, ?_⟩
    intro id' t ht
    by_cases heq : id' = id
    · subst heq
      cases hstored.symm.trans ht
      exact ⟨s', w.streams_setStream .., hsettles⟩
    · exact ⟨t, (w.streams_setStream_of_ne heq _).trans ht, Settles.refl t⟩
  · have hne : n ≠ m := by
      rintro rfl
      exact absurd hinv.seen hlt.ne
    have hnode := w.nodes_setNode_of_ne hne fun node => { node with seen := node.seen + 1 }
    refine ⟨⟨?_, hinv.below, ?_, hinv.served⟩, StreamsGrow.refl w, ?_, rfl, ?_, ?_,
      fun _ s h => ⟨s, h, Settles.refl s⟩⟩
    · rw [hnode]
      exact hinv.seen
    · rw [hnode]
      exact hinv.registered
    · exact congrArg NodeState.gate hnode
    · rw [hnode]
    · rw [hnode]
      exact fun _ h => h

end Steps

/-! ### What the owner knows -/

variable {α : Type} {x : Op α}

section Facts

variable {n me : ℕ}

/-- A fact about the names and about what streams hold. -/
def Nominal (n : ℕ) (F : World → Prop) : Prop :=
  ∀ w w', SameNames n w w' → StreamsGrow w w' → F w → F w'

/-- Everything is in order, and `id` is registered. -/
def Registers (n : ℕ) (id : Option UInt64) (w : World) : Prop :=
  CacheRest n w ∧ w.registeredId = id

instance (id : Option UInt64) : (caching n).Lasts fun w => w.registeredId = id :=
  ⟨fun _ _ _ _ hquiet h => (registeredId_of_kvLog hquiet.kvLog).trans h⟩

instance (id : Option UInt64) : (caching n).Lasts (Registers n id) :=
  Lasts.and _ _

theorem SameNames.rest {w w' : World} (h : SameNames n w w') (hrest : CacheRest n w) :
  CacheRest n w'
  := by
  have hid := registeredId_of_kvLog h.kvLog
  constructor
  · intro entry hentry
    rw [hid]
    exact hrest.cache entry (h.cache ▸ hentry)
  · intro hnone
    rw [hid] at hnone
    rcases h.tail with htail | htail
    · rw [htail]
      exact hrest.tail hnone
    · exact htail

theorem nominal_rest :
  Nominal n (CacheRest n)
  := fun _ _ hsame _ => hsame.rest

theorem nominal_registers (id : Option UInt64) :
  Nominal n (Registers n id)
  := by
  intro w w' hsame _ ⟨hrest, hid⟩
  exact ⟨hsame.rest hrest, (registeredId_of_kvLog hsame.kvLog).trans hid⟩

/-- The key and the cached entry are gone. -/
def Removed (n : ℕ) (w : World) : Prop :=
  w.registeredId = none ∧ (w.nodes n).entryCache = none

instance : (caching n).Lasts (Removed n) where
  lasting := by
    intro w w' _ _ hquiet ⟨hid, hcache⟩
    exact ⟨(registeredId_of_kvLog hquiet.kvLog).trans hid, hquiet.cache.trans hcache⟩

/-- A stream that was just created. -/
def NewStream (id : UInt64) (w : World) : Prop :=
  ∃ s, w.streams id = some s ∧ s.row = .opened ∧ s.epoch = 1

instance (id : UInt64) : (caching n).Lasts (NewStream id) where
  lasting := by
    intro w w' _ _ hquiet ⟨s, hs, hrow, hepoch⟩
    obtain ⟨s', hs', hsettles⟩ := hquiet.streams id s hs
    exact ⟨s', hs', hsettles.row.trans hrow, hsettles.epoch.trans hepoch⟩

/-- What a stream holds. -/
def ContentIs (id : UInt64) (content : List (RecordBatch × List Bytes)) (w : World) : Prop :=
  ∃ s, w.streams id = some s ∧ s.content = content

instance (id : UInt64) (content : List (RecordBatch × List Bytes)) :
    (caching n).Lasts (ContentIs id content) where
  lasting := by
    intro w w' _ _ hquiet ⟨s, hs, hcontent⟩
    obtain ⟨s', hs', hsettles⟩ := hquiet.streams id s hs
    exact ⟨s', hs', hsettles.content.trans hcontent⟩

/-- The batches of an append are at their places, as long as the stream is at its first epoch. -/
def Placed (id : UInt64) (base : ℕ) (messages : List Bytes) (places : List ℕ) (w : World) : Prop :=
  ∃ atomic before after s, w.streams id = some s ∧ offsetAfter before = base ∧
    places = List.range' before.length (groupsOf messages atomic).length ∧ 1 ≤ s.epoch ∧
    (s.epoch = 1 → s.content = before ++ groupsOf messages atomic ++ after)

instance (id : UInt64) (base : ℕ) (messages : List Bytes) (places : List ℕ) :
    (caching n).Persists (Placed id base messages places) where
  persistent := by
    rintro w w' - - hkept ⟨atomic, before, after, s, hs, hbase, hplaces, hle, hcontent⟩
    obtain ⟨s', hs', hgrows⟩ := hkept id s hs
    have hepoch := hgrows.epoch
    by_cases hone : s'.epoch = 1
    · obtain ⟨more, hmore⟩ := hgrows.content (by omega)
      refine ⟨atomic, before, after ++ more, s', hs', hbase, hplaces, by omega, ?_⟩
      intro _
      rw [← hmore, hcontent (by omega), append_assoc _ after more]
    · exact ⟨atomic, before, after, s', hs', hbase, hplaces, by omega, fun h => absurd h hone⟩

/-- The messages are in the stream at their offsets, as long as it is at its first epoch. -/
def Recordable (id : UInt64) (base : ℕ) (messages : List Bytes) (w : World) : Prop :=
  ∃ s, w.streams id = some s ∧ 1 ≤ s.epoch ∧ (s.epoch = 1 → ∀ i message,
    messages[i]? = some message → messageAt s.content (base + i) = some message)

instance (id : UInt64) (base : ℕ) (messages : List Bytes) :
    (caching n).Persists (Recordable id base messages) where
  persistent := by
    rintro w w' - - hkept ⟨s, hs, hle, hat⟩
    obtain ⟨s', hs', hgrows⟩ := hkept id s hs
    have hepoch := hgrows.epoch
    refine ⟨s', hs', by omega, ?_⟩
    intro hone i message hi
    exact messageAt_of_prefix (hgrows.content (by omega)) (hat (by omega) i message hi)

theorem Placed.recordable {id : UInt64} {base : ℕ} {messages : List Bytes} {places : List ℕ}
    {w : World} {s : EngineStream} (hinv : CacheInv n w) (h : Placed id base messages places w)
    (hs : w.streams id = some s) (hdurable : durability s.log places = some true) :
  Recordable id base messages w
  := by
  obtain ⟨atomic, before, after, t, ht, rfl, rfl, hle, hcontent⟩ := h
  cases hs.symm.trans ht
  refine ⟨s, hs, hle, ?_⟩
  intro hone i message hi
  rw [hcontent hone]
  apply messageAt_groupsOf _ hi
  exact loggable_of_durability (hinv.below id s hs).2 (hcontent hone) hdurable

variable {F E : World → Prop} [(caching n).Lasts F] [(caching n).Lasts E]

omit [(caching n).Lasts E] in
theorem spec_mild (h : Only (Mild n) x) (hnominal : Nominal n F) :
  (caching n).Preserves me F x
  := by
  apply Spec.only h
  intro w w' hmild hinv howner hf _
  obtain ⟨hinv', hgrow, hsame⟩ := step_mild hmild hinv
  exact ⟨hinv', hgrow, hsame.gate.trans howner, hnominal w w' hsame hgrow hf⟩

theorem spec_mildChange {f : World → World} (h : ∀ w, Mild n w (f w)) (hnominal : Nominal n F) :
  (caching n).Spec me F (change f) (fun _ => F) E
  := by
  apply spec_change
  intro w hinv howner hf _
  obtain ⟨hinv', hgrow, hsame⟩ := step_mild (h w) hinv
  exact ⟨hinv', hgrow, hsame.gate.trans howner, hnominal w (f w) hsame hgrow hf⟩

theorem spec_cacheEntry {value : Option RegistryEntry} {G : World → Prop} [(caching n).Lasts G]
    (h : ∀ w, F w → G (w.setNode n fun node => { node with entryCache := value })) :
  (caching n).Spec me F (cacheEntry n value) (fun _ => G) E
  := by
  apply spec_change
  intro w hinv howner hf _
  exact ⟨inv_setNode hinv rfl (.inl rfl), StreamsGrow.refl w, (w.gate_setNode rfl).trans howner,
    h w hf⟩

end Facts

/-! ### Entries -/

section Entries

variable {n me : ℕ}

theorem kv_putKv (w : World) (value : Option RegistryEntry) :
  (w.putKv value).kv = value
  := by
  rw [kv, kvAt_putKv, if_pos]
  simp [World.putKv]

variable {value : Option RegistryEntry}

theorem inv_putKv {w w' : World} (hinv : CacheInv n w) (hlog : w'.kvLog = w.kvLog ++ [value])
    (hseen : (w'.nodes n).seen = w.kvLog.length + 1)
    (htail : (w'.nodes n).tail = (w.nodes n).tail) (hstreams : w'.streams = w.streams)
    (hnext : w'.nextStreamId = w.nextStreamId) (hserved : w'.trace.served = w.trace.served)
    (hregistered : ∀ entry, value = some entry → ∃ s, w.streams entry.streamId = some s ∧
      s.row = .opened ∧ s.epoch = 1 ∧ Agrees (messageAt s.content) (w.nodes n).tail.recent) :
  CacheInv n w' ∧ w'.registeredId = value.map RegistryEntry.streamId
  := by
  have hkv : w'.registeredId = value.map RegistryEntry.streamId := by
    rw [registeredId_of_kvLog (w := w.putKv value) hlog, registeredId, kv_putKv]
  refine ⟨⟨?_, ?_, ?_, ?_⟩, hkv⟩
  · rw [hseen, hlog, length_append, length_singleton]
  · rw [hstreams, hnext]
    exact hinv.below
  · intro id hid
    rw [hkv] at hid
    obtain ⟨entry, hvalue, rfl⟩ := Option.map_eq_some_iff.mp hid
    rw [hstreams, htail]
    exact hregistered entry hvalue
  · rw [hserved]
    exact hinv.served

/-- A node that has its own write answered has seen the key. The stream the new value names must be
there, open, and agree with the tail of the node. -/
theorem inv_answered {w : World} (hinv : CacheInv n w)
    (hregistered : ∀ entry, value = some entry → ∃ s, w.streams entry.streamId = some s ∧
      s.row = .opened ∧ s.epoch = 1 ∧ Agrees (messageAt s.content) (w.nodes n).tail.recent) :
  CacheInv n ((w.putKv value).catchUp n) ∧
    ((w.putKv value).catchUp n).registeredId = value.map RegistryEntry.streamId
  := by
  refine inv_putKv hinv rfl ?_ ?_ rfl rfl rfl hregistered
  · simp [catchUp, World.putKv]
  · simp [catchUp, World.putKv]

/-- After the key is deleted nothing is registered. -/
theorem inv_deleted {w : World} (hinv : CacheInv n w) :
  CacheInv n ((w.putKv none).catchUp n) ∧ ((w.putKv none).catchUp n).registeredId = none
  := inv_answered hinv nofun

variable {entry : RegistryEntry}

theorem value_some {P : RegistryEntry → Prop} (h : P entry) :
  ∀ entry', some entry = some entry' → P entry'
  := by
  intro entry' heq
  cases heq
  exact h

theorem gate_answered {w : World} :
  (((w.putKv value).catchUp n).nodes n).gate = (w.nodes n).gate
  := by
  simp [catchUp, World.putKv]

theorem cache_answered {w : World} :
  (((w.putKv value).catchUp n).nodes n).entryCache = (w.nodes n).entryCache
  := by
  simp [catchUp, World.putKv]

theorem registers_cache {w : World} (h : Registers n (some entry.streamId) w) :
  Registers n (some entry.streamId)
    (w.setNode n fun node => { node with entryCache := some entry })
  := by
  obtain ⟨-, hid⟩ := h
  refine ⟨⟨?_, fun hnone => absurd (hid.symm.trans hnone) nofun⟩, hid⟩
  intro entry' hentry
  rw [nodes_setNode] at hentry
  cases hentry
  exact hid

/-- A call that registers the same stream with another entry. -/
theorem spec_putEntry :
  (caching n).Spec me (Registers n (some entry.streamId)) (putEntry n entry)
    (fun _ => Registers n (some entry.streamId)) (CacheRest n)
  := by
  apply Spec.bind (G := fun _ => Registers n (some entry.streamId))
  · apply spec_callWith
    · rintro w hinv howner ⟨hrest, hid⟩ _
      have hregistered := hinv.registered entry.streamId hid
      obtain ⟨hinv', hid'⟩ := inv_answered hinv (value_some hregistered)
      refine ⟨hinv', StreamsGrow.refl w, gate_answered.trans howner, ⟨?_, ?_⟩, hid'⟩
      · intro entry' hentry
        rw [cache_answered] at hentry
        rw [hid', ← hrest.cache entry' hentry, hid]
        rfl
      · intro hnone
        exact absurd (hid'.symm.trans hnone) nofun
    · intro w _ _ _ hallowed
      exact absurd hallowed.2 nofun
    · intro w _ _ _ hallowed
      exact absurd hallowed.2 nofun
  · intro _
    exact spec_cacheEntry fun w h => registers_cache h

/-- Steps of a destruction leave the names alone. -/
theorem step_destroys {id : UInt64} {w w' : World} (h : Destroys n id w w') (hinv : CacheInv n w)
    (hid : w.registeredId = none) :
  CacheInv n w' ∧ StreamsGrow w w' ∧ SameNames n w w'
  := by
  cases h with
  | mild h => exact step_mild h hinv
  | closeRow s hstored hpresent =>
    exact step_setStream hinv hstored (Grows.of_log rfl rfl)
      fun hsome => absurd (hid.symm.trans hsome) nofun
  | deleteRow s hstored =>
    exact step_setStream hinv hstored (Grows.of_log rfl rfl)
      fun hsome => absurd (hid.symm.trans hsome) nofun

theorem nominal_removed :
  Nominal n (Removed n)
  := by
  intro w w' hsame _ ⟨hid, hcache⟩
  exact ⟨(registeredId_of_kvLog hsame.kvLog).trans hid, hsame.cache.trans hcache⟩

variable {E : World → Prop} [(caching n).Lasts E]

/-- The errors of a destruction are ignored. -/
theorem spec_destroyStream {id : UInt64} :
  (caching n).Spec me (Removed n) (destroyStream n id) (fun _ => Removed n) E
  := by
  apply (spec_look (G := fun _ => Removed n) fun _ _ h => h).bind
  intro held
  apply (spec_mildChange (fun w => Mild.opening (OpenEffect.handles w _)) nominal_removed).bind
  intro _
  have hopen : (caching n).Preserves me (Removed n) (onlyIf (!held) (openStream id)) :=
    spec_mild (mild_of_opening (opening_openStream id).onlyIf) nominal_removed
  apply hopen.attempt_same.bind
  intro ready
  cases ready with
  | error e => exact Spec.pure fun _ _ h => h
  | ok _ =>
    have hdestroy : (caching n).Preserves me (Removed n) (destroy id) := by
      apply Spec.only (destroys_destroy id)
      intro w w' hstep hinv howner hremoved _
      obtain ⟨hinv', hgrow, hsame⟩ := step_destroys hstep hinv hremoved.1
      exact ⟨hinv', hgrow, hsame.gate.trans howner, nominal_removed w w' hsame hgrow hremoved⟩
    apply hdestroy.attempt_same.bind
    intro _
    exact Spec.pure fun _ _ h => h

theorem spec_forget :
  (caching n).Spec me (fun w => w.registeredId = none) (cacheEntry n none) (fun _ => Removed n) E
  := by
  apply spec_cacheEntry
  intro w hid
  refine ⟨hid, ?_⟩
  rw [nodes_setNode]

theorem spec_emptyTail :
  (caching n).Spec me (Removed n) (resetTail n) (fun _ => Registers n none) E
  := by
  apply spec_change
  rintro w hinv howner ⟨hid, hcache⟩ -
  obtain ⟨hinv', hgrow, hsame⟩ := step_mild (Mild.resetTail (n := n) w) hinv
  have hid' := (registeredId_of_kvLog hsame.kvLog).trans hid
  refine ⟨hinv', hgrow, hsame.gate.trans howner, ⟨?_, ?_⟩, hid'⟩
  · intro entry hentry
    rw [hsame.cache, hcache] at hentry
    cases hentry
  · intro _
    rw [nodes_setNode]

/-- Whoever deleted the key, it is gone when this returns. -/
theorem spec_delExpired {nowMs : Int64} :
  (caching n).Spec me (fun _ => True) (delExpired n entry nowMs)
    (fun _ w => w.registeredId = none) fun _ => False
  := by
  apply Spec.perform
  intro w i w' r heq hinv howner _ hallowed
  split at heq
  · cases heq
    have hserved : (w.deleteExpired entry nowMs).trace.served = w.trace.served := by
      rw [deleteExpired]
      cases w.kv with
      | none => rfl
      | some stored => rfl
    have hdeleted : CacheInv n ((w.deleteExpired entry nowMs).catchUp n) ∧
        ((w.deleteExpired entry nowMs).catchUp n).registeredId
          = (none : Option RegistryEntry).map RegistryEntry.streamId := by
      refine inv_putKv hinv rfl ?_ ?_ rfl rfl hserved fun _ h => ?_
      · simp [catchUp, deleteExpired, World.putKv, setTrace]
      · simp [catchUp, deleteExpired, World.putKv, setTrace]
      · cases h
    refine ⟨hdeleted.1, StreamsGrow.refl w, ?_, hdeleted.2⟩
    simp only [caching, catchUp, nodes_setNode]
    exact howner
  · cases heq
    cases hallowed.2
  · cases heq
    cases hallowed.2

/-- An expired stream ends unregistered, and the tail of the node is empty. -/
theorem spec_expire {nowMs : Int64} :
  (caching n).Spec me (fun _ => True) (expire n entry nowMs) (fun _ => Registers n none)
    fun _ => False
  := by
  have hdel : (caching n).Spec me (fun _ => True) (attempt (delExpired n entry nowMs))
      (fun _ w => w.registeredId = none) fun _ => False := by
    apply spec_delExpired.attempt.grant
    intro r w _ hr
    cases r with
    | ok _ => exact hr
    | error e => exact hr.elim
  apply hdel.bind
  intro _
  apply spec_forget.bind
  intro _
  apply spec_destroyStream.bind
  intro _
  exact spec_emptyTail

/-- The entry that is loaded is the registered one. -/
def Found (n : ℕ) (entry : Option RegistryEntry) : World → Prop :=
  Registers n (entry.map RegistryEntry.streamId)

instance (entry : Option RegistryEntry) : (caching n).Lasts (Found n entry) :=
  Lasts.and _ _

theorem Found.rest {entry : Option RegistryEntry} {w : World} (h : Found n entry w) :
  CacheRest n w
  := h.1

theorem spec_loadEntry :
  (caching n).Spec me (CacheRest n) (loadEntry n) (Found n) (CacheRest n)
  := by
  apply spec_loadWith
  · intro w entry _ hrest hcached
    exact ⟨hrest, hrest.cache entry hcached⟩
  · intro w hinv hrest
    refine ⟨hrest, ?_⟩
    rw [hinv.seen]
    rfl
  · intro entry
    exact spec_cacheEntry fun w h => registers_cache h

/-- The entry a call works on names the registered stream. -/
theorem spec_getEntry (touch : Bool) :
  (caching n).Spec me (CacheRest n) (getEntry n touch) (Found n) (CacheRest n)
  := by
  apply spec_getWith spec_loadEntry
  · intro entry nowMs
    exact (spec_expire.assume fun _ _ _ => trivial).excuse fun _ _ h => h.elim
  · intro entry nowMs
    apply spec_putEntry.assume
    intro w _ h
    rw [streamId_touchDeadline]
    exact h

theorem spec_requireEntry :
  (caching n).Spec me (CacheRest n) (requireEntry n)
    (fun entry => Registers n (some entry.streamId)) (CacheRest n)
  := by
  apply (spec_getEntry false).bind
  intro entry
  cases entry with
  | none => exact Spec.throw fun _ _ h => h.rest
  | some entry => exact Spec.pure fun _ _ h => h

end Entries

/-! ### Appends -/

section Appends

variable {n me : ℕ} {parseJson : Bytes → Option JsonBody}
  {id : UInt64} {base : ℕ} {messages : List Bytes}

theorem inv_recordAppend {w : World} {f : Trace → Trace} (hinv : CacheInv n w)
    (hid : w.registeredId = some id) (h : Recordable id base messages w)
    (hserved : (f w.trace).served = w.trace.served) :
  CacheInv n ((w.setNode n fun node =>
    { node with tail := node.tail.recordAppend base messages }).setTrace f)
  := by
  refine ⟨?_, hinv.below, ?_, ?_⟩
  · rw [nodes_setTrace, nodes_setNode]
    exact hinv.seen
  · intro id' hid'
    obtain ⟨s, hs, hrow, hepoch, hagrees⟩ := hinv.registered id' hid'
    cases hid.symm.trans hid'
    obtain ⟨t, ht, -, hat⟩ := h
    cases hs.symm.trans ht
    refine ⟨s, hs, hrow, hepoch, ?_⟩
    rw [nodes_setTrace, nodes_setNode]
    exact TailCache.agrees_recordAppend hagrees (hat hepoch)
  · rw [trace_setTrace, trace_setNode, hserved]
    exact hinv.served

theorem spec_recordAppend {E : World → Prop} [(caching n).Lasts E] :
  (caching n).Spec me (fun w => Registers n (some id) w ∧ Recordable id base messages w)
    (recordAppend n id base messages) (fun _ => Registers n (some id)) E
  := by
  apply spec_change
  rintro w hinv howner ⟨⟨hrest, hid⟩, hrecordable⟩ -
  refine ⟨inv_recordAppend hinv hid hrecordable rfl, StreamsGrow.refl w, ?_, ⟨?_, ?_⟩, hid⟩
  · simpa [caching] using howner
  · intro entry hentry
    rw [nodes_setTrace, nodes_setNode] at hentry
    exact hrest.cache entry hentry
  · intro hnone
    exact absurd (hid.symm.trans hnone) nofun

variable {content : List (RecordBatch × List Bytes)}

/-- A batch is the next thing in the stream, at the place that is handed out. -/
theorem spec_submitBatch {batch : RecordBatch} :
  (caching n).Spec me (fun w => Registers n (some id) w ∧ ContentIs id content w)
    (submitBatch id batch messages)
    (fun place w => (Registers n (some id) w ∧ ContentIs id (content ++ [(batch, messages)]) w) ∧
      place = content.length) (CacheRest n)
  := by
  have hsubmit : (caching n).Spec me (fun w => Registers n (some id) w ∧ ContentIs id content w)
      (onStream id fun s =>
        if s.operable then some (s.submit batch messages, some s.log.length) else some (s, none))
      (fun placed w => Registers n (some id) w ∧ ∀ place, placed = some place →
        ContentIs id (content ++ [(batch, messages)]) w ∧ place = content.length)
      (CacheRest n) := by
    apply Spec.perform
    intro w i w' r heq hinv howner hw _
    obtain ⟨hnames, s, hs, hcontent⟩ := hw
    rw [hs] at heq
    obtain ⟨⟨s', placed⟩, hsubmitted, heq⟩ := Option.map_eq_some_iff.mp heq
    cases heq
    simp only at hsubmitted
    split at hsubmitted
    next hoperable =>
      cases hsubmitted
      obtain ⟨hinv', hgrow, hsame⟩ :=
        step_mild (Mild.submit (n := n) w id s batch messages hs hoperable) hinv
      refine ⟨hinv', hgrow, hsame.gate.trans howner,
        nominal_registers (some id) w _ hsame hgrow hnames, ?_⟩
      intro place hsome
      cases hsome
      refine ⟨⟨_, w.streams_setStream .., ?_⟩, ?_⟩
      · rw [content_submit, hcontent]
      · rw [← hcontent, EngineStream.content, length_map]
    next =>
      cases hsubmitted
      rw [setStream_self hs]
      exact ⟨hinv, StreamsGrow.refl w, howner, hnames,
        fun _ h => absurd h.symm (Option.some_ne_none _)⟩
  apply hsubmit.bind
  intro placed
  cases placed with
  | none => exact Spec.throw fun w _ h => h.1.1
  | some place =>
    apply Spec.pure
    rintro w _ ⟨hnames, hplace⟩
    exact ⟨⟨hnames, (hplace place rfl).1⟩, (hplace place rfl).2⟩

/-- All batches of an append follow each other, since the gate keeps other appends out. -/
theorem spec_submitAll {groups : List (RecordBatch × List Bytes)} :
  (caching n).Spec me (fun w => Registers n (some id) w ∧ ContentIs id content w)
    (submitAll id groups)
    (fun places w => (Registers n (some id) w ∧ ContentIs id (content ++ groups) w) ∧
      places = List.range' content.length groups.length) (CacheRest n)
  := by
  apply spec_submitWith (A := fun content w => Registers n (some id) w ∧ ContentIs id content w)
  intro content group _
  exact spec_submitBatch

theorem spec_submitMessages {atomic : Bool} :
  (caching n).Spec me (fun w => ∃ content, (Registers n (some id) w ∧ ContentIs id content w) ∧
      offsetAfter content = base)
    (submitMessages id messages atomic)
    (fun places w => Registers n (some id) w ∧ Placed id base messages places w) (CacheRest n)
  := by
  apply Spec.of_exists
  intro content
  apply Spec.of_and
  rintro rfl
  apply spec_submitAll.grant
  rintro places w hinv ⟨⟨⟨hrest, hid⟩, s, hs, hcontent⟩, rfl⟩
  obtain ⟨t, ht, -, hepoch, -⟩ := hinv.registered id hid
  cases hs.symm.trans ht
  refine ⟨⟨hrest, hid⟩, atomic, content, [], s, hs, rfl, rfl, hepoch.ge, ?_⟩
  intro _
  rw [append_nil]
  exact hcontent

theorem spec_nextOffset :
  (caching n).Spec me (Registers n (some id)) (lookStream id EngineStream.nextOffset)
    (fun base w => ∃ content, (Registers n (some id) w ∧ ContentIs id content w) ∧
      offsetAfter content = base) (CacheRest n)
  := by
  apply spec_lookStream fun w _ h => h.1
  intro w s _ h hs
  exact ⟨s.content, ⟨h, s, hs, rfl⟩, rfl⟩

/-- What is known of an append when it gives up the gate. -/
def InFlight : AppendResult ⊕ Pipelined → World → Prop
  | .inl _, _ => True
  | .inr p, w => Placed p.streamId p.base p.messages p.places w

instance (result : AppendResult ⊕ Pipelined) : (caching n).Persists (InFlight result) := by
  cases result with
  | inl result => exact Persists.const True
  | inr p => exact inferInstanceAs ((caching n).Persists (Placed _ _ _ _))

/-- After a failure nothing is left in the cache. -/
theorem spec_dropHandle {e : ServiceError} {G : α → World → Prop} :
  (caching n).Spec me (CacheRest n) (dropHandle n id e) G (CacheRest n)
  := by
  apply (spec_mildChange (fun w => Mild.opening (OpenEffect.handles w _)) nominal_rest).bind
  intro _
  apply (spec_mildChange Mild.resetTail nominal_rest).bind
  intro _
  exact Spec.throw fun _ _ h => h

/-- What has been awaited may be recorded in the tail. -/
theorem spec_awaitPlaced {places : List ℕ} :
  (caching n).Spec me (fun w => Registers n (some id) w ∧ Placed id base messages places w)
    (awaitDurable id places)
    (fun _ w => Registers n (some id) w ∧ Recordable id base messages w) (CacheRest n)
  := by
  apply spec_awaitDurable fun w _ h => h.1.1
  rintro w s hinv ⟨hnames, hplaced⟩ hs hdurable
  exact ⟨hnames, hplaced.recordable hinv hs hdurable⟩

theorem spec_finishClosing {updated : RegistryEntry} {command : AppendCommand} {closeOnly : Bool}
    {p : Pipelined} (hid : p.streamId = updated.streamId) :
  (caching n).Spec me (fun w => Registers n (some p.streamId) w ∧
      Placed p.streamId p.base p.messages p.places w)
    (finishClosing n updated command closeOnly p)
    (fun result w => CacheRest n w ∧ InFlight result w) (CacheRest n)
  := by
  apply spec_awaitPlaced.attempt.bind
  intro durable
  cases durable with
  | error e => exact spec_dropHandle
  | ok _ =>
    apply Spec.bind (G := fun _ => Registers n (some p.streamId))
    · exact Spec.onlyIf (fun _ => spec_recordAppend) fun _ _ h _ => h.1
    · intro _
      apply Spec.bind (G := fun _ => Registers n (some p.streamId))
      · apply spec_clock.bind
        intro nowMs
        have hsame := streamId_touchDeadline (updated.close (closedByOf command)) nowMs
        apply spec_putEntry.weaken _ _ fun _ _ h => h
        · intro w _ h
          rw [hsame]
          exact hid ▸ h
        · intro _ w _ h
          rw [hsame] at h
          exact hid ▸ h
      · intro _
        exact Spec.pure fun _ _ h => ⟨h.1, trivial⟩

theorem spec_finishPipelined {entry updated : RegistryEntry} {p : Pipelined}
    (hid : p.streamId = updated.streamId) :
  (caching n).Spec me (fun w => Registers n (some p.streamId) w ∧
      Placed p.streamId p.base p.messages p.places w)
    (finishPipelined n entry updated p) (fun result w => CacheRest n w ∧ InFlight result w)
    (CacheRest n)
  := by
  have hfinish : (caching n).Spec me (Registers n (some p.streamId))
      (finishPipelined n entry updated p) (fun result w => CacheRest n w ∧ result = .inr p)
      (CacheRest n) := by
    apply spec_clock.bind
    intro nowMs
    have hsame := streamId_touchDeadline updated nowMs
    apply Spec.bind (G := fun _ => CacheRest n)
    · apply Spec.onlyIf _ fun _ _ h _ => h.1
      intro _
      apply spec_putEntry.weaken _ (fun _ _ _ h => h.1) fun _ _ h => h
      intro w _ h
      rw [hsame]
      exact hid ▸ h
    · intro _
      exact Spec.pure fun _ _ h => ⟨h, rfl⟩
  -- the entry changes, and the places stay what they are
  apply (hfinish.frame (Placed p.streamId p.base p.messages p.places)).weaken (fun _ _ h => h) _
    fun _ _ h => h.1
  rintro result w _ ⟨⟨hrest, rfl⟩, hplaced⟩
  exact ⟨hrest, hplaced⟩

theorem spec_submitAppend {entry : RegistryEntry} {command : AppendCommand} {closeOnly : Bool} :
  (caching n).Spec me (fun w => ∃ content, (Registers n (some entry.streamId) w ∧
      ContentIs entry.streamId content w) ∧ offsetAfter content = base)
    (submitAppend n me entry command base closeOnly messages)
    (fun result w => CacheRest n w ∧ InFlight result w) (CacheRest n)
  := by
  apply spec_submitMessages.attempt.bind
  intro submitted
  cases submitted with
  | error e => exact spec_dropHandle
  | ok places =>
    have hmild : ∀ {α : Type} {x : Op α}, Only (Mild n) x → (caching n).Spec me
        (fun w => Registers n (some entry.streamId) w ∧
          Placed entry.streamId base messages places w) x
        (fun _ w => Registers n (some entry.streamId) w ∧
          Placed entry.streamId base messages places w) (CacheRest n) :=
      fun h => ((spec_mild h (nominal_registers _)).frame _).excuse fun _ _ h => h.1.1
    apply (hmild (only_offsetAfterSubmit Mild.look _ _ _)).bind
    intro next
    apply (hmild (mild_noteApplied _).onlyIf).bind
    intro _
    have hsame := streamId_applyAppendState entry command (decisionOf entry command)
    simp only
    split
    · exact spec_finishClosing (p := ⟨entry.streamId, base, messages, places, _⟩) hsame.symm
    · exact spec_finishPipelined (p := ⟨entry.streamId, base, messages, places, _⟩) hsame.symm

/-- What is registered stays so over a program with mild effects. -/
theorem spec_pass {id : Option UInt64} (h : Only (Mild n) x) :
  (caching n).Spec me (Registers n id) x (fun _ => Registers n id) (CacheRest n)
  := (spec_mild h (nominal_registers id)).excuse fun _ _ h => h.1

/-- The part of an append behind the gate; what it leaves for later is in flight. -/
theorem spec_appendGated (command : AppendCommand) :
  (caching n).Spec me (CacheRest n) (appendGated parseJson n me command)
    (fun result w => CacheRest n w ∧ InFlight result w) (CacheRest n)
  := by
  apply (spec_getEntry false).bind
  intro entry
  cases entry with
  | none => exact Spec.throw fun _ _ h => h.rest
  | some entry =>
    apply (spec_pass (mild_of_opening (opening_ensureOpen me entry.streamId))).bind
    intro _
    apply spec_nextOffset.bind
    intro next
    split
    · exact Spec.throw fun _ _ ⟨_, h, _⟩ => h.1.1
    · exact Spec.pure fun _ _ ⟨_, h, _⟩ => ⟨h.1.1, trivial⟩
    · exact spec_submitAppend

end Appends

/-! ### Reads, creation and deletion -/

section Operations

variable {n me : ℕ} {parseJson : Bytes → Option JsonBody}

theorem mem_of_tailRecords {tail : TailCache} {start : ℕ} {cached : List StreamRecord}
    (h : tail.tailRecords start = some cached) {r : StreamRecord} (hr : r ∈ cached) :
  r ∈ tail.recent
  := by
  unfold TailCache.tailRecords at h
  split at h
  next =>
    split at h
    next => cases h
    next =>
      cases h
      exact (mem_filter.mp hr).1
  next => cases h

variable {id : UInt64}

/-- What is taken from the cache is what the registered stream holds. -/
theorem registeredAt_of_mem {w : World} (hinv : CacheInv n w) (hid : w.registeredId = some id)
    {r : StreamRecord} (hr : r ∈ (w.nodes n).tail.recent) :
  w.registeredAt r.offset = some r.payload
  := by
  obtain ⟨s, hs, -, -, hagrees⟩ := hinv.registered id hid
  obtain ⟨entry, hkv, rfl⟩ := Option.map_eq_some_iff.mp hid
  rw [registeredAt, hkv]
  exact (congrArg (Option.bind · _) hs).trans (hagrees.holds r hr)

/-- A read from the tail serves messages of the registered stream. -/
theorem spec_takeCached {start : ℕ} :
  (caching n).Spec me (Registers n (some id)) (takeCached n start)
    (fun _ => Registers n (some id)) (CacheRest n)
  := by
  apply Spec.perform
  intro w i w' r heq hinv howner hw _
  cases heq
  refine ⟨⟨hinv.seen, hinv.below, hinv.registered, ?_⟩, StreamsGrow.refl w, howner,
    ⟨hw.1.cache, hw.1.tail⟩, hw.2⟩
  intro x hx
  rcases mem_append.mp hx with hx | hx
  · exact hinv.served x hx
  · obtain ⟨r, hr, rfl⟩ := mem_map.mp hx
    apply registeredAt_of_mem hinv hw.2
    cases hcached : (w.nodes n).tail.tailRecords start with
    | none =>
      rw [hcached] at hr
      cases hr
    | some cached =>
      rw [hcached] at hr
      exact mem_of_tailRecords hcached hr

theorem spec_last {id : Option UInt64} (h : Only (Mild n) x) :
  (caching n).Spec me (Registers n id) x (fun _ => CacheRest n) (CacheRest n)
  := (spec_pass h).grant fun _ _ _ h => h.1

theorem spec_readGated (start maxBytes maxRecords : ℕ) :
  (caching n).Preserves me (CacheRest n) (readGated n me start maxBytes maxRecords)
  := by
  apply (spec_getEntry true).bind
  intro entry
  cases entry with
  | none => exact Spec.throw fun _ _ h => h.rest
  | some entry =>
    apply (spec_pass (mild_of_opening (opening_ensureOpen me entry.streamId))).bind
    intro _
    apply (spec_pass (only_lookStream Mild.look _ _)).bind
    intro stop
    split
    · exact Spec.throw fun _ _ h => h.1
    · split
      · exact Spec.pure fun _ _ h => h.1
      · apply spec_takeCached.bind
        intro cached
        cases cached with
        | some cached => exact Spec.pure fun _ _ h => h.1
        | none =>
          apply spec_last
          apply (only_fetch Mild.look _ start stop).bind
          intro fetched
          split
          · apply Only.throw
          · apply Only.pure

theorem spec_deleteGated :
  (caching n).Preserves me (CacheRest n) (deleteGated n)
  := by
  apply (spec_getEntry false).bind
  intro entry
  cases entry with
  | none => exact Spec.pure fun _ _ h => h.rest
  | some entry =>
    have hdel : (caching n).Spec me (Found n (some entry)) (delKv n)
        (fun deleted w => w.registeredId = none ∧ deleted.isSome) (CacheRest n) := by
      apply spec_callWith
      · rintro w hinv howner ⟨-, hid⟩ _
        obtain ⟨hinv', hid'⟩ := inv_deleted hinv
        refine ⟨hinv', StreamsGrow.refl w, gate_answered.trans howner, hid', ?_⟩
        obtain ⟨stored, hstored, -⟩ := Option.map_eq_some_iff.mp hid
        rw [hstored]
        rfl
      · intro w _ _ _ hallowed
        exact absurd hallowed.2 nofun
      · intro w _ _ _ hallowed
        exact absurd hallowed.2 nofun
    apply hdel.bind
    intro deleted
    apply Spec.of_and
    intro hsome
    obtain ⟨stored, rfl⟩ := Option.isSome_iff_exists.mp hsome
    apply spec_forget.bind
    intro _
    rw [Option.isNone_some, if_neg Bool.false_ne_true]
    apply spec_destroyStream.bind
    intro _
    apply spec_emptyTail.bind
    intro _
    exact Spec.pure fun _ _ h => h.1

/-- A new stream is open, in its first epoch, and not registered yet. -/
theorem spec_createStream :
  (caching n).Spec me (Registers n none) createStream
    (fun id w => Registers n none w ∧ NewStream id w) (CacheRest n)
  := by
  apply Spec.perform
  rintro w i w' r heq hinv howner ⟨hrest, hid⟩ -
  simp only at heq
  split at heq
  next => cases heq
  next hroom =>
    have hlt := lt_add_one_of_room hroom
    have hne : ∀ id s, w.streams id = some s → id ≠ w.nextStreamId :=
      fun id s hs => UInt64.ne_of_lt (hinv.below id s hs).1
    have hcreated : CacheInv n
        { w.setStream w.nextStreamId (some .new) with nextStreamId := w.nextStreamId + 1 } := by
      refine ⟨hinv.seen, ?_, ?_, hinv.served⟩
      · intro id s hs
        by_cases heq : id = w.nextStreamId
        · subst heq
          cases (w.streams_setStream ..).symm.trans hs
          exact ⟨hlt, nofun⟩
        · obtain ⟨hbelow, hlogged⟩ :=
            hinv.below id s ((w.streams_setStream_of_ne heq _).symm.trans hs)
          exact ⟨UInt64.lt_trans hbelow hlt, hlogged⟩
      · intro id hsome
        exact absurd (hid.symm.trans hsome) nofun
    have hgrow : StreamsGrow w
        { w.setStream w.nextStreamId (some .new) with nextStreamId := w.nextStreamId + 1 } := by
      intro id s hs
      exact ⟨s, (w.streams_setStream_of_ne (hne id s hs) _).trans hs, Grows.refl s⟩
    split at heq
    · cases heq
      exact ⟨hcreated, hgrow, howner, ⟨⟨hrest.cache, hrest.tail⟩, hid⟩,
        .new, w.streams_setStream .., rfl, rfl⟩
    · cases heq
      exact ⟨hcreated, hgrow, howner, hrest.cache, hrest.tail⟩
    · cases heq
      exact ⟨hinv, StreamsGrow.refl w, howner, hrest⟩

/-- The name was free, so the new stream is registered. -/
theorem spec_putKvIfAbsent (entry : RegistryEntry) :
  (caching n).Spec me (fun w => Registers n none w ∧ NewStream entry.streamId w)
    (putKvIfAbsent n entry)
    (fun stored w => Registers n (some entry.streamId) w ∧ stored = entry) (CacheRest n)
  := by
  apply spec_callWith
  · rintro w hinv howner ⟨⟨hrest, hid⟩, s, hs, hrow, hepoch⟩ _
    have hkv : w.kv = none := Option.map_eq_none_iff.mp hid
    have hempty : (w.nodes n).tail.recent = [] := congrArg TailCache.recent (hrest.tail hid)
    have hregistered : ∃ s, w.streams entry.streamId = some s ∧ s.row = .opened ∧ s.epoch = 1 ∧
        Agrees (messageAt s.content) (w.nodes n).tail.recent := by
      refine ⟨s, hs, hrow, hepoch, ?_⟩
      rw [hempty]
      exact Agrees.nil
    obtain ⟨hinv', hid'⟩ := inv_answered hinv (value_some hregistered)
    rw [hkv, Option.getD_none]
    refine ⟨hinv', StreamsGrow.refl w, gate_answered.trans howner, ⟨⟨?_, ?_⟩, hid'⟩, rfl⟩
    · intro cached hcached
      rw [cache_answered] at hcached
      exact absurd (hid.symm.trans (hrest.cache cached hcached)) nofun
    · intro hnone
      exact absurd (hid'.symm.trans hnone) nofun
  · intro w _ _ _ hallowed
    exact absurd hallowed.2 nofun
  · intro w _ _ _ hallowed
    exact absurd hallowed.2 nofun

variable {command : CreateCommand}

theorem spec_appendInitialPayload :
  (caching n).Spec me (Registers n (some id)) (appendInitialPayload parseJson n id command)
    (fun _ => Registers n (some id)) (CacheRest n)
  := by
  unfold appendInitialPayload
  split
  · exact Spec.pure fun _ _ h => h
  · split
    · exact Spec.throw fun _ _ h => h.1
    · exact Spec.pure fun _ _ h => h
    · apply spec_nextOffset.bind
      intro base
      apply spec_submitMessages.attempt.bind
      intro submitted
      cases submitted with
      | error e => exact Spec.throw fun _ _ h => h
      | ok places =>
        apply spec_awaitPlaced.attempt.bind
        intro durable
        cases durable with
        | error e => exact Spec.throw fun _ _ h => h
        | ok _ =>
          apply spec_recordAppend.bind
          intro _
          exact Spec.pure fun _ _ h => h

/-- A stream that is created closed is marked so in the entry. -/
theorem spec_closeCreated {current : RegistryEntry} :
  (caching n).Spec me (Registers n (some current.streamId)) (closeCreated n command current)
    (fun _ => CacheRest n) (CacheRest n)
  := by
  unfold closeCreated
  split
  · apply Spec.bind (G := fun _ => CacheRest n)
    · exact spec_putEntry.weaken (fun _ _ h => h) (fun _ _ _ h => h.1) fun _ _ h => h
    · intro _
      exact spec_requireEntry.grant fun _ _ _ h => h.1
  · exact Spec.pure fun _ _ h => h.1

theorem spec_createGated (command : CreateCommand) :
  (caching n).Preserves me (CacheRest n) (createGated parseJson n me command)
  := by
  apply (spec_getEntry false).bind
  intro existing
  cases existing with
  | some existing =>
    apply spec_last
    simp only
    split
    · apply Only.throw
    · apply (mild_of_opening (opening_toMetaLive me existing)).bind
      intro info
      apply Only.pure
  | none =>
    have hprovision : (caching n).Spec me (Found n none) (provisionStream n)
        (fun id w => Registers n none w ∧ NewStream id w) (CacheRest n) := by
      apply Spec.bind (spec_createStream.assume fun _ _ h => h)
      intro id
      apply Spec.bind (G := fun _ w => Registers n none w ∧ NewStream id w)
      · apply spec_change
        rintro w hinv howner ⟨hnames, hnew⟩ -
        obtain ⟨hinv', hgrow, hsame⟩ := step_mild (Mild.opening (OpenEffect.handles w _)) hinv
        exact ⟨hinv', hgrow, hsame.gate.trans howner,
          nominal_registers none w _ hsame hgrow hnames, hnew⟩
      · intro _
        exact Spec.pure fun _ _ h => h
    apply hprovision.bind
    intro id
    apply spec_clock.bind
    intro nowMs
    apply (spec_putKvIfAbsent (candidateOf command id nowMs)).bind
    intro stored
    apply Spec.of_and
    rintro rfl
    apply Spec.bind (spec_cacheEntry fun w h => registers_cache h)
    intro _
    rw [if_neg (fun h => h rfl)]
    apply spec_appendInitialPayload.bind
    intro appended
    apply Spec.bind (G := fun entry => Registers n (some entry.streamId))
    · unfold entryAfterPayload
      split
      · exact spec_requireEntry.assume fun _ _ h => h.1
      · exact Spec.pure fun _ _ h => h
    · intro current
      apply spec_closeCreated.bind
      intro current
      apply (spec_mild (only_lookStream Mild.look _ _) nominal_rest).bind
      intro info
      exact Spec.pure fun _ _ h => h

/-! ### Turns -/

theorem inv_setGate {w : World} (gate : Option ℕ) (hinv : CacheInv n w) :
  CacheInv n (w.setNode n fun node => { node with gate })
  := inv_setNode hinv rfl (.inl rfl)

theorem rest_setGate {w : World} (gate : Option ℕ) (hrest : CacheRest n w) :
  CacheRest n (w.setNode n fun node => { node with gate })
  := by
  constructor
  · intro entry hentry
    rw [nodes_setNode] at hentry
    exact hrest.cache entry hentry
  · intro hnone
    rw [nodes_setNode]
    exact hrest.tail hnone

theorem ensures_withGate {body : Op α} {G K : α → World → Prop} [∀ a, (caching n).Lasts (G a)]
    [∀ a, (caching n).Persists (K a)] (h : (caching n).Spec me (CacheRest n) body G (CacheRest n))
    (hrest : ∀ a w, G a w → CacheRest n w) (hgk : ∀ a w, G a w → K a w) :
  Ensures ((caching n).rules me) (caching n).Good (withGate n me body)
    (fun a => (caching n).Known (K a)) fun _ => (caching n).Good
  := by
  apply ensures_turn _ _ h (fun a w _ => hrest a w) fun a w _ => hgk a w
  · rintro w i w' r ⟨hinv, hfree⟩ heq -
    obtain ⟨hgate, heq⟩ := Option.ite_none_right_eq_some.mp heq
    cases heq
    rw [Option.isNone_iff_eq_none] at hgate
    have hlocked := rest_setGate (some me) (hfree hgate)
    refine ⟨hgate, inv_setTrace (inv_setGate (some me) hinv) rfl, StreamsGrow.refl w, ?_,
      hlocked.cache, hlocked.tail⟩
    simp [caching]
  · rintro w i w' r hinv howner hrest heq -
    cases heq
    exact ⟨⟨inv_setGate none hinv, fun _ => rest_setGate none hrest⟩, StreamsGrow.refl w⟩

/-- Handles and an empty cache disturb nobody. -/
theorem calm_setNode {w : World} {f : NodeState → NodeState}
    (hgate : (f (w.nodes n)).gate = (w.nodes n).gate)
    (hcache : (f (w.nodes n)).entryCache = (w.nodes n).entryCache)
    (hseen : (f (w.nodes n)).seen = (w.nodes n).seen)
    (htail : (f (w.nodes n)).tail = (w.nodes n).tail ∨ (f (w.nodes n)).tail = .empty) :
  (caching n).Calm w (w.setNode n f)
  := by
  rintro ⟨hinv, -⟩
  obtain ⟨hinv', hgrow, hsame⟩ := step_setNode hinv hgate hcache hseen htail
  refine ⟨hinv', hgrow, hsame.gate, hsame.kvLog, hsame.cache, ?_,
    fun _ s h => ⟨s, h, Settles.refl s⟩⟩
  intro _ hempty
  rcases hsame.tail with htail | htail
  · exact htail.trans hempty
  · exact htail

theorem calm_dropHandle (id : UInt64) (e : ServiceError) :
  Only (caching n).Calm (dropHandle n id e : Op α)
  := by
  apply Only.bind
  · exact only_change fun w => calm_setNode rfl rfl rfl (.inl rfl)
  · intro _
    apply Only.bind
    · exact only_change fun w => calm_setNode rfl rfl rfl (.inr rfl)
    · intro _
      apply Only.throw

/-- An append is recorded after the gate, while its stream is registered. -/
theorem ensures_recordAppend {base : ℕ} {messages : List Bytes} :
  Ensures ((caching n).rules me) ((caching n).Known (Recordable id base messages))
    (recordAppend n id base messages) (fun _ => (caching n).Known fun _ => True)
    fun _ => (caching n).Good
  := by
  apply (ensures_known (E := fun _ => True) _).weaken (fun _ h => h) (fun _ _ h => h)
    fun _ _ h => h.1
  rintro w i w' r ⟨hinv, -⟩ hrecordable heq hallowed
  cases heq
  have hid : w.registeredId = some id := by
    have hlate := (Bool.or_eq_false_iff.mp hallowed.1).2
    rw [decide_eq_false_iff_not, not_not] at hlate
    exact hlate
  refine ⟨inv_recordAppend hinv hid hrecordable rfl, StreamsGrow.refl w, ?_, ⟨rfl, ?_, ?_,
    fun _ s h => ⟨s, h, Settles.refl s⟩⟩, trivial⟩
  · simp [caching]
  · simp
  · intro hnone
    exact absurd (hid.symm.trans hnone) nofun

/-- After the gate, an append waits for its messages and records them. -/
theorem ensures_appendPipelined (p : Pipelined) :
  Ensures ((caching n).rules me)
    ((caching n).Known (Placed p.streamId p.base p.messages p.places)) (appendPipelined n p)
    (fun _ => (caching n).Known fun _ => True) fun _ => (caching n).Good
  := by
  have hawait : Ensures ((caching n).rules me)
      ((caching n).Known (Placed p.streamId p.base p.messages p.places))
      (awaitDurable p.streamId p.places)
      (fun _ => (caching n).Known (Recordable p.streamId p.base p.messages))
      fun _ => (caching n).Good := by
    apply (ensures_awaitDurable (E := fun _ => True) (fun _ _ _ _ => trivial)
      (fun _ _ _ _ _ _ => trivial) _).weaken (fun _ h => h) (fun _ _ h => h) fun _ _ h => h.1
    intro w s hinv hplaced hs hdurable
    exact hplaced.recordable hinv hs hdurable
  apply hawait.attempt.bind
  intro durable
  cases durable with
  | error e =>
    apply (ensures_calm (K := fun _ => True) (calm_dropHandle p.streamId e)).weaken
      (fun _ h => ⟨h, trivial⟩) (fun _ _ h => h) fun _ _ h => h.1
  | ok _ =>
    apply ensures_recordAppend.bind
    intro _
    exact Ensures.pure stable_known fun _ h => h

end Operations

/-! ### Runs -/

/-- The requests that create, append to, close, read and delete a name. -/
def Basic : Request → Prop
  | .create _ | .append _ | .read _ _ _ | .delete => True
  | _ => False

theorem ensures_serve {n me : ℕ} {parseJson : Bytes → Option JsonBody} {request : Request}
    (hbasic : Basic request) :
  (caching n).Behaves me (serve parseJson n me request)
  := by
  have hmap : ∀ {α : Type} {x : Op α} (f : α → Answer),
      (caching n).Behaves me x →
      (caching n).Behaves me (f <$> x) := by
    intro α x f hx
    exact hx.map fun _ _ h => h
  have hgate : ∀ {α : Type} {body : Op α},
      (caching n).Preserves me (CacheRest n) body →
      (caching n).Behaves me (withGate n me body) := by
    intro α body hbody
    exact ensures_withGate hbody (fun _ _ h => h) fun _ _ _ => trivial
  cases request with
  | create command =>
    apply hmap
    unfold create
    split
    · exact Ensures.throw stable_good fun _ h => h
    · exact hgate (spec_createGated command)
  | append command =>
    apply hmap
    apply (ensures_withGate (spec_appendGated command.normalized) (fun _ _ h => h.1)
      fun _ _ h => h.2).bind
    intro result
    cases result with
    | inl result => exact Ensures.pure stable_known fun _ h => h
    | inr p => exact ensures_appendPipelined p
  | read start maxBytes maxRecords =>
    apply hmap
    exact hgate (spec_readGated start maxBytes maxRecords)
  | delete =>
    apply hmap
    exact hgate spec_deleteGated
  | trim newStartOffset => exact hbasic.elim
  | head => exact hbasic.elim
  | lookup => exact hbasic.elim
  | wait start => exact hbasic.elim
  | release id => exact hbasic.elim

/-- In every run of creations, appends, reads and deletions on one node in which appends are
recorded while their stream is registered and changes of the key are answered, a record served from
the tail cache is the one that the registered stream holds at its offset. -/
theorem served_registered {parseJson : Bytes → Option JsonBody} {n : ℕ} {events : List Happening}
    {pool : Pool}
    (hrequests : ∀ request, Event.call request ∈ events → request.1 = n ∧ Basic request.2)
    (htimely : Through parseJson Timely .new events)
    (hrun : runPool parseJson .new events = some pool) :
  ∀ x ∈ pool.shared.trace.served, x.registered = some x.record.payload
  := by
  have hstart : (caching n).Good .new := by
    refine ⟨⟨rfl, nofun, nofun, ?_⟩, fun _ => ⟨nofun, fun _ => rfl⟩⟩
    intro x hx
    cases hx
  have hcalls : ∀ request, Event.call request ∈ events → ∀ me w, (caching n).Good w →
      Safe ((caching n).rules me) (fun _ _ => True) (taskOf parseJson request me) w := by
    intro request hcall me w hgood
    obtain ⟨hnode, hbasic⟩ := hrequests request hcall
    have hserve : (caching n).Behaves me (serve parseJson n me request.2) := ensures_serve hbasic
    rw [taskOf, hnode]
    exact (hserve w hgood).weaken fun _ _ _ => trivial
  obtain ⟨⟨hinv, -⟩, -⟩ := safe_of_run (Q := fun _ _ _ _ => True)
    (fits fun x w w' h _ => calm_outside h) (fun _ _ h => h) hstart hcalls htimely hrun
  exact hinv.served

/-- A message is appended and read. -/
def appendedAndRead : List Happening :=
  [.call (0, .create plainStream)] ++ acts 0 10 1 ++ [.call (0, .append (appendOne [7]))] ++
    acts 1 10 2 ++ [.outside (.settle 0 0 true)] ++ acts 1 2 3 ++ [.call (0, .read 0 1 1)] ++
    acts 2 8 4

/-- The run of an append and a read serves a message. -/
theorem served_registered_appendedAndRead :
  ∃ pool, runPool (fun _ => none) .new appendedAndRead = some pool ∧
    pool.shared.trace.served ≠ [] ∧
    ∀ x ∈ pool.shared.trace.served, x.registered = some x.record.payload
  := by
  obtain ⟨pool, hguarded, hserved⟩ : ∃ pool, appendedAndRead.foldlM (Run.guarded
      (stepPool fun _ => none) (Keeps (taskOf fun _ => none) Outside.change Timely))
      ⟨.new, []⟩ = some pool ∧ pool.shared.trace.served.length ≠ 0 := by
    decide +kernel
  obtain ⟨htimely, hrun⟩ := Run.along_of_guarded hguarded
  refine ⟨pool, hrun, mt length_eq_zero_iff.mpr hserved, ?_⟩
  apply served_registered (n := 0) _ htimely hrun
  intro request hcall
  simp only [appendedAndRead, acts, mem_append, mem_singleton, mem_replicate,
    Event.call.injEq, reduceCtorEq, and_false, or_false] at hcall
  rcases hcall with (rfl | rfl) | rfl
  · exact ⟨rfl, trivial⟩
  · exact ⟨rfl, trivial⟩
  · exact ⟨rfl, trivial⟩

/-- An append is durable when its name is deleted and created again. It is recorded before the
append that writes the same offset of the new stream. -/
def recordedLate : List Happening :=
  [.call (0, .create plainStream)] ++ acts 0 10 1 ++ [.call (0, .append (appendOne [7]))] ++
    acts 1 10 2 ++ [.outside (.settle 0 0 true)] ++ acts 1 1 3 ++ [.call (0, .delete)] ++
    acts 2 13 3 ++ [.call (0, .create plainStream)] ++ acts 3 10 4 ++
    [.call (0, .append (appendOne [8]))] ++ acts 4 10 5 ++ [.outside (.settle 1 0 true)] ++
    acts 1 1 6 ++ acts 4 2 6 ++ [.call (0, .read 0 1 1)] ++ acts 5 8 7

/-- A read serves the message of the deleted stream. -/
theorem served_deleted_recordedLate :
  ∃ pool, runPool (fun _ => none) .new recordedLate = some pool ∧
    pool.shared.trace.served = [⟨⟨0, [7]⟩, some [8]⟩]
  := by
  decide +kernel

end Coherence

end Service
