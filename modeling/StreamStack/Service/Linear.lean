import StreamStack.Service.Effects
import StreamStack.Service.Streams

/-!
# Appends take effect one after the other

Appends to a name submit their messages under the gate and give it up before these are durable. As
long as no batch fails, the messages of the appends fill the stream in the order in which the
appends had the gate, each where the tail was when it got there. So of the appends that ask for the
same tail only one is applied.
-/

namespace Service

open Tasks Discipline EngineStream List World

namespace Linear

/-! ### Tiles -/

/-- Appends that fill a stream from an offset on, in the order of the list. -/
def Tiles : ℕ → List Applied → Prop
  | _, [] => True
  | next, a :: rest => a.base = next ∧ Tiles (next + a.messages.length) rest

/-- The messages of appends. -/
def messagesOf (applied : List Applied) : List Bytes :=
  applied.flatMap Applied.messages

theorem messagesOf_append (applied : List Applied) (a : Applied) :
  messagesOf (applied ++ [a]) = messagesOf applied ++ a.messages
  := by
  rw [messagesOf, flatMap_append, flatMap_singleton]
  rfl

variable {a : Applied}

section Tiles

variable {next : ℕ} {applied : List Applied} (h : Tiles next applied)

include h

/-- An append that starts at the tail extends the tiling. -/
theorem Tiles.append (ha : a.base = next + (messagesOf applied).length) :
  Tiles next (applied ++ [a])
  := by
  induction applied generalizing next with
  | nil => exact ⟨ha, trivial⟩
  | cons b rest ih =>
    refine ⟨h.1, ih h.2 ?_⟩
    rw [ha, messagesOf, flatMap_cons, length_append, Nat.add_assoc]
    rfl

theorem Tiles.le :
  ∀ a ∈ applied, next ≤ a.base
  := by
  induction applied generalizing next with
  | nil => nofun
  | cons b rest ih =>
    rintro a (_ | ⟨_, ha⟩)
    · exact h.1.ge
    · exact (Nat.le_add_right _ _).trans (ih h.2 a ha)

/-- The offsets of different appends are disjoint, and in order. -/
theorem Tiles.pairwise :
  applied.Pairwise fun a b => a.base + a.messages.length ≤ b.base
  := by
  induction applied generalizing next with
  | nil => exact List.Pairwise.nil
  | cons b rest ih =>
    apply List.Pairwise.cons _ (ih h.2)
    intro a ha
    rw [h.1]
    exact h.2.le a ha

/-- A message of an append is at its place after the base. -/
theorem Tiles.getElem? (ha : a ∈ applied) {i : ℕ} {message : Bytes}
    (hi : a.messages[i]? = some message) :
  (messagesOf applied)[a.base - next + i]? = some message
  := by
  induction applied generalizing next with
  | nil => cases ha
  | cons b rest ih =>
    rw [messagesOf, flatMap_cons]
    rcases mem_cons.mp ha with rfl | ha
    · obtain ⟨hlt, -⟩ := List.getElem?_eq_some_iff.mp hi
      rw [h.1, Nat.sub_self, Nat.zero_add, getElem?_append_left hlt]
      exact hi
    · have hle := h.2.le a ha
      rw [getElem?_append_right (by omega)]
      have hplace : a.base - next + i - b.messages.length
          = a.base - (next + b.messages.length) + i := by
        omega
      rw [hplace]
      exact ih h.2 ha

end Tiles

/-! ### Streams without failures -/

/-- No batch of the stream has failed. -/
def Unfailed (id : UInt64) (w : World) : Prop :=
  (w.streams id).all fun s => s.log.all fun b => b.outcome ≠ some false

instance (id : UInt64) : DecidablePred (Unfailed id) :=
  fun _ => inferInstanceAs (Decidable (_ = true))

theorem Unfailed.outcome {id : UInt64} {w : World} {s : EngineStream} (h : Unfailed id w)
    (hs : w.streams id = some s) :
  ∀ b ∈ s.log, b.outcome ≠ some false
  := by
  rw [Unfailed, hs] at h
  simpa using h

/-- A stream whose batches count their messages and have not failed. Unless its row is open, it is
closed and nothing is on its way. -/
structure Sound (s : EngineStream) : Prop where
  counted : ∀ b ∈ s.log, b.batch.count.toNat = b.messages.length
  unfailed : ∀ b ∈ s.log, b.outcome ≠ some false
  settled : s.row ≠ .opened → s.operable = false ∧ s.idle = true

namespace Sound

variable {s s' : EngineStream} (h : Sound s)

include h

/-- A batch counts the messages it holds. -/
theorem exact :
  ∀ b ∈ s.content, b.1.count.toNat = b.2.length
  := by
  intro b hb
  obtain ⟨submitted, hsubmitted, rfl⟩ := mem_map.mp hb
  exact h.counted submitted hsubmitted

/-- The tail of a sound stream is the number of its messages. -/
theorem nextOffset :
  s.nextOffset = s.messages.length
  := offsetAfter_exact h.exact

/-- A submitted batch leaves the stream sound unless it fails. -/
theorem submit {batch : RecordBatch} {messages : List Bytes} (hoperable : s.operable = true)
    (hcount : batch.Loggable → batch.count.toNat = messages.length)
    (hunfailed : ∀ b ∈ (s.submit batch messages).log, b.outcome ≠ some false) :
  Sound (s.submit batch messages)
  := by
  refine ⟨?_, hunfailed, fun hrow => absurd ((h.settled hrow).1.symm.trans hoperable) nofun⟩
  intro b hb
  have houtcome := hunfailed b hb
  rcases mem_append.mp hb with hb | hb
  · exact h.counted b hb
  · obtain rfl := mem_singleton.mp hb
    split at houtcome
    next hlog => exact hcount hlog
    next => exact absurd rfl houtcome

/-- Everything in a closed stream is durable. -/
theorem log_reopen (hclosed : s.row = .closed) :
  s.reopen.log = s.log
  := by
  have hidle := (h.settled (by simp [hclosed])).2
  apply takeWhile_eq_self_iff.mpr
  intro b hb
  have hsome := all_eq_true.mp hidle b hb
  have hunfailed := h.unfailed b hb
  cases houtcome : b.outcome with
  | none =>
    rw [houtcome] at hsome
    cases hsome
  | some durable =>
    cases durable with
    | true => rfl
    | false => exact absurd houtcome hunfailed

/-- A closed stream has nothing in flight, so it is sound when it is opened again. -/
theorem reopen (hclosed : s.row = .closed) :
  Sound s.reopen
  := by
  refine ⟨?_, ?_, fun hrow => absurd rfl hrow⟩
  · rw [h.log_reopen hclosed]
    exact h.counted
  · rw [h.log_reopen hclosed]
    exact h.unfailed

/-- The handle or the row of a stream is closed. -/
theorem of_log (hlog : s'.log = s.log)
    (hsettled : s'.row ≠ .opened → s'.operable = false ∧ s'.idle = true) :
  Sound s'
  := by
  refine ⟨?_, ?_, hsettled⟩
  · rw [hlog]
    exact h.counted
  · rw [hlog]
    exact h.unfailed

/-- An outcome changes neither what is in the stream nor whether it takes appends. -/
theorem settle {i : ℕ} {durable : Bool} (hsettle : s.settle i durable = some s')
    (hunfailed : ∀ b ∈ s'.log, b.outcome ≠ some false) :
  Sound s' ∧ s'.operable = s.operable ∧ s'.row = .opened
  := by
  obtain ⟨batch, messages, hat, hlog, hrow, -, hoperable⟩ := settle_cases hsettle
  have hmem := mem_of_getElem? hat
  have hlt := (List.getElem?_eq_some_iff.mp hat).1
  have hdurable : durable = true := by
    cases durable with
    | true => rfl
    | false =>
      apply absurd rfl (hunfailed ⟨batch, messages, some false⟩ _)
      rw [hlog]
      exact mem_set hlt _
  have hopened : s.row = .opened := by
    by_contra hne
    have hidle := all_eq_true.mp (h.settled hne).2 _ hmem
    cases hidle
  rw [hdurable, Bool.true_and] at hoperable
  refine ⟨⟨?_, hunfailed, fun hne => absurd (hrow.trans hopened) hne⟩, hoperable,
    hrow.trans hopened⟩
  intro b hb
  rw [hlog] at hb
  rcases mem_or_eq_of_mem_set hb with hb | rfl
  · exact h.counted b hb
  · exact h.counted ⟨batch, messages, none⟩ hmem

end Sound

/-! ### The discipline -/

/-- What holds in every state. The stream begins with the messages `first`. -/
structure LineInv (n : ℕ) (id : UInt64) (first : List Bytes) (w : World) : Prop where
  seen : (w.nodes n).seen ≤ w.kvLog.length
  named : ∀ entry, Visible n w entry → entry.streamId = id
  stream : ∃ s, w.streams id = some s ∧ Sound s ∧
    (id ∈ (w.nodes n).openStreams → s.operable = true) ∧
    first ++ messagesOf w.trace.applied <+: s.messages
  tiles : Tiles first.length w.trace.applied
  fitting : ∀ a ∈ w.trace.applied, a.messages ≠ [] ∧ ∀ m, a.matchSeq = some m → m = a.base

/-- The stream holds the messages of the appends and nothing else. -/
def Complete (id : UInt64) (first : List Bytes) (w : World) : Prop :=
  ∃ s, w.streams id = some s ∧ s.messages = first ++ messagesOf w.trace.applied

/-- What others do while a task has the gate. -/
structure LineQuiet (n : ℕ) (id : UInt64) (w w' : World) : Prop where
  handles : (w'.nodes n).openStreams = (w.nodes n).openStreams
  applied : w'.trace.applied = w.trace.applied
  stream : ∀ s, w.streams id = some s → ∃ s', w'.streams id = some s' ∧ s'.content = s.content ∧
    s'.operable = s.operable ∧ (s.idle = true → s'.idle = true)

/-- The task that has the gate is the owner. -/
def appending (n : ℕ) (id : UInt64) (first : List Bytes) : Discipline World where
  Allowed := Unfailed id
  owner w := (w.nodes n).gate
  Inv := LineInv n id first
  Rest := Complete id first
  Kept w w' := w.trace.applied <+: w'.trace.applied
  Quiet := LineQuiet n id
  kept_refl _ := prefix_refl _
  kept_trans := List.IsPrefix.trans
  quiet_refl _ := ⟨rfl, rfl, fun s h => ⟨s, h, rfl, rfl, fun h => h⟩⟩
  quiet_trans := by
    intro w w' w'' h h'
    refine ⟨h'.handles.trans h.handles, h'.applied.trans h.applied, ?_⟩
    intro s hs
    obtain ⟨s', hs', hcontent, hoperable, hidle⟩ := h.stream s hs
    obtain ⟨s'', hs'', hcontent', hoperable', hidle'⟩ := h'.stream s' hs'
    exact ⟨s'', hs'', hcontent'.trans hcontent, hoperable'.trans hoperable,
      fun h => hidle' (hidle h)⟩
  rest_quiet := by
    rintro w w' - - hquiet ⟨s, hs, hmessages⟩
    obtain ⟨s', hs', hcontent, -⟩ := hquiet.stream s hs
    refine ⟨s', hs', ?_⟩
    rw [messages, hcontent, hquiet.applied]
    exact hmessages

variable {value : Option RegistryEntry} {f : NodeState → NodeState}

section Steps

variable {n : ℕ} {id : UInt64} {first : List Bytes} {w w' : World}

theorem LineInv.keep (hinv : LineInv n id first w)
    (hseen : (w'.nodes n).seen ≤ w'.kvLog.length)
    (hnamed : ∀ entry, Visible n w' entry → entry.streamId = id) (hstreams : w'.streams = w.streams)
    (hhandles : (w'.nodes n).openStreams = (w.nodes n).openStreams)
    (happlied : w'.trace.applied = w.trace.applied) :
  LineInv n id first w'
  := by
  refine ⟨hseen, hnamed, ?_, ?_, ?_⟩
  · rw [hstreams, hhandles, happlied]
    exact hinv.stream
  · rw [happlied]
    exact hinv.tiles
  · rw [happlied]
    exact hinv.fitting

/-- What the stream holds is a fact about the streams and the appends only. -/
theorem Complete.keep (h : Complete id first w) (hstreams : w'.streams = w.streams)
    (happlied : w'.trace.applied = w.trace.applied) :
  Complete id first w'
  := by
  rw [Complete, hstreams, happlied]
  exact h

theorem inv_setTrace {f : Trace → Trace} (hinv : LineInv n id first w)
    (h : (f w.trace).applied = w.trace.applied) :
  LineInv n id first (w.setTrace f)
  := hinv.keep hinv.seen hinv.named rfl rfl h

theorem inv_putKv (h : PutsKey n w value w') (hinv : LineInv n id first w)
    (hvalue : ∀ entry, value = some entry → entry.streamId = id) :
  LineInv n id first w'
  := by
  have hhandles : (w'.nodes n).openStreams = (w.nodes n).openStreams := by
    obtain ⟨seen, hnode⟩ := h.node
    rw [hnode]
  apply hinv.keep (h.seen_le hinv.seen) _ h.streams hhandles h.applied
  intro entry hvisible
  rcases h.visible hinv.seen hvisible with hvisible | hentry
  · exact hinv.named entry hvisible
  · exact hvalue entry hentry

section

variable (hinv : LineInv n id first w)

include hinv

/-- The key and the cached entry stay, and the view may go on. -/
theorem LineInv.later (hlog : w'.kvLog = w.kvLog)
    (hcache : (w'.nodes n).entryCache = (w.nodes n).entryCache)
    (hseen : (w.nodes n).seen ≤ (w'.nodes n).seen) (hle : (w'.nodes n).seen ≤ w.kvLog.length)
    (hstreams : w'.streams = w.streams)
    (hhandles : (w'.nodes n).openStreams = (w.nodes n).openStreams)
    (happlied : w'.trace.applied = w.trace.applied) :
  LineInv n id first w'
  := by
  apply hinv.keep _ _ hstreams hhandles happlied
  · rw [hlog]
    exact hle
  · intro entry hvisible
    exact hinv.named entry (hvisible.of_later hlog hcache hseen)

theorem inv_setNode (hseen : (f (w.nodes n)).seen = (w.nodes n).seen)
    (hcache : (f (w.nodes n)).entryCache = (w.nodes n).entryCache)
    (hhandles : (f (w.nodes n)).openStreams = (w.nodes n).openStreams) :
  LineInv n id first (w.setNode n f)
  := by
  have hnode := w.nodes_setNode n f
  refine hinv.later rfl ?_ ?_ ?_ rfl ?_ rfl
  · rw [hnode, hcache]
  · rw [hnode, hseen]
  · rw [hnode, hseen]
    exact hinv.seen
  · rw [hnode, hhandles]

theorem inv_cache (hvalue : ∀ entry, value = some entry → entry.streamId = id) :
  LineInv n id first (w.setNode n fun node => { node with entryCache := value })
  := by
  apply hinv.keep
  · rw [nodes_setNode]
    exact hinv.seen
  · intro entry hvisible
    rcases hvisible.of_cache with hvisible | hentry
    · exact hinv.named entry hvisible
    · exact hvalue entry hentry
  · rfl
  · rw [nodes_setNode]
  · rfl

theorem inv_handles {openStreams : List UInt64}
    (h : id ∈ openStreams → ∃ s, w.streams id = some s ∧ s.operable = true) :
  LineInv n id first (w.setNode n fun node => { node with openStreams })
  := by
  refine ⟨?_, ?_, ?_, hinv.tiles, hinv.fitting⟩
  · rw [nodes_setNode]
    exact hinv.seen
  · intro entry hvisible
    apply hinv.named entry
    refine hvisible.of_later rfl ?_ ?_
    · rw [nodes_setNode]
    · rw [nodes_setNode]
  · obtain ⟨s, hs, hsound, -, hbegins⟩ := hinv.stream
    refine ⟨s, hs, hsound, ?_, hbegins⟩
    intro hmem
    rw [nodes_setNode] at hmem
    obtain ⟨t, ht, hoperable⟩ := h hmem
    cases hs.symm.trans ht
    exact hoperable

theorem inv_setStream {s s' : EngineStream} (hstored : w.streams id = some s) (hsound : Sound s')
    (hhandle : id ∈ (w.nodes n).openStreams → s'.operable = true)
    (hmessages : s.messages <+: s'.messages) :
  LineInv n id first (w.setStream id (some s'))
  := by
  refine ⟨hinv.seen, hinv.named, ?_, hinv.tiles, hinv.fitting⟩
  obtain ⟨t, ht, -, -, hbegins⟩ := hinv.stream
  cases hstored.symm.trans ht
  exact ⟨s', w.streams_setStream .., hsound, hhandle, hbegins.trans hmessages⟩

end

theorem Complete.setStream {s s' : EngineStream} (h : Complete id first w)
    (hstored : w.streams id = some s) (hmessages : s'.messages = s.messages) :
  Complete id first (w.setStream id (some s'))
  := by
  obtain ⟨t, ht, hcomplete⟩ := h
  cases hstored.symm.trans ht
  exact ⟨s', w.streams_setStream .., hmessages.trans hcomplete⟩

theorem messages_of_log {s s' : EngineStream} (h : s'.log = s.log) :
  s'.messages = s.messages
  := by
  rw [messages, content, h]
  rfl

theorem calm_outside {x : Outside} (h : x.change w = some w') (hallowed : Unfailed id w') :
  (appending n id first).Calm w w'
  := by
  rintro ⟨hinv, -⟩
  obtain ⟨other, place, durable, s, s', hstored, hsettled, rfl⟩ | ⟨m, hlt, rfl⟩ := x.change_cases h
  · by_cases heq : other = id
    · subst heq
      obtain ⟨t, ht, hsound, hhandle, -⟩ := hinv.stream
      cases hstored.symm.trans ht
      obtain ⟨hsound', hoperable, hrow⟩ :=
        hsound.settle hsettled (hallowed.outcome (w.streams_setStream ..))
      have hcontent := (settles_settle hsettled).content
      refine ⟨?_, prefix_refl _, rfl, rfl, rfl, ?_⟩
      · apply inv_setStream hinv hstored hsound'
        · rw [hoperable]
          exact hhandle
        · rw [messages, messages, hcontent]
      · intro t ht
        cases hstored.symm.trans ht
        refine ⟨s', w.streams_setStream .., hcontent, hoperable, ?_⟩
        intro hidle
        obtain ⟨batch, messages, hat, -⟩ := settle_cases hsettled
        exact absurd (all_eq_true.mp hidle _ (mem_of_getElem? hat)) nofun
    · have hsame := w.streams_setStream_of_ne (Ne.symm heq) (some s')
      refine ⟨⟨hinv.seen, hinv.named, ?_, hinv.tiles, hinv.fitting⟩, prefix_refl _, rfl, rfl,
        rfl, ?_⟩
      · rw [hsame]
        exact hinv.stream
      · rw [hsame]
        exact fun t ht => ⟨t, ht, rfl, rfl, fun h => h⟩
  · have hnode : ∃ seen, (w.setNode m fun node => { node with seen := node.seen + 1 }).nodes n
        = { w.nodes n with seen } ∧ (w.nodes n).seen ≤ seen ∧ seen ≤ w.kvLog.length := by
      by_cases heq : n = m
      · subst heq
        exact ⟨_, w.nodes_setNode .., Nat.le_succ _, hlt⟩
      · exact ⟨(w.nodes n).seen, w.nodes_setNode_of_ne heq _, le_rfl, hinv.seen⟩
    obtain ⟨seen, hnode, hseen, hle⟩ := hnode
    refine ⟨?_, prefix_refl _, ?_, ?_, rfl, fun s hs => ⟨s, hs, rfl, rfl, fun h => h⟩⟩
    · refine hinv.later rfl ?_ ?_ ?_ rfl ?_ rfl
      · rw [hnode]
      · rw [hnode]
        exact hseen
      · rw [hnode]
        exact hle
      · rw [hnode]
    · change (nodes _ n).gate = _
      rw [hnode]
      rfl
    · rw [hnode]

end Steps

/-! ### What the owner knows -/

section Facts

variable {n me : ℕ} {id : UInt64} {first : List Bytes}

/-- Everything is in order, and the handles of the node satisfy `P`. -/
def Tidy (n : ℕ) (id : UInt64) (first : List Bytes) (P : List UInt64 → Prop) (w : World) : Prop :=
  Complete id first w ∧ P (w.nodes n).openStreams

instance : (appending n id first).Lasts (Complete id first) :=
  lasting_rest

instance (P : List UInt64 → Prop) :
    (appending n id first).Lasts fun w => P (w.nodes n).openStreams where
  lasting := by
    intro w w' _ _ hquiet hP
    rw [hquiet.handles]
    exact hP

instance (P : List UInt64 → Prop) : (appending n id first).Lasts (Tidy n id first P) :=
  Lasts.and _ _

/-- The stream satisfies `P`. -/
def StreamIs (id : UInt64) (P : EngineStream → Prop) (w : World) : Prop :=
  ∃ s, w.streams id = some s ∧ P s

/-- Settling a batch changes neither the content of a stream nor its handle. -/
theorem lasting_streamIs {P : EngineStream → Prop}
    (hP : ∀ s s', s'.content = s.content → s'.operable = s.operable →
      (s.idle = true → s'.idle = true) → P s → P s') :
  (appending n id first).Lasts (StreamIs id P)
  := by
  constructor
  rintro w w' - - hquiet ⟨s, hs, h⟩
  obtain ⟨s', hs', hcontent, hoperable, hidle⟩ := hquiet.stream s hs
  exact ⟨s', hs', hP s s' hcontent hoperable hidle h⟩

instance (operable : Bool) :
    (appending n id first).Lasts (StreamIs id fun s => s.operable = operable) :=
  lasting_streamIs fun _ _ _ hsame _ h => hsame.trans h

instance : (appending n id first).Lasts
    (StreamIs id fun s => s.operable = false ∧ s.idle = true) :=
  lasting_streamIs fun _ _ _ hsame hidle h => ⟨hsame.trans h.1, hidle h.2⟩

variable {P : List UInt64 → Prop} {E : World → Prop} [(appending n id first).Lasts E]

theorem spec_setNode (hf : ∀ node, (f node).gate = node.gate ∧ (f node).seen = node.seen ∧ (f
      node).entryCache = node.entryCache ∧ (f node).openStreams = node.openStreams) :
  (appending n id first).Spec me (Tidy n id first P) (change fun w => w.setNode n f)
    (fun _ => Tidy n id first P) E
  := by
  apply spec_change
  rintro w hinv howner ⟨hcomplete, hP⟩ -
  obtain ⟨hgate, hseen, hcache, hhandles⟩ := hf (w.nodes n)
  refine ⟨inv_setNode hinv hseen hcache hhandles, prefix_refl _,
    (w.gate_setNode hgate).trans howner, hcomplete, ?_⟩
  rw [nodes_setNode, hhandles]
  exact hP

theorem spec_removeHandle :
  (appending n id first).Spec me (Tidy n id first P) (removeHandle n id)
    (fun _ => Tidy n id first fun handles => id ∉ handles) E
  := by
  apply spec_change
  rintro w hinv howner ⟨hcomplete, -⟩ -
  have hgone : id ∉ (w.nodes n).openStreams.filter fun other => other ≠ id := by
    simp
  refine ⟨inv_handles hinv fun hmem => absurd hmem hgone, prefix_refl _,
    (w.gate_setNode rfl).trans howner, hcomplete, ?_⟩
  rw [nodes_setNode]
  exact hgone

theorem spec_insertHandle :
  (appending n id first).Spec me
    (fun w => Tidy n id first P w ∧ StreamIs id (fun s => s.operable = true) w) (insertHandle n id)
    (fun _ => Tidy n id first fun handles => id ∈ handles) E
  := by
  apply spec_change
  rintro w hinv howner ⟨⟨hcomplete, -⟩, hoperable⟩ -
  refine ⟨inv_handles hinv fun _ => hoperable, prefix_refl _,
    (w.gate_setNode rfl).trans howner, hcomplete, ?_⟩
  rw [nodes_setNode]
  apply mem_cons_self

theorem step_setStream {w : World} {s s' : EngineStream} (hinv : LineInv n id first w)
    (hw : Tidy n id first P w) (hstored : w.streams id = some s) (hsound : Sound s')
    (hhandle : id ∈ (w.nodes n).openStreams → s'.operable = true)
    (hmessages : s'.messages = s.messages) :
  LineInv n id first (w.setStream id (some s')) ∧ Tidy n id first P (w.setStream id (some s'))
  := by
  refine ⟨inv_setStream hinv hstored hsound hhandle ?_, hw.1.setStream hstored hmessages, hw.2⟩
  rw [hmessages]

theorem spec_openStream :
  (appending n id first).Spec me (Tidy n id first P) (openStream id)
    (fun _ w => Tidy n id first P w ∧ StreamIs id (fun s => s.operable = true) w)
    (Tidy n id first P)
  := by
  apply spec_onRow fun _ _ h => h
  intro w s s' hinv howner hw hstored h
  split at h
  next => cases h
  next hclosed =>
    cases h
    obtain ⟨t, ht, hsound, -, -⟩ := hinv.stream
    cases hstored.symm.trans ht
    obtain ⟨hinv', hw'⟩ := step_setStream hinv hw hstored (hsound.reopen hclosed)
      (fun _ => rfl) (messages_of_log (hsound.log_reopen hclosed))
    exact ⟨hinv', prefix_refl _, howner, ⟨hw', _, w.streams_setStream .., rfl⟩, hw'⟩
  next => cases h

/-! ### Opening a handle -/

theorem spec_hasHandle :
  (appending n id first).Spec me (Tidy n id first P) (hasHandle n id)
    (fun held => Tidy n id first fun handles => P handles ∧ (held = true → id ∈ handles)) E
  := by
  apply spec_look
  rintro w _ ⟨hcomplete, hP⟩
  exact ⟨hcomplete, hP, of_decide_eq_true⟩

theorem spec_lockOpen :
  (appending n id first).Spec me (Tidy n id first P) (lockOpen n me)
    (fun _ => Tidy n id first P) E
  := by
  apply Spec.perform
  rintro w i w' r heq hinv howner ⟨hcomplete, hP⟩ -
  obtain ⟨-, heq⟩ := Option.ite_none_right_eq_some.mp heq
  cases heq
  refine ⟨inv_setNode hinv rfl rfl rfl, prefix_refl _, (w.gate_setNode rfl).trans howner,
    hcomplete, ?_⟩
  rw [nodes_setNode]
  exact hP

/-- A call gets a handle on the stream, or leaves it as complete as it was. -/
theorem spec_ensureOpen :
  (appending n id first).Spec me (Complete id first) (ensureOpen n me id)
    (fun _ => Tidy n id first fun handles => id ∈ handles) (Complete id first)
  := by
  have hlook : ∀ {P : List UInt64 → Prop}, (appending n id first).Spec me (Tidy n id first P)
      (hasHandle n id) (fun held w => Complete id first w ∧
        (held = true → id ∈ (w.nodes n).openStreams)) (Complete id first) := by
    intro P
    apply spec_hasHandle.grant
    intro held w _ hw
    exact ⟨hw.1, hw.2.2⟩
  have hheld : ∀ held : Bool, (appending n id first).Lasts fun w => Complete id first w ∧
      (held = true → id ∈ (w.nodes n).openStreams) :=
    fun held => inferInstanceAs
      ((appending n id first).Lasts (Tidy n id first fun handles => held = true → id ∈ handles))
  have hinner : (appending n id first).Spec me (Tidy n id first fun _ => True)
      (do if ← hasHandle n id then return () else do openStream id; insertHandle n id)
      (fun _ => Tidy n id first fun handles => id ∈ handles) (Complete id first) := by
    apply hlook.bind
    intro held
    split
    next htrue => exact Spec.pure fun _ _ h => ⟨h.1, h.2 htrue⟩
    next =>
      have hopen : (appending n id first).Spec me
          (fun w => Complete id first w ∧ (held = true → id ∈ (w.nodes n).openStreams))
          (openStream id) (fun _ w => Tidy n id first (fun _ => True) w ∧
            StreamIs id (fun s => s.operable = true) w) (Complete id first) :=
        (spec_openStream (P := fun _ => True)).weaken (fun _ _ h => ⟨h.1, trivial⟩)
          (fun _ _ _ h => h) fun _ _ h => h.1
      apply hopen.bind
      intro _
      exact spec_insertHandle
  have hunlock : ∀ {P : List UInt64 → Prop}, (appending n id first).Spec me (Tidy n id first P)
      (unlockOpen n) (fun _ => Tidy n id first P) (Complete id first) :=
    spec_setNode fun _ => ⟨rfl, rfl, rfl, rfl⟩
  apply (hlook (P := fun _ => True)).assume (fun _ _ h => ⟨h, trivial⟩) |>.bind
  intro held
  split
  next htrue => exact Spec.pure fun _ _ h => ⟨h.1, h.2 htrue⟩
  next =>
    apply (spec_lockOpen (P := fun _ => True)).assume (fun _ _ h => ⟨h.1, trivial⟩) |>.bind
    intro _
    apply hinner.attempt.bind
    intro result
    cases result with
    | ok _ =>
      apply hunlock.bind
      intro _
      exact Spec.pure fun _ _ h => h
    | error e =>
      apply ((hunlock (P := fun _ => True)).assume fun _ _ h => ⟨h, trivial⟩).bind
      intro _
      exact Spec.throw fun _ _ h => h.1

/-! ### Destroying a stream -/

/-- The node has no handle on the stream. -/
def Dropped (n : ℕ) (id : UInt64) (first : List Bytes) : World → Prop :=
  Tidy n id first fun handles => id ∉ handles

instance : (appending n id first).Lasts (Dropped n id first) :=
  inferInstanceAs ((appending n id first).Lasts (Tidy n id first _))

theorem step_dropped {w : World} {s : EngineStream} (s' : EngineStream)
    (hinv : LineInv n id first w) (hw : Dropped n id first w) (hstored : w.streams id = some s)
    (hlog : s'.log = s.log)
    (hsettled : Sound s → s'.row ≠ .opened → s'.operable = false ∧ s'.idle = true) :
  LineInv n id first (w.setStream id (some s')) ∧ Dropped n id first (w.setStream id (some s'))
  := by
  obtain ⟨t, ht, hsound, -, -⟩ := hinv.stream
  cases hstored.symm.trans ht
  exact step_setStream hinv hw hstored (hsound.of_log hlog (hsettled hsound))
    (fun hmem => absurd hmem hw.2) (messages_of_log hlog)

theorem spec_closeHandle :
  (appending n id first).Spec me (Dropped n id first) (closeHandle id)
    (fun _ w => Dropped n id first w ∧ StreamIs id (fun s => s.operable = false) w)
    (Dropped n id first)
  := by
  apply Spec.perform
  intro w i w' r heq hinv howner hw _
  split at heq
  next =>
    cases heq
    exact ⟨hinv, prefix_refl _, howner, hw⟩
  next s hstored =>
    cases heq
    obtain ⟨hinv', hw'⟩ := step_dropped { s with operable := false } hinv hw hstored rfl
      fun hsound hrow => ⟨rfl, (hsound.settled hrow).2⟩
    exact ⟨hinv', prefix_refl _, howner, hw', _, w.streams_setStream .., rfl⟩

/-- The stream is destroyed only when its batches have their outcome. -/
theorem spec_waitIdle :
  (appending n id first).Spec me
    (fun w => Dropped n id first w ∧ StreamIs id (fun s => s.operable = false) w) (waitIdle id)
    (fun _ w => Dropped n id first w ∧ StreamIs id (fun s => s.operable = false ∧ s.idle = true) w)
    (Dropped n id first)
  := by
  apply Spec.perform
  rintro w i w' r heq hinv howner ⟨hw, t, ht, hstopped⟩ -
  split at heq
  next =>
    cases heq
    exact ⟨hinv, prefix_refl _, howner, hw⟩
  next s hstored =>
    obtain rfl := Option.some.inj (hstored.symm.trans ht)
    obtain ⟨⟨s', u⟩, hidle, heq⟩ := Option.map_eq_some_iff.mp heq
    obtain ⟨hdrained, hpair⟩ := Option.ite_none_right_eq_some.mp hidle
    cases hpair
    cases heq
    rw [setStream_self hstored]
    exact ⟨hinv, prefix_refl _, howner, hw, s, hstored, hstopped, hdrained⟩

/-- The row of a stream that is closed and idle changes. -/
theorem spec_rowDrained {f : EngineStream → Except String EngineStream}
    (hf : ∀ s s', f s = .ok s' → s'.log = s.log ∧ s'.operable = s.operable ∧ s'.idle = s.idle) :
  (appending n id first).Spec me
    (fun w => Dropped n id first w ∧ StreamIs id (fun s => s.operable = false ∧ s.idle = true) w)
    (onRow id f)
    (fun _ w => Dropped n id first w ∧ StreamIs id (fun s => s.operable = false ∧ s.idle = true) w)
    (Dropped n id first)
  := by
  apply spec_onRow fun _ _ h => h.1
  rintro w s s' hinv howner ⟨hw, t, ht, hstopped, hidle⟩ hstored h
  cases hstored.symm.trans ht
  obtain ⟨hlog, hoperable, hsame⟩ := hf s s' h
  obtain ⟨hinv', hw'⟩ := step_dropped s' hinv hw hstored hlog
    fun _ _ => ⟨hoperable.trans hstopped, hsame.trans hidle⟩
  exact ⟨hinv', prefix_refl _, howner,
    ⟨hw', s', w.streams_setStream .., hoperable.trans hstopped, hsame.trans hidle⟩, hw'⟩

theorem spec_destroy :
  (appending n id first).Preserves me (Dropped n id first) (destroy id)
  := by
  have hclose : (appending n id first).Spec me (Dropped n id first) (closeStream id)
      (fun _ w => Dropped n id first w ∧
        StreamIs id (fun s => s.operable = false ∧ s.idle = true) w) (Dropped n id first) := by
    apply spec_closeHandle.bind
    intro _
    apply spec_waitIdle.bind
    intro _
    apply spec_rowDrained
    intro s s' h
    split at h
    · cases h
      exact ⟨rfl, rfl, rfl⟩
    · cases h
      exact ⟨rfl, rfl, rfl⟩
    · cases h
  apply hclose.bind
  intro _
  apply (spec_rowDrained _).grant fun _ _ _ h => h.1
  intro s s' h
  cases h
  exact ⟨rfl, rfl, rfl⟩

/-- Destroying keeps the log: the row goes, not the messages. -/
theorem spec_destroyStream :
  (appending n id first).Preserves me (Complete id first) (destroyStream n id)
  := by
  have hheld : (appending n id first).Spec me (Complete id first) (hasHandle n id)
      (fun _ => Tidy n id first fun _ => True) (Complete id first) :=
    (spec_hasHandle (P := fun _ => True)).weaken (fun _ _ h => ⟨h, trivial⟩)
      (fun _ _ _ h => ⟨h.1, trivial⟩) fun _ _ h => h
  apply hheld.bind
  intro held
  apply spec_removeHandle.bind
  intro _
  have hopen : (appending n id first).Preserves me (Dropped n id first)
      (onlyIf (!held) (openStream id)) := by
    apply Spec.onlyIf_same
    exact spec_openStream.grant fun _ _ _ h => h.1
  apply hopen.attempt_same.bind
  intro opened
  cases opened with
  | error e => exact Spec.pure fun _ _ h => h.1
  | ok _ =>
    apply spec_destroy.attempt_same.bind
    intro _
    exact Spec.pure fun _ _ h => h.1

end Facts

/-! ### Entries -/

section Entries

variable {n me : ℕ} {id : UInt64} {first : List Bytes}

theorem spec_resetTail :
  (appending n id first).Preserves me (Complete id first) (resetTail n)
  := by
  apply (spec_setNode (P := fun _ => True) _).weaken (fun _ _ h => ⟨h, trivial⟩)
    (fun _ _ _ h => h.1) fun _ _ h => h
  intro node
  exact ⟨rfl, rfl, rfl, rfl⟩

theorem spec_cacheEntry (hvalue : ∀ entry, value = some entry → entry.streamId = id) :
  (appending n id first).Preserves me (Complete id first) (cacheEntry n value)
  := by
  apply spec_change
  intro w hinv howner hcomplete _
  exact ⟨inv_cache hinv hvalue, prefix_refl _, (w.gate_setNode rfl).trans howner, hcomplete⟩

/-- The key changes to a value that names the stream, if any. -/
theorem step_putKv {w w' : World} (h : PutsKey n w value w')
    (hvalue : ∀ entry, value = some entry → entry.streamId = id) (hinv : LineInv n id first w)
    (howner : (w.nodes n).gate = some me) (hcomplete : Complete id first w) :
  LineInv n id first w' ∧ w.trace.applied <+: w'.trace.applied ∧ (w'.nodes n).gate = some me ∧
    Complete id first w'
  := by
  refine ⟨inv_putKv h hinv hvalue, ?_, h.gate.trans howner, hcomplete.keep h.streams h.applied⟩
  rw [h.applied]

variable {entry : RegistryEntry}

theorem spec_putEntry (hid : entry.streamId = id) :
  (appending n id first).Preserves me (Complete id first) (putEntry n entry)
  := by
  have hvalue : ∀ entry', some entry = some entry' → entry'.streamId = id := by
    intro entry' heq
    cases heq
    exact hid
  apply Spec.bind (G := fun _ => Complete id first)
  · apply spec_callWith
    · intro w hinv howner hcomplete _
      exact step_putKv putsKey_answered hvalue hinv howner hcomplete
    · intro w hinv howner hcomplete _
      exact step_putKv putsKey_lost hvalue hinv howner hcomplete
    · intro w hinv howner hcomplete _
      exact ⟨inv_setTrace hinv rfl, prefix_refl _, howner, hcomplete⟩
  · intro _
    exact spec_cacheEntry hvalue

theorem spec_delExpired {nowMs : Int64} :
  (appending n id first).Preserves me (Complete id first) (delExpired n entry nowMs)
  := by
  apply Spec.perform
  intro w i w' r heq hinv howner hcomplete _
  split at heq
  · cases heq
    exact step_putKv putsKey_expired nofun hinv howner hcomplete
  · cases heq
    exact step_putKv putsKey_expiredLost nofun hinv howner hcomplete
  · cases heq
    exact ⟨inv_setTrace hinv rfl, prefix_refl _, howner, hcomplete⟩

theorem spec_expire {nowMs : Int64} (hid : entry.streamId = id) :
  (appending n id first).Preserves me (Complete id first) (expire n entry nowMs)
  := by
  subst hid
  have hforget : (appending n entry.streamId first).Preserves me (Complete entry.streamId first)
      (cacheEntry n none) := spec_cacheEntry nofun
  apply spec_delExpired.attempt_same.bind
  intro _
  apply hforget.bind
  intro _
  apply spec_destroyStream.bind
  intro _
  exact spec_resetTail

/-- An entry that is found names the stream. -/
def Found (id : UInt64) (first : List Bytes) (entry : Option RegistryEntry) (w : World) : Prop :=
  Complete id first w ∧ ∀ found, entry = some found → found.streamId = id

instance (entry : Option RegistryEntry) :
    (appending n id first).Lasts (Found id first entry) :=
  Lasts.and _ _

/-- The entry a call works on names the stream, and an expiry loses no message. -/
theorem spec_getEntry (touch : Bool) :
  (appending n id first).Spec me (Complete id first) (getEntry n touch) (Found id first)
    (Complete id first)
  := by
  apply spec_getWith
  · apply spec_loadWith
    · intro w entry hinv hcomplete hcached
      refine ⟨hcomplete, ?_⟩
      intro found heq
      cases heq
      exact hinv.named entry (.inr hcached)
    · intro w hinv hcomplete
      exact ⟨hcomplete, fun found heq => hinv.named found (.inl ⟨_, le_rfl, heq⟩)⟩
    · intro entry
      apply Spec.of_and
      intro hid
      exact (spec_cacheEntry hid).grant fun _ _ _ h => ⟨h, hid⟩
  · intro entry nowMs
    apply Spec.of_and
    intro hid
    exact (spec_expire (hid entry rfl)).grant fun _ _ _ h => ⟨h, nofun⟩
  · intro entry nowMs
    apply Spec.of_and
    intro hid
    have hsame := (streamId_touchDeadline entry nowMs).trans (hid entry rfl)
    apply (spec_putEntry hsame).grant
    intro _ w _ hcomplete
    refine ⟨hcomplete, ?_⟩
    intro found heq
    cases heq
    exact hsame

end Entries

/-! ### Appends -/

variable {command : AppendCommand}

section Appends

variable {n me : ℕ} {id : UInt64} {first : List Bytes} {parseJson : Bytes → Option JsonBody}
  {applied : List Applied} {content : List (RecordBatch × List Bytes)}

/-- An append is at work: the appends before it, a handle, and what the stream holds. -/
def Filling (n : ℕ) (id : UInt64) (applied : List Applied)
    (content : List (RecordBatch × List Bytes)) (w : World) : Prop :=
  (w.trace.applied = applied ∧ id ∈ (w.nodes n).openStreams) ∧
    StreamIs id (fun s => s.content = content) w

instance (content : List (RecordBatch × List Bytes)) :
    (appending n id first).Lasts (StreamIs id fun s => s.content = content) :=
  lasting_streamIs fun _ _ hsame _ _ h => hsame.trans h

instance (P : List Applied → Prop) : (appending n id first).Lasts fun w => P w.trace.applied where
  lasting := by
    intro w w' _ _ hquiet hP
    rw [hquiet.applied]
    exact hP

instance (applied : List Applied) (content : List (RecordBatch × List Bytes)) :
    (appending n id first).Lasts (Filling n id applied content) where
  lasting := by
    rintro w w' hw hw' hquiet ⟨⟨happlied, hhandle⟩, hstream⟩
    refine ⟨⟨hquiet.applied.trans happlied, ?_⟩, Lasts.lasting w w' hw hw' hquiet hstream⟩
    rw [hquiet.handles]
    exact hhandle

variable {messages : List Bytes} {atomic : Bool}

/-- While the handle is there, a batch is taken. -/
theorem spec_submitBatch {group : RecordBatch × List Bytes}
    (hgroup : group ∈ groupsOf messages atomic) :
  (appending n id first).Spec me (Filling n id applied content) (submitBatch id group.1 group.2)
    (fun place w => Filling n id applied (content ++ [group]) w ∧ place = content.length)
    fun _ => False
  := by
  have hsubmit : (appending n id first).Spec me (Filling n id applied content)
      (onStream id fun s =>
        if s.operable then some (s.submit group.1 group.2, some s.log.length) else some (s, none))
      (fun placed w => Filling n id applied (content ++ [group]) w ∧ placed = some content.length)
      fun _ => False := by
    apply Spec.perform
    rintro w i w' r heq hinv howner ⟨⟨happlied, hhandle⟩, s, hs, rfl⟩ hallowed
    obtain ⟨t, ht, hsound, hoperable, -⟩ := hinv.stream
    cases hs.symm.trans ht
    have hoperable := hoperable hhandle
    simp only [hs, hoperable, if_true, Option.map_some, Option.some.injEq, Prod.mk.injEq] at heq
    obtain ⟨rfl, rfl⟩ := heq
    have hsound' : Sound (s.submit group.1 group.2) :=
      hsound.submit hoperable (fun hlog => (holds_groupsOf hgroup hlog).1)
        (hallowed.outcome (w.streams_setStream ..))
    have hcontent := content_submit s group.1 group.2
    refine ⟨inv_setStream hinv hs hsound' (fun _ => hoperable) ?_, prefix_refl _, howner,
      ⟨⟨happlied, hhandle⟩, _, w.streams_setStream .., hcontent⟩, ?_⟩
    · rw [EngineStream.messages, EngineStream.messages, hcontent, flatMap_append]
      apply prefix_append
    · rw [EngineStream.content, length_map]
  apply hsubmit.bind
  intro placed
  apply Spec.of_and
  rintro rfl
  exact Spec.pure fun _ _ h => ⟨h, rfl⟩

theorem spec_submitMessages :
  (appending n id first).Spec me (Filling n id applied content) (submitMessages id messages atomic)
    (fun _ => Filling n id applied (content ++ groupsOf messages atomic)) fun _ => False
  := by
  exact (spec_submitWith (A := Filling n id applied)
    fun content group hgroup => spec_submitBatch hgroup).grant fun _ _ _ h => h.1

variable {base : ℕ}

/-- The offset that is answered is the end of the append. -/
theorem spec_offsetAfterSubmit (hbase : base = (content.flatMap Prod.snd).length) :
  (appending n id first).Spec me (Filling n id applied (content ++ groupsOf messages atomic))
    (offsetAfterSubmit id base messages)
    (fun next w => Filling n id applied (content ++ groupsOf messages atomic) w ∧
      next = base + messages.length) fun _ => False
  := by
  unfold offsetAfterSubmit
  split
  next hempty =>
    apply Spec.pure
    intro w _ h
    rw [List.isEmpty_iff.mp hempty] at h ⊢
    exact ⟨h, rfl⟩
  next =>
    apply Spec.perform
    rintro w i w' r heq hinv howner ⟨hw, s, hs, hcontent⟩ -
    obtain ⟨t, ht, hsound, -, -⟩ := hinv.stream
    cases hs.symm.trans ht
    simp only [hs, Option.map_some, Option.some.injEq, Prod.mk.injEq] at heq
    obtain ⟨rfl, rfl⟩ := heq
    rw [setStream_self hs]
    refine ⟨hinv, prefix_refl _, howner, ⟨hw, s, hs, hcontent⟩, ?_⟩
    rw [hsound.nextOffset, EngineStream.messages, hcontent, flatMap_append, flatMap_groupsOf,
      length_append, hbase]

/-- What an append reports that was applied. -/
structure Reported (parseJson : Bytes → Option JsonBody) (command : AppendCommand) (me : ℕ)
    (result : AppendResult) (a : Applied) : Prop where
  task : a.task = me
  matchSeq : a.matchSeq = command.matchSeq
  nextOffset : result.nextOffset = a.base + a.messages.length
  messages : ∃ entry, admitAppend parseJson entry command a.base = .ok (.submit false a.messages)

/-- If the result says that the append was applied, it was. -/
def Noted (parseJson : Bytes → Option JsonBody) (command : AppendCommand) (me : ℕ)
    (result : AppendResult) (w : World) : Prop :=
  result.applied = true → ∃ a ∈ w.trace.applied, Reported parseJson command me result a

instance (command : AppendCommand) (result : AppendResult) :
    (appending n id first).Persists (Noted parseJson command me result) where
  persistent := by
    intro w w' _ _ hkept hnoted happlied
    obtain ⟨a, ha, hreported⟩ := hnoted happlied
    exact ⟨a, hkept.subset ha, hreported⟩

/-- An append that is through leaves the stream complete. -/
theorem complete_of_filling {w : World} (h : Filling n id applied content w)
    (hcontent : content.flatMap Prod.snd = first ++ messagesOf applied) :
  Complete id first w
  := by
  obtain ⟨⟨rfl, -⟩, s, hs, rfl⟩ := h
  exact ⟨s, hs, hcontent⟩

theorem spec_noteApplied
    (hcontent : content.flatMap Prod.snd = first ++ messagesOf applied ++ a.messages)
    (hbase : a.base = (first ++ messagesOf applied).length) (hmessages : a.messages ≠ [])
    (hmatch : ∀ m, a.matchSeq = some m → m = a.base) :
  (appending n id first).Spec me (Filling n id applied content) (noteApplied a)
    (fun _ w => Complete id first w ∧ a ∈ w.trace.applied) (Complete id first)
  := by
  apply spec_change
  rintro w hinv howner ⟨⟨rfl, hhandle⟩, s, hs, rfl⟩ -
  have hfilled : s.messages = first ++ messagesOf (w.trace.applied ++ [a]) := by
    rw [messagesOf_append, ← append_assoc]
    exact hcontent
  refine ⟨⟨hinv.seen, hinv.named, ?_, ?_, ?_⟩, prefix_append _ _, howner, ⟨s, hs, hfilled⟩,
    mem_append_right _ (mem_singleton_self a)⟩
  · obtain ⟨t, ht, hsound, hoperable, -⟩ := hinv.stream
    cases hs.symm.trans ht
    refine ⟨s, hs, hsound, hoperable, ?_⟩
    rw [hfilled]
    exact prefix_refl _
  · apply hinv.tiles.append
    rw [hbase, length_append]
  · intro b hb
    rcases mem_append.mp hb with hb | hb
    · exact hinv.fitting b hb
    · obtain rfl := mem_singleton.mp hb
      exact ⟨hmessages, hmatch⟩

theorem spec_dropHandle {α : Type} {e : ServiceError} {G : α → World → Prop} :
  (appending n id first).Spec me (Complete id first) (dropHandle n id e) G (Complete id first)
  := by
  apply ((spec_removeHandle (P := fun _ => True)).weaken (fun _ _ h => ⟨h, trivial⟩)
    (fun _ _ _ h => h.1) fun _ _ h => h).bind
  intro _
  apply spec_resetTail.bind
  intro _
  exact Spec.throw fun _ _ h => h

theorem spec_recordAppend :
  (appending n id first).Preserves me (Complete id first) (recordAppend n id base messages)
  := by
  apply spec_change
  intro w hinv howner hcomplete _
  refine ⟨inv_setTrace (inv_setNode hinv rfl rfl rfl) rfl, prefix_refl _, ?_, hcomplete⟩
  simpa [appending] using howner

theorem spec_finishClosing {updated : RegistryEntry} {closeOnly : Bool} {p : Pipelined}
    (hp : p.streamId = id) (hid : updated.streamId = id) :
  (appending n id first).Spec me (Complete id first) (finishClosing n updated command closeOnly p)
    (fun result w => Complete id first w ∧ result = .inl p.result) (Complete id first)
  := by
  subst hp
  have hawait : (appending n p.streamId first).Preserves me (Complete p.streamId first)
      (awaitDurable p.streamId p.places) :=
    spec_awaitDurable (fun _ _ h => h) fun _ _ _ h _ _ => h
  apply hawait.attempt_same.bind
  intro durable
  cases durable with
  | error e => exact spec_dropHandle
  | ok _ =>
    apply (Spec.onlyIf_same spec_recordAppend).bind
    intro _
    apply Spec.bind (G := fun _ => Complete p.streamId first)
    · apply spec_clock.bind
      intro nowMs
      apply spec_putEntry
      rw [streamId_touchDeadline]
      exact hid
    · intro _
      exact Spec.pure fun _ _ h => ⟨h, rfl⟩

theorem spec_finishPipelined {entry updated : RegistryEntry} {p : Pipelined}
    (hid : updated.streamId = id) :
  (appending n id first).Spec me (Complete id first) (finishPipelined n entry updated p)
    (fun result w => Complete id first w ∧ result = .inr p) (Complete id first)
  := by
  apply spec_clock.bind
  intro nowMs
  apply Spec.bind (G := fun _ => Complete id first)
  · apply Spec.onlyIf_same
    apply spec_putEntry
    rw [streamId_touchDeadline]
    exact hid
  · intro _
    exact Spec.pure fun _ _ h => ⟨h, rfl⟩

/-- What is known of an append when it gives up the gate. -/
def InFlight (parseJson : Bytes → Option JsonBody) (id : UInt64) (command : AppendCommand)
    (me : ℕ) : AppendResult ⊕ Pipelined → World → Prop
  | .inl result, w => Noted parseJson command me result w
  | .inr p, w => Noted parseJson command me p.result w ∧ p.streamId = id

instance (command : AppendCommand) (result : AppendResult ⊕ Pipelined) :
    (appending n id first).Persists (InFlight parseJson id command me result) := by
  cases result with
  | inl result => exact inferInstanceAs ((appending n id first).Persists (Noted _ _ _ _))
  | inr p =>
    constructor
    rintro w w' hw hw' hkept ⟨hnoted, hid⟩
    exact ⟨Persists.persistent w w' hw hw' hkept hnoted, hid⟩

instance {K : World → Prop} [h : (appending n id first).Persists K] :
    (appending n id first).Lasts K where
  lasting := by
    intro w w' hw hw' hquiet
    apply h.persistent w w' hw hw'
    change w.trace.applied <+: w'.trace.applied
    rw [hquiet.applied]

theorem spec_submitAppend {entry : RegistryEntry} {closeOnly : Bool} (hid : entry.streamId = id)
    (hcontent : content.flatMap Prod.snd = first ++ messagesOf applied)
    (hbase : base = (first ++ messagesOf applied).length)
    (hadmitted : admitAppend parseJson entry command base = .ok (.submit closeOnly messages))
    (hsubmits : Submits command base closeOnly messages) :
  (appending n id first).Spec me (Filling n id applied content)
    (submitAppend n me entry command base closeOnly messages)
    (fun result w => Complete id first w ∧ InFlight parseJson id command me result w)
    (Complete id first)
  := by
  subst hid
  have hgroups : (content ++ groupsOf messages command.atomic).flatMap Prod.snd
      = first ++ messagesOf applied ++ messages := by
    rw [flatMap_append, hcontent, flatMap_groupsOf]
  apply spec_submitMessages.attempt.bind
  intro submitted
  cases submitted with
  | error e => exact Spec.of_false
  | ok places =>
    have hlook : (appending n entry.streamId first).Spec me
        (Filling n entry.streamId applied (content ++ groupsOf messages command.atomic))
        (offsetAfterSubmit entry.streamId base messages)
        (fun next w => Filling n entry.streamId applied
          (content ++ groupsOf messages command.atomic) w ∧ next = base + messages.length)
        (Complete entry.streamId first) :=
      (spec_offsetAfterSubmit (hbase.trans (congrArg List.length hcontent.symm))).excuse
        fun _ _ h => h.elim
    apply hlook.bind
    intro next
    apply Spec.of_and
    rintro rfl
    have hnote : (appending n entry.streamId first).Spec me
        (Filling n entry.streamId applied (content ++ groupsOf messages command.atomic))
        (onlyIf (!closeOnly) (noteApplied ⟨me, entry.streamId, base, messages, command.matchSeq⟩))
        (fun _ w => Complete entry.streamId first w ∧ Noted parseJson command me
          (resultOf command closeOnly (base + messages.length)) w)
        (Complete entry.streamId first) := by
      apply Spec.onlyIf
      · intro happly
        have hopen : closeOnly = false := by
          simpa using happly
        subst hopen
        have hnonempty : messages ≠ [] := fun hnil => absurd (hsubmits.messages.mp hnil) nofun
        apply (spec_noteApplied hgroups hbase hnonempty hsubmits.tail).grant
        rintro _ w _ ⟨hcomplete, hmem⟩
        exact ⟨hcomplete, fun _ => ⟨_, hmem, rfl, rfl, rfl, entry, hadmitted⟩⟩
      · intro w _ hfilling hskip
        have hclose : closeOnly = true := by
          simpa using hskip
        have hsame : (content ++ groupsOf messages command.atomic).flatMap Prod.snd
            = first ++ messagesOf applied := by
          rw [hgroups, hsubmits.messages.mpr hclose, append_nil]
        refine ⟨complete_of_filling hfilling hsame, ?_⟩
        intro happlied
        rw [resultOf, hclose] at happlied
        cases happlied
    apply hnote.bind
    intro _
    have hsame := streamId_applyAppendState entry command (decisionOf entry command)
    simp only
    split
    · apply ((spec_finishClosing (p := ⟨entry.streamId, base, messages, places, _⟩) rfl
        hsame).frame _).weaken (fun _ _ h => h) _ fun _ _ h => h.1
      rintro result w _ ⟨⟨hcomplete, rfl⟩, hnoted⟩
      exact ⟨hcomplete, hnoted⟩
    · apply ((spec_finishPipelined hsame).frame _).weaken (fun _ _ h => h) _ fun _ _ h => h.1
      rintro result w _ ⟨⟨hcomplete, rfl⟩, hnoted⟩
      exact ⟨hcomplete, hnoted, rfl⟩

end Appends

/-! ### Under the gate and after it -/

section Operations

variable {n me : ℕ} {id : UInt64} {first : List Bytes} {parseJson : Bytes → Option JsonBody}

/-- An append that has its entry and a handle starts at the tail of the stream. -/
def Starting (n : ℕ) (id : UInt64) (first : List Bytes) (next : ℕ) (w : World) : Prop :=
  ∃ applied content, Filling n id applied content w ∧
    (content.flatMap Prod.snd = first ++ messagesOf applied ∧
      next = (first ++ messagesOf applied).length)

instance (next : ℕ) : (appending n id first).Lasts (Starting n id first next) :=
  Lasts.exists _

theorem Starting.complete {next : ℕ} {w : World} (h : Starting n id first next w) :
  Complete id first w
  := by
  obtain ⟨applied, content, hfilling, hcontent, -⟩ := h
  exact complete_of_filling hfilling hcontent

theorem spec_nextOffset :
  (appending n id first).Spec me (Tidy n id first fun handles => id ∈ handles)
    (lookStream id EngineStream.nextOffset) (Starting n id first) (Complete id first)
  := by
  apply spec_lookStream fun _ _ h => h.1
  rintro w s hinv ⟨⟨t, ht, hmessages⟩, hhandle⟩ hs
  cases hs.symm.trans ht
  obtain ⟨t, ht, hsound, -, -⟩ := hinv.stream
  cases hs.symm.trans ht
  refine ⟨w.trace.applied, s.content, ⟨⟨rfl, hhandle⟩, s, hs, rfl⟩, hmessages, ?_⟩
  rw [hsound.nextOffset, hmessages]

theorem spec_appendGated (command : AppendCommand) :
  (appending n id first).Spec me (Complete id first) (appendGated parseJson n me command)
    (fun result w => Complete id first w ∧ InFlight parseJson id command me result w)
    (Complete id first)
  := by
  apply (spec_getEntry false).bind
  intro entry
  cases entry with
  | none => exact Spec.throw fun _ _ h => h.1
  | some entry =>
    apply Spec.of_and
    intro hfound
    obtain rfl := hfound entry rfl
    apply spec_ensureOpen.bind
    intro _
    apply spec_nextOffset.bind
    intro next
    split
    next => exact Spec.throw fun _ _ h => h.complete
    next result hadmitted =>
      -- an answer without an append says so
      apply Spec.pure
      intro w _ hw
      refine ⟨hw.complete, ?_⟩
      intro happlied
      rcases admitAppend_cases hadmitted with ⟨result', heq, hnot, -⟩ | ⟨_, _, heq, -⟩
      · obtain rfl := Admission.answer.inj heq
        exact absurd (hnot.symm.trans happlied) nofun
      · cases heq
    next closeOnly messages hadmitted =>
      have hsubmits : Submits command next closeOnly messages := by
        rcases admitAppend_cases hadmitted with ⟨_, heq, -⟩ | ⟨_, _, heq, hsubmits, -⟩
        · cases heq
        · obtain ⟨rfl, rfl⟩ := Admission.submit.inj heq
          exact hsubmits
      apply Spec.of_exists
      intro applied
      apply Spec.of_exists
      intro content
      apply Spec.of_and
      rintro ⟨hcontent, hnext⟩
      exact spec_submitAppend rfl hcontent hnext hadmitted hsubmits

theorem ensures_withGate {α : Type} {body : Op α} {G K : α → World → Prop}
    [∀ a, (appending n id first).Lasts (G a)] [∀ a, (appending n id first).Persists (K a)]
    (h : (appending n id first).Spec me (Complete id first) body G (Complete id first))
    (hrest : ∀ a w, G a w → Complete id first w) (hgk : ∀ a w, G a w → K a w) :
  Ensures ((appending n id first).rules me) (appending n id first).Good (withGate n me body)
    (fun a => (appending n id first).Known (K a)) fun _ => (appending n id first).Good
  := by
  apply ensures_turn _ _ h (fun a w _ => hrest a w) fun a w _ => hgk a w
  · rintro w i w' r ⟨hinv, hfree⟩ heq -
    obtain ⟨hgate, heq⟩ := Option.ite_none_right_eq_some.mp heq
    cases heq
    rw [Option.isNone_iff_eq_none] at hgate
    refine ⟨hgate, inv_setTrace (inv_setNode hinv rfl rfl rfl) rfl, prefix_refl _, ?_,
      hfree hgate⟩
    simp [appending]
  · rintro w i w' r hinv howner hcomplete heq -
    cases heq
    exact ⟨⟨inv_setNode hinv rfl rfl rfl, fun _ => hcomplete⟩, prefix_refl _⟩

theorem calm_recordAppend {other : UInt64} {base : ℕ} {messages : List Bytes} :
  Only (appending n id first).Calm (recordAppend n other base messages)
  := by
  apply only_change
  rintro w ⟨hinv, -⟩
  refine ⟨inv_setTrace (inv_setNode hinv rfl rfl rfl) rfl, prefix_refl _, ?_, ?_, rfl,
    fun s hs => ⟨s, hs, rfl, rfl, fun h => h⟩⟩
  · simp [appending]
  · simp

/-- An append fails only when one of its batches does. -/
theorem mem_failed_of_durability {log : List Submitted} {places : List ℕ}
    (h : durability log places = some false) :
  ∃ b ∈ log, b.outcome = some false
  := by
  induction places with
  | nil => cases h
  | cons place rest ih =>
    rw [durability] at h
    split at h
    next => cases h
    next hfailed =>
      obtain ⟨b, hb, houtcome⟩ := Option.bind_eq_some_iff.mp hfailed
      exact ⟨b, mem_of_getElem? hb, houtcome⟩
    next => exact ih h

/-- As no batch fails, the wait after the gate ends well. -/
theorem ensures_appendPipelined (p : Pipelined) :
  Ensures ((appending n id first).rules me)
    ((appending n id first).Known (InFlight parseJson id command me (.inr p)))
    (appendPipelined n p)
    (fun result => (appending n id first).Known (Noted parseJson command me result))
    fun _ => (appending n id first).Good
  := by
  have hawait : Ensures ((appending n id first).rules me)
      ((appending n id first).Known (InFlight parseJson id command me (.inr p)))
      (awaitDurable p.streamId p.places)
      (fun _ => (appending n id first).Known (InFlight parseJson id command me (.inr p)))
      fun _ => (appending n id first).Known fun _ => False := by
    apply ensures_awaitDurable
    · rintro w hinv ⟨-, hid⟩ hnone
      obtain ⟨s, hs, -⟩ := hinv.stream
      rw [hid, hs] at hnone
      cases hnone
    · rintro w s hinv ⟨-, hid⟩ hs hfailed
      obtain ⟨t, ht, hsound, -⟩ := hinv.stream
      cases (hid ▸ hs).symm.trans ht
      obtain ⟨b, hb, houtcome⟩ := mem_failed_of_durability hfailed
      exact hsound.unfailed b hb houtcome
    · intro w s _ h _ _
      exact h
  apply hawait.attempt.bind
  intro durable
  cases durable with
  | error e => exact fun _ h => h.2.elim
  | ok _ =>
    apply ((ensures_calm calm_recordAppend).weaken (fun _ h => h) (fun _ _ h => h)
      fun _ _ h => h.1).bind
    intro _
    exact Ensures.pure stable_known fun _ h => ⟨h.1, h.2.1⟩

theorem ensures_append (command : AppendCommand) :
  Ensures ((appending n id first).rules me) (appending n id first).Good
    (append parseJson n me command)
    (fun result => (appending n id first).Known (Noted parseJson command.normalized me result))
    fun _ => (appending n id first).Good
  := by
  apply (ensures_withGate (spec_appendGated command.normalized) (fun _ _ h => h.1)
    fun _ _ h => h.2).bind
  intro result
  cases result with
  | inl result => exact Ensures.pure stable_known fun _ h => h
  | inr p => exact ensures_appendPipelined p

end Operations

/-! ### Runs -/

/-- The name is served by a node and its stream holds the messages `first`. -/
structure Ready (n : ℕ) (id : UInt64) (first : List Bytes) (w : World) : Prop where
  free : (w.nodes n).gate = none
  seen : (w.nodes n).seen ≤ w.kvLog.length
  named : ∀ entry, Visible n w entry → entry.streamId = id
  stream : ∃ s, w.streams id = some s ∧ Sound s ∧
    (id ∈ (w.nodes n).openStreams → s.operable = true) ∧ s.messages = first
  unnoted : w.trace.applied = []

theorem Ready.good {n : ℕ} {id : UInt64} {first : List Bytes} {w : World}
    (h : Ready n id first w) :
  (appending n id first).Good w
  := by
  obtain ⟨s, hs, hsound, hoperable, hmessages⟩ := h.stream
  have hall : s.messages = first ++ messagesOf w.trace.applied := by
    rw [h.unnoted, hmessages]
    exact (append_nil first).symm
  refine ⟨⟨h.seen, h.named, ⟨s, hs, hsound, hoperable, ?_⟩, ?_, ?_⟩, fun _ => ⟨s, hs, hall⟩⟩
  · rw [hall]
  · rw [h.unnoted]
    exact trivial
  · rw [h.unnoted]
    nofun

/-- The appends to a stream took effect in the order of the list. -/
structure Linearized (first : List Bytes) (s : EngineStream) (applied : List Applied) : Prop where
  tiles : Tiles first.length applied
  disjoint : applied.Pairwise fun a b => a.base + a.messages.length ≤ b.base
  held : ∀ a ∈ applied, ∀ i message, a.messages[i]? = some message →
    messageAt s.content (a.base + i) = some message
  matched : ∀ a ∈ applied, ∀ m, a.matchSeq = some m → a.base = m
  once : applied.Pairwise fun a b => a.matchSeq.isSome → a.matchSeq ≠ b.matchSeq

/-- Of the appends that ask for the same tail, the first moves it. -/
theorem once_of_disjoint {applied : List Applied}
    (hdisjoint : applied.Pairwise fun a b => a.base + a.messages.length ≤ b.base)
    (hfitting : ∀ a ∈ applied, a.messages ≠ [] ∧ ∀ m, a.matchSeq = some m → m = a.base) :
  applied.Pairwise fun a b => a.matchSeq.isSome → a.matchSeq ≠ b.matchSeq
  := by
  apply hdisjoint.imp_of_mem
  intro a b ha hb hle hsome heq
  obtain ⟨m, hm⟩ := Option.isSome_iff_exists.mp hsome
  obtain ⟨hmessages, hbase⟩ := hfitting a ha
  have hsame := hbase m hm
  have hother := (hfitting b hb).2 m (heq.symm.trans hm)
  have hpos := length_pos_iff.mpr hmessages
  omega

/-- The invariant says that the stream is the appends in the order of their bases. -/
theorem linearized_of_inv {n : ℕ} {id : UInt64} {first : List Bytes} {w : World}
    {s : EngineStream} (hinv : LineInv n id first w) (hs : w.streams id = some s) :
  Linearized first s w.trace.applied
  := by
  obtain ⟨t, ht, hsound, -, hbegins⟩ := hinv.stream
  cases hs.symm.trans ht
  refine ⟨hinv.tiles, hinv.tiles.pairwise, ?_, ?_,
    once_of_disjoint hinv.tiles.pairwise hinv.fitting⟩
  · intro a ha i message hi
    have hle := hinv.tiles.le a ha
    have hat : (first ++ messagesOf w.trace.applied)[a.base + i]? = some message := by
      rw [getElem?_append_right (by omega), Nat.sub_add_comm hle]
      exact hinv.tiles.getElem? ha hi
    rw [messageAt_exact hsound.exact]
    obtain ⟨rest, hrest⟩ := hbegins
    change s.messages[a.base + i]? = some message
    rw [← hrest, getElem?_append_left (List.getElem?_eq_some_iff.mp hat).1]
    exact hat
  · intro a ha m hm
    exact ((hinv.fitting a ha).2 m hm).symm

/-- In every run of appends to one name on one node in which no batch fails, the appends that are
applied fill the stream in the order in which they had the gate, each at the tail it asked for, and
an append that reports success was applied as it says. -/
theorem appends_linearized {parseJson : Bytes → Option JsonBody} {n : ℕ} {id : UInt64}
    {first : List Bytes} {w : World} {events : List Happening} {pool : Pool}
    (hready : Ready n id first w)
    (hrequests : ∀ request, Event.call request ∈ events →
      ∃ command, request = (n, Request.append command))
    (hunfailed : Through parseJson (Unfailed id) w events)
    (hrun : runPool parseJson w events = some pool) :
  ∃ s, pool.shared.streams id = some s ∧ Linearized first s pool.shared.trace.applied ∧
    ((pool.shared.nodes n).gate = none →
      s.messages = first ++ messagesOf pool.shared.trace.applied) ∧
    ∀ i command result,
      pool.tasks[i]? = some ((n, .append command), .done (.ok (.appended result))) →
      result.applied = true →
      ∃ a ∈ pool.shared.trace.applied, Reported parseJson command.normalized i result a
  := by
  let Q : ℕ × Request → ℕ → Except ServiceError Answer → World → Prop := fun request i answer w =>
    ∀ command result, request = (n, .append command) → answer = .ok (.appended result) →
      Noted parseJson command.normalized i result w
  have hcalls : ∀ request, Event.call request ∈ events → ∀ me w, (appending n id first).Good w →
      Safe ((appending n id first).rules me) (Q request me) (taskOf parseJson request me) w := by
    intro request hcall me w hgood
    obtain ⟨command, rfl⟩ := hrequests request hcall
    have hserve : Ensures ((appending n id first).rules me) (appending n id first).Good
        (Answer.appended <$> append parseJson n me command)
        (fun answer => (appending n id first).Known fun w => ∀ result, answer = .appended result →
          Noted parseJson command.normalized me result w)
        fun _ => (appending n id first).Good := by
      apply (ensures_append command).map
      rintro result w ⟨hgood, hnoted⟩
      refine ⟨hgood, ?_⟩
      intro result' heq
      obtain rfl := Answer.appended.inj heq
      exact hnoted
    apply (hserve w hgood).weaken
    rintro answer w' hanswer command' result heq rfl
    obtain ⟨-, heq⟩ := Prod.mk.inj heq
    obtain rfl := Request.append.inj heq
    exact hanswer.2 result rfl
  obtain ⟨⟨hinv, hrest⟩, hsafe⟩ := safe_of_run (Q := Q)
    (fits fun x w w' h hallowed => calm_outside h hallowed) (fun _ _ h => h) hready.good hcalls
    hunfailed hrun
  obtain ⟨s, hs, -⟩ := hinv.stream
  refine ⟨s, hs, linearized_of_inv hinv hs, ?_, ?_⟩
  · intro hfree
    obtain ⟨t, ht, hmessages⟩ := hrest hfree
    cases hs.symm.trans ht
    exact hmessages
  · intro i command result htask happlied
    exact hsafe.done htask command result rfl rfl happlied

/-- A test that a stream without failures is ready to be appended to. -/
def checkStream (handle : Bool) (first : List Bytes) (s : EngineStream) : Bool :=
  (s.log.all fun b => b.batch.count.toNat = b.messages.length ∧ b.outcome ≠ some false) ∧
    s.row = .opened ∧ (handle → s.operable) ∧ s.messages = first

/-- A test that a name which was only ever registered with one stream is ready. -/
def checkReady (n : ℕ) (id : UInt64) (first : List Bytes) (w : World) : Bool :=
  let node := w.nodes n
  node.gate = none ∧ node.seen ≤ w.kvLog.length ∧
    (w.kvLog.all fun value => value.all fun entry => entry.streamId = id) ∧
    (node.entryCache.all fun entry => entry.streamId = id) ∧
    (w.streams id).any (checkStream (id ∈ node.openStreams) first) ∧ w.trace.applied = []

theorem ready_of_checkReady {n : ℕ} {id : UInt64} {first : List Bytes} {w : World}
    (h : checkReady n id first w = true) :
  Ready n id first w
  := by
  obtain ⟨hfree, hseen, hlog, hcache, hstream, hunnoted⟩ := of_decide_eq_true h
  refine ⟨hfree, hseen, ?_, ?_, hunnoted⟩
  · rintro entry (⟨j, -, hentry⟩ | hcached)
    · have hmem : some entry ∈ w.kvLog := by
        rw [kvAt] at hentry
        split at hentry
        next => cases hentry
        next =>
          obtain ⟨value, hvalue, hsome⟩ := Option.bind_eq_some_iff.mp hentry
          obtain rfl := hsome
          exact mem_of_getElem? hvalue
      simpa using all_eq_true.mp hlog (some entry) hmem
    · rw [hcached] at hcache
      simpa using hcache
  · rw [Option.any_eq_true] at hstream
    obtain ⟨s, hs, hcheck⟩ := hstream
    obtain ⟨hall, hrow, hoperable, hmessages⟩ := of_decide_eq_true hcheck
    have hbatch : ∀ b ∈ s.log, b.batch.count.toNat = b.messages.length ∧ b.outcome ≠ some false :=
      fun b hb => of_decide_eq_true (all_eq_true.mp hall b hb)
    refine ⟨s, hs, ⟨fun b hb => (hbatch b hb).1, fun b hb => (hbatch b hb).2,
      fun hne => absurd hrow hne⟩, ?_, hmessages⟩
    intro hmem
    exact hoperable (decide_eq_true hmem)

/-- A name is created. -/
def created : List Happening :=
  [.call (0, .create plainStream)] ++ acts 0 10 1

/-- Two appends ask for the empty stream and a third asks for nothing. The batches of the third are
durable first. -/
def raced : List Happening :=
  [.call (0, .append { appendOne [7] with matchSeq := some 0 }),
    .call (0, .append { appendOne [8] with matchSeq := some 0 }),
    .call (0, .append { appendOne [9] with payloads := [[9], [10]] })] ++
    acts 0 10 2 ++ acts 1 6 2 ++ acts 2 11 2 ++
    [.outside (.settle 0 2 true), .outside (.settle 0 1 true)] ++ acts 2 2 3 ++
    [.outside (.settle 0 0 true)] ++ acts 0 2 3

/-- Two of the three appends are applied, at offsets 0 and 1. -/
theorem appends_linearized_raced :
  ∃ start pool, runPool (fun _ => none) .new created = some start ∧
    runPool (fun _ => none) start.shared raced = some pool ∧
    pool.shared.trace.applied.map Applied.base = [0, 1] ∧
    ∃ s, pool.shared.streams 0 = some s ∧ Linearized [] s pool.shared.trace.applied
  := by
  obtain ⟨start, hstart, hready, pool, hguarded, hbases⟩ : ∃ start,
      runPool (fun _ => none) .new created = some start ∧ checkReady 0 0 [] start.shared ∧
      ∃ pool, raced.foldlM (Run.guarded (stepPool fun _ => none)
          (Keeps (taskOf fun _ => none) Outside.change (Unfailed 0))) ⟨start.shared, []⟩ =
        some pool ∧ pool.shared.trace.applied.map Applied.base = [0, 1] := by
    decide +kernel
  obtain ⟨hunfailed, hrun⟩ := Run.along_of_guarded hguarded
  have hrequests : ∀ request, Event.call request ∈ raced →
      ∃ command, request = (0, Request.append command) := by
    intro request hcall
    simp only [raced, acts, mem_append, mem_cons, not_mem_nil, mem_replicate,
      Event.call.injEq, reduceCtorEq, and_false, or_false] at hcall
    rcases hcall with rfl | rfl | rfl
    · exact ⟨_, rfl⟩
    · exact ⟨_, rfl⟩
    · exact ⟨_, rfl⟩
  obtain ⟨s, hs, hlinear, -⟩ :=
    appends_linearized (ready_of_checkReady hready) hrequests hunfailed hrun
  exact ⟨start, pool, hstart, hrun, hbases, s, hs, hlinear⟩

end Linear

end Service
