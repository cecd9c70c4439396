import StreamStack.Service.Programs

/-!
# Streams of the engine

What the handle of a stream holds: the messages at its offsets, which stay where they are until the
stream is opened again, and what a durable append says about them.
-/

namespace Service

open EngineStream List

/-! ### Messages at offsets -/

/-- Offsets add up. -/
theorem offsetAfter_append (first rest : List (RecordBatch × List Bytes)) :
  offsetAfter (first ++ rest) = offsetAfter first + offsetAfter rest
  := by
  rw [offsetAfter, map_append, sum_append, offsetAfter, offsetAfter]

/-- Which of two parts a message lies in. -/
theorem messageAt_append (first rest : List (RecordBatch × List Bytes)) (offset : ℕ) :
  messageAt (first ++ rest) offset
    = if offset < offsetAfter first then messageAt first offset
      else messageAt rest (offset - offsetAfter first)
  := by
  induction first generalizing offset with
  | nil => rfl
  | cons b first ih =>
    have hsum : offsetAfter (b :: first) = b.1.count.toNat + offsetAfter first :=
      offsetAfter_append [b] first
    rw [cons_append, messageAt, messageAt, ih, hsum]
    split
    next hlt => rw [if_pos (by omega)]
    next hge =>
      split
      next hlt => rw [if_pos (by omega)]
      next => rw [if_neg (by omega), Nat.sub_sub]

variable {content : List (RecordBatch × List Bytes)} {message : Bytes}

theorem lt_of_messageAt {offset : ℕ} (h : messageAt content offset = some message) :
  offset < offsetAfter content
  := by
  induction content generalizing offset with
  | nil => cases h
  | cons b rest ih =>
    have hsum : offsetAfter (b :: rest) = b.1.count.toNat + offsetAfter rest :=
      offsetAfter_append [b] rest
    rw [messageAt] at h
    split at h
    next hlt => omega
    next hge =>
      have hrest := ih h
      omega

/-- What is in a stream stays at its offset when the stream gets longer. -/
theorem messageAt_of_prefix {longer : List (RecordBatch × List Bytes)} {offset : ℕ}
    (hbegins : content <+: longer) (h : messageAt content offset = some message) :
  messageAt longer offset = some message
  := by
  obtain ⟨rest, rfl⟩ := hbegins
  rw [messageAt_append, if_pos (lt_of_messageAt h)]
  exact h

/-- In batches that count their messages, the messages are at consecutive offsets. -/
theorem messageAt_exact (hexact : ∀ b ∈ content, b.1.count.toNat = b.2.length) (offset : ℕ) :
  messageAt content offset = (content.flatMap Prod.snd)[offset]?
  := by
  induction content generalizing offset with
  | nil => rfl
  | cons b rest ih =>
    obtain ⟨hb, hrest⟩ := forall_mem_cons.mp hexact
    rw [messageAt, flatMap_cons, getElem?_append, hb, ih hrest]

/-- The messages of a stream in the order of their offsets. -/
def EngineStream.messages (s : EngineStream) : List Bytes :=
  s.content.flatMap Prod.snd

/-- In batches that count their messages, the offset after them is their number. -/
theorem offsetAfter_exact (hexact : ∀ b ∈ content, b.1.count.toNat = b.2.length) :
  offsetAfter content = (content.flatMap Prod.snd).length
  := by
  rw [offsetAfter, length_flatMap]
  apply congrArg List.sum
  apply map_congr_left hexact

/-! ### The batches of an append -/

variable {messages : List Bytes} {i : ℕ}

/-- The messages of an append are at the offsets from its base on, if the log has taken its
batches. -/
theorem messageAt_groupsOf {before after : List (RecordBatch × List Bytes)} {atomic : Bool}
    (hlog : ∀ b ∈ groupsOf messages atomic, b.1.Loggable) (h : messages[i]? = some message) :
  messageAt (before ++ groupsOf messages atomic ++ after) (offsetAfter before + i) = some message
  := by
  have hgroups : messageAt (groupsOf messages atomic) i = some message := by
    rw [messageAt_exact fun b hb => (holds_groupsOf hb (hlog b hb)).1, flatMap_groupsOf]
    exact h
  apply messageAt_of_prefix (prefix_append _ after)
  rw [messageAt_append, if_neg (by omega), Nat.add_sub_cancel_left]
  exact hgroups

/-! ### Durability -/

/-- All batches but those that have failed were taken by the log. -/
def Logged (s : EngineStream) : Prop :=
  ∀ b ∈ s.log, b.outcome ≠ some false → b.batch.Loggable

/-- An acknowledged append has all its batches durable. -/
theorem outcome_of_durability {log : List Submitted} {places : List ℕ}
    (h : durability log places = some true) {place : ℕ} (hplace : place ∈ places) :
  ∃ b, log[place]? = some b ∧ b.outcome = some true
  := by
  induction places with
  | nil => cases hplace
  | cons first rest ih =>
    rw [durability] at h
    split at h
    next => cases h
    next => cases h
    next hfirst =>
      rcases mem_cons.mp hplace with rfl | hplace
      · exact Option.bind_eq_some_iff.mp hfirst
      · exact ih h hplace

variable {s : EngineStream}

/-- The batches of a durable append were taken by the log. -/
theorem loggable_of_durability (hlogged : Logged s)
    {before groups after : List (RecordBatch × List Bytes)}
    (hcontent : s.content = before ++ groups ++ after)
    (h : durability s.log (List.range' before.length groups.length) = some true) :
  ∀ b ∈ groups, b.1.Loggable
  := by
  intro b hb
  obtain ⟨i, hi, rfl⟩ := getElem_of_mem hb
  have hplace : before.length + i ∈ List.range' before.length groups.length := by
    rw [mem_range'_1]
    omega
  obtain ⟨submitted, hsubmitted, houtcome⟩ := outcome_of_durability h hplace
  have hat : s.content[before.length + i]? = some groups[i] := by
    rw [hcontent, append_assoc, getElem?_append_right (by omega),
      Nat.add_sub_cancel_left, getElem?_append_left hi, getElem?_eq_getElem hi]
  rw [content, getElem?_map, hsubmitted] at hat
  rw [← Option.some.inj hat]
  apply hlogged submitted (mem_of_getElem? hsubmitted)
  rw [houtcome]
  nofun

/-! ### How a stream changes -/

/-- A stream gets longer, until it is opened again. -/
structure Grows (s s' : EngineStream) : Prop where
  epoch : s.epoch ≤ s'.epoch
  content : s'.epoch = s.epoch → s.content <+: s'.content
  logged : Logged s → Logged s'

theorem Grows.refl (s : EngineStream) :
  Grows s s
  := ⟨le_rfl, fun _ => prefix_refl _, fun h => h⟩

variable {s' : EngineStream} {s'' : EngineStream}

theorem Grows.trans (h : Grows s s') (h' : Grows s' s'') :
  Grows s s''
  := by
  constructor
  · exact h.epoch.trans h'.epoch
  · intro heq
    have hfirst := h.epoch
    have hsecond := h'.epoch
    exact (h.content (by omega)).trans (h'.content (by omega))
  · intro hlogged
    exact h'.logged (h.logged hlogged)

theorem Grows.of_log (hlog : s'.log = s.log) (hepoch : s'.epoch = s.epoch) :
  Grows s s'
  := by
  constructor
  · exact hepoch.ge
  · intro _
    rw [EngineStream.content, EngineStream.content, hlog]
  · intro h
    rw [Logged, hlog]
    exact h

theorem content_submit (s : EngineStream) (batch : RecordBatch) (messages : List Bytes) :
  (s.submit batch messages).content = s.content ++ [(batch, messages)]
  := by
  rw [content, submit, map_append]
  rfl

/-- A stream grows by the batch that is submitted. -/
theorem grows_submit (s : EngineStream) (batch : RecordBatch) (messages : List Bytes) :
  Grows s (s.submit batch messages)
  := by
  constructor
  · exact le_rfl
  · intro _
    rw [content_submit]
    apply prefix_append
  · intro h b hb houtcome
    rcases mem_append.mp hb with hb | hb
    · exact h b hb houtcome
    · obtain rfl := mem_singleton.mp hb
      split at houtcome
      next hlog => exact hlog
      next => exact absurd rfl houtcome

/-- A stream that is opened again is in a new epoch, so it may have lost its end. -/
theorem grows_reopen (s : EngineStream) :
  Grows s s.reopen
  := by
  constructor
  · exact Nat.le_succ _
  · intro h
    exact absurd h (Nat.succ_ne_self _)
  · intro h b hb houtcome
    exact h b ((takeWhile_subset _) hb) houtcome

/-- Settling a batch changes neither what the stream holds nor its row. -/
structure Settles (s s' : EngineStream) : Prop where
  content : s'.content = s.content
  row : s'.row = s.row
  epoch : s'.epoch = s.epoch
  logged : Logged s → Logged s'

theorem Settles.refl (s : EngineStream) :
  Settles s s
  := ⟨rfl, rfl, rfl, fun h => h⟩

theorem Settles.trans (h : Settles s s') (h' : Settles s' s'') :
  Settles s s''
  := ⟨h'.content.trans h.content, h'.row.trans h.row, h'.epoch.trans h.epoch,
      fun hlogged => h'.logged (h.logged hlogged)⟩

/-- What happens to a batch on its way. -/
theorem settle_cases {durable : Bool} (h : s.settle i durable = some s') :
  ∃ batch messages, s.log[i]? = some ⟨batch, messages, none⟩ ∧
    s'.log = s.log.set i ⟨batch, messages, some durable⟩ ∧ s'.row = s.row ∧ s'.epoch = s.epoch ∧
    s'.operable = (durable && s.operable)
  := by
  unfold settle at h
  split at h
  next batch messages hat =>
    simp only at h
    split at h
    next hdurable =>
      cases h
      exact ⟨batch, messages, hat, rfl, rfl, rfl, by simp [hdurable]⟩
    next hfailed =>
      cases h
      exact ⟨batch, messages, hat, rfl, rfl, rfl, by simp [hfailed]⟩
  next => cases h

/-- An outcome leaves the content as it is. -/
theorem settles_settle {durable : Bool} (h : s.settle i durable = some s') :
  Settles s s'
  := by
  obtain ⟨batch, messages, hat, hlog, hrow, hepoch, -⟩ := settle_cases h
  obtain ⟨hlt, hi⟩ := List.getElem?_eq_some_iff.mp hat
  refine ⟨?_, hrow, hepoch, ?_⟩
  · have hlt' : i < s.content.length := by
      rwa [content, length_map]
    have hself : s.content[i] = (batch, messages) := by
      simp only [content, getElem_map, hi]
    rw [content, hlog, map_set]
    change s.content.set i (batch, messages) = s.content
    rw [← hself, set_getElem_self]
  · intro hall b hb houtcome
    rw [hlog] at hb
    rcases mem_or_eq_of_mem_set hb with hb | rfl
    · exact hall b hb houtcome
    · exact hall ⟨batch, messages, none⟩ (mem_of_getElem? hat) nofun

theorem Settles.grows (h : Settles s s') :
  Grows s s'
  := by
  constructor
  · exact h.epoch.ge
  · intro _
    rw [h.content]
  · exact h.logged

end Service
