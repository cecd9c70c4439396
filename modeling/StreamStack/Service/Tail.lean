import StreamStack.Service.Registry

/-!
# The tail cache

The last records of a name are kept in memory. Appends are recorded once they are durable, in any
order: what does not continue the window is left out or starts it again.
-/

namespace Service

open List

/-- The most bytes the tail keeps, unless a single record is longer. -/
def tailMaxBytes : ℕ := 4 * 1024 * 1024

/-- The most records the tail keeps. -/
def tailMaxRecords : ℕ := 4096

/-- Messages at consecutive offsets. -/
def recordsFrom : ℕ → List Bytes → List StreamRecord
  | _, [] => []
  | base, message :: rest => ⟨base, message⟩ :: recordsFrom (base + 1) rest

/-- The last records of the stream, with the sum of their lengths. -/
structure TailCache where
  recent : List StreamRecord
  recentBytes : ℕ
deriving DecidableEq, Repr

namespace TailCache

def empty : TailCache := ⟨[], 0⟩

/-- Drop records from the front while there are too many, or too many bytes in more than one. -/
def evict : List StreamRecord → ℕ → TailCache
  | [], bytes => ⟨[], bytes⟩
  | record :: rest, bytes =>
    if rest.length + 1 > tailMaxRecords ∨ (bytes > tailMaxBytes ∧ rest.length + 1 > 1) then
      evict rest (bytes - record.payload.length)
    else ⟨record :: rest, bytes⟩

/-- Adds records at the end and drops the oldest ones. -/
def push (tail : TailCache) (baseOffset : ℕ) (records : List Bytes) : TailCache :=
  evict (tail.recent ++ recordsFrom baseOffset records)
    (tail.recentBytes + (records.map List.length).sum)

/-- Records beyond the end start the tail afresh, and those it has are left out. -/
def recordAppend (tail : TailCache) (baseOffset : ℕ) (records : List Bytes) : TailCache :=
  if records.isEmpty then tail
  else
    match tail.recent.getLast? with
    | none => tail.push baseOffset records
    | some last =>
      if baseOffset < last.offset + 1 then tail
      else if baseOffset > last.offset + 1 then empty.push baseOffset records
      else tail.push baseOffset records

/-- The records from `start` on, if `start` lies in the tail. -/
def tailRecords (tail : TailCache) (start : ℕ) : Option (List StreamRecord) :=
  match tail.recent.head?, tail.recent.getLast? with
  | some first, some last =>
    if start < first.offset ∨ start > last.offset then none
    else some (tail.recent.filter fun r => r.offset ≥ start)
  | _, _ => none

end TailCache

/-! ### What a window holds -/

/-- The records of an append are its messages, numbered from the base. -/
theorem mem_recordsFrom {base : ℕ} {messages : List Bytes} {r : StreamRecord} :
  r ∈ recordsFrom base messages ↔ ∃ i, messages[i]? = some r.payload ∧ r.offset = base + i
  := by
  induction messages generalizing base with
  | nil => simp [recordsFrom]
  | cons message rest ih =>
    rw [recordsFrom, mem_cons, ih]
    constructor
    · rintro (rfl | ⟨i, hi, hoffset⟩)
      · exact ⟨0, rfl, rfl⟩
      · exact ⟨i + 1, hi, by omega⟩
    · rintro ⟨i, hi, hoffset⟩
      cases i with
      | zero =>
        cases hi
        exact .inl (by rw [StreamRecord.mk.injEq]; exact ⟨hoffset, rfl⟩)
      | succ i => exact .inr ⟨i, hi, by omega⟩

/-- The records of two appends in a row. -/
theorem recordsFrom_append (base : ℕ) (first rest : List Bytes) :
  recordsFrom base (first ++ rest)
    = recordsFrom base first ++ recordsFrom (base + first.length) rest
  := by
  induction first generalizing base with
  | nil => rfl
  | cons message first ih =>
    simp only [cons_append, recordsFrom, ih, length_cons]
    rw [Nat.add_right_comm, Nat.add_assoc]

theorem prefix_recordsFrom (base : ℕ) {first messages : List Bytes} (h : first <+: messages) :
  recordsFrom base first <+: recordsFrom base messages
  := by
  obtain ⟨rest, rfl⟩ := h
  rw [recordsFrom_append]
  apply prefix_append

theorem getElem?_recordsFrom (base : ℕ) (messages : List Bytes) (i : ℕ) :
  (recordsFrom base messages)[i]? = messages[i]?.map fun message => ⟨base + i, message⟩
  := by
  induction messages generalizing base i with
  | nil => rfl
  | cons message rest ih =>
    cases i with
    | zero => rfl
    | succ i => rw [recordsFrom, getElem?_cons_succ, ih, getElem?_cons_succ,
        Nat.add_right_comm, Nat.add_assoc]

theorem length_recordsFrom (base : ℕ) (messages : List Bytes) :
  (recordsFrom base messages).length = messages.length
  := by
  induction messages generalizing base with
  | nil => rfl
  | cons message rest ih => rw [recordsFrom, length_cons, ih, length_cons]

/-- The records are at consecutive offsets, each with the message that `content` has there. -/
structure Agrees (content : ℕ → Option Bytes) (records : List StreamRecord) : Prop where
  consecutive : ∃ base messages, records = recordsFrom base messages
  holds : ∀ r ∈ records, content r.offset = some r.payload

namespace Agrees

variable {content : ℕ → Option Bytes} {records : List StreamRecord}

theorem nil :
  Agrees content []
  := by
  constructor
  · exact ⟨0, [], rfl⟩
  · intro r hr
    cases hr

/-- A part at the end of a window is a window. -/
theorem suffix {rest : List StreamRecord} (h : Agrees content records) (hrest : rest <:+ records) :
  Agrees content rest
  := by
  obtain ⟨⟨base, messages, rfl⟩, hholds⟩ := h
  constructor
  · obtain ⟨first, heq⟩ := hrest
    refine ⟨base + first.length, messages.drop first.length, ?_⟩
    have hsplit := recordsFrom_append base (messages.take first.length) (messages.drop first.length)
    rw [take_append_drop, ← heq] at hsplit
    have hlength : first.length ≤ messages.length := by
      have := congrArg List.length heq
      rw [length_append, length_recordsFrom] at this
      omega
    have htake : (messages.take first.length).length = first.length := by
      rw [length_take]
      omega
    have hparts := append_inj hsplit (by rw [length_recordsFrom, htake])
    rw [hparts.2, htake]
  · intro r hr
    exact hholds r (hrest.subset hr)

variable {base : ℕ} {messages : List Bytes}

/-- Messages that `content` has are a window. -/
theorem of_messages
    (h : ∀ i message, messages[i]? = some message → content (base + i) = some message) :
  Agrees content (recordsFrom base messages)
  := by
  constructor
  · exact ⟨base, messages, rfl⟩
  · intro r hr
    obtain ⟨i, hi, hoffset⟩ := mem_recordsFrom.mp hr
    rw [hoffset]
    apply h i r.payload hi

variable {last : StreamRecord}

theorem getLast?_recordsFrom (h : (recordsFrom base messages).getLast? = some last) :
  last.offset + 1 = base + messages.length
  := by
  induction messages generalizing base with
  | nil => cases h
  | cons message rest ih =>
    cases rest with
    | nil =>
      cases h
      rfl
    | cons next rest =>
      rw [recordsFrom, recordsFrom, getLast?_cons_cons] at h
      rw [ih h]
      simp only [length_cons]
      omega

/-- A window is continued by a window that starts where it ends. -/
theorem append (h : Agrees content records) (hlast : records.getLast? = some last)
    (hbase : base = last.offset + 1) (hnext : Agrees content (recordsFrom base messages)) :
  Agrees content (records ++ recordsFrom base messages)
  := by
  obtain ⟨⟨first, window, rfl⟩, hholds⟩ := h
  rw [hbase, getLast?_recordsFrom hlast] at hnext ⊢
  constructor
  · exact ⟨first, window ++ messages, (recordsFrom_append first window messages).symm⟩
  · intro r hr
    rcases mem_append.mp hr with hr | hr
    · exact hholds r hr
    · exact hnext.holds r hr

end Agrees

/-! ### Recording appends -/

namespace TailCache

/-- Only the oldest records are dropped. -/
theorem recent_evict_suffix (records : List StreamRecord) (bytes : ℕ) :
  (evict records bytes).recent <:+ records
  := by
  induction records generalizing bytes with
  | nil => exact suffix_rfl
  | cons record rest ih =>
    rw [evict]
    split
    · exact (ih _).trans (suffix_cons record rest)
    · exact suffix_rfl

/-- Recording messages that are in the stream keeps the window right, whatever was recorded
before. -/
theorem agrees_recordAppend {content : ℕ → Option Bytes} {tail : TailCache} {base : ℕ}
    {messages : List Bytes} (h : Agrees content tail.recent)
    (hmessages : ∀ i message, messages[i]? = some message → content (base + i) = some message) :
  Agrees content (tail.recordAppend base messages).recent
  := by
  have hnew : Agrees content (recordsFrom base messages) := Agrees.of_messages hmessages
  unfold recordAppend
  split
  next => exact h
  next =>
    split
    next hnone =>
      rw [getLast?_eq_none_iff] at hnone
      rw [push, hnone, nil_append]
      apply hnew.suffix (recent_evict_suffix _ _)
    next last hlast =>
      split
      next => exact h
      next hge =>
        split
        next => apply hnew.suffix (recent_evict_suffix _ _)
        next hle =>
          apply Agrees.suffix _ (recent_evict_suffix _ _)
          apply h.append hlast (by omega) hnew

/-- The records from an offset of the window on. -/
theorem filter_recordsFrom {base start : ℕ} (messages : List Bytes) (h : base ≤ start) :
  (recordsFrom base messages).filter (fun r => r.offset ≥ start)
    = recordsFrom start (messages.drop (start - base))
  := by
  induction messages generalizing base with
  | nil => simp [recordsFrom]
  | cons message rest ih =>
    rw [recordsFrom, filter_cons]
    by_cases heq : base = start
    · subst heq
      have hrest : (recordsFrom (base + 1) rest).filter (fun r => r.offset ≥ base)
          = recordsFrom (base + 1) rest := by
        rw [filter_eq_self]
        intro r hr
        obtain ⟨i, -, hoffset⟩ := mem_recordsFrom.mp hr
        simp
        omega
      rw [if_pos (by simp), hrest, Nat.sub_self, drop_zero, recordsFrom]
    · have hlt : ¬ base ≥ start := by omega
      have hsucc : start - base = (start - (base + 1)) + 1 := by omega
      rw [if_neg (by simpa using hlt), ih (by omega), hsucc, drop_succ_cons]

/-- A window that covers an offset serves messages of the stream from this offset on, at least
one. -/
theorem tailRecords_eq {content : ℕ → Option Bytes} {tail : TailCache} {start : ℕ}
    {cached : List StreamRecord} (h : Agrees content tail.recent)
    (hcached : tail.tailRecords start = some cached) :
  ∃ messages, messages ≠ [] ∧ cached = recordsFrom start messages ∧
    ∀ i message, messages[i]? = some message → content (start + i) = some message
  := by
  unfold tailRecords at hcached
  split at hcached
  next first last hfirst hlast =>
    split at hcached
    next => cases hcached
    next hcovers =>
      cases hcached
      obtain ⟨⟨base, messages, heq⟩, hholds⟩ := h
      rw [heq] at hfirst hlast hholds ⊢
      have hbase : first.offset = base := by
        cases messages with
        | nil => cases hfirst
        | cons message rest =>
          cases hfirst
          rfl
      have hend := Agrees.getLast?_recordsFrom hlast
      refine ⟨messages.drop (start - base), ?_, filter_recordsFrom messages (by omega), ?_⟩
      · rw [ne_eq, drop_eq_nil_iff]
        omega
      · intro i message hi
        rw [getElem?_drop] at hi
        apply hholds ⟨start + i, message⟩
        rw [mem_recordsFrom]
        exact ⟨start - base + i, hi, by dsimp only; omega⟩
  next => cases hcached

/-! ### Limits -/

/-- The bytes are counted, and the limits hold but for the bytes of a single record. -/
structure Within (tail : TailCache) : Prop where
  counted : tail.recentBytes = (tail.recent.map fun r => r.payload.length).sum
  records : tail.recent.length ≤ tailMaxRecords
  bytes : tail.recentBytes ≤ tailMaxBytes ∨ tail.recent.length ≤ 1

theorem within_empty :
  empty.Within
  := ⟨rfl, Nat.zero_le _, .inl (Nat.zero_le _)⟩

/-- The limits hold after every eviction. -/
theorem within_evict (records : List StreamRecord) :
  (evict records (records.map fun r => r.payload.length).sum).Within
  := by
  induction records with
  | nil => exact within_empty
  | cons record rest ih =>
    rw [map_cons, sum_cons, evict]
    split
    · rwa [Nat.add_sub_cancel_left]
    · constructor
      · rfl
      · rw [length_cons]
        omega
      · dsimp only [length_cons]
        omega

theorem Within.push {tail : TailCache} (h : tail.Within) (baseOffset : ℕ) (messages : List Bytes) :
  (tail.push baseOffset messages).Within
  := by
  have hlengths (base : ℕ) : (recordsFrom base messages).map (fun r => r.payload.length)
      = messages.map List.length := by
    induction messages generalizing base with
    | nil => rfl
    | cons message rest ih => rw [recordsFrom, map_cons, ih, map_cons]
  rw [TailCache.push, h.counted, ← hlengths baseOffset, ← sum_append, ← map_append]
  apply within_evict

/-- The tail cache keeps its limits, whatever appends are recorded in which order. -/
theorem recordAppends_within (appends : List (ℕ × List Bytes)) :
  (appends.foldl (fun tail a => tail.recordAppend a.1 a.2) empty).Within
  := by
  apply foldlRecOn appends _ within_empty
  intro tail h a _
  unfold recordAppend
  split
  · exact h
  · split
    · apply h.push
    · split
      · exact h
      · split
        · apply within_empty.push
        · apply h.push

end TailCache

end Service
