import StreamStack.Service.Tail
import StreamStack.Lib.Budget

/-!
# Reading a name

A read is answered from the tail cache if its window covers the offset, and otherwise from the
batches that the engine returns. There are two loops, over cached records and over batches that may
hold several messages, of which the first may lie before the offset. Both take messages within the
same budgets.
-/

namespace Service

open Budget List

/-! ### The loops -/

/-- A batch as the engine returns it. -/
structure FetchedBatch where
  baseOffset : ℕ
  lastOffset : ℕ
  batch : RecordBatch
deriving DecidableEq, Repr

/-- The records collected so far, and the offset after them. -/
structure Reading where
  taken : Taken StreamRecord
  next : ℕ

/-- Collect a record unless it passes the byte budget. The flag tells to stop. -/
def collect (maxBytes maxRecords : ℕ) (reading : Reading) (record : StreamRecord) (next : ℕ) :
    Reading × Bool :=
  if reading.taken.total + record.payload.length > maxBytes ∧ reading.taken.total > 0 then
    (reading, true)
  else
    let taken := reading.taken.add (fun r => r.payload.length) record
    (⟨taken, next⟩, taken.full maxBytes maxRecords)

/-- The loop of `tail_read`. -/
def collectCached (stop maxBytes maxRecords : ℕ) : List StreamRecord → Reading → Reading
  | [], reading => reading
  | record :: rest, reading =>
    if record.offset ≥ stop then reading
    else
      match collect maxBytes maxRecords reading record (record.offset + 1) with
      | (reading, true) => reading
      | (reading, false) => collectCached stop maxBytes maxRecords rest reading

/-- The inner loop of `fetch_records`, over the frames of a batch. -/
def collectFrames (start maxBytes maxRecords : ℕ) : ℕ → List Bytes → Reading → Reading × Bool
  | _, [], reading => (reading, false)
  | offset, frame :: rest, reading =>
    if offset < start then collectFrames start maxBytes maxRecords (offset + 1) rest reading
    else
      match collect maxBytes maxRecords reading ⟨offset, frame⟩ (offset + 1) with
      | (reading, true) => (reading, true)
      | (reading, false) => collectFrames start maxBytes maxRecords (offset + 1) rest reading

/-- The outer loop of `fetch_records`. -/
def collectBatches (start maxBytes maxRecords : ℕ) :
    List FetchedBatch → Reading → Except ServiceError Reading
  | [], reading => .ok reading
  | fetched :: rest, reading =>
    if fetched.batch.count > 1 then
      match Framing.decodeFrames fetched.batch.payload fetched.batch.count with
      | .error e => .error e
      | .ok frames =>
        match collectFrames start maxBytes maxRecords fetched.baseOffset frames reading with
        | (reading, true) => .ok reading
        | (reading, false) => collectBatches start maxBytes maxRecords rest reading
    else
      match collect maxBytes maxRecords reading ⟨fetched.baseOffset, fetched.batch.payload⟩
          fetched.lastOffset with
      | (reading, true) => .ok reading
      | (reading, false) => collectBatches start maxBytes maxRecords rest reading

/-! ### Answers -/

def Reading.result (entry : RegistryEntry) (stop : ℕ) (reading : Reading) : ReadResult where
  records := reading.taken.items
  contentType := entry.contentType
  nextOffset := reading.next
  upToDate := decide (reading.next ≥ stop)
  closed := entry.closed

def tailRead (entry : RegistryEntry) (cached : List StreamRecord) (stop maxBytes maxRecords : ℕ) :
    ReadResult :=
  let next := (cached.head?.map fun r => r.offset).getD stop
  (collectCached stop maxBytes maxRecords cached ⟨.nothing, next⟩).result entry stop

/-- What is made of the batches that the engine has returned. -/
def fetchRecords (entry : RegistryEntry) (fetched : List FetchedBatch)
    (start stop maxBytes maxRecords : ℕ) : Except ServiceError ReadResult :=
  (collectBatches start maxBytes maxRecords fetched ⟨.nothing, start⟩).map
    (Reading.result entry stop)

def usizeMax : ℕ := 2 ^ 64 - 1

/-- A limit of zero is none. -/
def limitOf (limit : ℕ) : ℕ :=
  if limit > 0 then limit else usizeMax

/-- The answer to a read of an open stream. The engine is asked with the start, the end and the
byte budget when the tail cache does not cover the offset. -/
def readFrom (entry : RegistryEntry) (tail : TailCache)
    (fetch : ℕ → ℕ → ℕ → Except String (List FetchedBatch)) (start confirmOffset : ℕ)
    (maxBytes maxRecords : ℕ) : Except ServiceError ReadResult :=
  if start > confirmOffset then .error (.ofKind .badRequest)
  else if start = confirmOffset then
    .ok ⟨[], entry.contentType, confirmOffset, true, entry.closed⟩
  else
    match tail.tailRecords start with
    | some cached =>
      .ok (tailRead entry cached confirmOffset (limitOf maxBytes) (limitOf maxRecords))
    | none =>
      match fetch start confirmOffset (limitOf maxBytes) with
      | .error e => .error (.ofEngine e)
      | .ok fetched =>
        fetchRecords entry fetched start confirmOffset (limitOf maxBytes) (limitOf maxRecords)

/-! ### Both loops take messages within the budgets -/

/-- A reading from an offset on is determined by what was taken. -/
def readingOf (start : ℕ) (taken : Taken StreamRecord) : Reading :=
  ⟨taken, start + taken.items.length⟩

/-- What is taken of the messages from an offset on. -/
def takenOf (maxBytes maxRecords : ℕ) (taken : Taken StreamRecord) (records : List StreamRecord) :
    Taken StreamRecord × Bool :=
  offerAll (fun r => r.payload.length) maxBytes maxRecords taken records

theorem takenOf_append (maxBytes maxRecords : ℕ) (taken : Taken StreamRecord)
    (first rest : List StreamRecord) :
  takenOf maxBytes maxRecords taken (first ++ rest) =
    match takenOf maxBytes maxRecords taken first with
    | (taken, true) => (taken, true)
    | (taken, false) => takenOf maxBytes maxRecords taken rest
  := by
  unfold takenOf
  rw [offerAll_append]
  rcases offerAll (fun r : StreamRecord => r.payload.length) maxBytes maxRecords taken first
    with ⟨taken', done⟩
  cases done with
  | true => rfl
  | false => rfl

section Loops

variable {start maxBytes maxRecords : ℕ}

theorem collect_readingOf (taken : Taken StreamRecord) (record : StreamRecord) :
  collect maxBytes maxRecords (readingOf start taken) record (start + taken.items.length + 1) =
    (readingOf start (offer (fun r => r.payload.length) maxBytes maxRecords taken record).1,
      (offer (fun r => r.payload.length) maxBytes maxRecords taken record).2)
  := by
  rw [collect, offer, readingOf]
  split
  · rfl
  · simp [readingOf, Taken.add, Nat.add_assoc]

/-- The offset after one more record was taken. -/
theorem length_of_offer {taken taken' : Taken StreamRecord} {record : StreamRecord}
    (h : offer (fun r => r.payload.length) maxBytes maxRecords taken record = (taken', false)) :
  taken'.items.length = taken.items.length + 1
  := by
  rw [offer] at h
  split at h
  · cases h
  · obtain ⟨rfl, -⟩ := Prod.mk.inj h
    simp [Taken.add]

theorem collectCached_eq (stop : ℕ) (messages : List Bytes) (taken : Taken StreamRecord) :
  collectCached stop maxBytes maxRecords (recordsFrom (start + taken.items.length) messages)
      (readingOf start taken) =
    readingOf start (takenOf maxBytes maxRecords taken (recordsFrom (start + taken.items.length)
      (messages.take (stop - (start + taken.items.length))))).1
  := by
  induction messages generalizing taken with
  | nil => simp [recordsFrom, collectCached, takenOf, offerAll]
  | cons message rest ih =>
    rw [recordsFrom, collectCached]
    by_cases hstop : start + taken.items.length ≥ stop
    · rw [if_pos hstop, Nat.sub_eq_zero_of_le hstop, take_zero]
      rfl
    · obtain ⟨n, hn⟩ : ∃ n, stop - (start + taken.items.length) = n + 1 :=
        ⟨stop - (start + taken.items.length) - 1, by omega⟩
      rw [if_neg hstop, collect_readingOf, hn, take_succ_cons, recordsFrom, takenOf,
        offerAll]
      rcases hoffer : offer (fun r : StreamRecord => r.payload.length) maxBytes maxRecords taken
        ⟨start + taken.items.length, message⟩ with ⟨taken', done⟩
      cases done with
      | true => rfl
      | false =>
        have hlength := length_of_offer hoffer
        have hnext : start + taken.items.length + 1 = start + taken'.items.length := by omega
        have hrest : n = stop - (start + taken'.items.length) := by omega
        rw [hnext, hrest]
        apply ih taken'

/-- Frames before the offset are skipped. -/
theorem collectFrames_skip {offset : ℕ} (h : offset ≤ start) (frames : List Bytes)
    (reading : Reading) :
  collectFrames start maxBytes maxRecords offset frames reading =
    collectFrames start maxBytes maxRecords start (frames.drop (start - offset)) reading
  := by
  induction frames generalizing offset with
  | nil => simp [collectFrames]
  | cons frame rest ih =>
    by_cases heq : offset = start
    · rw [heq, Nat.sub_self, drop_zero]
    · have hsucc : start - offset = (start - (offset + 1)) + 1 := by omega
      rw [collectFrames, if_pos (by omega), ih (by omega), hsucc, drop_succ_cons]

theorem collectFrames_eq (frames : List Bytes) (taken : Taken StreamRecord) :
  collectFrames start maxBytes maxRecords (start + taken.items.length) frames
      (readingOf start taken) =
    (readingOf start (takenOf maxBytes maxRecords taken
        (recordsFrom (start + taken.items.length) frames)).1,
      (takenOf maxBytes maxRecords taken (recordsFrom (start + taken.items.length) frames)).2)
  := by
  induction frames generalizing taken with
  | nil => simp [recordsFrom, collectFrames, takenOf, offerAll]
  | cons frame rest ih =>
    have hstart : ¬ start + taken.items.length < start := by omega
    rw [collectFrames, if_neg hstart, collect_readingOf, recordsFrom, takenOf, offerAll]
    rcases hoffer : offer (fun r : StreamRecord => r.payload.length) maxBytes maxRecords taken
      ⟨start + taken.items.length, frame⟩ with ⟨taken', done⟩
    cases done with
    | true => rfl
    | false =>
      have hlength := length_of_offer hoffer
      have hnext : start + taken.items.length + 1 = start + taken'.items.length := by omega
      rw [hnext]
      apply ih taken'

end Loops

/-! ### Batches of the stream -/

/-- Contiguous batches from an offset on, and the messages they hold. -/
inductive Fetches : ℕ → List FetchedBatch → List Bytes → Prop where
  | nil (base : ℕ) : Fetches base [] []
  | cons {base : ℕ} {batch : RecordBatch} {messages rest : List Bytes}
      {fetched : List FetchedBatch} (holds : batch.Holds messages)
      (next : Fetches (base + messages.length) fetched rest) :
      Fetches base (⟨base, base + messages.length, batch⟩ :: fetched) (messages ++ rest)

namespace Fetches

variable {base : ℕ} {fetched first rest : List FetchedBatch} {messages : List Bytes}

theorem baseOffset {f : FetchedBatch} (h : Fetches base (f :: rest) messages) :
  f.baseOffset = base
  := by
  cases h with
  | cons => rfl

/-- A part of contiguous batches is contiguous. -/
theorem of_append (h : Fetches base (first ++ rest) messages) :
  ∃ before after, messages = before ++ after ∧ Fetches base first before ∧
    Fetches (base + before.length) rest after
  := by
  induction first generalizing base messages with
  | nil => exact ⟨[], messages, rfl, Fetches.nil base, h⟩
  | cons f first ih =>
    cases h with
    | @cons _ batch held _ _ holds next =>
      obtain ⟨before, after, rfl, hfirst, hrest⟩ := ih next
      refine ⟨held ++ before, after, by rw [append_assoc], Fetches.cons holds hfirst, ?_⟩
      rw [length_append, ← Nat.add_assoc]
      exact hrest

end Fetches

section Batches

variable {base start maxBytes maxRecords : ℕ} {batch : RecordBatch} {held : List Bytes}
  {fetched : List FetchedBatch} {messages : List Bytes}

/-- All of a list has been taken when taking has not stopped. -/
theorem length_of_takenOf {taken taken' : Taken StreamRecord} {records : List StreamRecord}
    (h : takenOf maxBytes maxRecords taken records = (taken', false)) :
  taken'.items.length = taken.items.length + records.length
  := by
  obtain ⟨all, -, hitems, hall⟩ :=
    offerAll_items (fun r : StreamRecord => r.payload.length) maxBytes maxRecords taken records
  rw [takenOf] at h
  rw [h] at hitems hall
  rw [hitems, hall rfl, length_append]

theorem collect_eq (payload : Bytes) (taken : Taken StreamRecord) :
  collect maxBytes maxRecords (readingOf start taken) ⟨start + taken.items.length, payload⟩
      (start + taken.items.length + 1) =
    (readingOf start (takenOf maxBytes maxRecords taken
        (recordsFrom (start + taken.items.length) [payload])).1,
      (takenOf maxBytes maxRecords taken (recordsFrom (start + taken.items.length) [payload])).2)
  := by
  rw [collect_readingOf, recordsFrom, recordsFrom, takenOf, offerAll]
  rcases offer (fun r : StreamRecord => r.payload.length) maxBytes maxRecords taken
    ⟨start + taken.items.length, payload⟩ with ⟨taken', done⟩
  cases done with
  | true => rfl
  | false => rfl

/-- A batch that goes on where the reading stands gives what is taken of its messages. -/
theorem collectBatches_next (hholds : batch.Holds held) (taken : Taken StreamRecord)
    (hbase : base = start + taken.items.length) :
  collectBatches start maxBytes maxRecords (⟨base, base + held.length, batch⟩ :: fetched)
      (readingOf start taken) =
    match takenOf maxBytes maxRecords taken (recordsFrom base held) with
    | (taken, true) => .ok (readingOf start taken)
    | (taken, false) => collectBatches start maxBytes maxRecords fetched (readingOf start taken)
  := by
  obtain ⟨-, hholds⟩ := hholds
  subst hbase
  rw [collectBatches]
  dsimp only
  split at hholds
  next hmany =>
    rw [if_pos hmany, hholds]
    dsimp only
    rw [collectFrames_eq]
    rcases takenOf maxBytes maxRecords taken (recordsFrom (start + taken.items.length) held)
      with ⟨taken', done⟩
    cases done with
    | true => rfl
    | false => rfl
  next hone =>
    subst hholds
    rw [if_neg hone, length_singleton, collect_eq]
    rcases takenOf maxBytes maxRecords taken
      (recordsFrom (start + taken.items.length) [batch.payload]) with ⟨taken', done⟩
    cases done with
    | true => rfl
    | false => rfl

/-- The batch that has the offset gives what is taken of its messages from the offset on. -/
theorem collectBatches_first (hholds : batch.Holds held) (hbase : base ≤ start)
    (hcontains : start < base + held.length) :
  collectBatches start maxBytes maxRecords (⟨base, base + held.length, batch⟩ :: fetched)
      (readingOf start .nothing) =
    match takenOf maxBytes maxRecords .nothing
        (recordsFrom start (held.drop (start - base))) with
    | (taken, true) => .ok (readingOf start taken)
    | (taken, false) => collectBatches start maxBytes maxRecords fetched (readingOf start taken)
  := by
  by_cases heq : base = start
  · subst heq
    rw [Nat.sub_self, drop_zero]
    exact collectBatches_next hholds .nothing rfl
  · obtain ⟨-, hholds⟩ := hholds
    split at hholds
    next hmany =>
      rw [collectBatches]
      dsimp only
      rw [if_pos hmany, hholds]
      dsimp only
      rw [collectFrames_skip hbase]
      have hframes : collectFrames start maxBytes maxRecords start (held.drop (start - base))
          (readingOf start .nothing) = _ :=
        collectFrames_eq (held.drop (start - base)) .nothing
      rw [hframes, Taken.nothing, length_nil, Nat.add_zero]
      rcases takenOf maxBytes maxRecords ⟨[], 0⟩ (recordsFrom start (held.drop (start - base)))
        with ⟨taken', done⟩
      cases done with
      | true => rfl
      | false => rfl
    next =>
      subst hholds
      rw [length_singleton] at hcontains
      omega

/-- Reading contiguous batches that go on where the reading stands takes their messages. -/
theorem collectBatches_eq (h : Fetches base fetched messages) (taken : Taken StreamRecord)
    (hbase : base = start + taken.items.length) :
  collectBatches start maxBytes maxRecords fetched (readingOf start taken) =
    .ok (readingOf start (takenOf maxBytes maxRecords taken (recordsFrom base messages)).1)
  := by
  induction h generalizing taken with
  | nil => rfl
  | @cons base batch held rest fetched holds next ih =>
    rw [collectBatches_next holds taken hbase, recordsFrom_append, takenOf_append]
    rcases htaken : takenOf maxBytes maxRecords taken (recordsFrom base held) with ⟨taken', done⟩
    cases done with
    | true => rfl
    | false =>
      apply ih taken'
      rw [length_of_takenOf htaken, length_recordsFrom]
      omega

/-- Reading contiguous batches, of which the first has the offset, takes their messages from the
offset on. -/
theorem collectBatches_of_contains {first : FetchedBatch}
    (h : Fetches base (first :: fetched) messages) (hbase : first.baseOffset ≤ start)
    (hcontains : start < first.lastOffset) :
  collectBatches start maxBytes maxRecords (first :: fetched) (readingOf start .nothing) =
      .ok (readingOf start (takenOf maxBytes maxRecords .nothing
        (recordsFrom start (messages.drop (start - base)))).1) ∧
    start < base + messages.length
  := by
  cases h with
  | @cons _ batch held rest _ holds next =>
    dsimp only at hbase hcontains
    have hdrop : (held ++ rest).drop (start - base) = held.drop (start - base) ++ rest := by
      rw [drop_append_of_le_length (by omega)]
    constructor
    · rw [collectBatches_first holds hbase hcontains, hdrop, recordsFrom_append, takenOf_append]
      rcases htaken : takenOf maxBytes maxRecords .nothing
        (recordsFrom start (held.drop (start - base))) with ⟨taken', done⟩
      cases done with
      | true => rfl
      | false =>
        have hlength := length_of_takenOf htaken
        rw [length_recordsFrom, length_drop, Taken.nothing, length_nil] at hlength
        have hoffset : base + held.length = start + taken'.items.length := by omega
        have hnext : start + (held.drop (start - base)).length = base + held.length := by
          rw [length_drop]
          omega
        rw [hnext]
        exact collectBatches_eq next taken' hoffset
    · rw [length_append]
      omega

end Batches

/-! ### The contract of a read -/

/-- An append to the stream: its messages, in one batch or one by one. -/
structure Appended where
  messages : List Bytes
  atomic : Bool
deriving DecidableEq, Repr

/-- The messages of a stream built from appends, at the offsets from 0 on. -/
def messagesOf (appends : List Appended) : List Bytes :=
  appends.flatMap Appended.messages

/-- The batches of a stream built from appends. -/
def batchesIn (appends : List Appended) : List RecordBatch :=
  appends.flatMap fun a => batchesOf a.messages a.atomic

/-- The engine lays batches one after the other. -/
def layOut : ℕ → List RecordBatch → List FetchedBatch
  | _, [] => []
  | base, batch :: rest =>
    ⟨base, base + batch.count.toNat, batch⟩ :: layOut (base + batch.count.toNat) rest

/-- Contents of the tail cache: appends are recorded in any order, any of them more than once or
never, and the cache may be reset at any time. -/
inductive Recorded (appends : List Appended) : TailCache → Prop where
  | reset : Recorded appends .empty
  | append {tail : TailCache} {before after : List Appended} {a : Appended}
      (recorded : Recorded appends tail) (split : appends = before ++ a :: after) :
      Recorded appends (tail.recordAppend (messagesOf before).length a.messages)

/-- What the engine returns for an offset: contiguous batches of the stream, of which the first has
the offset. -/
def FetchesFrom (appends : List Appended) (start : ℕ) (fetched : List FetchedBatch) : Prop :=
  ∃ before first rest after, layOut 0 (batchesIn appends) = before ++ fetched ++ after ∧
    fetched = first :: rest ∧ first.baseOffset ≤ start ∧ start < first.lastOffset

/-- What is promised of the answer to a read. -/
structure ReadContract (messages : List Bytes) (start confirmOffset maxBytes maxRecords : ℕ)
    (result : ReadResult) : Prop where
  /-- The appended messages at consecutive offsets from the start. -/
  records : ∀ i r, result.records[i]? = some r →
    r.offset = start + i ∧ messages[start + i]? = some r.payload
  progress : start < confirmOffset → result.records ≠ []
  count : 0 < maxRecords → result.records.length ≤ maxRecords
  /-- The byte budget, unless the first record that is not empty passes it alone. -/
  bytes : 0 < maxBytes → (result.records.map fun r => r.payload.length).sum ≤ maxBytes ∨
    ∃ empty last, result.records = empty ++ [last] ∧ (∀ r ∈ empty, r.payload = []) ∧
      maxBytes < last.payload.length
  nextOffset : result.nextOffset = start + result.records.length
  upToDate : result.upToDate = true ↔ result.nextOffset ≥ confirmOffset

section Contract

variable {appends : List Appended} {start confirmOffset maxBytes maxRecords : ℕ}

theorem fetches_layOut {batches : List RecordBatch} {groups : List (List Bytes)}
    (h : List.Forall₂ RecordBatch.Holds batches groups) (base : ℕ) :
  Fetches base (layOut base batches) groups.flatten
  := by
  induction h generalizing base with
  | nil => apply Fetches.nil
  | cons holds _ ih =>
    rw [layOut, flatten_cons, holds.1]
    apply Fetches.cons holds
    apply ih

/-- The batches of a stream hold the messages of its appends. -/
theorem fetches_batchesIn (h : ∀ batch ∈ batchesIn appends, batch.Loggable) :
  Fetches 0 (layOut 0 (batchesIn appends)) (messagesOf appends)
  := by
  have hgroups : ∃ groups, List.Forall₂ RecordBatch.Holds (batchesIn appends) groups ∧
      groups.flatten = messagesOf appends := by
    induction appends with
    | nil => exact ⟨[], List.Forall₂.nil, rfl⟩
    | cons a appends ih =>
      rw [batchesIn, flatMap_cons] at h ⊢
      obtain ⟨groups, hgroups, hmessages⟩ :=
        batchesOf_holds fun batch hbatch => h batch (mem_append_left _ hbatch)
      obtain ⟨groups', hgroups', hmessages'⟩ :=
        ih fun batch hbatch => h batch (mem_append_right _ hbatch)
      refine ⟨groups ++ groups', rel_append hgroups hgroups', ?_⟩
      rw [flatten_append, hmessages, hmessages', messagesOf, messagesOf, flatMap_cons]
  obtain ⟨groups, hgroups, hmessages⟩ := hgroups
  rw [← hmessages]
  apply fetches_layOut hgroups

/-- The tail cache holds messages of the stream at their offsets. -/
theorem Recorded.agrees {tail : TailCache} (h : Recorded appends tail) :
  Agrees (fun i => (messagesOf appends)[i]?) tail.recent
  := by
  induction h with
  | reset => exact Agrees.nil
  | @append tail before after a _ split ih =>
    apply TailCache.agrees_recordAppend ih
    intro i message hi
    have hlt : i < a.messages.length := (List.getElem?_eq_some_iff.mp hi).1
    rw [split, messagesOf, flatMap_append, flatMap_cons,
      getElem?_append_right (by rw [messagesOf]; omega), messagesOf, Nat.add_sub_cancel_left,
      getElem?_append_left hlt]
    exact hi

theorem limitOf_eq {limit : ℕ} (h : 0 < limit) :
  limitOf limit = limit
  := if_pos h

theorem limitOf_pos (limit : ℕ) :
  0 < limitOf limit
  := by
  unfold limitOf usizeMax
  split
  · assumption
  · decide

/-- What is taken of records when nothing was taken before. -/
theorem takenOf_nothing (hbytes : 0 < maxBytes) (hrecords : 0 < maxRecords)
    (records : List StreamRecord) :
  ∃ taken, (takenOf maxBytes maxRecords .nothing records).1 = taken ∧ taken.items <+: records ∧
    (records ≠ [] → taken.items ≠ []) ∧ taken.items.length ≤ maxRecords ∧
    taken.total = (taken.items.map fun r => r.payload.length).sum ∧
    taken.Within (fun r => r.payload.length) maxBytes
  := by
  have hsummed : Taken.nothing.Summed fun r : StreamRecord => r.payload.length := rfl
  obtain ⟨taken, hprefix, hitems, -⟩ := offerAll_items (fun r : StreamRecord => r.payload.length)
    maxBytes maxRecords .nothing records
  refine ⟨_, rfl, ?_, ?_, ?_, ?_, ?_⟩
  · rw [takenOf, hitems]
    exact hprefix
  · exact offerAll_ne_nil
  · exact length_offerAll hrecords records
  · exact summed_offerAll hsummed records
  · exact within_offerAll hsummed hbytes.le records

section

variable (entry : RegistryEntry)

include entry

/-- What is taken within the budgets of the messages from the offset on keeps the contract. -/
theorem contract_of_taken {messages window : List Bytes} (hwindow : window <+: messages.drop start)
    (hprogress : window ≠ []) :
  ReadContract messages start confirmOffset maxBytes maxRecords
    ((readingOf start (takenOf (limitOf maxBytes) (limitOf maxRecords) .nothing
      (recordsFrom start window)).1).result entry confirmOffset)
  := by
  obtain ⟨taken, heq, hprefix, hsome, hcount, htotal, hwithin⟩ :=
    takenOf_nothing (limitOf_pos maxBytes) (limitOf_pos maxRecords) (recordsFrom start window)
  rw [heq]
  constructor
  · intro i r hr
    obtain ⟨hlt, rfl⟩ := List.getElem?_eq_some_iff.mp hr
    have hwindowed := prefix_iff_getElem?.mp hprefix i hlt
    rw [getElem?_recordsFrom, Option.map_eq_some_iff] at hwindowed
    obtain ⟨payload, hpayload, heq⟩ := hwindowed
    obtain ⟨hlt', rfl⟩ := List.getElem?_eq_some_iff.mp hpayload
    change taken.items[i].offset = _ ∧ _ = some taken.items[i].payload
    rw [← heq, ← getElem?_drop]
    exact ⟨rfl, prefix_iff_getElem?.mp hwindow i hlt'⟩
  · intro _
    apply hsome
    intro hnil
    have hlength := length_recordsFrom start window
    rw [hnil] at hlength
    exact hprogress (length_eq_zero_iff.mp hlength.symm)
  · intro hpos
    rw [limitOf_eq hpos] at hcount
    exact hcount
  · intro hpos
    rw [limitOf_eq hpos] at hwithin
    rcases hwithin with hle | ⟨empty, last, hitems, hempty, hlast⟩
    · rw [htotal] at hle
      exact .inl hle
    · refine .inr ⟨empty, last, hitems, ?_, hlast⟩
      intro r hr
      exact length_eq_zero_iff.mp (hempty r hr)
  · rfl
  · exact decide_eq_true_iff

/-- The answer when there is nothing to read yet. -/
theorem contract_of_uptodate {messages : List Bytes} (h : start = confirmOffset) :
  ReadContract messages start confirmOffset maxBytes maxRecords
    ⟨[], entry.contentType, confirmOffset, true, entry.closed⟩
  := by
  constructor
  · intro i r hr
    cases hr
  · intro hlt
    omega
  · intro _
    apply Nat.zero_le
  · intro _
    exact .inl (Nat.zero_le _)
  · exact h.symm
  · simp

/-- Records of the window up to the confirmed offset. -/
theorem tailRead_eq {messages : List Bytes} (hsome : messages ≠ []) :
  tailRead entry (recordsFrom start messages) confirmOffset maxBytes maxRecords =
    (readingOf start (takenOf maxBytes maxRecords .nothing
      (recordsFrom start (messages.take (confirmOffset - start)))).1).result entry confirmOffset
  := by
  obtain ⟨message, rest, rfl⟩ := exists_cons_of_ne_nil hsome
  rw [tailRead]
  exact congrArg (Reading.result entry confirmOffset)
    (collectCached_eq confirmOffset (message :: rest) .nothing)

/-- The messages of the stream from the offset on, taken from the batches of the engine. -/
theorem fetchRecords_eq {fetched : List FetchedBatch}
    (haccepted : ∀ batch ∈ batchesIn appends, batch.Loggable)
    (hfetched : FetchesFrom appends start fetched) :
  ∃ window, window <+: (messagesOf appends).drop start ∧ window ≠ [] ∧
    fetchRecords entry fetched start confirmOffset maxBytes maxRecords =
      .ok ((readingOf start (takenOf maxBytes maxRecords .nothing
        (recordsFrom start window)).1).result entry confirmOffset)
  := by
  obtain ⟨before, first, rest, after, hsplit, rfl, hbase, hcontains⟩ := hfetched
  have hall := fetches_batchesIn haccepted
  rw [hsplit] at hall
  obtain ⟨upTo, past, hmessages, hupTo, -⟩ := hall.of_append
  obtain ⟨skipped, held, rfl, -, hheld⟩ := hupTo.of_append
  rw [Nat.zero_add] at hheld
  rw [hheld.baseOffset] at hbase
  obtain ⟨hcollect, hlt⟩ :=
    collectBatches_of_contains hheld (hheld.baseOffset.trans_le hbase) hcontains
  refine ⟨held.drop (start - skipped.length), ?_, ?_, ?_⟩
  · rw [hmessages, append_assoc, drop_append, drop_of_length_le hbase,
      nil_append, drop_append_of_le_length (by omega)]
    apply prefix_append
  · rw [ne_eq, drop_eq_nil_iff]
    omega
  · have hstart : (⟨.nothing, start⟩ : Reading) = readingOf start .nothing := rfl
    rw [fetchRecords, hstart, hcollect]
    rfl

end

/-- What is taken of the tail cache from the offset on is part of the messages. -/
theorem prefix_of_content {messages window : List Bytes}
    (h : ∀ i message, window[i]? = some message → messages[start + i]? = some message) (n : ℕ) :
  window.take n <+: messages.drop start
  := by
  have hwindow : window <+: messages.drop start := by
    rw [prefix_iff_getElem?]
    intro i hi
    rw [getElem?_drop]
    apply h i (window[i]) (getElem?_eq_getElem hi)
  have htaken : window.take n <+: window := by
    apply take_prefix
  exact htaken.trans hwindow

/-- The answer to a read is made of the messages of the stream. -/
theorem contract_readFrom {tail : TailCache} {entry : RegistryEntry}
    {fetch : ℕ → ℕ → ℕ → Except String (List FetchedBatch)}
    (haccepted : ∀ batch ∈ batchesIn appends, batch.Loggable) (htail : Recorded appends tail)
    (hfetch : ∀ fetched, fetch start confirmOffset (limitOf maxBytes) = .ok fetched →
      FetchesFrom appends start fetched) {result : ReadResult}
    (hok : readFrom entry tail fetch start confirmOffset maxBytes maxRecords = .ok result) :
  ReadContract (messagesOf appends) start confirmOffset maxBytes maxRecords result
  := by
  unfold readFrom at hok
  split at hok
  next => cases hok
  next hle =>
    split at hok
    next heq =>
      cases hok
      exact contract_of_uptodate entry heq
    next hne =>
      split at hok
      next cached hcached =>
        cases hok
        obtain ⟨messages, hsome, rfl, hmessages⟩ :=
          TailCache.tailRecords_eq htail.agrees hcached
        rw [tailRead_eq entry hsome]
        apply contract_of_taken
        · exact prefix_of_content hmessages _
        · rw [ne_eq, take_eq_nil_iff, not_or]
          exact ⟨by omega, hsome⟩
      next =>
        split at hok
        next => cases hok
        next fetched hfetched =>
          obtain ⟨window, hwindow, hprogress, heq⟩ :=
            fetchRecords_eq entry haccepted (hfetch fetched hfetched)
          rw [heq] at hok
          cases hok
          apply contract_of_taken entry hwindow hprogress

/-- The contract of a read of a stream built from any appends, whatever of them the tail cache
holds, when the engine returns contiguous batches of the stream from the offset on. What the tail
cache and the engine would answer to the same request are prefixes of one another. -/
theorem read_keeps_contract {tail : TailCache} {entry : RegistryEntry}
    {fetch : ℕ → ℕ → ℕ → Except String (List FetchedBatch)}
    (haccepted : ∀ batch ∈ batchesIn appends, batch.Loggable) (htail : Recorded appends tail)
    (hfetch : ∀ fetched, fetch start confirmOffset (limitOf maxBytes) = .ok fetched →
      FetchesFrom appends start fetched) :
  (∀ result, readFrom entry tail fetch start confirmOffset maxBytes maxRecords = .ok result →
    ReadContract (messagesOf appends) start confirmOffset maxBytes maxRecords result) ∧
  ∀ cached fetched result, tail.tailRecords start = some cached →
    fetch start confirmOffset (limitOf maxBytes) = .ok fetched →
    fetchRecords entry fetched start confirmOffset (limitOf maxBytes) (limitOf maxRecords)
      = .ok result →
    let cachedResult :=
      tailRead entry cached confirmOffset (limitOf maxBytes) (limitOf maxRecords)
    cachedResult.records <+: result.records ∨ result.records <+: cachedResult.records
  := by
  constructor
  · exact fun _ => contract_readFrom haccepted htail hfetch
  · intro cached fetched result hcached hfetched hok
    obtain ⟨messages, hsome, rfl, hmessages⟩ := TailCache.tailRecords_eq htail.agrees hcached
    obtain ⟨window, hwindow, hprogress, heq⟩ :=
      fetchRecords_eq entry haccepted (hfetch fetched hfetched)
    rw [heq] at hok
    cases hok
    rw [tailRead_eq entry hsome]
    have hwindows := prefix_or_prefix_of_prefix
      (prefix_of_content hmessages (confirmOffset - start)) hwindow
    apply hwindows.imp
    · intro h
      apply offerAll_prefix .nothing (prefix_recordsFrom start h)
    · intro h
      apply offerAll_prefix .nothing (prefix_recordsFrom start h)

end Contract

/-- A batch of two messages and a single one, of which the cache has the single one. -/
def sampleAppends : List Appended :=
  [⟨[[1], [2, 3]], true⟩, ⟨[[4]], false⟩]

def sampleEntry : RegistryEntry where
  streamId := 0
  contentType := "text/plain"
  ttlSeconds := none
  expiresAtMs := none
  closed := false
  deadlineMs := 0
  lastSeq := none
  producers := ∅
  closedBy := none

/-- A read from the engine, and one from the tail cache beside what the engine would answer. -/
theorem read_keeps_contract_sampleAppends :
  ∃ tail fetch result, Recorded sampleAppends tail ∧
    readFrom sampleEntry tail fetch 1 3 0 0 = .ok result ∧ result.records.length = 2 ∧
    ReadContract (messagesOf sampleAppends) 1 3 0 0 result ∧
    ∃ cached fetched result', tail.tailRecords 2 = some cached ∧
      fetchRecords sampleEntry fetched 2 3 (limitOf 0) (limitOf 0) = .ok result' ∧
      ((tailRead sampleEntry cached 3 (limitOf 0) (limitOf 0)).records <+: result'.records ∨
        result'.records <+: (tailRead sampleEntry cached 3 (limitOf 0) (limitOf 0)).records)
  := by
  let tail := TailCache.empty.recordAppend 2 [[4]]
  let fetch : ℕ → ℕ → ℕ → Except String (List FetchedBatch) := fun start _ _ =>
    .ok ((layOut 0 (batchesIn sampleAppends)).drop (start - 1))
  have haccepted : ∀ batch ∈ batchesIn sampleAppends, batch.Loggable := by
    decide +kernel
  have hsplit : sampleAppends = sampleAppends.take 1 ++ ⟨[[4]], false⟩ :: [] := rfl
  have htail : Recorded sampleAppends tail :=
    Recorded.append Recorded.reset hsplit
  have hfetch : ∀ fetched, fetch 1 3 (limitOf 0) = .ok fetched →
      FetchesFrom sampleAppends 1 fetched := by
    intro fetched hfetched
    cases hfetched
    exact ⟨[], _, _, [], (append_nil _).symm, rfl, by decide, by decide⟩
  have hfetchLast : ∀ fetched, fetch 2 3 (limitOf 0) = .ok fetched →
      FetchesFrom sampleAppends 2 fetched := by
    intro fetched hfetched
    cases hfetched
    exact ⟨(layOut 0 (batchesIn sampleAppends)).take 1, _, _, [], (append_nil _).symm, rfl,
      by decide, by decide⟩
  have hok : readFrom sampleEntry tail fetch 1 3 0 0 =
      .ok ⟨[⟨1, [2, 3]⟩, ⟨2, [4]⟩], "text/plain", 3, true, false⟩ := by
    decide +kernel
  have hlast : fetchRecords sampleEntry ((layOut 0 (batchesIn sampleAppends)).drop 1) 2 3
      (limitOf 0) (limitOf 0) = .ok ⟨[⟨2, [4]⟩], "text/plain", 3, true, false⟩ := by
    decide +kernel
  refine ⟨tail, fetch, _, htail, hok, rfl, (read_keeps_contract haccepted htail hfetch).1 _ hok,
    [⟨2, [4]⟩], _, _, rfl, hlast, ?_⟩
  exact (@read_keeps_contract sampleAppends 2 3 0 0 tail sampleEntry fetch haccepted htail
    hfetchLast).2 _ _ _ rfl rfl hlast

end Service
