import StreamStack.Lib.Run
import StreamStack.Service.Admission

/-!
# Producer sessions

A session of the client groups records into numbered batches, sends each of them until it is
answered, and resolves the offset of every record from the one offset in the answer. The service
hands a batch to the stream, notes its number in the entry of the name, and only then waits for the
records to become durable, which may fail. A batch whose number it has noted is answered at once,
with the tail of the stream as it is by then. The offsets that the session derives from that answer
are those of its records only when these are durable and nothing was handed to the stream after
them.
-/

namespace Service.Session

open Run List

/-- The content type of the names that the client appends to. -/
def ctCore : String := "application/x-picomq"

/-- A record of the stream, and the batch of the session and the place in it that it came from. -/
structure Stored where
  payload : Bytes
  origin : Option (ℕ × ℕ)
deriving DecidableEq

/-- The offset to which the record at a place of a batch was resolved. -/
structure Ack where
  batch : ℕ
  place : ℕ
  offset : ℕ
deriving DecidableEq

/-- A request whose records were handed to the stream and noted in the entry, and the answer that it
gets when they are durable. The request is lost when they were dropped before that. -/
structure Request where
  batch : Option ℕ
  result : AppendResult
  lost : Bool := false
deriving DecidableEq

/-- The name at the service, the records handed to its stream, of which the first ones are durable,
the requests that were taken, the batches of the session by their sequence numbers, and what was
resolved. -/
structure Sys where
  entry : RegistryEntry
  log : List Stored
  durable : ℕ
  requests : List Request := []
  batches : List (List Bytes) := []
  acks : List Ack := []

/-- The session forms a batch. A batch, or an append of another writer, reaches the service, which
may fail to write the entry; an answer that is given at once may reach the session. Records become
durable. A request is answered. The stream fails and is opened again at an offset. -/
inductive Op where
  | collect (records : List Bytes)
  | attempt (seq : ℕ) (noted answered : Bool)
  | other (command : AppendCommand) (noted : Bool)
  | durable (offset : ℕ)
  | answer (i : ℕ)
  | fail (offset : ℕ)

def store (batch : Option ℕ) (records : List Bytes) : List Stored :=
  records.mapIdx fun i record => ⟨record, batch.map fun seq => (seq, i)⟩

variable (parseJson : Bytes → Option JsonBody) (producerId : String) (epoch : UInt64)

/-- The request that carries a batch. -/
def appendAs (records : List Bytes) (seq : ℕ) : AppendCommand where
  payloads := records
  contentType := some ctCore
  producer := some ⟨producerId, epoch, UInt64.ofNat seq⟩
  atomic := true

/-- The entry after an append that was taken. -/
def entryAfter (entry : RegistryEntry) (command : AppendCommand) : RegistryEntry :=
  let updated := applyAppendState entry command (decisionOf entry command)
  if command.closeAfter then updated.close (closedByOf command) else updated

/-- The service takes an append. An append that closes the name waits for its records before the
entry is written, all others do so after it. -/
def Sys.append (sys : Sys) (batch : Option ℕ) (command : AppendCommand) (noted : Bool) :
    Except ServiceError (Sys × Option AppendResult) := do
  match ← admitAppend parseJson sys.entry command sys.log.length with
  | .answer result => return (sys, some result)
  | .submit closeOnly messages =>
    let log := sys.log ++ store batch messages
    if noted then
      return ({ sys with
        log
        durable := if command.closeAfter then log.length else sys.durable
        entry := entryAfter sys.entry command
        requests := sys.requests ++ [⟨batch, resultOf command closeOnly log.length, false⟩] }, none)
    else return ({ sys with log }, none)

/-- The session resolves the records of a batch. Whether the answer has the start of the batch or
only the tail of the stream, the start is counted back from the next offset. -/
def Sys.resolve (sys : Sys) (seq : ℕ) (result : AppendResult) : Option Sys := do
  let records ← sys.batches[seq]?
  if sys.acks.any fun a => a.batch = seq then none
  else some { sys with acks := sys.acks ++ (List.range records.length).map fun i =>
    ⟨seq, i, result.nextOffset - records.length + i⟩ }

/-- One step. A batch may be sent any number of times until it is resolved. Sequence numbers have 64
bits. -/
def Sys.step (sys : Sys) : Op → Option Sys
  | .collect records =>
    if records = [] ∨ 2 ^ 64 ≤ sys.batches.length then none
    else some { sys with batches := sys.batches ++ [records] }
  | .attempt seq noted answered => do
      let records ← sys.batches[seq]?
      match sys.append parseJson (some seq) (appendAs producerId epoch records seq) noted with
      | .error _ => return sys
      | .ok (sys', none) => return sys'
      | .ok (sys', some result) => if answered then sys'.resolve seq result else return sys'
  | .other command noted =>
    match sys.append parseJson none command noted with
    | .error _ => some sys
    | .ok (sys', _) => some sys'
  | .durable offset =>
    if sys.durable ≤ offset ∧ offset ≤ sys.log.length then some { sys with durable := offset }
    else none
  | .answer i => do
      let r ← sys.requests[i]?
      let seq ← r.batch
      if r.lost = false ∧ r.result.nextOffset ≤ sys.durable then sys.resolve seq r.result else none
  | .fail offset =>
    if sys.durable ≤ offset ∧ offset ≤ sys.log.length then
      some { sys with
        log := sys.log.take offset
        durable := offset
        requests := sys.requests.map fun r =>
          { r with lost := r.lost || offset < r.result.nextOffset } }
    else none

/-- Every resolved offset is the one at which that record is stored, for good. -/
def Sys.Placed (sys : Sys) : Prop :=
  ∀ a ∈ sys.acks, a.offset < sys.durable ∧ ∃ records record, sys.batches[a.batch]? = some records ∧
    records[a.place]? = some record ∧
    sys.log[a.offset]? = some ⟨record, some (a.batch, a.place)⟩

/-- The batch was taken. -/
def Sys.Taken (sys : Sys) (seq : ℕ) : Prop := ∃ r ∈ sys.requests, r.batch = some seq

/-- The condition on a step. A batch that was taken and is sent again is answered only while its
records are durable and nothing was handed to the stream after them, and no other writer poses as
the session. -/
def Sys.Settled (sys : Sys) : Op → Prop
  | .attempt seq _ true => sys.Taken seq → ∃ r ∈ sys.requests, r.batch = some seq ∧
      r.lost = false ∧ r.result.nextOffset = sys.log.length ∧ sys.durable = sys.log.length
  | .other command _ => ∀ p ∈ command.producer, p.producerId = producerId → p.epoch ≠ epoch
  | _ => True

instance decidableSettled (sys : Sys) : DecidablePred (sys.Settled producerId epoch) :=
  fun op => by unfold Sys.Settled Sys.Taken; split <;> infer_instance

variable {parseJson : Bytes → Option JsonBody} {producerId : String} {epoch : UInt64}

theorem isJson_ctCore :
  isJson (mimeOf ctCore) = false
  := by
  decide +kernel

/-! ### What the entry knows of the session -/

/-- The entry has the number of a batch of the session only when all batches up to it were taken,
and the session has not closed the name. -/
structure Knows (producerId : String) (epoch : UInt64) (taken : ℕ → Prop) (entry : RegistryEntry) :
    Prop where
  taken : ∀ state ∈ entry.producers[producerId]?, state.epoch = epoch →
    ∀ seq ≤ state.lastSeq.toNat, taken seq
  closedBy : ∀ c ∈ entry.closedBy, c.producerId = producerId → c.epoch ≠ epoch

section

variable {entry : RegistryEntry} {command : AppendCommand} {taken taken' : ℕ → Prop}

theorem Knows.mono (h : Knows producerId epoch taken entry)
    (htaken : ∀ seq, taken seq → taken' seq) :
  Knows producerId epoch taken' entry
  := by
  refine ⟨?_, h.closedBy⟩
  exact fun state hstate hepoch seq hle => htaken seq (h.taken state hstate hepoch seq hle)

/-- A duplicate is one of a producer that the entry has. A producer that is accepted is new, or
follows on what the entry has of it. -/
theorem validateProducer_spec (entry : RegistryEntry) (p : Producer) :
  match validateProducer entry p with
  | .duplicate _ => ∃ state ∈ entry.producers[p.producerId]?, state.epoch = p.epoch ∧
      p.seq ≤ state.lastSeq
  | .accepted _ _ => p.seq = 0 ∨ ∃ state ∈ entry.producers[p.producerId]?, state.epoch = p.epoch ∧
      p.seq.toNat = state.lastSeq.toNat + 1
  | _ => True
  := by
  unfold validateProducer
  cases hstate : entry.producers[p.producerId]? with
  | none =>
    by_cases hzero : p.seq = 0
    · simp [hzero]
    · simp [hzero]
  | some state =>
    by_cases hstale : p.epoch < state.epoch
    · simp [hstale]
    · by_cases hnew : p.epoch > state.epoch
      · by_cases hzero : p.seq = 0
        · simp [hstale, hnew, hzero]
        · simp [hstale, hnew, hzero]
      · have hepoch : state.epoch = p.epoch :=
          UInt64.le_antisymm (UInt64.not_lt.mp hstale) (UInt64.not_lt.mp hnew)
        by_cases hle : p.seq ≤ state.lastSeq
        · simp [hepoch, hle]
        · by_cases hnext : p.seq = state.lastSeq + 1
          · have hlt := UInt64.lt_iff_toNat_lt.mp (UInt64.not_le.mp hle)
            have hmod : p.seq.toNat = (state.lastSeq.toNat + 1) % 2 ^ 64 := by
              rw [hnext]
              exact UInt64.toNat_add _ _
            have hsmall := state.lastSeq.toNat_lt
            simp only [hstale, hnew, hle, if_false, if_pos hnext]
            exact .inr ⟨state, rfl, hepoch, by omega⟩
          · simp [hepoch, hle, hnext]

theorem applyAppendState_cases (entry : RegistryEntry) (command : AppendCommand) :
  (applyAppendState entry command (decisionOf entry command)).closedBy = entry.closedBy ∧
    ((applyAppendState entry command (decisionOf entry command)).producers = entry.producers ∨
      ∃ p epoch seq, command.producer = some p ∧ validateProducer entry p = .accepted epoch seq ∧
        (applyAppendState entry command (decisionOf entry command)).producers
          = entry.producers.insert p.producerId ⟨p.epoch, p.seq⟩)
  := by
  unfold applyAppendState decisionOf
  cases hproducer : command.producer with
  | none => cases command.streamSeq <;> exact ⟨rfl, .inl rfl⟩
  | some p =>
    rw [Option.map_some]
    cases hdecision : validateProducer entry p with
    | accepted epoch seq =>
      cases command.streamSeq <;> exact ⟨rfl, .inr ⟨p, epoch, seq, rfl, hdecision, rfl⟩⟩
    | _ => cases command.streamSeq <;> exact ⟨rfl, .inl rfl⟩

/-- An append that is taken keeps what the entry knows, unless it poses as the session. -/
theorem Knows.entryAfter (h : Knows producerId epoch taken entry)
    (hown : ∀ p ∈ command.producer, p.producerId = producerId → p.epoch = epoch →
      command.closeAfter = false ∧ taken p.seq.toNat) :
  Knows producerId epoch taken (entryAfter entry command)
  := by
  obtain ⟨hclosed, hproducers⟩ := applyAppendState_cases entry command
  have htaken : ∀ state ∈ (applyAppendState entry command (decisionOf entry command)).producers[
      producerId]?, state.epoch = epoch → ∀ seq ≤ state.lastSeq.toNat, taken seq := by
    rcases hproducers with hsame | ⟨p, _, _, hp, haccepted, hinsert⟩
    · rw [hsame]
      exact h.taken
    · rw [hinsert]
      intro state hstate hepoch seq hle
      rcases OrdMap.lookup_insert_cases hstate with ⟨hid, rfl⟩ | ⟨-, hstate⟩
      · obtain ⟨-, hseq⟩ := hown p hp hid hepoch
        have hspec := validateProducer_spec entry p
        rw [haccepted] at hspec
        rcases hspec with hzero | ⟨state', hstate', hsame, hnext⟩
        · rw [hzero] at hle hseq
          rwa [Nat.le_zero.mp hle]
        · rcases Nat.lt_or_eq_of_le hle with hlt | rfl
          · rw [hid] at hstate'
            apply h.taken state' hstate' (hsame.trans hepoch) seq
            change seq < p.seq.toNat at hlt
            omega
          · exact hseq
      · exact h.taken state hstate hepoch seq hle
  unfold Session.entryAfter
  simp only
  split
  next hclose =>
    refine ⟨htaken, ?_⟩
    intro c hc hid hepoch
    change (if (closedByOf command).isSome then closedByOf command else _) = some c at hc
    split at hc
    next =>
      obtain ⟨p, hp, rfl⟩ := Option.map_eq_some_iff.mp hc
      have hopen := (hown p hp hid hepoch).1
      rw [hclose] at hopen
      cases hopen
    next =>
      rw [hclosed] at hc
      exact h.closedBy c hc hid hepoch
  next =>
    refine ⟨htaken, ?_⟩
    rw [hclosed]
    exact h.closedBy

theorem closedBy_of_answer {next : ℕ} {result : AppendResult} {p : Producer}
    (hopen : command.closeAfter = false) (hp : command.producer = some p)
    (h : appendToClosed entry command next = .ok result) :
  ∃ c ∈ entry.closedBy, c.producerId = p.producerId ∧ c.epoch = p.epoch
  := by
  rw [appendToClosed, hopen, hp] at h
  simp only [Bool.false_and, Option.isSome_some, Bool.true_and] at h
  split at h
  next hfalse => cases hfalse
  next =>
    split at h
    next hmatches =>
      unfold matchesClosedBy at hmatches
      rw [hp] at hmatches
      split at hmatches
      next c p' hc hp' =>
        cases hp'
        obtain ⟨hid, hepoch, -⟩ := of_decide_eq_true hmatches
        exact ⟨c, hc, hid, hepoch⟩
      next => cases hmatches
    next => cases h

/-- A batch that is answered at once was taken before. -/
theorem taken_of_answer {records : List Bytes} {seq next : ℕ} {result : AppendResult}
    (h : Knows producerId epoch taken entry) (hseq : seq < 2 ^ 64)
    (htaken : admitAppend parseJson entry (appendAs producerId epoch records seq) next
      = .ok (.answer result)) :
  taken seq
  := by
  unfold admitAppend at htaken
  simp only at htaken
  split at htaken
  next rejected hrejected =>
    obtain ⟨_, hreject, -⟩ := exists_of_bind_ok htaken
    obtain ⟨hdecision, -⟩ := Option.filter_eq_some_iff.mp hrejected
    cases rejected with
    | duplicate lastSeq =>
      have hspec := validateProducer_spec entry ⟨producerId, epoch, UInt64.ofNat seq⟩
      rw [Option.some.inj hdecision] at hspec
      obtain ⟨state, hstate, hepoch, hle⟩ := hspec
      apply h.taken state hstate hepoch seq
      have hle := UInt64.le_iff_toNat_le.mp hle
      rwa [UInt64.toNat_ofNat_of_lt' hseq] at hle
    | _ => cases hreject
  next =>
    split at htaken
    next =>
      obtain ⟨_, hclosed, -⟩ := exists_of_bind_ok htaken
      obtain ⟨c, hc, hid, hepoch⟩ := closedBy_of_answer rfl rfl hclosed
      exact absurd hepoch (h.closedBy c hc hid)
    next =>
      obtain ⟨_, -, htaken⟩ := exists_of_bind_ok htaken
      split at htaken
      next => cases htaken
      next =>
        obtain ⟨_, -, htaken⟩ := exists_of_bind_ok htaken
        cases htaken

end

/-! ### Runs -/

/-- Resolved records are in place. A request that is not lost ends with the records of its batch. -/
structure Inv (producerId : String) (epoch : UInt64) (sys : Sys) : Prop where
  durable : sys.durable ≤ sys.log.length
  small : sys.batches.length ≤ 2 ^ 64
  placed : sys.Placed
  requests : ∀ r ∈ sys.requests, r.lost = false → r.result.nextOffset ≤ sys.log.length ∧
    ∀ seq ∈ r.batch, ∃ records, sys.batches[seq]? = some records ∧
      store (some seq) records <:+ sys.log.take r.result.nextOffset
  known : Knows producerId epoch sys.Taken sys.entry

variable {sys sys' : Sys} {seq : ℕ} {records : List Bytes}

/-- Records that are durable are resolved to where they are stored. -/
theorem Inv.resolve (h : Inv producerId epoch sys) {result : AppendResult}
    (hdurable : result.nextOffset ≤ sys.durable) (hbatch : sys.batches[seq]? = some records)
    (htail : store (some seq) records <:+ sys.log.take result.nextOffset)
    (hresolve : sys.resolve seq result = some sys') :
  Inv producerId epoch sys'
  := by
  obtain ⟨records', hrecords', hresolve⟩ := Option.bind_eq_some_iff.mp hresolve
  cases hbatch.symm.trans hrecords'
  split at hresolve
  next => cases hresolve
  next =>
    cases hresolve
    refine { h with placed := ?_ }
    intro a ha
    rcases mem_append.mp ha with ha | ha
    · exact h.placed a ha
    · obtain ⟨i, hi, rfl⟩ := mem_map.mp ha
      have hlt := mem_range.mp hi
      obtain ⟨before, hlog⟩ := htail
      have hlength := congrArg length hlog
      rw [length_append, store, length_mapIdx, length_take,
        min_eq_left (hdurable.trans h.durable)] at hlength
      have hstart : result.nextOffset - records.length + i < result.nextOffset := by omega
      refine ⟨lt_of_lt_of_le hstart hdurable, records, records[i], hbatch,
        getElem?_eq_getElem hlt, ?_⟩
      change sys.log[_]? = _
      rw [← getElem?_take_of_lt hstart, ← hlog, getElem?_append_right (by omega), store,
        getElem?_mapIdx, show _ - records.length + i - before.length = i by omega,
        getElem?_eq_getElem hlt]
      rfl

/-- More records are handed to the stream. -/
theorem Inv.grow (h : Inv producerId epoch sys) (more : List Stored) :
  Inv producerId epoch { sys with log := sys.log ++ more }
  := by
  have hlength : sys.log.length ≤ (sys.log ++ more).length := by
    rw [length_append]
    omega
  refine { h with durable := h.durable.trans hlength, placed := ?_, requests := ?_ }
  · intro a ha
    obtain ⟨hdurable, records, record, hbatch, hrecord, hlog⟩ := h.placed a ha
    refine ⟨hdurable, records, record, hbatch, hrecord, ?_⟩
    rw [getElem?_append_left (List.getElem?_eq_some_iff.mp hlog).1]
    exact hlog
  · intro r hr hlost
    obtain ⟨hle, hbatch⟩ := h.requests r hr hlost
    refine ⟨hle.trans hlength, fun seq hseq => ?_⟩
    rw [take_append_of_le_length hle]
    exact hbatch seq hseq

/-- An append of a batch, or of a writer that does not pose as the session. -/
theorem Inv.append (h : Inv producerId epoch sys) {batch : Option ℕ} {command : AppendCommand}
    {noted : Bool} {answer : Option AppendResult}
    (hbatch : ∀ seq ∈ batch, ∃ records, sys.batches[seq]? = some records ∧
      command = appendAs producerId epoch records seq)
    (hother : batch = none → ∀ p ∈ command.producer, p.producerId = producerId → p.epoch ≠ epoch)
    (happend : sys.append parseJson batch command noted = .ok (sys', answer)) :
  Inv producerId epoch sys' ∧ ∀ result ∈ answer, sys' = sys ∧
    admitAppend parseJson sys.entry command sys.log.length = .ok (.answer result)
  := by
  obtain ⟨admission, htaken, happend⟩ := exists_of_bind_ok happend
  rcases admitAppend_cases htaken with ⟨result, rfl, -⟩ | ⟨closeOnly, messages, rfl, -, hplain⟩
  · cases happend
    refine ⟨h, ?_⟩
    rintro _ ⟨⟩
    exact ⟨rfl, htaken⟩
  · have hgrow := h.grow (store batch messages)
    cases noted with
    | false =>
      cases happend
      exact ⟨hgrow, nofun⟩
    | true =>
      cases happend
      refine ⟨{ hgrow with durable := ?_, placed := ?_, requests := ?_, known := ?_ }, nofun⟩
      · dsimp only
        split
        next => exact le_refl _
        next => exact hgrow.durable
      · intro a ha
        obtain ⟨hdurable, hplaced⟩ := hgrow.placed a ha
        refine ⟨?_, hplaced⟩
        dsimp only
        split
        next => exact lt_of_lt_of_le hdurable hgrow.durable
        next => exact hdurable
      · intro r hr hlost
        rcases mem_append.mp hr with hr | hr
        · exact hgrow.requests r hr hlost
        · obtain rfl := mem_singleton.mp hr
          refine ⟨le_refl _, fun seq hseq => ?_⟩
          obtain ⟨records, hrecords, rfl⟩ := hbatch seq hseq
          cases hseq
          obtain rfl := hplain rfl isJson_ctCore
          refine ⟨_, hrecords, ?_⟩
          change _ <:+ (sys.log ++ _).take (sys.log ++ _).length
          rw [take_length]
          exact suffix_append _ _
      · apply Knows.entryAfter (h.known.mono ?_)
        · intro p hp hid hepoch
          cases batch with
          | none => exact absurd hepoch (hother rfl p hp hid)
          | some seq =>
            obtain ⟨records, hrecords, rfl⟩ := hbatch seq rfl
            cases hp
            have hlt := (List.getElem?_eq_some_iff.mp hrecords).1
            refine ⟨rfl, _, mem_append_right _ (mem_singleton_self _), ?_⟩
            change some seq = some (UInt64.ofNat seq).toNat
            rw [UInt64.toNat_ofNat_of_lt' (lt_of_lt_of_le hlt h.small)]
        · rintro seq ⟨r, hr, hseq⟩
          exact ⟨r, mem_append_left _ hr, hseq⟩

theorem Inv.step (h : Inv producerId epoch sys) {op : Op}
    (hsettled : sys.Settled producerId epoch op)
    (hstep : sys.step parseJson producerId epoch op = some sys') :
  Inv producerId epoch sys'
  := by
  cases op with
  | collect records =>
    rw [Sys.step] at hstep
    split at hstep
    next => cases hstep
    next hroom =>
      cases hstep
      have hkeep {seq : ℕ} {records' : List Bytes} (hrecords : sys.batches[seq]? = some records') :
          (sys.batches ++ [records])[seq]? = some records' := by
        rw [getElem?_append_left (List.getElem?_eq_some_iff.mp hrecords).1]
        exact hrecords
      refine { h with small := ?_, placed := ?_, requests := ?_ }
      · rw [length_append]
        exact not_le.mp (not_or.mp hroom).2
      · intro a ha
        obtain ⟨hdurable, records', record, hbatch, hplaced⟩ := h.placed a ha
        exact ⟨hdurable, records', record, hkeep hbatch, hplaced⟩
      · intro r hr hlost
        refine ⟨(h.requests r hr hlost).1, fun seq hseq => ?_⟩
        obtain ⟨records', hbatch, htail⟩ := (h.requests r hr hlost).2 seq hseq
        exact ⟨records', hkeep hbatch, htail⟩
  | attempt seq noted answered =>
    obtain ⟨records, hbatch, hsend⟩ := Option.bind_eq_some_iff.mp hstep
    have hown : ∀ seq' ∈ some seq, ∃ records', sys.batches[seq']? = some records' ∧
        appendAs producerId epoch records seq = appendAs producerId epoch records' seq' := by
      rintro _ ⟨⟩
      exact ⟨records, hbatch, rfl⟩
    split at hsend
    next =>
      cases hsend
      exact h
    next happend =>
      cases hsend
      exact (h.append hown nofun happend).1
    next result happend =>
      obtain ⟨hkept, hanswer⟩ := h.append hown nofun happend
      obtain ⟨rfl, htaken⟩ := hanswer result rfl
      cases answered with
      | false =>
        cases hsend
        exact hkept
      | true =>
        have hlt := (List.getElem?_eq_some_iff.mp hbatch).1
        obtain ⟨r, hr, hseq, hlost, hend, hdurable⟩ :=
          hsettled (taken_of_answer h.known (lt_of_lt_of_le hlt h.small) htaken)
        obtain ⟨records', hrecords', htail⟩ := (h.requests r hr hlost).2 seq hseq
        cases hbatch.symm.trans hrecords'
        rcases admitAppend_cases htaken with ⟨_, ⟨⟩, -, hnext⟩ | ⟨_, _, hsubmit, -⟩
        · rw [← hend] at hnext
          refine h.resolve ?_ hbatch (hnext ▸ htail) hsend
          rw [hnext, hend, hdurable]
        · cases hsubmit
  | other command noted =>
    rw [Sys.step] at hstep
    split at hstep
    next =>
      cases hstep
      exact h
    next happend =>
      cases hstep
      exact (h.append (fun _ hseq => by cases hseq) (fun _ => hsettled) happend).1
  | durable offset =>
    rw [Sys.step] at hstep
    split at hstep
    next hoffset =>
      cases hstep
      refine { h with durable := hoffset.2, placed := ?_ }
      intro a ha
      obtain ⟨hdurable, hplaced⟩ := h.placed a ha
      exact ⟨lt_of_lt_of_le hdurable hoffset.1, hplaced⟩
    next => cases hstep
  | answer i =>
    obtain ⟨r, hr, hstep⟩ := Option.bind_eq_some_iff.mp hstep
    obtain ⟨seq, hseq, hstep⟩ := Option.bind_eq_some_iff.mp hstep
    split at hstep
    next hanswer =>
      obtain ⟨records, hbatch, htail⟩ :=
        (h.requests r (mem_of_getElem? hr) hanswer.1).2 seq hseq
      exact h.resolve hanswer.2 hbatch htail hstep
    next => cases hstep
  | fail offset =>
    rw [Sys.step] at hstep
    split at hstep
    next hoffset =>
      cases hstep
      refine { h with durable := ?_, placed := ?_, requests := ?_, known := h.known.mono ?_ }
      · rw [length_take, min_eq_left hoffset.2]
      · intro a ha
        obtain ⟨hdurable, records, record, hbatch, hrecord, hlog⟩ := h.placed a ha
        have hlt := lt_of_lt_of_le hdurable hoffset.1
        refine ⟨hlt, records, record, hbatch, hrecord, ?_⟩
        rw [getElem?_take_of_lt hlt]
        exact hlog
      · intro r hr hlost
        obtain ⟨r', hr', rfl⟩ := mem_map.mp hr
        obtain ⟨hlost, hle⟩ := Bool.or_eq_false_iff.mp hlost
        have hle := not_lt.mp (of_decide_eq_false hle)
        refine ⟨?_, fun seq hseq => ?_⟩
        · rw [length_take, min_eq_left hoffset.2]
          exact hle
        · rw [take_take, min_eq_left hle]
          exact (h.requests r' hr' hlost).2 seq hseq
      · rintro seq ⟨r, hr, hseq⟩
        exact ⟨_, mem_map_of_mem hr, hseq⟩
    next => cases hstep

/-- A name that the session has not appended to, with records of others. -/
def Sys.start (entry : RegistryEntry) (log : List Stored) : Sys where
  entry
  log
  durable := log.length

/-- From a name that does not know the session: in every run in which a batch that was taken is
answered again only while its records are durable and the last ones of the stream, every resolved
offset is the one at which that record is stored. -/
theorem placed_of_settled {ops : List Op} {entry : RegistryEntry} {log : List Stored} {sys : Sys}
    (hunknown : Knows producerId epoch (fun _ => False) entry)
    (hrun : Along (Sys.step parseJson producerId epoch)
      (fun sys op => sys.Settled producerId epoch op) ops (.start entry log))
    (h : ops.foldlM (Sys.step parseJson producerId epoch) (.start entry log) = some sys) :
  sys.Placed
  := by
  have hinv : Inv producerId epoch (.start entry log) := by
    refine ⟨le_refl _, Nat.zero_le _, nofun, nofun, hunknown.mono fun _ => False.elim⟩
  apply Inv.placed
  apply Along.induction (I := Inv producerId epoch) _ hrun hinv h
  intro sys op sys' hsettled hsys hstep
  exact hsys.step hsettled hstep

/-- A name that nothing was appended to. -/
def created : RegistryEntry := ⟨0, ctCore, none, none, false, 0, none, ∅, none⟩

theorem created_unknown :
  Knows "p" 0 (fun _ => False) created
  := by
  refine ⟨?_, nofun⟩
  simp [created]

/-- The answer to the first attempt of a batch is lost, and so it is sent again. -/
def resent : List Op :=
  [.collect [[1], [2]], .other { payloads := [[9]], contentType := some ctCore } true,
    .attempt 0 true false, .durable 3, .attempt 0 true true]

theorem placed_of_settled_resent :
  ∃ sys, resent.foldlM (Sys.step (fun _ => none) "p" 0) (.start created []) = some sys ∧
    sys.acks = [⟨0, 0, 1⟩, ⟨0, 1, 2⟩] ∧ sys.Placed
  := by
  obtain ⟨sys, hrun, hacks⟩ : ∃ sys, resent.foldlM (guarded (Sys.step (fun _ => none) "p" 0)
      fun sys op => sys.Settled "p" 0 op) (.start created []) = some sys ∧
        sys.acks = [⟨0, 0, 1⟩, ⟨0, 1, 2⟩] := by
    decide +kernel
  obtain ⟨halong, hrun⟩ := along_of_guarded hrun
  exact ⟨sys, hrun, hacks, placed_of_settled created_unknown halong hrun⟩

/-- Another writer stores a record before the batch is sent again. -/
def overtaken : List Op :=
  [.collect [[1]], .attempt 0 true false,
    .other { payloads := [[9]], contentType := some ctCore } true, .durable 2, .attempt 0 true true]

/-- The record of the session is resolved to the offset of the other one. -/
theorem misplaced_overtaken :
  ∃ sys, overtaken.foldlM (Sys.step (fun _ => none) "p" 0) (.start created []) = some sys ∧
    sys.acks = [⟨0, 0, 1⟩] ∧ sys.log = [⟨[1], some (0, 0)⟩, ⟨[9], none⟩] ∧ ¬ sys.Placed
  := by
  obtain ⟨sys, hrun, hacks, hlog⟩ : ∃ sys,
      overtaken.foldlM (Sys.step (fun _ => none) "p" 0) (.start created []) = some sys ∧
      sys.acks = [⟨0, 0, 1⟩] ∧ sys.log = [⟨[1], some (0, 0)⟩, ⟨[9], none⟩] := by
    decide +kernel
  refine ⟨sys, hrun, hacks, hlog, ?_⟩
  intro hplaced
  obtain ⟨-, records, record, -, -, hstored⟩ := hplaced ⟨0, 0, 1⟩ (by rw [hacks]; decide)
  rw [hlog] at hstored
  cases hstored

-- A batch that is sent again while it is on its way is resolved, and its record is never stored.
example :
  ([.collect [[1]], .attempt 0 true false, .attempt 0 true true, .fail 0].foldlM
      (Sys.step (fun _ => none) "p" 0) (.start created [])).map (fun sys => (sys.acks, sys.log))
    = some ([⟨0, 0, 0⟩], [])
  := by decide +kernel

end Service.Session
