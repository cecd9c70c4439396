import StreamStack.Service.Registry

/-!
# What is made of an append request

Between taking the entry of a name and handing messages to the engine, an append decides from the
entry, the request and the next offset of the stream: a duplicate or a close of a closed name is
answered at once, a request that does not fit is refused, and the payloads of any other are split
into messages.
-/

namespace Service

open ServiceError

/-! ### Content types and messages -/

/-- The characters that trimming removes. -/
def isWhite (c : Char) : Bool :=
  let n := c.toNat
  (0x9 ≤ n ∧ n ≤ 0xD) ∨ n = 0x20 ∨ n = 0x85 ∨ n = 0xA0 ∨ n = 0x1680 ∨ (0x2000 ≤ n ∧ n ≤ 0x200A) ∨
    n = 0x2028 ∨ n = 0x2029 ∨ n = 0x202F ∨ n = 0x205F ∨ n = 0x3000

def trimmed (s : List Char) : List Char :=
  ((s.dropWhile isWhite).reverse.dropWhile isWhite).reverse

/-- The media type before any parameters, in lower case. -/
def mimeOf (contentType : String) : String :=
  String.ofList ((trimmed (contentType.toList.takeWhile fun c => c ≠ ';')).map Char.toLower)

def mimeEquals (a b : String) : Bool :=
  mimeOf a = mimeOf b

def isJson (mime : String) : Bool :=
  mime = "application/json" ∨ "+json".toList <:+ mime.toList

/-- A parsed JSON body: the elements of an array, or any other value, written out again. -/
inductive JsonBody where
  | array (items : List Bytes)
  | other (value : Bytes)
deriving DecidableEq, Repr

/-- One message per element of a JSON array, or the body as it is. -/
def splitMessages (parseJson : Bytes → Option JsonBody) (contentType : String) (body : Bytes)
    (create : Bool) : Except ServiceError (List Bytes) :=
  if !isJson (mimeOf contentType) then .ok [body]
  else
    match parseJson body with
    | none => .error (withMessage .badRequest none false "invalid JSON")
    | some (.array []) =>
      if create then .ok []
      else .error (withMessage .badRequest none false "empty JSON array not allowed")
    | some (.array items) => .ok items
    | some (.other value) => .ok [value]

def expandPayloads (parseJson : Bytes → Option JsonBody) (contentType : String) :
    List Bytes → Except ServiceError (List Bytes)
  | [] => .ok []
  | payload :: rest => do
      let messages ← splitMessages parseJson contentType payload false
      let others ← expandPayloads parseJson contentType rest
      return messages ++ others

/-! ### Refusals and answers -/

/-- The decision on the producer of a request, if it has one. -/
def decisionOf (entry : RegistryEntry) (command : AppendCommand) : Option ProducerDecision :=
  command.producer.map (validateProducer entry)

/-- A producer whose request is not to be applied. A duplicate is a success. -/
def handleProducerReject (entry : RegistryEntry) (next : ℕ) (decision : ProducerDecision)
    (command : AppendCommand) : Except ServiceError AppendResult :=
  match decision with
  | .duplicate lastSeq =>
    .ok ⟨next, false, entry.closed, command.producer.map Producer.epoch, some lastSeq⟩
  | .staleEpoch currentEpoch => .error (fenced currentEpoch)
  | .invalidEpochSeq =>
    .error (withMessage .badRequest (some next) false "New epoch must start with sequence 0")
  | .sequenceGap expected received => .error (sequenceGap expected received)
  | .accepted _ _ => .error (ofKind .badRequest)

def matchesClosedBy (entry : RegistryEntry) (command : AppendCommand) : Bool :=
  match entry.closedBy, command.producer with
  | some closedBy, some producer =>
    closedBy.producerId = producer.producerId ∧ closedBy.epoch = producer.epoch ∧
      closedBy.seq = producer.seq
  | _, _ => false

/-- An append to a closed name: closing again is a success, and so is the request that closed
it. -/
def appendToClosed (entry : RegistryEntry) (command : AppendCommand) (next : ℕ) :
    Except ServiceError AppendResult :=
  if command.closeAfter && command.payloadLen = 0 then
    if command.producer.isSome && !matchesClosedBy entry command && entry.closedBy.isSome then
      .error (atOffset .closed next true)
    else
      .ok ⟨next, false, true, command.producer.map Producer.epoch,
        command.producer.map fun p => (entry.closedBy.map ClosedBy.seq).getD p.seq⟩
  else if command.producer.isSome && matchesClosedBy entry command then
    .ok ⟨next, false, true, command.producer.map Producer.epoch, entry.closedBy.map ClosedBy.seq⟩
  else .error (atOffset .closed next true)

def validatePayload (entry : RegistryEntry) (command : AppendCommand)
    (decision : Option ProducerDecision) (next : ℕ) (closeOnly : Bool) :
    Except ServiceError Unit := do
  if !closeOnly then
    let contentType := command.contentType.getD ""
    if contentType = "" then
      throw (withMessage .badRequest (some next) false "missing Content-Type")
    if !mimeEquals entry.contentType contentType then
      throw (atOffset .conflict next false)
    if command.payloadLen = 0 then
      throw (withMessage .badRequest (some next) false "Empty body")
  match command.streamSeq, entry.lastSeq with
  | some streamSeq, some lastSeq =>
    if (decision.all ProducerDecision.isAccepted) && streamSeq ≤ lastSeq then
      throw (withMessage .conflict (some next) false "Sequence conflict")
  | _, _ => return ()

/-- The entry after an append: its sequence and its producer. -/
def applyAppendState (entry : RegistryEntry) (command : AppendCommand)
    (decision : Option ProducerDecision) : RegistryEntry :=
  let updated :=
    match command.streamSeq with
    | some seq => entry.withLastSeq seq
    | none => entry
  match decision, command.producer with
  | some (.accepted _ _), some producer =>
    updated.withProducer producer.producerId producer.epoch producer.seq
  | _, _ => updated

theorem streamId_applyAppendState (entry : RegistryEntry) (command : AppendCommand)
    (decision : Option ProducerDecision) :
  (applyAppendState entry command decision).streamId = entry.streamId
  := by
  unfold applyAppendState
  split
  · simp only
    split
    · rfl
    · rfl
  · simp only
    split
    · rfl
    · rfl

/-! ### The decision -/

/-- What becomes of a request: an answer, or messages for the engine. -/
inductive Admission where
  | answer (result : AppendResult)
  | submit (closeOnly : Bool) (messages : List Bytes)
deriving DecidableEq, Repr

def admitAppend (parseJson : Bytes → Option JsonBody) (entry : RegistryEntry)
    (command : AppendCommand) (next : ℕ) : Except ServiceError Admission := do
  let decision := decisionOf entry command
  match decision.filter fun d => !d.isAccepted with
  | some rejected => return .answer (← handleProducerReject entry next rejected command)
  | none =>
    if entry.closed then
      return .answer (← appendToClosed entry command next)
    if let some matchSeq := command.matchSeq then
      if matchSeq ≠ next then
        throw (withMessage .matchFailed (some next) false
          s!"match failed: expected tail {matchSeq}, actual {next}")
    let closeOnly := command.payloadLen = 0 && command.closeAfter
    validatePayload entry command decision next closeOnly
    let messages ←
      if closeOnly then pure [] else expandPayloads parseJson entry.contentType command.payloads
    return .submit closeOnly messages

def resultOf (command : AppendCommand) (closeOnly : Bool) (next : ℕ) : AppendResult where
  nextOffset := next
  applied := !closeOnly
  closed := command.closeAfter
  producerEpoch := command.producer.map Producer.epoch
  producerSeq := command.producer.map Producer.seq

def closedByOf (command : AppendCommand) : Option ClosedBy :=
  command.producer.map fun p => ⟨p.producerId, p.epoch, p.seq⟩

/-! ### What follows from a decision -/

/-- A computation that succeeds has succeeded in its first part. -/
theorem exists_of_bind_ok {ε α β : Type} {x : Except ε α} {f : α → Except ε β} {b : β}
    (h : x >>= f = .ok b) :
  ∃ a, x = .ok a ∧ f a = .ok b
  := by
  cases x with
  | error e => cases h
  | ok a => exact ⟨a, rfl, h⟩

section Decisions

variable {parseJson : Bytes → Option JsonBody} {entry : RegistryEntry} {command : AppendCommand}
  {next : ℕ} {contentType : String}

theorem splitMessages_ne_nil {body : Bytes} {messages : List Bytes}
    (h : splitMessages parseJson contentType body false = .ok messages) :
  messages ≠ []
  := by
  unfold splitMessages at h
  split at h
  next =>
    cases h
    nofun
  next =>
    split at h
    next => cases h
    next => cases h
    next hitems _ =>
      cases h
      rintro rfl
      exact hitems rfl
    next =>
      cases h
      nofun

theorem expandPayloads_ne_nil {payloads messages : List Bytes} (hpayloads : payloads ≠ [])
    (h : expandPayloads parseJson contentType payloads = .ok messages) :
  messages ≠ []
  := by
  cases payloads with
  | nil => exact absurd rfl hpayloads
  | cons payload rest =>
    rw [expandPayloads] at h
    obtain ⟨first, hfirst, h⟩ := exists_of_bind_ok h
    obtain ⟨others, -, h⟩ := exists_of_bind_ok h
    cases h
    exact List.append_ne_nil_of_left_ne_nil (splitMessages_ne_nil hfirst) _

/-- An answer to a request that is not applied tells the tail of the stream. -/
theorem handleProducerReject_answer {decision : ProducerDecision} {result : AppendResult}
    (h : handleProducerReject entry next decision command = .ok result) :
  result.applied = false ∧ result.nextOffset = next
  := by
  cases decision with
  | duplicate lastSeq =>
    cases h
    exact ⟨rfl, rfl⟩
  | staleEpoch currentEpoch => cases h
  | invalidEpochSeq => cases h
  | sequenceGap expected received => cases h
  | accepted epoch seq => cases h

theorem appendToClosed_answer {result : AppendResult}
    (h : appendToClosed entry command next = .ok result) :
  result.applied = false ∧ result.nextOffset = next
  := by
  unfold appendToClosed at h
  split at h
  next =>
    split at h
    next => cases h
    next =>
      cases h
      exact ⟨rfl, rfl⟩
  next =>
    split at h
    next =>
      cases h
      exact ⟨rfl, rfl⟩
    next => cases h

/-- An append with content has the content type of the name, and a body. -/
theorem content_of_validated {decision : Option ProducerDecision} {u : Unit}
    (h : validatePayload entry command decision next false = .ok u) :
  mimeOf entry.contentType = mimeOf (command.contentType.getD "") ∧ command.payloadLen ≠ 0
  := by
  simp only [validatePayload, Bool.not_false, if_true] at h
  split at h
  next => cases h
  next =>
    split at h
    next => cases h
    next hmime =>
      split at h
      next => cases h
      next hbody => exact ⟨by simpa [mimeEquals] using hmime, hbody⟩

theorem expandPayloads_plain (h : isJson (mimeOf contentType) = false) (payloads : List Bytes) :
  expandPayloads parseJson contentType payloads = .ok payloads
  := by
  induction payloads with
  | nil => rfl
  | cons payload payloads ih =>
    rw [expandPayloads, ih, splitMessages, h]
    rfl

/-- What is handed to the engine fits the request: the tail is the one that was asked for, and there
are messages unless the name is only closed. -/
structure Submits (command : AppendCommand) (next : ℕ) (closeOnly : Bool) (messages : List Bytes) :
    Prop where
  tail : ∀ m, command.matchSeq = some m → m = next
  messages : messages = [] ↔ closeOnly = true

/-- Payloads that are not JSON are handed over as they are. -/
def Plain (command : AppendCommand) (messages : List Bytes) : Prop :=
  command.closeAfter = false → isJson (mimeOf (command.contentType.getD "")) = false →
    messages = command.payloads

theorem submits_of_validated {admission : Admission} {closeOnly : Bool}
    (htail : ∀ m, command.matchSeq = some m → m = next)
    (hclose : closeOnly = true → command.closeAfter = true)
    (h : (do
      validatePayload entry command (decisionOf entry command) next closeOnly
      let messages ←
        if closeOnly then pure [] else expandPayloads parseJson entry.contentType command.payloads
      return Admission.submit closeOnly messages) = Except.ok admission) :
  ∃ closeOnly messages, admission = .submit closeOnly messages ∧
    Submits command next closeOnly messages ∧ Plain command messages
  := by
  obtain ⟨_, hvalid, h⟩ := exists_of_bind_ok h
  cases closeOnly with
  | true =>
    cases h
    refine ⟨true, [], rfl, ⟨htail, fun _ => rfl, fun _ => rfl⟩, ?_⟩
    intro hopen
    rw [hclose rfl] at hopen
    cases hopen
  | false =>
    obtain ⟨messages, hmessages, h⟩ := exists_of_bind_ok h
    cases h
    obtain ⟨hmime, hbody⟩ := content_of_validated hvalid
    refine ⟨false, messages, rfl, ⟨htail, ?_, nofun⟩, ?_⟩
    · have hpayloads : command.payloads ≠ [] := by
        intro hnil
        apply hbody
        rw [AppendCommand.payloadLen, hnil]
        rfl
      exact fun hnil => absurd hnil (expandPayloads_ne_nil hpayloads hmessages)
    · intro _ hplain
      rw [expandPayloads_plain (hmime ▸ hplain)] at hmessages
      exact (Except.ok.inj hmessages).symm

/-- Either a request is answered without being applied, or it is handed to the engine. -/
theorem admitAppend_cases {admission : Admission}
    (h : admitAppend parseJson entry command next = .ok admission) :
  (∃ result, admission = .answer result ∧ result.applied = false ∧ result.nextOffset = next) ∨
    ∃ closeOnly messages, admission = .submit closeOnly messages ∧
      Submits command next closeOnly messages ∧ Plain command messages
  := by
  unfold admitAppend at h
  simp only at h
  split at h
  next =>
    obtain ⟨result, hresult, h⟩ := exists_of_bind_ok h
    cases h
    exact .inl ⟨result, rfl, handleProducerReject_answer hresult⟩
  next =>
    split at h
    next =>
      obtain ⟨result, hresult, h⟩ := exists_of_bind_ok h
      cases h
      exact .inl ⟨result, rfl, appendToClosed_answer hresult⟩
    next =>
      right
      have hclose : (command.payloadLen = 0 && command.closeAfter) = true →
          command.closeAfter = true := by
        rw [Bool.and_eq_true]
        exact And.right
      split at h
      next m hmatch =>
        split at h
        next => cases h
        next heq =>
          apply submits_of_validated _ hclose h
          intro m' hm'
          cases hmatch.symm.trans hm'
          exact not_not.mp heq
      next hnone =>
        apply submits_of_validated _ hclose h
        intro m hm
        exact absurd hm (hnone m)

end Decisions

end Service
