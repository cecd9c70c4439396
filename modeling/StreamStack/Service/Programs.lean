import StreamStack.Service.World

/-!
# The operations of the service

Every operation on a name as a program of atomic actions. Most hold the gate of the name. An append
gives it up before its messages are durable, and `head`, `wait_appended` and `lookup` look the entry
up without it.
-/

namespace Service

open Tasks ServiceError

/-! ### Entries -/

/-- Store an entry, in the metadata first. -/
def putEntry (n : ℕ) (entry : RegistryEntry) : Op Unit := do
  putKv n entry
  cacheEntry n (some entry)

/-- A handle is removed and a stream without one is opened, before the stream is destroyed. Errors
are ignored. -/
def destroyStream (n : ℕ) (id : UInt64) : Op Unit := do
  let held ← hasHandle n id
  removeHandle n id
  match ← attempt (onlyIf (!held) (openStream id)) with
  | .error _ => return ()
  | .ok _ => do
      let _ ← attempt (destroy id)
      return ()

/-- The key is deleted after a copy of its entry was found expired. -/
def World.deleteExpired (w : World) (entry : RegistryEntry) (nowMs : Int64) : World :=
  (w.putKv none).setTrace fun t =>
    match w.kv with
    | none => t
    | some stored =>
      { t with
        expired := ⟨stored, nowMs⟩ :: t.expired
        stale := t.stale || stored.deadlineMs ≠ entry.deadlineMs }

/-- The deletion of an entry that was found expired is not answered. -/
def World.noAnswer (w : World) : World :=
  w.setTrace fun t => { t with failed := true, unanswered := true }

/-- The deletion of an entry that was found expired. -/
def delExpired (n : ℕ) (entry : RegistryEntry) (nowMs : Int64) : Op Unit :=
  perform fun i w =>
    match i.reply with
    | .answered => some ((w.deleteExpired entry nowMs).catchUp n, .ok ())
    | .lost => some ((w.deleteExpired entry nowMs).noAnswer, .error (.ofEngine "no answer"))
    | .failed => some (w.noAnswer, .error (.ofEngine "failed"))

/-- The key is deleted first. That this may fail is ignored. -/
def expire (n : ℕ) (entry : RegistryEntry) (nowMs : Int64) : Op Unit := do
  let _ ← attempt (delExpired n entry nowMs)
  cacheEntry n none
  destroyStream n entry.streamId
  resetTail n

/-- The entry from the cache or the metadata. -/
def loadEntry (n : ℕ) : Op (Option RegistryEntry) := do
  match ← cachedEntry n with
  | some entry => return some entry
  | none =>
    match ← getKv n with
    | none => return none
    | some entry => do
        cacheEntry n (some entry)
        return some entry

/-- The entry of the name unless it has expired. A touch moves its deadline. -/
def getEntry (n : ℕ) (touch : Bool) : Op (Option RegistryEntry) := do
  match ← loadEntry n with
  | none => return none
  | some entry => do
      let nowMs ← clock
      if entry.expired nowMs then
        expire n entry nowMs
        return none
      else if touch then
        let nowMs ← clock
        let refreshed := touchDeadline entry nowMs
        if refreshed ≠ entry then
          putEntry n refreshed
          return some refreshed
        else return some entry
      else return some entry

def requireEntry (n : ℕ) : Op RegistryEntry := do
  match ← getEntry n false with
  | some entry => return entry
  | none => throw (withMessage .badRequest none false "missing registry entry")

/-! ### Handles -/

/-- A handle on the stream, opened if there is none. -/
def ensureOpen (n me : ℕ) (id : UInt64) : Op Unit := do
  if ← hasHandle n id then return ()
  else do
    lockOpen n me
    let result ← attempt do
      if ← hasHandle n id then return ()
      else do
        openStream id
        insertHandle n id
    unlockOpen n
    conclude result

/-- The answer to `head`. -/
structure StreamMeta where
  streamId : UInt64
  contentType : String
  ttlSeconds : Option UInt64
  expiresAtMs : Option Int64
  startOffset : ℕ
  nextOffset : ℕ
  submittedOffset : ℕ
  closed : Bool
deriving DecidableEq, Repr

def toMeta (entry : RegistryEntry) (s : EngineStream) : StreamMeta where
  streamId := entry.streamId
  contentType := entry.contentType
  ttlSeconds := entry.ttlSeconds
  expiresAtMs := entry.expiresAtMs
  startOffset := s.startOffset
  nextOffset := s.confirmOffset
  submittedOffset := s.nextOffset
  closed := entry.closed

/-- Look at a stream. -/
def lookStream {α : Type} (id : UInt64) (f : EngineStream → α) : Op α :=
  onStream id fun s => some (s, f s)

def toMetaLive (n me : ℕ) (entry : RegistryEntry) : Op StreamMeta := do
  ensureOpen n me entry.streamId
  lookStream entry.streamId (toMeta entry)

/-! ### Appends -/

/-- Hand one batch to the engine. Its place in the log is what durability is awaited by. -/
def submitBatch (id : UInt64) (batch : RecordBatch) (messages : List Bytes) : Op ℕ := do
  let placed ← onStream id fun s =>
    if s.operable then some (s.submit batch messages, some s.log.length) else some (s, none)
  match placed with
  | some place => return place
  | none => throw (.ofEngine s!"stream {id} closed")

/-- Hand the batches over in order. The first failure ends it. -/
def submitAll (id : UInt64) : List (RecordBatch × List Bytes) → Op (List ℕ)
  | [] => return []
  | (batch, messages) :: rest => do
      let place ← submitBatch id batch messages
      let places ← submitAll id rest
      return place :: places

def submitMessages (id : UInt64) (messages : List Bytes) (atomic : Bool) : Op (List ℕ) :=
  submitAll id (groupsOf messages atomic)

/-- What is known of the batches at some places: `none` while one is on its way. -/
def durability (log : List Submitted) : List ℕ → Option Bool
  | [] => some true
  | place :: rest =>
    match (log[place]?).bind Submitted.outcome with
    | none => none
    | some false => some false
    | some true => durability log rest

/-- Wait until all batches are durable or one has failed. -/
def awaitDurable (id : UInt64) (places : List ℕ) : Op Unit := do
  let durable ← onStream id fun s => (durability s.log places).map fun durable => (s, durable)
  if durable then return () else throw (.ofEngine "append failed")

/-- After a failure the handle is dropped and the tail cache emptied. -/
def dropHandle {α : Type} (n : ℕ) (id : UInt64) (e : ServiceError) : Op α := do
  removeHandle n id
  resetTail n
  throw (.durability e.message)

/-- Note that all messages of an append were submitted. -/
def noteApplied (applied : Applied) : Op Unit :=
  change fun w => w.setTrace fun t => { t with applied := t.applied ++ [applied] }

/-- The part of an append that comes after the gate: its places in the log and its answer. -/
structure Pipelined where
  streamId : UInt64
  base : ℕ
  messages : List Bytes
  places : List ℕ
  result : AppendResult

/-- Store the entry as closed, with a new deadline. -/
def closeEntry (n : ℕ) (entry : RegistryEntry) (command : AppendCommand) : Op Unit := do
  let nowMs ← clock
  putEntry n (touchDeadline (entry.close (closedByOf command)) nowMs)

/-- The rest of an append that closes the name, under the gate: durability comes before the mark
that the name is closed. -/
def finishClosing (n : ℕ) (updated : RegistryEntry) (command : AppendCommand) (closeOnly : Bool)
    (p : Pipelined) : Op (AppendResult ⊕ Pipelined) := do
  match ← attempt (awaitDurable p.streamId p.places) with
  | .error e => dropHandle n p.streamId e
  | .ok _ => do
      onlyIf (!closeOnly) (recordAppend n p.streamId p.base p.messages)
      closeEntry n updated command
      return .inl p.result

/-- The rest of an append under the gate that does not close the name. -/
def finishPipelined (n : ℕ) (entry updated : RegistryEntry) (p : Pipelined) :
    Op (AppendResult ⊕ Pipelined) := do
  let nowMs ← clock
  let touched := touchDeadline updated nowMs
  onlyIf (touched ≠ entry) (putEntry n touched)
  return .inr p

/-- The offset after the messages. -/
def offsetAfterSubmit (id : UInt64) (base : ℕ) (messages : List Bytes) : Op ℕ :=
  if messages.isEmpty then pure base else lookStream id EngineStream.nextOffset

/-- Submit messages, close the name if asked to, and update the entry. -/
def submitAppend (n me : ℕ) (entry : RegistryEntry) (command : AppendCommand) (base : ℕ)
    (closeOnly : Bool) (messages : List Bytes) : Op (AppendResult ⊕ Pipelined) := do
  let id := entry.streamId
  match ← attempt (submitMessages id messages command.atomic) with
  | .error e => dropHandle n id e
  | .ok places => do
      let next ← offsetAfterSubmit id base messages
      onlyIf (!closeOnly) (noteApplied ⟨me, id, base, messages, command.matchSeq⟩)
      let updated := applyAppendState entry command (decisionOf entry command)
      let p : Pipelined := ⟨id, base, messages, places, resultOf command closeOnly next⟩
      if command.closeAfter then finishClosing n updated command closeOnly p
      else finishPipelined n entry updated p

section Requests

variable (parseJson : Bytes → Option JsonBody)

/-- The part of an append under the gate. -/
def appendGated (n me : ℕ) (command : AppendCommand) : Op (AppendResult ⊕ Pipelined) := do
  match ← getEntry n false with
  | none => throw (.ofKind .notFound)
  | some entry => do
      ensureOpen n me entry.streamId
      let next ← lookStream entry.streamId EngineStream.nextOffset
      match admitAppend parseJson entry command next with
      | .error e => throw e
      | .ok (.answer result) => return .inl result
      | .ok (.submit closeOnly messages) =>
        submitAppend n me entry command next closeOnly messages

/-- The part of an append after the gate. -/
def appendPipelined (n : ℕ) (p : Pipelined) : Op AppendResult := do
  match ← attempt (awaitDurable p.streamId p.places) with
  | .error e => dropHandle n p.streamId e
  | .ok _ => do
      recordAppend n p.streamId p.base p.messages
      return p.result

/-- Under the gate up to the submit, and without it until the messages are durable. -/
def append (n me : ℕ) (command : AppendCommand) : Op AppendResult := do
  match ← withGate n me (appendGated parseJson n me command.normalized) with
  | .inl result => return result
  | .inr p => appendPipelined n p

/-! ### Creation and deletion -/

/-- A create of a name that is there must ask for the same. -/
def configMatches (entry : RegistryEntry) (command : CreateCommand) : Bool :=
  mimeEquals entry.contentType command.contentType ∧ entry.ttlSeconds = command.ttlSeconds ∧
    entry.expiresAtMs = command.expiresAtMs ∧ entry.closed = command.closed

structure CreateResult where
  created : Bool
  info : StreamMeta
deriving DecidableEq, Repr

/-- The entry that a create wants to store. -/
def candidateOf (command : CreateCommand) (id : UInt64) (nowMs : Int64) : RegistryEntry where
  streamId := id
  contentType := command.contentType
  ttlSeconds := command.ttlSeconds
  expiresAtMs := command.expiresAtMs
  closed := command.closed
  deadlineMs := deadlineOf command.ttlSeconds command.expiresAtMs nowMs
  lastSeq := none
  producers := ∅
  closedBy := none

/-- A new stream with a handle on it. -/
def provisionStream (n : ℕ) : Op UInt64 := do
  let id ← createStream
  insertHandle n id
  return id

/-- Another node has registered the name first: the new stream is destroyed. -/
def resolveLostRace (n me : ℕ) (id : UInt64) (current : RegistryEntry) (command : CreateCommand) :
    Op CreateResult := do
  let _ ← attempt (destroy id)
  removeHandle n id
  if !configMatches current command then throw (.ofKind .conflict)
  else return ⟨false, ← toMetaLive n me current⟩

/-- Whether there was an initial payload. -/
def appendInitialPayload (n : ℕ) (id : UInt64) (command : CreateCommand) : Op Bool := do
  if command.initialPayload.isEmpty then return false
  else
    match splitMessages parseJson command.contentType command.initialPayload true with
    | .error e => throw e
    | .ok [] => return false
    | .ok messages => do
        let base ← lookStream id EngineStream.nextOffset
        match ← attempt (submitMessages id messages false) with
        | .error e => throw (.durability e.message)
        | .ok places =>
          match ← attempt (awaitDurable id places) with
          | .error e => throw (.durability e.message)
          | .ok _ => do
              recordAppend n id base messages
              return true

/-- The entry after the initial payload. -/
def entryAfterPayload (n : ℕ) (stored : RegistryEntry) (appended : Bool) : Op RegistryEntry :=
  if appended then requireEntry n else pure stored

/-- A name that is created closed is closed after its payload. -/
def closeCreated (n : ℕ) (command : CreateCommand) (current : RegistryEntry) :
    Op RegistryEntry := do
  if command.closed && !current.closed then
    putEntry n (current.close none)
    requireEntry n
  else return current

/-- An entry that is there is compared, and else a new stream is entered. -/
def createGated (n me : ℕ) (command : CreateCommand) : Op CreateResult := do
  match ← getEntry n false with
  | some existing =>
    if !configMatches existing command then throw (.ofKind .conflict)
    else return ⟨false, ← toMetaLive n me existing⟩
  | none => do
      let id ← provisionStream n
      let nowMs ← clock
      let stored ← putKvIfAbsent n (candidateOf command id nowMs)
      cacheEntry n (some stored)
      if stored.streamId ≠ id then resolveLostRace n me id stored command
      else do
        let appended ← appendInitialPayload parseJson n id command
        let current ← entryAfterPayload n stored appended
        let current ← closeCreated n command current
        return ⟨true, ← lookStream id (toMeta current)⟩

def create (n me : ℕ) (command : CreateCommand) : Op CreateResult :=
  match command.validate with
  | .error e => throw e
  | .ok _ => withGate n me (createGated parseJson n me command)

/-- The key goes first, then the stream and what is cached of it. -/
def deleteGated (n : ℕ) : Op Bool := do
  match ← getEntry n false with
  | none => return false
  | some entry => do
      let deleted ← delKv n
      cacheEntry n none
      if deleted.isNone then return false
      else do
        destroyStream n entry.streamId
        resetTail n
        return true

/-! ### Reads and lookups -/

/-- The clamped offset of a trim. -/
def clampTrim (newStartOffset lower confirmOffset committedEnd : ℕ) : ℕ :=
  min (max newStartOffset lower) (min confirmOffset committedEnd)

/-- Move the start offset. The command may fail after the handle has moved. -/
def moveStart (id : UInt64) (startOffset : ℕ) : Op Unit := do
  onStream id fun s => some ({ s with startOffset }, ())
  callWith (fun w => w) (fun w => w) fun _ => ()

/-- A trim beyond the committed end is cut to it. -/
def trimGated (n me : ℕ) (newStartOffset : ℕ) : Op ℕ := do
  match ← getEntry n false with
  | none => throw (.ofKind .notFound)
  | some entry => do
      let id := entry.streamId
      ensureOpen n me id
      let committedEnd ← perform fun i w => some (w, .ok i.committedEnd)
      let (lower, confirmOffset) ← lookStream id fun s => (s.startOffset, s.confirmOffset)
      let clamped := clampTrim newStartOffset lower confirmOffset committedEnd
      onlyIf (clamped > lower) (moveStart id clamped)
      lookStream id EngineStream.startOffset

/-- Take the cached records from an offset on. -/
def takeCached (n start : ℕ) : Op (Option (List StreamRecord)) :=
  perform fun _ w =>
    let cached := (w.nodes n).tail.tailRecords start
    some (w.setTrace fun t => { t with
      served := t.served ++ (cached.getD []).map fun r => ⟨r, w.registeredAt r.offset⟩ },
      .ok cached)

/-- Fetch batches from a stream. -/
def fetchStream (id : UInt64) (start stop : ℕ) : Op (List FetchedBatch) :=
  perform fun i w =>
    match w.streams id with
    | none => some (w, .error (.ofEngine s!"stream {id} does not exist"))
    | some s =>
      match s.fetch id i.batches start stop with
      | .error e => some (w, .error (.ofEngine e))
      | .ok fetched => some (w, .ok fetched)

/-- A read is answered from the tail cache if it can be, and else by the engine. -/
def readGated (n me : ℕ) (start maxBytes maxRecords : ℕ) : Op ReadResult := do
  match ← getEntry n true with
  | none => throw (.ofKind .notFound)
  | some entry => do
      let id := entry.streamId
      ensureOpen n me id
      let stop ← lookStream id EngineStream.confirmOffset
      if start > stop then throw (.ofKind .badRequest)
      else if start = stop then
        return ⟨[], entry.contentType, stop, true, entry.closed⟩
      else
        match ← takeCached n start with
        | some cached =>
          return tailRead entry cached stop (limitOf maxBytes) (limitOf maxRecords)
        | none => do
            let fetched ← fetchStream id start stop
            match fetchRecords entry fetched start stop (limitOf maxBytes) (limitOf maxRecords) with
            | .error e => throw e
            | .ok result => return result

def head (n me : ℕ) : Op (Option StreamMeta) := do
  match ← withoutGate n me (getEntry n false) with
  | none => return none
  | some entry => return some (← toMetaLive n me entry)

def lookupStreamId (n me : ℕ) : Op (Option UInt64) := do
  let entry ← withoutGate n me (getEntry n false)
  return entry.map RegistryEntry.streamId

/-- Whether a parked call is woken comes from outside. -/
def waitAppended (n me start : ℕ) : Op Bool := do
  match ← withoutGate n me (getEntry n false) with
  | none => return false
  | some entry =>
    if entry.closed then return true
    else do
      ensureOpen n me entry.streamId
      let confirmOffset ← lookStream entry.streamId EngineStream.confirmOffset
      if confirmOffset > start then return true
      else perform fun i w => some (w, .ok i.woken)

/-- Drain and close a stream so that it can move to another node. -/
def releaseGated (n : ℕ) (id : UInt64) : Op Bool := do
  let held ← hasHandle n id
  removeHandle n id
  if !held then return false
  else do
    closeStream id
    resetTail n
    return true

/-! ### Requests -/

inductive Request where
  | create (command : CreateCommand)
  | append (command : AppendCommand)
  | read (start maxBytes maxRecords : ℕ)
  | trim (newStartOffset : ℕ)
  | delete
  | head
  | lookup
  | wait (start : ℕ)
  | release (streamId : UInt64)

inductive Answer where
  | created (result : CreateResult)
  | appended (result : AppendResult)
  | records (result : ReadResult)
  | trimmed (startOffset : ℕ)
  | deleted (existed : Bool)
  | info (result : Option StreamMeta)
  | streamId (result : Option UInt64)
  | waited (woken : Bool)
  | released (held : Bool)

/-- The program of a request on a node. -/
def serve (n me : ℕ) : Request → Op Answer
  | .create command => Answer.created <$> create parseJson n me command
  | .append command => Answer.appended <$> append parseJson n me command
  | .read start maxBytes maxRecords =>
    Answer.records <$> withGate n me (readGated n me start maxBytes maxRecords)
  | .trim newStartOffset => Answer.trimmed <$> withGate n me (trimGated n me newStartOffset)
  | .delete => Answer.deleted <$> withGate n me (deleteGated n)
  | .head => Answer.info <$> head n me
  | .lookup => Answer.streamId <$> lookupStreamId n me
  | .wait start => Answer.waited <$> waitAppended n me start
  | .release id => Answer.released <$> withGate n me (releaseGated n id)

end Requests

/-! ### Runs -/

/-- What happens without the service: batches settle and views advance. -/
inductive Outside where
  | settle (streamId : UInt64) (place : ℕ) (durable : Bool)
  | publish (node : ℕ)

/-- A batch settles, or a view is published. -/
def Outside.change : Outside → World → Option World
  | .settle id place durable, w => do
      let s ← w.streams id
      let s ← s.settle place durable
      return w.setStream id (some s)
  | .publish n, w =>
    if (w.nodes n).seen < w.kvLog.length then
      some (w.setNode n fun node => { node with seen := node.seen + 1 })
    else none

/-- The tasks of the service, started by requests to nodes. -/
def taskOf (parseJson : Bytes → Option JsonBody) (request : ℕ × Request) (me : ℕ) :
    Task Input World (Except ServiceError Answer) :=
  (serve parseJson request.1 me request.2).run

/-- The world with the requests that are running. -/
abbrev Pool : Type 1 := Config Input World (ℕ × Request) (Except ServiceError Answer)

abbrev Happening : Type := Event Input (ℕ × Request) Outside

abbrev stepPool (parseJson : Bytes → Option JsonBody) : Pool → Happening → Option Pool :=
  exec (taskOf parseJson) Outside.change

/-- The states that the events of a run lead to satisfy `A`. -/
abbrev Through (parseJson : Bytes → Option JsonBody) (A : World → Prop) (w : World)
    (events : List Happening) : Prop :=
  Run.Along (stepPool parseJson) (Keeps (taskOf parseJson) Outside.change A) events ⟨w, []⟩

/-- A run from a world without requests. -/
def runPool (parseJson : Bytes → Option JsonBody) (w : World) (events : List Happening) :
    Option Pool :=
  events.foldlM (stepPool parseJson) ⟨w, []⟩

/-- A task takes some actions at a reading of the clock. -/
def acts (task count : ℕ) (nowMs : Int64) : List Happening :=
  List.replicate count (.run task { nowMs })

/-- A text stream that lives for a minute after its last use. -/
def minuteStream : CreateCommand where
  contentType := "text/plain"
  ttlSeconds := some 60
  expiresAtMs := none
  closed := false
  initialPayload := []

/-- A text stream that lives until it is deleted. -/
def plainStream : CreateCommand :=
  { minuteStream with ttlSeconds := none }

/-- An append of one message. -/
def appendOne (message : Bytes) : AppendCommand where
  payloads := [message]
  contentType := some "text/plain"

end Service
