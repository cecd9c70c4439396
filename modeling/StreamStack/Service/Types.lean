import StreamStack.Lib.OrdMap

/-!
# Requests, results and errors of the stream service

Offsets are numbers of records. An error carries its kind, a message, and what a caller needs
besides it.
-/

namespace Service

abbrev Bytes : Type := List UInt8

/-! ### Errors -/

inductive ErrorKind where
  | notFound
  | conflict
  | closed
  | badRequest
  | fenced
  | sequenceGap
  | matchFailed
  | durability
deriving DecidableEq, Repr

def ErrorKind.name : ErrorKind → String
  | .notFound => "NotFound"
  | .conflict => "Conflict"
  | .closed => "Closed"
  | .badRequest => "BadRequest"
  | .fenced => "Fenced"
  | .sequenceGap => "SequenceGap"
  | .matchFailed => "MatchFailed"
  | .durability => "Durability"

/-- An error with what the frontend makes its answer of. -/
structure ServiceError where
  kind : ErrorKind
  nextOffset : Option ℕ
  closed : Bool
  producerEpoch : Option UInt64
  expectedSeq : Option UInt64
  receivedSeq : Option UInt64
  message : String
deriving DecidableEq, Repr

namespace ServiceError

def ofKind (kind : ErrorKind) : ServiceError where
  kind
  nextOffset := none
  closed := false
  producerEpoch := none
  expectedSeq := none
  receivedSeq := none
  message := kind.name

/-- An error that tells the offset to go on at. -/
def atOffset (kind : ErrorKind) (nextOffset : ℕ) (closed : Bool) : ServiceError :=
  { ofKind kind with nextOffset := some nextOffset, closed }

/-- An error with the position of the stream and a text. -/
def withMessage (kind : ErrorKind) (nextOffset : Option ℕ) (closed : Bool) (message : String) :
    ServiceError :=
  { ofKind kind with nextOffset, closed, message }

/-- The producer is of an older epoch. -/
def fenced (currentEpoch : UInt64) : ServiceError :=
  { ofKind .fenced with producerEpoch := some currentEpoch, message := "Stale producer epoch" }

def sequenceGap (expected received : UInt64) : ServiceError :=
  { ofKind .sequenceGap with
    expectedSeq := some expected
    receivedSeq := some received
    message := "Producer sequence gap" }

def durability (cause : String) : ServiceError :=
  { ofKind .durability with message := s!"append not durable: {cause}" }

/-- An error of the engine or of the metadata plane. -/
def ofEngine (cause : String) : ServiceError :=
  withMessage .badRequest none false cause

/-- Bytes that cannot be read back. -/
def corrupt (message : String) : ServiceError :=
  withMessage .badRequest none false message

end ServiceError

/-! ### Requests and results -/

/-- The identity that an append carries to be applied once. -/
structure Producer where
  producerId : String
  epoch : UInt64
  seq : UInt64
deriving DecidableEq, Repr

/-- A message at its offset. -/
structure StreamRecord where
  offset : ℕ
  payload : Bytes
deriving DecidableEq, Repr

structure CreateCommand where
  contentType : String
  ttlSeconds : Option UInt64
  expiresAtMs : Option Int64
  closed : Bool
  initialPayload : Bytes
deriving DecidableEq, Repr

/-- A time to live and a fixed end exclude each other. -/
def CreateCommand.validate (command : CreateCommand) : Except ServiceError Unit :=
  if command.ttlSeconds.isSome && command.expiresAtMs.isSome then
    .error (.withMessage .badRequest none false "ttlSeconds and expiresAt are mutually exclusive")
  else .ok ()

structure AppendCommand where
  payloads : List Bytes := []
  contentType : Option String := none
  streamSeq : Option String := none
  matchSeq : Option ℕ := none
  producer : Option Producer := none
  closeAfter : Bool := false
  atomic : Bool := false
deriving DecidableEq, Repr

namespace AppendCommand

/-- An empty sequence is none. -/
def normalized (command : AppendCommand) : AppendCommand :=
  if command.streamSeq = some "" then { command with streamSeq := none } else command

def payloadLen (command : AppendCommand) : ℕ :=
  (command.payloads.map List.length).sum

end AppendCommand

structure AppendResult where
  nextOffset : ℕ
  applied : Bool
  closed : Bool
  producerEpoch : Option UInt64
  producerSeq : Option UInt64
deriving DecidableEq, Repr

/-- Records from an offset on, and whether they reach the end. -/
structure ReadResult where
  records : List StreamRecord
  contentType : String
  nextOffset : ℕ
  upToDate : Bool
  closed : Bool
deriving DecidableEq, Repr

end Service
