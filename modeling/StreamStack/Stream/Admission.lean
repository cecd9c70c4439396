import StreamStack.Lib.OrdMap

/-!
# Appends of streams

An append of a stream reserves its offsets and hands its record to the storage while it holds the
append lock of the stream, so the records of a stream reach the storage in the order of their
offsets. The storage places a record in the write-ahead log, or parks it in the backoff queue when
other records wait there, when the log cache is full or when the log is over its capacity. A task
drains the queue from its head: the head stays queued until the log has taken it.

Durability is awaited outside of the lock, one task per record. The log confirms records in the
order in which it has taken them, up to the point where it fails. A record that the log refuses,
or that a shutdown finds in the queue, is answered with an error. A completed append advances the
confirm offset of its stream, and an error marks the stream as fenced.
-/

namespace Stream

open OrdMap

/-- A record batch of a stream: its offsets `offset, …, offset + count - 1`. -/
structure WalWriteRequest where
  streamId : Nat
  offset : Nat
  count : Nat
deriving DecidableEq, Repr

/-- The exclusive last offset. -/
def WalWriteRequest.lastOffset (r : WalWriteRequest) : Nat := r.offset + r.count

/-- Where the append that holds the append lock stands: it has reserved its offsets, is about to
park its record, or is about to hand it to the log. -/
inductive AppendLock where
  | free
  | reserved (request : WalWriteRequest)
  | parking (request : WalWriteRequest)
  | placing (request : WalWriteRequest)
deriving DecidableEq, Repr

/-- A stream. `openedAt` is the next offset it was opened with, below which its offsets belong to
records of the time before. Appends that have been admitted wait for the lock. -/
structure S3Stream where
  openedAt : Nat
  startOffset : Nat
  nextOffset : Nat
  confirmOffset : Nat
  closed : Bool := false
  fenced : Bool := false
  destroyed : Bool := false
  admitted : Nat := 0
  lock : AppendLock := .free
deriving DecidableEq, Repr

def S3Stream.new (startOffset nextOffset : Nat) : S3Stream where
  openedAt := nextOffset
  startOffset
  nextOffset
  confirmOffset := nextOffset

def S3Stream.isOperable (stream : S3Stream) : Bool :=
  !stream.closed && !stream.fenced && !stream.destroyed

/-- The drain task looks at the head of the backoff queue, has handed it to the log, which has taken
it at a position or refused it, or has panicked because the queue was empty after that. -/
inductive Drain where
  | idle
  | submitted (position : Option Nat)
  | panicked
deriving DecidableEq, Repr

/-- What the log says to a record. -/
inductive Outcome where
  | accepted
  | overCapacity
  | error
deriving DecidableEq, Repr

/-- A node. The log holds the records it has taken in order and has confirmed the first of them; the
tasks in `acks` wait for the record at a position of the log on behalf of a request, and those in
`failing` report an error. All requests that were answered with an error before the log took them
are kept in `refused`. -/
structure Sys where
  streams : OrdMap Nat S3Stream := ∅
  backoff : List WalWriteRequest := []
  drain : Drain := .idle
  wal : List WalWriteRequest := []
  walConfirmed : Nat := 0
  walFailed : Bool := false
  acks : List (Nat × WalWriteRequest) := []
  failing : List WalWriteRequest := []
  refused : List WalWriteRequest := []

inductive Action where
  | openStream (streamId startOffset nextOffset : Nat)
  | startAppend (streamId : Nat)
  | reserve (streamId count : Nat)
  | look (streamId : Nat)
  | noPermit (streamId : Nat)
  | submit (streamId : Nat) (outcome : Outcome)
  | park (streamId : Nat)
  | drainSubmit (outcome : Outcome)
  | drainPop
  | walConfirm
  | walFail
  | ack (i : Nat)
  | fail (i : Nat)
  | shutdown
  | trim (streamId newStartOffset : Nat)
  | close (streamId : Nat)
  | destroy (streamId : Nat)
deriving DecidableEq, Repr

namespace Sys

variable (sys : Sys)

def setStream (streamId : Nat) (stream : S3Stream) : Sys :=
  { sys with streams := sys.streams.insert streamId stream }

/-- A stream is opened once. Its start offset is at most its end offset in the metadata. -/
def openStream (streamId startOffset nextOffset : Nat) : Option Sys :=
  match sys.streams[streamId]? with
  | some _ => none
  | none =>
    if startOffset ≤ nextOffset then
      some (sys.setStream streamId (.new startOffset nextOffset))
    else none

/-- The check before the lock is taken. -/
def startAppend (streamId : Nat) : Option Sys := do
  let stream ← sys.streams[streamId]?
  if stream.isOperable then
    some (sys.setStream streamId { stream with admitted := stream.admitted + 1 })
  else none

/-- The lock is taken and the offsets are reserved. -/
def reserve (streamId count : Nat) : Option Sys := do
  let stream ← sys.streams[streamId]?
  if 0 < stream.admitted ∧ stream.lock = .free ∧ count < 4294967296 then
    some (sys.setStream streamId { stream with
      admitted := stream.admitted - 1
      nextOffset := stream.nextOffset + count
      lock := .reserved ⟨streamId, stream.nextOffset, count⟩ })
  else none

/-- The append looks whether records wait in the queue. The lock of the queue is poisoned once the
drain task has panicked. -/
def look (streamId : Nat) : Option Sys := do
  let stream ← sys.streams[streamId]?
  match stream.lock with
  | .reserved r =>
    if sys.drain = .panicked then none
    else
      let lock := if sys.backoff.isEmpty then .placing r else .parking r
      some (sys.setStream streamId { stream with lock })
  | _ => none

/-- The log cache is full. -/
def noPermit (streamId : Nat) : Option Sys := do
  let stream ← sys.streams[streamId]?
  match stream.lock with
  | .placing r => some (sys.setStream streamId { stream with lock := .parking r })
  | _ => none

/-- The log takes the record and a task waits for it. -/
def accept (r : WalWriteRequest) : Sys :=
  { sys with
    wal := sys.wal ++ [r]
    acks := sys.acks ++ [(sys.wal.length, r)] }

/-- Requests are answered with an error. -/
def refuse (rs : List WalWriteRequest) : Sys :=
  { sys with
    failing := sys.failing ++ rs
    refused := sys.refused ++ rs }

def submit (streamId : Nat) (outcome : Outcome) : Option Sys := do
  let stream ← sys.streams[streamId]?
  match stream.lock with
  | .placing r =>
    match outcome with
    | .accepted => some ((sys.accept r).setStream streamId { stream with lock := .free })
    | .overCapacity => some (sys.setStream streamId { stream with lock := .parking r })
    | .error => some ((sys.refuse [r]).setStream streamId { stream with lock := .free })
  | _ => none

def park (streamId : Nat) : Option Sys := do
  let stream ← sys.streams[streamId]?
  match stream.lock with
  | .parking r =>
    if sys.drain = .panicked then none
    else
      some ({ sys with backoff := sys.backoff ++ [r] }.setStream streamId
        { stream with lock := .free })
  | _ => none

/-- The drain task hands a copy of the head to the log. Over capacity it leaves the head for the
next round. -/
def drainSubmit (outcome : Outcome) : Option Sys :=
  match sys.drain, sys.backoff with
  | .idle, r :: _ =>
    match outcome with
    | .accepted =>
      some { sys with
        wal := sys.wal ++ [r]
        drain := .submitted (some sys.wal.length) }
    | .overCapacity => some sys
    | .error => some { sys with drain := .submitted none }
  | _, _ => none

/-- The drain task removes the head of the queue and answers it with the outcome. -/
def drainPop : Option Sys :=
  match sys.drain, sys.backoff with
  | .submitted (some position), r :: backoff =>
    some { sys with backoff, drain := .idle, acks := sys.acks ++ [(position, r)] }
  | .submitted none, r :: backoff => some { sys.refuse [r] with backoff, drain := .idle }
  | .submitted _, [] => some { sys with drain := .panicked }
  | _, _ => none

def walConfirm : Option Sys :=
  if sys.walFailed = false ∧ sys.walConfirmed < sys.wal.length then
    some { sys with walConfirmed := sys.walConfirmed + 1 }
  else none

def walFail : Option Sys := some { sys with walFailed := true }

/-- Bookkeeping of a completed append. -/
def completeAppend (r : WalWriteRequest) (ok : Bool) : Sys :=
  match sys.streams[r.streamId]? with
  | none => sys
  | some stream =>
    if ok then
      sys.setStream r.streamId
        { stream with confirmOffset := max stream.confirmOffset r.lastOffset }
    else sys.setStream r.streamId { stream with fenced := true }

/-- A task has the answer of the log for its position. -/
def ack (i : Nat) : Option Sys := do
  let (position, r) ← sys.acks[i]?
  let sys' := { sys with acks := sys.acks.eraseIdx i }
  if position < sys.walConfirmed then some (sys'.completeAppend r true)
  else if sys.walFailed then some (sys'.completeAppend r false)
  else none

def fail (i : Nat) : Option Sys := do
  let r ← sys.failing[i]?
  some (completeAppend { sys with failing := sys.failing.eraseIdx i } r false)

/-- A shutdown answers everything in the queue with an error. It does not keep appends and the drain
task from going on. -/
def shutdown : Option Sys :=
  if sys.drain = .panicked then none
  else some { sys.refuse sys.backoff with backoff := [] }

def trim (streamId newStartOffset : Nat) : Option Sys := do
  let stream ← sys.streams[streamId]?
  if newStartOffset < stream.startOffset then some sys
  else some (sys.setStream streamId { stream with startOffset := newStartOffset })

def close (streamId : Nat) : Option Sys := do
  let stream ← sys.streams[streamId]?
  some (sys.setStream streamId { stream with closed := true })

def destroy (streamId : Nat) : Option Sys := do
  let stream ← sys.streams[streamId]?
  if stream.closed then
    some (sys.setStream streamId
      { stream with destroyed := true, startOffset := stream.confirmOffset })
  else none

end Sys

def step (sys : Sys) : Action → Option Sys
  | .openStream streamId startOffset nextOffset => sys.openStream streamId startOffset nextOffset
  | .startAppend streamId => sys.startAppend streamId
  | .reserve streamId count => sys.reserve streamId count
  | .look streamId => sys.look streamId
  | .noPermit streamId => sys.noPermit streamId
  | .submit streamId outcome => sys.submit streamId outcome
  | .park streamId => sys.park streamId
  | .drainSubmit outcome => sys.drainSubmit outcome
  | .drainPop => sys.drainPop
  | .walConfirm => sys.walConfirm
  | .walFail => sys.walFail
  | .ack i => sys.ack i
  | .fail i => sys.fail i
  | .shutdown => sys.shutdown
  | .trim streamId newStartOffset => sys.trim streamId newStartOffset
  | .close streamId => sys.close streamId
  | .destroy streamId => sys.destroy streamId

def run (sys : Sys) (actions : List Action) : Option Sys := actions.foldlM step sys

end Stream
