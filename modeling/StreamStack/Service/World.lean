import StreamStack.Lib.Tasks
import StreamStack.Service.Admission
import StreamStack.Service.Read

/-!
# The nodes that serve a name

The shared state that the operations on one name act on: the key of the name in the metadata, the
streams of the engine, and on every node the gate of the name with its tail cache, the cached entry
and the handles. A node reads the key in its published view, which is the state after some of the
changes.

Every access is an atomic action. An action gets a clock reading and the reply of the call it makes
as input: a call is answered, or fails, or takes effect without an answer.
-/

namespace Service

open Tasks List

/-! ### Streams of the engine -/

/-- A batch that was handed to the engine, the messages in it, and whether it has become durable or
failed. -/
structure Submitted where
  batch : RecordBatch
  messages : List Bytes
  outcome : Option Bool
deriving DecidableEq, Repr

/-- The row of a stream in the metadata. -/
inductive Row where
  | opened
  | closed
  | deleted
deriving DecidableEq, Repr

/-- A stream: its row in the metadata and the handle that was last opened on it. The handle is
there also when the row is gone. -/
structure EngineStream where
  log : List Submitted
  startOffset : ℕ
  confirmOffset : ℕ
  /-- The handle has not been closed, fenced or destroyed. -/
  operable : Bool
  row : Row
  /-- How often the stream was opened. -/
  epoch : ℕ
deriving DecidableEq, Repr

namespace EngineStream

def new : EngineStream where
  log := []
  startOffset := 0
  confirmOffset := 0
  operable := true
  row := .opened
  epoch := 1

/-- The batches of a stream with their messages. -/
def content (s : EngineStream) : List (RecordBatch × List Bytes) :=
  s.log.map fun b => (b.batch, b.messages)

/-- A batch takes as many offsets as it counts. -/
def offsetAfter (content : List (RecordBatch × List Bytes)) : ℕ :=
  (content.map fun b => b.1.count.toNat).sum

/-- The offset after all batches that were submitted. -/
def nextOffset (s : EngineStream) : ℕ :=
  offsetAfter s.content

/-- The message at an offset. -/
def messageAt : List (RecordBatch × List Bytes) → ℕ → Option Bytes
  | [], _ => none
  | (batch, messages) :: rest, offset =>
    if offset < batch.count.toNat then messages[offset]?
    else messageAt rest (offset - batch.count.toNat)

/-- The log refuses a record that is too long, and any other record is on its way. -/
def submit (s : EngineStream) (batch : RecordBatch) (messages : List Bytes) : EngineStream :=
  { s with log := s.log ++ [⟨batch, messages, if batch.Loggable then none else some false⟩] }

/-- The engine learns whether a batch is durable. A failure fences the handle. -/
def settle (s : EngineStream) (i : ℕ) (durable : Bool) : Option EngineStream :=
  match s.log[i]? with
  | some ⟨batch, messages, none⟩ =>
    let log := s.log.set i ⟨batch, messages, some durable⟩
    if durable then
      some { s with
        log
        confirmOffset :=
          max s.confirmOffset (offsetAfter (s.content.take i) + batch.count.toNat) }
    else some { s with log, operable := false }
  | _ => none

/-- Durability is no matter of the row. -/
theorem row_settle (s : EngineStream) {i : ℕ} {durable : Bool} {s' : EngineStream}
    (h : s.settle i durable = some s') :
  s'.row = s.row
  := by
  unfold settle at h
  split at h
  next =>
    simp only at h
    split at h
    · cases h
      rfl
    · cases h
      rfl
  next => cases h

/-- No append is on its way. -/
def idle (s : EngineStream) : Bool :=
  s.log.all fun b => b.outcome.isSome

/-- A new handle goes on after what is durable. -/
def reopen (s : EngineStream) : EngineStream :=
  let log := s.log.takeWhile fun b => b.outcome = some true
  { s with
    log
    confirmOffset := offsetAfter (s.content.take log.length)
    operable := true
    row := .opened
    epoch := s.epoch + 1 }

/-- What the engine returns for an offset, as many batches as it likes. -/
def fetch (s : EngineStream) (id : UInt64) (count start stop : ℕ) :
    Except String (List FetchedBatch) :=
  let ⟨_, first, last, _, _, _⟩ := s
  if !s.operable then .error s!"stream {id} closed"
  else if start < first ∨ stop > last then
    .error s!"stream {id} offset out of range: requested [{start},{stop}), valid [{first},{last})"
  else
    .ok (((layOut 0 (s.log.map Submitted.batch)).filter fun b =>
      start < b.lastOffset ∧ b.baseOffset < stop).take (count + 1))

end EngineStream

/-! ### The world -/

theorem lt_add_one_of_room {id : UInt64} (h : id + 1 ≠ 0) :
  id < id + 1
  := by
  rw [UInt64.lt_iff_toNat_lt, UInt64.toNat_add]
  have hne : (id + 1).toNat ≠ 0 := fun hzero => h (UInt64.toNat_inj.mp hzero)
  rw [UInt64.toNat_add] at hne
  have hlt := id.toNat_lt
  have hone : (1 : UInt64).toNat = 1 := rfl
  omega

/-- What the process of a node keeps of the name. -/
structure NodeState where
  /-- The task that holds the gate of the name. -/
  gate : Option ℕ := none
  tail : TailCache := .empty
  entryCache : Option RegistryEntry := none
  openStreams : List UInt64 := []
  /-- The task that holds the lock for opening streams. -/
  openLock : Option ℕ := none
  /-- The number of changes of the key that the published view has seen. -/
  seen : ℕ := 0

/-- An append whose messages were all submitted. -/
structure Applied where
  task : ℕ
  streamId : UInt64
  base : ℕ
  messages : List Bytes
  matchSeq : Option ℕ
deriving DecidableEq, Repr

/-- A record that a read took from the tail cache, and what the stream registered under the name has
at its offset. -/
structure Served where
  record : StreamRecord
  registered : Option Bytes
deriving DecidableEq, Repr

/-- An entry that `expire` has deleted, with the reading of the clock it was found expired at. -/
structure Expired where
  entry : RegistryEntry
  nowMs : Int64

/-- What has happened, for statements about runs. Nothing the service does depends on it. -/
structure Trace where
  applied : List Applied := []
  served : List Served := []
  expired : List Expired := []
  /-- The task that looks up the entry without the gate. -/
  looking : Option ℕ := none
  /-- A lookup without the gate has overlapped another access of the registry. -/
  clash : Bool := false
  /-- An append was recorded in the tail cache while its stream was not the registered one. -/
  late : Bool := false
  /-- `expire` has deleted an entry with another deadline than the one found expired. -/
  stale : Bool := false
  /-- A call that changes the key has failed or was not answered. -/
  failed : Bool := false
  /-- Such a call of `expire`, which goes on all the same. -/
  unanswered : Bool := false

/-- The metadata, the streams of the engine and the nodes. -/
structure World where
  /-- The values of the key of the name, one for every change, the oldest first. -/
  kvLog : List (Option RegistryEntry)
  streams : UInt64 → Option EngineStream
  nextStreamId : UInt64
  nodes : ℕ → NodeState
  trace : Trace

namespace World

/-- No stream was created and the name was never registered. -/
def new : World where
  kvLog := []
  streams := fun _ => none
  nextStreamId := 0
  nodes := fun _ => {}
  trace := {}

/-- The value of the key after a number of changes. -/
def kvAt (w : World) (n : ℕ) : Option RegistryEntry :=
  if n = 0 then none else (w.kvLog[n - 1]?).join

/-- The value of the key. -/
def kv (w : World) : Option RegistryEntry :=
  w.kvAt w.kvLog.length

def setNode (w : World) (n : ℕ) (f : NodeState → NodeState) : World :=
  { w with nodes := Function.update w.nodes n (f (w.nodes n)) }

def setStream (w : World) (id : UInt64) (stream : Option EngineStream) : World :=
  { w with streams := Function.update w.streams id stream }

/-- Storing what is there changes nothing. -/
theorem setStream_self {w : World} {id : UInt64} {s : EngineStream} (h : w.streams id = some s) :
  w.setStream id (some s) = w
  := by
  rw [setStream, ← h, Function.update_eq_self]

def setTrace (w : World) (f : Trace → Trace) : World :=
  { w with trace := f w.trace }

/-- The key changes. -/
def putKv (w : World) (value : Option RegistryEntry) : World :=
  { w with kvLog := w.kvLog ++ [value] }

/-- A node has seen all changes. -/
def catchUp (w : World) (n : ℕ) : World :=
  w.setNode n fun node => { node with seen := w.kvLog.length }

section

variable (w : World)

include w

@[simp]
theorem nodes_setNode (n : ℕ) (f : NodeState → NodeState) :
  (w.setNode n f).nodes n = f (w.nodes n)
  := Function.update_self ..

theorem nodes_setNode_of_ne {n m : ℕ} (h : n ≠ m) (f : NodeState → NodeState) :
  (w.setNode m f).nodes n = w.nodes n
  := Function.update_of_ne h ..

theorem gate_setNode {n : ℕ} {f : NodeState → NodeState}
    (h : (f (w.nodes n)).gate = (w.nodes n).gate) :
  ((w.setNode n f).nodes n).gate = (w.nodes n).gate
  := by
  rw [nodes_setNode, h]

@[simp]
theorem streams_setStream (id : UInt64) (s : Option EngineStream) :
  (w.setStream id s).streams id = s
  := Function.update_self ..

theorem streams_setStream_of_ne {id id' : UInt64} (h : id' ≠ id) (s : Option EngineStream) :
  (w.setStream id s).streams id' = w.streams id'
  := Function.update_of_ne h ..

@[simp]
theorem nodes_setTrace (f : Trace → Trace) :
  (w.setTrace f).nodes = w.nodes
  := rfl

@[simp]
theorem trace_setNode (n : ℕ) (f : NodeState → NodeState) :
  (w.setNode n f).trace = w.trace
  := rfl

@[simp]
theorem trace_setTrace (f : Trace → Trace) :
  (w.setTrace f).trace = f w.trace
  := rfl

/-- Views that have not seen a change keep what they show. -/
theorem kvAt_putKv (value : Option RegistryEntry) (j : ℕ) :
  (w.putKv value).kvAt j = if j = w.kvLog.length + 1 then value else w.kvAt j
  := by
  rcases j with _ | j
  · rfl
  · simp only [kvAt, putKv, Nat.add_sub_cancel, Nat.add_right_cancel_iff, Nat.succ_ne_zero,
      ite_false]
    split
    next heq => rw [heq, getElem?_concat_length, Option.join_some]
    next hne =>
      rcases Nat.lt_or_gt_of_ne hne with hlt | hgt
      · rw [getElem?_append_left hlt]
      · rw [getElem?_eq_none (by simp; omega), getElem?_eq_none (by omega)]

end

/-- What the stream registered under the name has at an offset. -/
def registeredAt (w : World) (offset : ℕ) : Option Bytes := do
  let entry ← w.kv
  let stream ← w.streams entry.streamId
  EngineStream.messageAt stream.content offset

end World

/-! ### Actions -/

/-- How a call ends. -/
inductive Reply where
  | answered
  /-- The call has taken effect but the caller gets an error. -/
  | lost
  | failed
deriving DecidableEq, Repr

structure Input where
  nowMs : Int64 := 0
  reply : Reply := .answered
  /-- The end offset of the stream in the view of the node. -/
  committedEnd : ℕ := 0
  /-- How many batches a fetch returns besides the first. -/
  batches : ℕ := 0
  /-- Whether a waiter is woken before its timeout. -/
  woken : Bool := true

/-- Programs of the service. -/
abbrev Op (α : Type) : Type 1 := Prog Input World ServiceError α

/-- Look at the state. -/
def look {α : Type} (f : World → α) : Op α :=
  perform fun _ w => some (w, .ok (f w))

/-- Change the state. -/
def change (f : World → World) : Op Unit :=
  perform fun _ w => some (f w, .ok ())

def clock : Op Int64 :=
  perform fun i w => some (w, .ok i.nowMs)

/-- A call that may fail, or take effect without an answer. -/
def callWith {α : Type} (effect : World → World) (seen : World → World) (value : World → α) :
    Op α :=
  perform fun i w =>
    match i.reply with
    | .answered => some (seen (effect w), .ok (value w))
    | .lost =>
      some ((effect w).setTrace fun t => { t with failed := true },
        .error (.ofEngine "no answer"))
    | .failed =>
      some (w.setTrace fun t => { t with failed := true }, .error (.ofEngine "failed"))

/-! ### The key -/

/-- The value in the published view of the node. -/
def getKv (n : ℕ) : Op (Option RegistryEntry) :=
  look fun w => w.kvAt (w.nodes n).seen

def putKv (n : ℕ) (entry : RegistryEntry) : Op Unit :=
  callWith (fun w => w.putKv (some entry)) (fun w => w.catchUp n) fun _ => ()

/-- The value that was deleted. -/
def delKv (n : ℕ) : Op (Option RegistryEntry) :=
  callWith (fun w => w.putKv none) (fun w => w.catchUp n) fun w => w.kv

/-- The value that is stored after it. -/
def putKvIfAbsent (n : ℕ) (entry : RegistryEntry) : Op RegistryEntry :=
  callWith (fun w => w.putKv (some (w.kv.getD entry))) (fun w => w.catchUp n)
    fun w => w.kv.getD entry

/-! ### The state of a node -/

/-- Wait for the gate. A lookup that is going on beside it is a clash. -/
def lockGate (n me : ℕ) : Op Unit :=
  perform fun _ w =>
    if (w.nodes n).gate.isNone then
      some ((w.setNode n fun node => { node with gate := some me }).setTrace fun t =>
        { t with clash := t.clash || t.looking.isSome }, .ok ())
    else none

def unlockGate (n : ℕ) : Op Unit :=
  change fun w => w.setNode n fun node => { node with gate := none }

/-- Run with the gate of the name held. -/
def withGate {α : Type} (n me : ℕ) (body : Op α) : Op α := do
  lockGate n me
  let result ← attempt body
  unlockGate n
  conclude result

/-- Mark the beginning of a lookup without the gate. -/
def startLooking (n me : ℕ) : Op Unit :=
  change fun w => w.setTrace fun t =>
    { t with
      looking := some me
      clash := t.clash || t.looking.isSome || (w.nodes n).gate.isSome }

def stopLooking : Op Unit :=
  change fun w => w.setTrace fun t => { t with looking := none }

/-- Run a lookup that is not protected by the gate. -/
def withoutGate {α : Type} (n me : ℕ) (body : Op α) : Op α := do
  startLooking n me
  let result ← attempt body
  stopLooking
  conclude result

def cachedEntry (n : ℕ) : Op (Option RegistryEntry) :=
  look fun w => (w.nodes n).entryCache

def cacheEntry (n : ℕ) (entry : Option RegistryEntry) : Op Unit :=
  change fun w => w.setNode n fun node => { node with entryCache := entry }

def resetTail (n : ℕ) : Op Unit :=
  change fun w => w.setNode n fun node => { node with tail := .empty }

/-- Record a durable append in the tail cache. -/
def recordAppend (n : ℕ) (streamId : UInt64) (base : ℕ) (messages : List Bytes) : Op Unit :=
  change fun w =>
    (w.setNode n fun node => { node with tail := node.tail.recordAppend base messages }).setTrace
      fun t => { t with late := t.late || w.kv.map RegistryEntry.streamId ≠ some streamId }

/-! ### Handles and streams -/

def hasHandle (n : ℕ) (id : UInt64) : Op Bool :=
  look fun w => id ∈ (w.nodes n).openStreams

def insertHandle (n : ℕ) (id : UInt64) : Op Unit :=
  change fun w => w.setNode n fun node => { node with openStreams := id :: node.openStreams }

def removeHandle (n : ℕ) (id : UInt64) : Op Unit :=
  change fun w => w.setNode n fun node =>
    { node with openStreams := node.openStreams.filter fun other => other ≠ id }

def lockOpen (n me : ℕ) : Op Unit :=
  perform fun _ w =>
    if (w.nodes n).openLock.isNone then
      some (w.setNode n fun node => { node with openLock := some me }, .ok ())
    else none

def unlockOpen (n : ℕ) : Op Unit :=
  change fun w => w.setNode n fun node => { node with openLock := none }

/-- Use the handle of a stream. -/
def onStream {α : Type} (id : UInt64) (f : EngineStream → Option (EngineStream × α)) : Op α :=
  perform fun _ w =>
    match w.streams id with
    | none => some (w, .error (.ofEngine s!"stream {id} does not exist"))
    | some s => (f s).map fun (s, a) => (w.setStream id (some s), .ok a)

/-- A command for the row of a stream. -/
def onRow (id : UInt64) (f : EngineStream → Except String EngineStream) : Op Unit :=
  perform fun i w =>
    match w.streams id with
    | none => some (w, .error (.ofEngine s!"stream {id} does not exist"))
    | some s =>
      match f s, i.reply with
      | .error e, _ => some (w, .error (.ofEngine e))
      | .ok s, .answered => some (w.setStream id (some s), .ok ())
      | .ok s, .lost => some (w.setStream id (some s), .error (.ofEngine "no answer"))
      | .ok _, .failed => some (w, .error (.ofEngine "failed"))

/-- `OpenStream`: only a stream whose row is closed is opened at a new epoch. -/
def openStream (id : UInt64) : Op Unit :=
  onRow id fun s =>
    match s.row with
    | .opened => .error s!"stream {id} not closed"
    | .closed => .ok s.reopen
    | .deleted => .error s!"stream {id} does not exist"

/-- `CreateStream` and `OpenStream`. Nothing goes on when the ids are used up. -/
def createStream : Op UInt64 :=
  perform fun i w =>
    let id := w.nextStreamId
    let created := { w.setStream id (some .new) with nextStreamId := id + 1 }
    if id + 1 = 0 then none
    else
      match i.reply with
      | .answered => some (created, .ok id)
      | .lost => some (created, .error (.ofEngine "no answer"))
      | .failed => some (w, .error (.ofEngine "failed"))

/-- The handle takes no more requests. -/
def closeHandle (id : UInt64) : Op Unit :=
  onStream id fun s => some ({ s with operable := false }, ())

/-- Wait for the appends on their way. -/
def waitIdle (id : UInt64) : Op Unit :=
  onStream id fun s => if s.idle then some (s, ()) else none

/-- `CloseStream`, after everything durable is uploaded. -/
def closeRow (id : UInt64) : Op Unit :=
  onRow id fun s =>
    match s.row with
    | .opened | .closed => .ok { s with row := .closed }
    | .deleted => .error s!"stream {id} does not exist"

/-- A deleted row stays as a mark. -/
def deleteRow (id : UInt64) : Op Unit :=
  onRow id fun s => .ok { s with row := .deleted }

/-- Close a stream: no more requests, then the row. -/
def closeStream (id : UInt64) : Op Unit := do
  closeHandle id
  waitIdle id
  closeRow id

/-- Destroy a stream: close it and delete its row. -/
def destroy (id : UInt64) : Op Unit := do
  closeStream id
  deleteRow id

end Service
