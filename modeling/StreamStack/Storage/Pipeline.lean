import StreamStack.Storage.LogCache

/-!
# The storage pipeline

Appends of streams go to the write-ahead log. When the log confirms a record, the confirm hook puts
it into the log cache and may seal the active block. Sealed blocks are submitted for upload, and an
upload task goes through three stages: one worker prepares tasks in the order of submission, they
are uploaded concurrently, and one worker commits them in the order of preparation. A commit
advances the end offsets in the metadata and is followed by trimming the log up to the last record
confirmed before the block was sealed.

Every stage is a step of its own and may fail, and steps of all tasks interleave freely. Closing a
stream is part of the system: it waits for pending appends, forces the upload of what is buffered
and then closes the stream in the metadata.
-/

namespace Storage

open OrdMap

/-! ### Tasks -/

/-- An upload task: the block it uploads, and the results of the upload and of the task. -/
structure TaskContext where
  block : LogCacheBlock
  uploadDone : Option Bool := none
  cf : Option Bool := none
deriving DecidableEq

/-- The range of a stream that the upload of a block commits. -/
structure CommitRange where
  streamId : Nat
  startOffset : Nat
  endOffset : Nat
deriving DecidableEq, Repr

/-- The range of the batches of one stream. There is none for an empty list: the upload would
panic. -/
def commitRange (e : Nat × List StreamRecordBatch) : Option CommitRange := do
  let first ← e.2.head?
  let last ← e.2.getLast?
  return ⟨e.1, first.baseOffset, last.lastOffset⟩

/-- The ranges of a task, over the stream-set object and the stream objects together. -/
def commitRanges (b : LogCacheBlock) : Option (List CommitRange) := b.records.mapM commitRange

/-- A stream's row in the metadata. -/
structure Row where
  endOffset : Nat
  opened : Bool
deriving DecidableEq, Repr

/-- A range is accepted where the stream ends. -/
def advanceEndOffset (rows : OrdMap Nat Row) (range : CommitRange) : Option (OrdMap Nat Row) :=
  match rows[range.streamId]? with
  | none => none
  | some row =>
    if row.endOffset = range.startOffset then
      some (rows.insert range.streamId { row with endOffset := range.endOffset })
    else none

/-- A commit is atomic: all ranges are accepted, or nothing changes. -/
def commitStreamSetObject (rows : OrdMap Nat Row) (b : LogCacheBlock) : Option (OrdMap Nat Row) :=
  (commitRanges b).bind fun ranges => ranges.foldlM advanceEndOffset rows

/-! ### The state -/

/-- What a call makes of a request: it answers, fails without an effect, or takes effect and the
answer is lost. -/
inductive Reply where
  | answered
  | failed
  | lost
deriving DecidableEq, Repr

/-- Where the confirm hook stands after a record: done, with a block to submit, about to seal once
more because the record was not added, or with the block of that to submit. -/
inductive Hook where
  | idle
  | submitting (r : StreamRecordBatch) (added : Bool)
  | retry (r : StreamRecordBatch)
  | resubmitting (r : StreamRecordBatch)
deriving DecidableEq

/-- Where the closing of a stream stands. -/
inductive Closing where
  | no
  | draining
  | sealing
  | submitting
  | collecting
  | waiting (tasks : List Nat)
  | finishing
  | returned (ok : Bool)
deriving DecidableEq, Repr

/-- An open stream. Admitted appends have passed the check of the status but have not been
submitted; pending appends are all that have not completed. -/
structure S3Stream where
  nextOffset : Nat
  operable : Bool := true
  admitted : Nat := 0
  pending : Nat := 0
  closing : Closing := .no
deriving DecidableEq, Repr

/-- Where the commit worker stands: waiting, or with a task whose commit call has returned. -/
inductive CommitWorker where
  | idle
  | returned (task : Nat) (ok : Bool)
deriving DecidableEq, Repr

/-- Who submits a sealed block. -/
inductive Owner where
  | hook
  | close (streamId : Nat)
  | upload
deriving DecidableEq, Repr

/-- The node. The offsets of the log are positions in it: the confirmed records stand with their
offsets, latest first. Blocks that were sealed and not submitted yet stand in the order of sealing,
with who has to submit them. Offsets to trim at are kept until the log is asked to, and after. -/
structure Sys where
  cache : LogCache
  streams : OrdMap Nat S3Stream := ∅
  rows : OrdMap Nat Row := ∅
  wal : List StreamRecordBatch := []
  walNext : Nat := 0
  hook : Hook := .idle
  confirmed : List (Nat × StreamRecordBatch) := []
  durable : List StreamRecordBatch := []
  acked : List StreamRecordBatch := []
  unsubmitted : List (Owner × LogCacheBlock) := []
  tasks : OrdMap Nat TaskContext := ∅
  inflight : List Nat := []
  prepareQueue : List Nat := []
  commitQueue : List Nat := []
  commitWorker : CommitWorker := .idle
  poisoned : Bool := false
  trims : List Nat := []
  trimmed : List Nat := []
deriving DecidableEq

inductive Action where
  | openStream (streamId : Nat)
  | startAppend (streamId : Nat)
  | append (streamId count : Nat) (payload : List UInt8)
  | walFail (i : Nat)
  | confirm
  | hookRetry
  | ack (i : Nat)
  | upload (streamId : Nat)
  | submit (i : Nat)
  | prepare (ok : Bool)
  | uploaded (task : Nat) (ok : Bool)
  | removeInflight (task : Nat)
  | commit (reply : Reply)
  | commitDone
  | trim (i : Nat)
  | close (streamId : Nat)
  | drained (streamId : Nat)
  | closeSeal (streamId : Nat)
  | collect (streamId : Nat)
  | awaitTask (streamId : Nat)
  | closeStream (streamId : Nat) (reply : Reply)
deriving DecidableEq, Repr

/-! ### Appends -/

/-- A count as a signed 32-bit integer. -/
def asI32 (n : Nat) : Int := if n < 2147483648 then n else n - 4294967296

namespace Sys

variable (sys : Sys)

def setStream (streamId : Nat) (stream : S3Stream) : Sys :=
  { sys with streams := sys.streams.insert streamId stream }

/-- An append of a stream has completed, with or without an error. -/
def completeAppend (streamId : Nat) (ok : Bool) : Sys :=
  match sys.streams[streamId]? with
  | none => sys
  | some stream => sys.setStream streamId { stream with
      pending := stream.pending - 1
      operable := stream.operable && ok }

/-- A new stream is created and opened. -/
def openStream (streamId : Nat) : Option Sys :=
  match sys.rows[streamId]? with
  | some _ => none
  | none => some { sys with
      rows := sys.rows.insert streamId ⟨0, true⟩
      streams := sys.streams.insert streamId { nextOffset := 0 } }

/-- An append is counted before the status is checked. -/
def startAppend (streamId : Nat) : Option Sys := do
  let stream ← sys.streams[streamId]?
  if stream.operable then
    return sys.setStream streamId { stream with
      admitted := stream.admitted + 1
      pending := stream.pending + 1 }
  else none

/-- An admitted append takes the next offsets and enters the log. -/
def append (streamId count : Nat) (payload : List UInt8) : Option Sys := do
  let stream ← sys.streams[streamId]?
  if 0 < stream.admitted ∧ count < 4294967296 then
    let r : StreamRecordBatch := ⟨streamId, stream.nextOffset, asI32 count, payload⟩
    return { sys with wal := sys.wal ++ [r] }.setStream streamId { stream with
      nextOffset := stream.nextOffset + count
      admitted := stream.admitted - 1 }
  else none

/-- The log refuses a record or fails to store it. -/
def walFail (i : Nat) : Option Sys := do
  let r ← sys.wal[i]?
  return { sys with wal := sys.wal.eraseIdx i }.completeAppend r.streamId false

/-! ### The confirm hook -/

/-- The hook is done with a record, and its append can complete. -/
def hookDone (r : StreamRecordBatch) : Sys :=
  { sys with hook := .idle, durable := sys.durable ++ [r] }

/-- Put a record into the cache. When it is refused, the active block is sealed and the record is
put into the next one. The cache then notes the record as the last one. -/
def putConfirmed (cache : LogCache) (r : StreamRecordBatch) (offset : Nat) :
    LogCache × Option LogCacheBlock × Bool :=
  let (cache, added) := cache.put r
  if added then (cache.setLastRecordOffset offset, none, true)
  else
    let (archived, cache) := cache.archiveCurrentBlockIfContains matchAllStreams
    let (cache, added) := cache.put r
    (cache.setLastRecordOffset offset, archived, added)

/-- The log confirms its next record. -/
def confirm : Option Sys :=
  match sys.hook, sys.wal with
  | .idle, r :: wal =>
    let (cache, archived, added) := putConfirmed sys.cache r sys.walNext
    let sys := { sys with
      cache
      wal
      walNext := sys.walNext + 1
      confirmed := (sys.walNext, r) :: sys.confirmed }
    match archived, added with
    | some block, added => some { sys with
        hook := .submitting r added
        unsubmitted := sys.unsubmitted ++ [(.hook, block)] }
    | none, true => some (sys.hookDone r)
    | none, false => some { sys with hook := .retry r }
  | _, _ => none

/-- A record that was not added makes the hook seal the active block. -/
def hookRetry : Option Sys :=
  match sys.hook with
  | .retry r =>
    match sys.cache.archiveCurrentBlockIfContains matchAllStreams with
    | (some block, cache) => some { sys with
        cache
        hook := .resubmitting r
        unsubmitted := sys.unsubmitted ++ [(.hook, block)] }
    | (none, cache) => some ({ sys with cache }.hookDone r)
  | _ => none

/-- A durable append is acknowledged. -/
def ack (i : Nat) : Option Sys := do
  let r ← sys.durable[i]?
  return { sys with
    durable := sys.durable.eraseIdx i
    acked := r :: sys.acked }.completeAppend r.streamId true

/-! ### Uploads -/

/-- A forced or lazy upload seals the active block. -/
def upload (streamId : Nat) : Option Sys :=
  match sys.cache.archiveCurrentBlockIfContains streamId with
  | (some block, cache) => some { sys with
      cache
      unsubmitted := sys.unsubmitted ++ [(.upload, block)] }
  | (none, cache) => some { sys with cache }

/-- The owner of a block goes on after it has submitted it. -/
def submitted : Owner → Sys
  | .upload => sys
  | .close streamId =>
    match sys.streams[streamId]? with
    | some stream => sys.setStream streamId { stream with closing := .collecting }
    | none => sys
  | .hook =>
    match sys.hook with
    | .submitting r true => sys.hookDone r
    | .submitting r false => { sys with hook := .retry r }
    | .resubmitting r => sys.hookDone r
    | _ => sys

/-- A sealed block becomes a task. -/
def submit (i : Nat) : Option Sys := do
  let (owner, block) ← sys.unsubmitted[i]?
  return { sys with
    unsubmitted := sys.unsubmitted.eraseIdx i
    tasks := sys.tasks.insert block.blockId { block }
    inflight := sys.inflight ++ [block.blockId]
    prepareQueue := sys.prepareQueue ++ [block.blockId] }.submitted owner

/-- A task is over, with or without an error. -/
def completeTask (id : Nat) (ok : Bool) : Sys :=
  match sys.tasks[id]? with
  | none => sys
  | some task => { sys with tasks := sys.tasks.insert id { task with cf := some ok } }

/-- A task that is over leaves the set of those in flight. This comes after its result is known,
and others may look at the set in between. -/
def removeInflight (id : Nat) : Option Sys := do
  let task ← sys.tasks[id]?
  if task.cf.isSome then
    return { sys with inflight := sys.inflight.filter fun t => t ≠ id }
  else none

def prepare (ok : Bool) : Option Sys :=
  match sys.prepareQueue with
  | [] => none
  | id :: queue =>
    let sys := { sys with prepareQueue := queue }
    if ok then some { sys with commitQueue := sys.commitQueue ++ [id] }
    else some (sys.completeTask id false)

/-- A prepared task is uploaded, or its upload fails. -/
def uploaded (id : Nat) (ok : Bool) : Option Sys := do
  let task ← sys.tasks[id]?
  if id ∈ sys.commitQueue ∧ task.uploadDone = none ∧ (ok → (commitRanges task.block).isSome) then
    return { sys with tasks := sys.tasks.insert id { task with uploadDone := some ok } }
  else none

/-- The commit worker takes the next task. After a failure it gives up every task. -/
def commit (reply : Reply) : Option Sys :=
  match sys.commitWorker, sys.commitQueue with
  | .idle, id :: queue => do
      let task ← sys.tasks[id]?
      let sys := { sys with commitQueue := queue }
      if sys.poisoned then return sys.completeTask id false
      else
        let uploaded ← task.uploadDone
        if uploaded then
          match commitStreamSetObject sys.rows task.block, reply with
          | some rows, .answered => return { sys with rows, commitWorker := .returned id true }
          | some rows, .lost => return { sys with rows, commitWorker := .returned id false }
          | _, _ => return { sys with commitWorker := .returned id false }
        else return { sys with commitWorker := .returned id false }
  | _, _ => none

/-- After a commit the log is to be trimmed and the block is free. A failed commit poisons the
worker. -/
def commitDone : Option Sys :=
  match sys.commitWorker with
  | .idle => none
  | .returned id ok => do
      let task ← sys.tasks[id]?
      let sys := { sys with commitWorker := .idle }
      if ok then
        return { sys with
          trims := sys.trims ++ task.block.lastRecordOffset.toList
          cache := sys.cache.markFree id }.completeTask id true
      else return { sys with poisoned := true }.completeTask id false

/-- An offset is handed to the log. -/
def trim (i : Nat) : Option Sys := do
  let offset ← sys.trims[i]?
  return { sys with trims := sys.trims.eraseIdx i, trimmed := offset :: sys.trimmed }

/-! ### Closing a stream -/

/-- A step of a closing, given what the stream is in. -/
def closeStep (streamId : Nat) (f : S3Stream → Option Sys) : Option Sys :=
  (sys.streams[streamId]?).bind f

def close (streamId : Nat) : Option Sys := sys.closeStep streamId fun stream =>
  if stream.closing = .no then
    some (sys.setStream streamId { stream with operable := false, closing := .draining })
  else none

def drained (streamId : Nat) : Option Sys := sys.closeStep streamId fun stream =>
  if stream.closing = .draining ∧ stream.pending = 0 then
    some (sys.setStream streamId { stream with closing := .sealing })
  else none

def closeSeal (streamId : Nat) : Option Sys := sys.closeStep streamId fun stream =>
  if stream.closing = .sealing then
    match sys.cache.archiveCurrentBlockIfContains streamId with
    | (some block, cache) => some ({ sys with
        cache
        unsubmitted := sys.unsubmitted ++ [(Owner.close streamId, block)] }.setStream streamId
          { stream with closing := .submitting })
    | (none, cache) =>
      some ({ sys with cache }.setStream streamId { stream with closing := .collecting })
  else none

/-- The tasks in flight that hold the stream. -/
def waits (streamId : Nat) : List Nat :=
  sys.inflight.filter fun id =>
    (sys.tasks[id]?).any fun task => task.block.containsStream streamId

def collect (streamId : Nat) : Option Sys := sys.closeStep streamId fun stream =>
  if stream.closing = .collecting then
    some (sys.setStream streamId { stream with closing := .waiting (sys.waits streamId) })
  else none

/-- Wait for the tasks one after the other; the first error ends the closing. -/
def awaitTask (streamId : Nat) : Option Sys := sys.closeStep streamId fun stream =>
  match stream.closing with
  | .waiting [] => some (sys.setStream streamId { stream with closing := .finishing })
  | .waiting (id :: ids) =>
    match (sys.tasks[id]?).bind TaskContext.cf with
    | some true => some (sys.setStream streamId { stream with closing := .waiting ids })
    | some false => some (sys.setStream streamId { stream with closing := .returned false })
    | none => none
  | _ => none

def closeRow (streamId : Nat) : Sys :=
  match sys.rows[streamId]? with
  | some row => { sys with rows := sys.rows.insert streamId { row with opened := false } }
  | none => sys

def closeStream (streamId : Nat) (reply : Reply) : Option Sys :=
  sys.closeStep streamId fun stream =>
    if stream.closing = .finishing then
      let done (ok : Bool) := { stream with closing := .returned ok }
      match reply with
      | .answered => some ((sys.closeRow streamId).setStream streamId (done true))
      | .failed => some (sys.setStream streamId (done false))
      | .lost => some ((sys.closeRow streamId).setStream streamId (done false))
    else none

end Sys

/-! ### Runs -/

def step (sys : Sys) : Action → Option Sys
  | .openStream streamId => sys.openStream streamId
  | .startAppend streamId => sys.startAppend streamId
  | .append streamId count payload => sys.append streamId count payload
  | .walFail i => sys.walFail i
  | .confirm => sys.confirm
  | .hookRetry => sys.hookRetry
  | .ack i => sys.ack i
  | .upload streamId => sys.upload streamId
  | .submit i => sys.submit i
  | .prepare ok => sys.prepare ok
  | .uploaded task ok => sys.uploaded task ok
  | .removeInflight task => sys.removeInflight task
  | .commit reply => sys.commit reply
  | .commitDone => sys.commitDone
  | .trim i => sys.trim i
  | .close streamId => sys.close streamId
  | .drained streamId => sys.drained streamId
  | .closeSeal streamId => sys.closeSeal streamId
  | .collect streamId => sys.collect streamId
  | .awaitTask streamId => sys.awaitTask streamId
  | .closeStream streamId reply => sys.closeStream streamId reply

def run (sys : Sys) (actions : List Action) : Option Sys := actions.foldlM step sys

/-- A node that has just started. -/
def Sys.start (capacity cacheBlockMaxSize maxCacheBlockStreamCount : Nat) : Sys where
  cache := .new capacity (max cacheBlockMaxSize 1) maxCacheBlockStreamCount

/-- A batch of one record is appended to a stream, confirmed and acknowledged. -/
def appendRun (streamId : Nat) : List Action :=
  [.startAppend streamId, .append streamId 1 [7], .confirm, .ack 0]

end Storage
