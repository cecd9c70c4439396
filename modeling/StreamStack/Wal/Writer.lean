import StreamStack.Wal.Recover

/-!
# The log writer

Records are submitted to the active bulk. A bulk is sealed when it is full, when its timer fires, on
a flush and on closing; sealing fixes the window of offsets of the bulk, which ends at the next
multiple of 64 MiB. Sealed bulks wait for an upload slot and are uploaded concurrently, each as one
object whose header carries the trim offset at the time the object is built. One callback loop takes
the bulks whose uploads have returned from the front of the queue, checks the reservation, and
acknowledges or fails their records. An upload that fails and a check that fails fence the writer.

Trimming stores the trim offset, appends a record of its own so that an object with the new trim
offset becomes durable, and then deletes the objects that are covered. The most recent object that
was uploaded is kept, and so is the last object of the previous run unless objects of this run are
deleted.

Every stage is a step of its own and steps interleave freely: the effect of an upload on the storage
and its return to the writer are separate, and objects are deleted one after the other. Offsets stay
below `2 ^ 63`.
-/

namespace Wal

open OrdMap

/-! ### Alignment -/

def dataFileAlignSize : Nat := 64 * 1024 * 1024

def ceilAlignOffset (offset : Nat) : Nat :=
  (offset + (dataFileAlignSize - 1)) / dataFileAlignSize * dataFileAlignSize

/-! ### Storage -/

/-- The epoch, the start and the end offset of an object, which make up its path. -/
abbrev ObjectKey : Type := Nat × Nat × Nat

instance transOrdObjectKey : Std.TransOrd ObjectKey := inferInstance

abbrev Store : Type := OrdMap ObjectKey ObjectData

def ObjectData.size (o : ObjectData) : Nat := o.header.size + (o.frames.map Frame.size).sum

/-- An object in a listing. -/
def listing (e : ObjectKey × ObjectData) : WalObject := ⟨e.1.1, e.1.2.1, e.1.2.2, e.2.size⟩

def WalObject.key (o : WalObject) : ObjectKey := (o.epoch, o.startOffset, o.endOffset)

/-- All objects of the log. -/
def Store.list (store : Store) : List WalObject := store.toList.map listing

/-! ### Bulks -/

structure ObjectWalConfig where
  nodeId : Nat
  epoch : Nat
  maxBytesInBatch : Nat
  maxInflightUploadCount : Nat
  recoveryMode : Bool := false
deriving DecidableEq, Repr

/-- A record that was submitted. -/
structure PendingRecord where
  id : Nat
  record : StreamRecordBatch
deriving DecidableEq, Repr

/-- The size of the record with its frame header. -/
def PendingRecord.size (r : PendingRecord) : Nat :=
  r.record.encoded.length + walRecordHeaderSize

structure Bulk where
  seq : Nat
  baseOffset : Nat
  size : Nat
  records : List PendingRecord
deriving DecidableEq, Repr

namespace Bulk

def endOffset (b : Bulk) : Nat := b.baseOffset + b.size

/-- The end of the window of the bulk. -/
def endOffsetAligned (b : Bulk) : Nat := ceilAlignOffset b.endOffset

/-- The order of records in the object: by stream, then by base offset. -/
def le (a b : PendingRecord) : Bool :=
  a.record.streamId < b.record.streamId ∨
    (a.record.streamId = b.record.streamId ∧ a.record.baseOffset ≤ b.record.baseOffset)

def sorted (b : Bulk) : List PendingRecord := b.records.mergeSort le

/-- Records one after the other, from an offset on. -/
def framesFrom : Nat → List PendingRecord → List Frame
  | _, [] => []
  | offset, r :: rest => ⟨offset, r.record⟩ :: framesFrom (offset + r.size) rest

def frames (b : Bulk) : List Frame := framesFrom b.baseOffset b.sorted

/-- The object of the bulk. -/
def object (config : ObjectWalConfig) (trimOffset : Int) (b : Bulk) : ObjectData where
  header := .v1 b.baseOffset (b.records.map PendingRecord.size).sum config.nodeId config.epoch
    trimOffset
  frames := b.frames

def key (config : ObjectWalConfig) (b : Bulk) : ObjectKey :=
  (config.epoch, b.baseOffset,
    ceilAlignOffset (b.baseOffset + (b.records.map PendingRecord.size).sum))

/-- The offset of the last record of the object. -/
def lastRecordOffset (b : Bulk) : Nat := (b.frames.getLast?).elim b.baseOffset Frame.offset

end Bulk

/-! ### The writer -/

/-- Where the upload of a bulk stands: not started, on its way, returned. -/
inductive Upload where
  | spawned
  | putting (object : ObjectData)
  | done (object : ObjectData) (ok : Bool)
deriving DecidableEq, Repr

def Upload.isDone : Upload → Bool
  | .done _ _ => true
  | _ => false

structure UploadingBulk where
  bulk : Bulk
  upload : Upload := .spawned
deriving DecidableEq, Repr

/-- Where the callback loop stands: idle, checking the reservation for some bulks, done with that,
or completing them. -/
inductive Callback where
  | idle
  | verifying (bulks : List UploadingBulk)
  | verified (bulks : List UploadingBulk)
  | completing (fenced : Bool) (bulks : List UploadingBulk)
deriving DecidableEq, Repr

/-- Where a trim stands: about to append its record, waiting for it, failed, or past the point where
it has fixed the objects to delete. -/
inductive TrimStage where
  | appending
  | waiting (id : Nat)
  | failed
  | deleting
deriving DecidableEq, Repr

/-- A trim that has stored its offset. The number of bulks that were sealed then is kept. -/
structure Trim where
  offset : Int
  mark : Nat
  stage : TrimStage := .appending
deriving DecidableEq, Repr

/-- What happens to bulks: an upload returns without an error, the reservation check succeeds, the
records of a bulk are acknowledged. -/
inductive Event where
  | put (seq : Nat)
  | checked
  | acked (seq : Nat)
deriving DecidableEq, Repr

/-- The writer. The bulks that were sealed, the events and the acknowledged records are kept in
order, and so are the records that were passed to the confirm callback with their offsets, those
that were failed, the objects that trims have fixed for deletion, and those that were dropped at the
start because they overlap others. -/
structure Writer where
  config : ObjectWalConfig
  nextOffset : Nat := 0
  flushedOffset : Nat := 0
  trimOffset : Int := trimOffsetNone
  closed : Bool := true
  fenced : Bool := false
  bulkSeq : Nat := 0
  active : Option Bulk := none
  waiting : List Bulk := []
  uploading : List UploadingBulk := []
  callback : Callback := .idle
  previousObjects : List WalObject := []
  lastRecordOffsetToObject : OrdMap Nat WalObject := ∅
  trims : List Trim := []
  nextId : Nat := 0
  sealed : List Bulk := []
  events : List Event := []
  acked : List PendingRecord := []
  failed : List PendingRecord := []
  confirms : List (Nat × StreamRecordBatch) := []
  deletes : List (Int × ObjectKey) := []
  overlaps : List ObjectKey := []

inductive Action where
  | submit (record : StreamRecordBatch)
  | flush
  | upload
  | build (seq : Nat)
  | land (seq : Nat)
  | putDone (seq : Nat) (ok : Bool)
  | collect
  | verify (ok : Bool)
  | decide
  | complete
  | trim (offset : UInt64)
  | reset
  | trimAppend (i : Nat) (ok : Bool)
  | trimDelete (i : Nat)
  | delete (key : ObjectKey)
  | close
deriving DecidableEq, Repr

namespace Writer

variable (w : Writer)

/-- Start on a listing of the log. A log that a newer epoch has written to fences the writer. -/
def start (config : ObjectWalConfig) (listed : List WalObject) : Writer :=
  let (objects, overlap) := skipOverlapObjects (parseWalObjects listed)
  let overlaps := overlap.map WalObject.key
  match objects.getLast? with
  | none => { config, overlaps, closed := false }
  | some last =>
    if last.epoch > config.epoch then { config, overlaps, fenced := true }
    else
      { config
        overlaps
        closed := false
        previousObjects := objects
        flushedOffset := last.endOffset
        nextOffset := last.endOffset }

def checkStatus : Bool := !w.closed && !w.fenced

def newActiveBulk : Writer :=
  { w with
    bulkSeq := w.bulkSeq + 1
    active := some ⟨w.bulkSeq + 1, w.nextOffset, 0, []⟩ }

/-- Seal the active bulk, if there is one. -/
def sealActive : Option Writer :=
  match w.active with
  | none => some w
  | some bulk =>
    let next := ceilAlignOffset (w.nextOffset + bulk.size)
    if next < 2 ^ 63 then
      some { w with
        active := none
        nextOffset := next
        waiting := w.waiting ++ [bulk]
        sealed := w.sealed ++ [bulk] }
    else none

/-- There is an active bulk that has room for a record. -/
def makeRoom (size : Nat) : Option Writer :=
  match w.active with
  | none => some w.newActiveBulk
  | some bulk =>
    if size + bulk.size > dataFileAlignSize then w.sealActive.map newActiveBulk else some w

/-- Put a record into the active bulk. -/
def push (r : PendingRecord) : Writer :=
  { w with
    nextId := w.nextId + 1
    active := w.active.map fun bulk =>
      { bulk with size := bulk.size + r.size, records := bulk.records ++ [r] } }

/-- The active bulk is sealed when it is full, and after each record in recovery mode. -/
def sealFull : Option Writer :=
  match w.active with
  | none => some w
  | some bulk =>
    if bulk.size > w.config.maxBytesInBatch ∨ w.config.recoveryMode then w.sealActive else some w

/-- A record is accepted. Errors leave the writer as it is. -/
def submit (record : StreamRecordBatch) : Option Writer :=
  let r : PendingRecord := ⟨w.nextId, record⟩
  if w.checkStatus ∧ r.size ≤ dataFileAlignSize then do
    let w ← w.makeRoom r.size
    (w.push r).sealFull
  else none

/-- A bulk gets an upload slot. -/
def upload : Option Writer :=
  match w.waiting with
  | [] => none
  | bulk :: waiting =>
    if w.uploading.length < w.config.maxInflightUploadCount then
      some { w with waiting, uploading := w.uploading ++ [{ bulk }] }
    else none

/-- The bulk that an upload task works on. -/
def find (seq : Nat) : Option UploadingBulk := w.uploading.find? fun u => u.bulk.seq = seq

def setUpload (seq : Nat) (upload : Upload) : Writer :=
  { w with
    uploading := w.uploading.map fun u => if u.bulk.seq = seq then { u with upload } else u }

/-- The upload task builds the object. -/
def build (seq : Nat) : Option Writer := do
  let u ← w.find seq
  if u.upload = .spawned then
    some (w.setUpload seq (.putting (u.bulk.object w.config w.trimOffset)))
  else none

/-- The callback loop takes the bulks whose uploads have returned from the front of the queue. -/
def collect : Option Writer :=
  let completed := w.uploading.takeWhile fun u => u.upload.isDone
  if w.callback = .idle ∧ completed ≠ [] then
    some { w with
      uploading := w.uploading.dropWhile fun u => u.upload.isDone
      callback := .verifying completed }
  else none

def verify (ok : Bool) : Option Writer :=
  match w.callback with
  | .verifying bulks =>
    some { w with
      fenced := w.fenced || !ok
      callback := .verified bulks
      events := if ok then w.events ++ [.checked] else w.events }
  | _ => none

/-- The fenced flag is read once for all bulks. -/
def decide : Option Writer :=
  match w.callback with
  | .verified bulks => some { w with callback := .completing w.fenced bulks }
  | _ => none

/-- The records of a bulk are acknowledged in the order of their offsets; those of trimming are not
passed to the confirm callback. -/
def complete : Option Writer :=
  match w.callback with
  | .completing true (u :: bulks) =>
    some { w with
      callback := .completing true bulks
      failed := w.failed ++ u.bulk.sorted }
  | .completing false (u :: bulks) =>
    some { w with
      callback := .completing false bulks
      flushedOffset := u.bulk.endOffsetAligned
      events := w.events ++ [.acked u.bulk.seq]
      acked := w.acked ++ u.bulk.sorted
      confirms := w.confirms ++ (u.bulk.frames.filter fun f =>
        f.record.streamId ≠ trimRecordSentinel).map fun f => (f.offset, f.record) }
  | .completing _ [] => some { w with callback := .idle }
  | _ => none

/-- A trim stores its offset, unless the log is trimmed there already. -/
def trim0 (offset : Int) : Option Writer :=
  if w.checkStatus ∧ w.trimOffset < offset then
    some { w with
      trimOffset := offset
      trims := w.trims ++ [⟨offset, w.sealed.length, .appending⟩] }
  else none

def reset : Option Writer :=
  if w.nextOffset = 0 then none else w.trim0 (w.nextOffset - 1)

/-- The record that a trim appends. -/
def fakeRecord : StreamRecordBatch := ⟨trimRecordSentinel, trimRecordSentinel, 0, 0, []⟩

def setTrim (i : Nat) (trim : Trim) : Writer := { w with trims := w.trims.set i trim }

/-- A trim appends its record, or fails to. -/
def trimAppend (i : Nat) (ok : Bool) : Option Writer := do
  let trim ← w.trims[i]?
  if trim.stage = .appending then
    if ok then do
      let w' ← w.submit fakeRecord
      some (w'.setTrim i { trim with stage := .waiting w.nextId })
    else some (w.setTrim i { trim with stage := .failed })
  else none

/-- The objects of this run whose last record is covered, without the most recent one. -/
def coveredObjects (offset : Int) : List (Nat × WalObject) :=
  let objects := w.lastRecordOffsetToObject.toList
  objects.filter fun e =>
    (e.1 : Int) ≤ max offset 0 ∧ (objects.getLast?).any fun last => last.1 ≠ e.1

/-- The objects of the previous run that are covered. The last one is kept when there is nothing
else to delete. -/
def coveredPrevious (offset : Int) (skipTheLastObject : Bool) : List WalObject :=
  (w.previousObjects.take (w.previousObjects.length - if skipTheLastObject then 1 else 0)).takeWhile
    fun o => (o.endOffset : Int) ≤ offset

/-- A trim whose record was acknowledged fixes the objects to delete. -/
def trimDelete (i : Nat) : Option Writer := do
  let trim ← w.trims[i]?
  match trim.stage with
  | .waiting id =>
    if id ∈ w.acked.map PendingRecord.id then
      let covered := w.coveredObjects trim.offset
      let previous := w.coveredPrevious trim.offset covered.isEmpty
      some { w.setTrim i { trim with stage := .deleting } with
        lastRecordOffsetToObject :=
          covered.foldl (fun objects e => objects.erase e.1) w.lastRecordOffsetToObject
        previousObjects := w.previousObjects.drop previous.length
        deletes := w.deletes ++
          (covered.map Prod.snd ++ previous).map fun o => (trim.offset, o.key) }
    else if id ∈ w.failed.map PendingRecord.id then
      some (w.setTrim i { trim with stage := .failed })
    else none
  | _ => none

end Writer

/-! ### The system -/

/-- A writer on a storage. The objects that were acknowledged, and whether any object was ever
written, are kept over restarts. -/
structure Sys where
  store : Store
  writer : Writer
  acknowledged : List ObjectKey := []
  written : Bool := false

namespace Sys

variable (sys : Sys)

def setWriter (w : Writer) : Sys := { sys with writer := w }

/-- An upload takes effect. -/
def land (seq : Nat) : Option Sys := do
  let u ← sys.writer.find seq
  match u.upload with
  | .putting object =>
    some { sys with
      store := sys.store.insert (u.bulk.key sys.writer.config) object
      written := true }
  | _ => none

/-- An upload returns. One that returns without an error has taken effect; an error fences the
writer. -/
def putDone (seq : Nat) (ok : Bool) : Option Sys := do
  let u ← sys.writer.find seq
  match u.upload with
  | .putting object =>
    let w := sys.writer.setUpload seq (.done object ok)
    let key := u.bulk.key w.config
    if ok then
      some { sys with
        store := sys.store.insert key object
        written := true
        writer := { w with
          events := w.events ++ [.put seq]
          lastRecordOffsetToObject := w.lastRecordOffsetToObject.insert u.bulk.lastRecordOffset
            (listing (key, object)) } }
    else some (sys.setWriter { w with fenced := true })
  | _ => none

/-- A bulk is completed. -/
def complete : Option Sys := do
  let w ← sys.writer.complete
  match sys.writer.callback with
  | .completing false (u :: _) =>
    some { sys with
      writer := w
      acknowledged := sys.acknowledged ++ [u.bulk.key w.config] }
  | _ => some (sys.setWriter w)

/-- An object of a delete list is deleted, or one that was dropped at the start. -/
def delete (key : ObjectKey) : Option Sys :=
  if key ∈ sys.writer.deletes.map Prod.snd ∨ key ∈ sys.writer.overlaps then
    some { sys with store := sys.store.erase key }
  else none

end Sys

def step (sys : Sys) : Action → Option Sys
  | .submit record => (sys.writer.submit record).map sys.setWriter
  | .flush => sys.writer.sealActive.map sys.setWriter
  | .upload => sys.writer.upload.map sys.setWriter
  | .build seq => (sys.writer.build seq).map sys.setWriter
  | .land seq => sys.land seq
  | .putDone seq ok => sys.putDone seq ok
  | .collect => sys.writer.collect.map sys.setWriter
  | .verify ok => (sys.writer.verify ok).map sys.setWriter
  | .decide => sys.writer.decide.map sys.setWriter
  | .complete => sys.complete
  | .trim offset => (sys.writer.trim0 offset.toInt64.toInt).map sys.setWriter
  | .reset => sys.writer.reset.map sys.setWriter
  | .trimAppend i ok => (sys.writer.trimAppend i ok).map sys.setWriter
  | .trimDelete i => (sys.writer.trimDelete i).map sys.setWriter
  | .delete key => sys.delete key
  | .close => some (sys.setWriter { sys.writer with closed := true })

def run (sys : Sys) (actions : List Action) : Option Sys := actions.foldlM step sys

/-- A writer on an empty log. -/
def Sys.start (config : ObjectWalConfig) : Sys where
  store := ∅
  writer := .start config []

end Wal
