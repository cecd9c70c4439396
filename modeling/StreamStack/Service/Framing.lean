import StreamStack.Service.Types
import StreamStack.Wal.Writer

/-!
# Batches of several messages

An atomic append of several messages is one record batch of the engine, with the messages framed in
its payload; any other message is a batch of its own. What is framed is read back, for the batches
that the log can take.
-/

namespace Service

open Wire ServiceError List

/-! ### Frames -/

namespace Framing

def frameVersion : UInt8 := 1

def putFrame (record : Bytes) : Bytes :=
  putBeU32 (UInt32.ofNat record.length) ++ record

def encodeFrames (records : List Bytes) : Bytes :=
  putU8 frameVersion ++ (putBeU32 (UInt32.ofNat records.length) ++ records.flatMap putFrame)

def truncated : ServiceError := corrupt "batch frame truncated"

def getFrame : Get ServiceError Bytes := do
  let len ← getBeI32 truncated
  if len < 0 then fail truncated
  else take len.toInt.toNat truncated

def getFrames (expectedCount : UInt32) : Get ServiceError (List Bytes) := do
  let version ← getU8 truncated
  if version ≠ frameVersion then fail (corrupt s!"unknown batch frame version {version}")
  else do
    let count ← getBeI32 truncated
    if count < 0 ∨ count.toUInt32 ≠ expectedCount then
      fail (corrupt s!"batch frame count {count} does not match batch count {expectedCount}")
    else getMany count.toInt.toNat getFrame

def decodeFrames (payload : Bytes) (expectedCount : UInt32) : Except ServiceError (List Bytes) :=
  if payload.length < 5 then .error truncated
  else
    runAll (fun _ => corrupt "trailing bytes after batch frames") (getFrames expectedCount) payload

theorem reads_getFrame {record : Bytes} (h : record.length < 2 ^ 31) :
  Reads getFrame (putFrame record) record
  := by
  have hlen : (UInt32.ofNat record.length).toInt32.toInt = record.length :=
    Wal.StreamRecordBatch.toInt_payloadLen h
  have hnonneg : ¬ (UInt32.ofNat record.length).toInt32 < 0 := by
    rw [Int32.lt_iff_toInt_lt, hlen]
    simp
  apply (Reads.getBeI32 (UInt32.ofNat record.length).toInt32 truncated).bind
  rw [if_neg hnonneg, hlen, Int.toNat_natCast]
  apply Reads.take

variable {records : List Bytes}

theorem reads_getFrames (hcount : records.length < 2 ^ 31)
    (hlen : ∀ r ∈ records, r.length < 2 ^ 31) :
  Reads (getFrames (UInt32.ofNat records.length)) (encodeFrames records) records
  := by
  have hcount' : (UInt32.ofNat records.length).toInt32.toInt = records.length :=
    Wal.StreamRecordBatch.toInt_payloadLen hcount
  have hgood : ¬ ((UInt32.ofNat records.length).toInt32 < 0 ∨
      (UInt32.ofNat records.length).toInt32.toUInt32 ≠ UInt32.ofNat records.length) := by
    rw [Int32.lt_iff_toInt_lt, hcount']
    simp
  apply (Reads.getU8 frameVersion truncated).bind
  rw [if_neg (not_not.mpr rfl)]
  apply (Reads.getBeI32 (UInt32.ofNat records.length).toInt32 truncated).bind
  rw [if_neg hgood, hcount', Int.toNat_natCast]
  apply Reads.getMany
  intro record hrecord
  apply reads_getFrame (hlen record hrecord)

/-- The frames of a batch whose count and lengths fit their fields are read back. -/
theorem decodeFrames_encodeFrames (hcount : records.length < 2 ^ 31)
    (hlen : ∀ r ∈ records, r.length < 2 ^ 31) :
  decodeFrames (encodeFrames records) (UInt32.ofNat records.length) = .ok records
  := by
  have hlong : ¬ (encodeFrames records).length < 5 := by
    simp [encodeFrames, putU8]
    omega
  rw [decodeFrames, if_neg hlong]
  apply (reads_getFrames hcount hlen).runAll

/-- Every message of a batch is part of its payload, with its length. -/
theorem length_encodeFrames (records : List Bytes) :
  (encodeFrames records).length = 5 + (records.map fun r => 4 + r.length).sum
  := by
  simp [encodeFrames, putU8, putFrame, length_flatMap]
  omega

end Framing

/-! ### The batches of an append -/

/-- A batch as it is given to the engine. -/
structure RecordBatch where
  count : UInt32
  payload : Bytes
deriving DecidableEq, Repr

/-- The batches of an append in order, each with the messages that go into it. -/
def groupsOf (messages : List Bytes) (atomic : Bool) : List (RecordBatch × List Bytes) :=
  if messages.isEmpty then []
  else if atomic && messages.length > 1 then
    [(⟨UInt32.ofNat messages.length, Framing.encodeFrames messages⟩, messages)]
  else messages.map fun message => (⟨1, message⟩, [message])

def batchesOf (messages : List Bytes) (atomic : Bool) : List RecordBatch :=
  (groupsOf messages atomic).map Prod.fst

variable {messages : List Bytes}

namespace RecordBatch

/-- The log takes the record of the batch; a longer one is refused. -/
def Loggable (batch : RecordBatch) : Prop :=
  Wal.StreamRecordBatch.headerSize + batch.payload.length + Wal.walRecordHeaderSize
    ≤ Wal.dataFileAlignSize

instance (batch : RecordBatch) : Decidable batch.Loggable :=
  inferInstanceAs (Decidable (_ ≤ _))

/-- The messages that a batch holds, as a reader takes them out of it. -/
def Holds (batch : RecordBatch) (messages : List Bytes) : Prop :=
  batch.count.toNat = messages.length ∧
    (if batch.count > 1 then Framing.decodeFrames batch.payload batch.count = .ok messages
      else messages = [batch.payload])

theorem holds_single (message : Bytes) :
  Holds ⟨1, message⟩ [message]
  := by
  constructor
  · rfl
  · have hone : ¬ (1 : UInt32) > 1 := by decide
    rw [if_neg hone]

/-- A framed batch that the log takes holds its messages: their number and their lengths fit the
fields of the frames. -/
theorem holds_framed (hmany : 1 < messages.length)
    (h : Loggable ⟨UInt32.ofNat messages.length, Framing.encodeFrames messages⟩) :
  Holds ⟨UInt32.ofNat messages.length, Framing.encodeFrames messages⟩ messages
  := by
  rw [Loggable, Framing.length_encodeFrames, Wal.dataFileAlignSize] at h
  have hcount : messages.length ≤ (messages.map fun m => 4 + m.length).sum := by
    have hlength := length_le_sum_of_one_le (messages.map fun m => 4 + m.length)
      (by simp; omega)
    rwa [length_map] at hlength
  have hlen : ∀ m ∈ messages, m.length < 2 ^ 31 := by
    intro m hm
    have hle := single_le_sum (l := messages.map fun m => 4 + m.length)
      (fun _ _ => Nat.zero_le _) (4 + m.length) (mem_map_of_mem hm)
    omega
  have htoNat : (UInt32.ofNat messages.length).toNat = messages.length := by
    rw [UInt32.toNat_ofNat']
    omega
  constructor
  · exact htoNat
  · rw [if_pos]
    · exact Framing.decodeFrames_encodeFrames (by omega) hlen
    · rw [gt_iff_lt, UInt32.lt_iff_toNat_lt, htoNat]
      exact hmany

end RecordBatch

/-- Nothing of an append is lost or moved. -/
theorem flatMap_groupsOf (messages : List Bytes) (atomic : Bool) :
  (groupsOf messages atomic).flatMap Prod.snd = messages
  := by
  unfold groupsOf
  split
  next hempty => exact (List.isEmpty_iff.mp hempty).symm
  next =>
    split
    · apply flatMap_singleton
    · rw [flatMap_map]
      apply flatMap_singleton'

/-- A batch that the log takes holds the messages that went into it. -/
theorem holds_groupsOf {atomic : Bool} {b : RecordBatch × List Bytes}
    (hb : b ∈ groupsOf messages atomic) (hlog : b.1.Loggable) :
  b.1.Holds b.2
  := by
  unfold groupsOf at hb
  split at hb
  next => cases hb
  next =>
    split at hb
    next hframed =>
      obtain rfl := mem_singleton.mp hb
      rw [Bool.and_eq_true, decide_eq_true_eq] at hframed
      exact RecordBatch.holds_framed hframed.2 hlog
    next =>
      obtain ⟨message, -, rfl⟩ := mem_map.mp hb
      apply RecordBatch.holds_single

/-- The batches of an append hold its messages, one after the other, if the log takes them. -/
theorem batchesOf_holds {atomic : Bool} (h : ∀ batch ∈ batchesOf messages atomic, batch.Loggable) :
  ∃ groups, List.Forall₂ RecordBatch.Holds (batchesOf messages atomic) groups ∧
    groups.flatten = messages
  := by
  refine ⟨(groupsOf messages atomic).map Prod.snd, ?_, ?_⟩
  · rw [batchesOf, List.forall₂_map_left_iff, List.forall₂_map_right_iff, List.forall₂_same]
    intro b hb
    exact holds_groupsOf hb (h b.1 (mem_map_of_mem hb))
  · rw [← flatMap_def, flatMap_groupsOf]

end Service
