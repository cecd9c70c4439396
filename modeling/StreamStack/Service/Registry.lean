import StreamStack.Service.Framing

/-!
# Registry entries

The entry of a name: the stream behind it, its content type and lifetime, whether it is closed, and
the last sequence number of every producer. Clock readings are parameters.
-/

namespace Service

open OrdMap

/-- The last append of a producer. -/
structure ProducerState where
  epoch : UInt64
  lastSeq : UInt64
deriving DecidableEq, Repr

/-- The append that has closed the stream. -/
structure ClosedBy where
  producerId : String
  epoch : UInt64
  seq : UInt64
deriving DecidableEq, Repr

/-- What is stored under a name. -/
structure RegistryEntry where
  streamId : UInt64
  contentType : String
  ttlSeconds : Option UInt64
  expiresAtMs : Option Int64
  closed : Bool
  deadlineMs : Int64
  lastSeq : Option String
  producers : OrdMap String ProducerState
  closedBy : Option ClosedBy
deriving DecidableEq

namespace RegistryEntry

/-- A second close keeps the producer of the first. -/
def close (entry : RegistryEntry) (closedBy : Option ClosedBy) : RegistryEntry :=
  { entry with
    closed := true
    closedBy := if closedBy.isSome then closedBy else entry.closedBy }

def withLastSeq (entry : RegistryEntry) (seq : String) : RegistryEntry :=
  { entry with lastSeq := some seq }

def withDeadline (entry : RegistryEntry) (deadlineMs : Int64) : RegistryEntry :=
  { entry with deadlineMs }

def withProducer (entry : RegistryEntry) (id : String) (epoch seq : UInt64) : RegistryEntry :=
  { entry with producers := entry.producers.insert id ⟨epoch, seq⟩ }

/-- The time to live has passed. -/
def expired (entry : RegistryEntry) (nowMs : Int64) : Bool :=
  entry.deadlineMs > 0 && nowMs > entry.deadlineMs

end RegistryEntry

/-! ### Deadlines -/

/-- A fixed end comes before a time to live, and 0 is no deadline. -/
def deadlineOf (ttlSeconds : Option UInt64) (expiresAtMs : Option Int64) (nowMs : Int64) : Int64 :=
  match expiresAtMs, ttlSeconds with
  | some expires, _ => expires
  | none, some ttl => nowMs + ttl.toInt64 * 1000
  | none, none => 0

/-- The deadline moves with use, in steps of a tenth of the time to live. -/
def touchDeadline (entry : RegistryEntry) (nowMs : Int64) : RegistryEntry :=
  match entry.ttlSeconds with
  | none => entry
  | some ttl =>
    if entry.expiresAtMs.isSome then entry
    else
      let next := nowMs + ttl.toInt64 * 1000
      let coarsen := max (ttl.toInt64 * 100) 1000
      if entry.deadlineMs > 0 && next - entry.deadlineMs < coarsen then entry
      else entry.withDeadline next

theorem streamId_touchDeadline (entry : RegistryEntry) (nowMs : Int64) :
  (touchDeadline entry nowMs).streamId = entry.streamId
  := by
  unfold touchDeadline
  split
  · rfl
  · split
    · rfl
    · simp only
      split
      · rfl
      · rfl

/-! ### Producers -/

/-- What becomes of the append of a producer. -/
inductive ProducerDecision where
  | accepted (epoch seq : UInt64)
  | duplicate (lastSeq : UInt64)
  | staleEpoch (currentEpoch : UInt64)
  | invalidEpochSeq
  | sequenceGap (expected received : UInt64)
deriving DecidableEq, Repr

def ProducerDecision.isAccepted : ProducerDecision → Bool
  | .accepted _ _ => true
  | _ => false

/-- A new epoch starts with sequence 0, and a known sequence is a duplicate. -/
def validateProducer (entry : RegistryEntry) (producer : Producer) : ProducerDecision :=
  match entry.producers[producer.producerId]? with
  | none =>
    if producer.seq ≠ 0 then .invalidEpochSeq else .accepted producer.epoch producer.seq
  | some state =>
    if producer.epoch < state.epoch then .staleEpoch state.epoch
    else if producer.epoch > state.epoch then
      if producer.seq ≠ 0 then .invalidEpochSeq else .accepted producer.epoch producer.seq
    else if producer.seq ≤ state.lastSeq then .duplicate state.lastSeq
    else if producer.seq = state.lastSeq + 1 then .accepted producer.epoch producer.seq
    else .sequenceGap (state.lastSeq + 1) producer.seq

end Service
