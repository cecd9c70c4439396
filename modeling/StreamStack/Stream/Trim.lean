import StreamStack.Metadata.Handlers

/-!
# Trimming a stream

A trim first moves the start offset that the stream keeps in memory, and then sends it to the
metadata plane. The metadata plane may refuse it, and a command or its answer may be lost: the trim
fails, and the offset in memory is the new one all the same.
-/

namespace Stream.Trim

open Metadata OrdMap

/-! ### The trim -/

/-- The fields of a stream that a trim uses. -/
structure S3Stream where
  streamId : UInt64
  epoch : UInt64
  snapshotRead : Bool
  startOffset : UInt64

/-- The node that sends the commands. -/
structure Node where
  nodeId : Int32
  nodeEpoch : Int64

/-- What becomes of a command: it is applied and answered, it is applied but the answer does not
arrive, or it is not applied. -/
inductive Delivery where
  | answered
  | unanswered
  | lost
deriving DecidableEq, Repr

inductive StreamError where
  | readOnly
  | metadata (e : MetadataError)
  | unanswered
deriving DecidableEq, Repr

structure World where
  metadata : MetadataState
  stream : S3Stream

/-- Send a command. There is no answer when a handler overflows. -/
def propose (s : MetadataState) (command : MetadataCommand) :
    Delivery → Option (MetadataState × Except StreamError MetadataResult)
  | .answered => (apply s command).map fun (s', result) => (s', result.mapError .metadata)
  | .unanswered => (apply s command).map fun (s', _) => (s', .error .unanswered)
  | .lost => some (s, .error .unanswered)

def trim (node : Node) (w : World) (newStartOffset : UInt64) (delivery : Delivery) :
    Option (World × Except StreamError Unit) :=
  if w.stream.snapshotRead then some (w, .error .readOnly)
  else if newStartOffset < w.stream.startOffset then some (w, .ok ())
  else
    let stream := { w.stream with startOffset := newStartOffset }
    let command := .trimStream node.nodeId node.nodeEpoch stream.streamId stream.epoch.toInt64
      newStartOffset
    (propose w.metadata command delivery).map fun (metadata, result) =>
      (⟨metadata, stream⟩, result.map fun _ => ())

/-! ### Failed trims -/

/-- The start offset of a stream in the metadata plane. -/
def committed (s : MetadataState) (streamId : UInt64) : Option UInt64 :=
  s.streams[streamId]?.map (·.startOffset)

/-- The start offset in memory is the committed one. -/
def World.Agrees (w : World) : Prop :=
  committed w.metadata w.stream.streamId = some w.stream.startOffset
deriving Decidable

variable {s s' : MetadataState} {nodeId : Int32} {nodeEpoch epoch : Int64}
  {streamId newStartOffset : UInt64} {delivery : Delivery}

/-- The metadata plane accepts a command. -/
def Accepts (s : MetadataState) (command : MetadataCommand) : Prop :=
  ∃ s' result, apply s command = some (s', .ok result)

/-- A command that is accepted commits the new start offset, and any other changes nothing. -/
theorem committed_apply {result : Except MetadataError MetadataResult}
    (h : apply s (.trimStream nodeId nodeEpoch streamId epoch newStartOffset) = some (s', result)) :
  (∃ r, result = .ok r) ∧ committed s' streamId = some newStartOffset ∨
    (∃ e, result = .error e) ∧ s' = s
  := by
  rw [apply] at h
  split at h
  next hok =>
    cases h
    cases applyInner_handled hok with
    | trimmed row =>
      refine .inl ⟨⟨_, rfl⟩, ?_⟩
      rw [committed, lookup_insert, if_pos rfl]
      rfl
  next =>
    cases h
    exact .inr ⟨⟨_, rfl⟩, rfl⟩
  next => cases h

/-- A failed command commits the new start offset when it is accepted and only the answer is lost,
and changes nothing otherwise. -/
theorem committed_propose {e : StreamError}
    (h : propose s (.trimStream nodeId nodeEpoch streamId epoch newStartOffset) delivery =
      some (s', .error e)) :
  let applied := delivery = .unanswered ∧
    Accepts s (.trimStream nodeId nodeEpoch streamId epoch newStartOffset)
  applied ∧ committed s' streamId = some newStartOffset ∨ ¬ applied ∧ s' = s
  := by
  cases delivery with
  | answered =>
    obtain ⟨⟨_, result⟩, happly, heq⟩ := Option.map_eq_some_iff.mp h
    obtain ⟨rfl, herror⟩ := Prod.mk.inj heq
    rcases committed_apply happly with ⟨⟨r, rfl⟩, -⟩ | ⟨-, rfl⟩
    · cases herror
    · exact .inr ⟨nofun, rfl⟩
  | unanswered =>
    obtain ⟨⟨_, result⟩, happly, heq⟩ := Option.map_eq_some_iff.mp h
    obtain ⟨rfl, -⟩ := Prod.mk.inj heq
    rcases committed_apply happly with ⟨⟨r, rfl⟩, hmoved⟩ | ⟨⟨e', rfl⟩, rfl⟩
    · exact .inl ⟨⟨rfl, _, _, happly⟩, hmoved⟩
    · refine .inr ⟨?_, rfl⟩
      rintro ⟨-, _, _, haccepted⟩
      rw [happly] at haccepted
      cases haccepted
  | lost =>
    cases h
    exact .inr ⟨nofun, rfl⟩

/-- A failed trim keeps the start offset in memory and leaves it the committed one in two cases. It
was the committed one, and the trim is refused as a trim of a stream that is read only or asks for
the start offset that is there. Or it was not, and a trim to the start offset in memory is committed
without an answer. -/
theorem failed_trim_keeps_iff {node : Node} {w w' : World} {e : StreamError}
    (h : trim node w newStartOffset delivery = some (w', .error e)) :
  (w'.stream.startOffset = w.stream.startOffset ∧ w'.Agrees) ↔
    (w.Agrees ∧ (w.stream.snapshotRead = true ∨ newStartOffset = w.stream.startOffset)) ∨
    (w.stream.snapshotRead = false ∧ newStartOffset = w.stream.startOffset ∧
      delivery = .unanswered ∧ Accepts w.metadata (.trimStream node.nodeId node.nodeEpoch
        w.stream.streamId w.stream.epoch.toInt64 newStartOffset))
  := by
  rw [trim] at h
  split at h
  next hread =>
    cases h
    simp [hread]
  next hread =>
    split at h
    next => cases h
    next =>
      obtain ⟨⟨s', result⟩, hpropose, heq⟩ := Option.map_eq_some_iff.mp h
      obtain ⟨rfl, herror⟩ := Prod.mk.inj heq
      cases result with
      | ok r => cases herror
      | error e' =>
        rw [Bool.not_eq_true] at hread
        simp only [hread, Bool.false_eq_true, false_or, true_and]
        constructor
        · rintro ⟨hsame, hagrees⟩
          rcases committed_propose hpropose with ⟨happlied, -⟩ | ⟨-, rfl⟩
          · exact .inr ⟨hsame, happlied⟩
          · refine .inl ⟨?_, hsame⟩
            rw [World.Agrees, ← hsame]
            exact hagrees
        · rintro (⟨hagrees, rfl⟩ | ⟨rfl, happlied⟩)
          · refine ⟨rfl, ?_⟩
            rcases committed_propose hpropose with ⟨-, hmoved⟩ | ⟨-, rfl⟩
            · exact hmoved
            · exact hagrees
          · refine ⟨rfl, ?_⟩
            rcases committed_propose hpropose with ⟨-, hmoved⟩ | ⟨hnot, -⟩
            · exact hmoved
            · exact absurd happlied hnot

/-- A node opens a stream. -/
def openedRun : List MetadataCommand :=
  [.registerNode 1 1 "" 1, .createStream 1 1, .openStream 1 1 0 1]

def openedStream : S3Stream := ⟨0, 1, false, 0⟩

theorem failed_trim_keeps_openedRun :
  ∃ s, applyAll .new openedRun = some s ∧
    trim ⟨1, 1⟩ ⟨s, openedStream⟩ 0 .lost = some (⟨s, openedStream⟩, .error .unanswered) ∧
    World.Agrees ⟨s, openedStream⟩
  := by
  obtain ⟨s, hs, hagrees⟩ : ∃ s, applyAll .new openedRun = some s ∧
      World.Agrees ⟨s, openedStream⟩ := by
    decide +kernel
  have htrim : trim ⟨1, 1⟩ ⟨s, openedStream⟩ 0 .lost =
      some (⟨s, openedStream⟩, .error .unanswered) := rfl
  exact ⟨s, hs, htrim, ((failed_trim_keeps_iff htrim).mpr (.inl ⟨hagrees, .inr rfl⟩)).2⟩

/-- A trim past the end of the stream is refused, but the stream has moved its start offset. -/
theorem refused_trim_moves_start :
  ∃ s w' e, applyAll .new openedRun = some s ∧ World.Agrees ⟨s, openedStream⟩ ∧
    trim ⟨1, 1⟩ ⟨s, openedStream⟩ 10 .answered = some (w', .error (.metadata e)) ∧
    w'.stream.startOffset = 10 ∧ committed w'.metadata 0 = some 0
  := by
  obtain ⟨s, hs, hagrees, ⟨w', _⟩, htrim, rfl, hmoved, hkept⟩ : ∃ s,
      applyAll .new openedRun = some s ∧ World.Agrees ⟨s, openedStream⟩ ∧
      ∃ r, trim ⟨1, 1⟩ ⟨s, openedStream⟩ 10 .answered = some r ∧ r.2 = .error (.metadata
        (.unexpected "stream 0 new start offset 10 is greater than current end offset 0")) ∧
        r.1.stream.startOffset = 10 ∧ committed r.1.metadata 0 = some 0 := by
    decide +kernel
  exact ⟨s, w', _, hs, hagrees, htrim, hmoved, hkept⟩

end Stream.Trim
