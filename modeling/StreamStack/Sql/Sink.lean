import StreamStack.Metadata.Codec
import StreamStack.Metadata.Snapshot
import StreamStack.Sql.Store

/-!
# The SQL sink

Any number of nodes share one store. A node first opens: it loads the snapshot and replays the
log. It then runs two tasks, a flusher that appends batches of proposed commands to the log and a
tailer that applies the rows of the log, publishes views and, from time to time, stores a snapshot
and truncates the log. Every access to the store and to what the two tasks of a node share is a
step of its own, so that steps of all tasks interleave freely. A node may stop at any point.
-/

namespace Sql

open Metadata

/-! ### Applying a row -/

/-- The outcomes of the commands of one row, in batch order. -/
abbrev BatchResults : Type := List (Except MetadataError MetadataResult)

def applyBatch (s : MetadataState) : List MetadataCommand → Option (MetadataState × BatchResults)
  | [] => some (s, [])
  | command :: commands => do
      let (s, result) ← apply s command
      let (s, results) ← applyBatch s commands
      return (s, result :: results)

/-- What comes of a row: it does not decode, applying it overflows, or it is applied. -/
inductive Played where
  | corrupt
  | overflow
  | done (state : MetadataState) (results : BatchResults)

def playRow (s : MetadataState) (e : Entry) : Played :=
  match Codec.decodeBatch e.payload with
  | .error _ => .corrupt
  | .ok commands =>
    match applyBatch s commands with
    | none => .overflow
    | some (s, results) => .done s results

/-! ### Nodes -/

structure SqlSinkConfig where
  maxBatch : Nat
  fetchLimit : Nat
  snapshotEvery : Nat
deriving DecidableEq, Repr

/-- The receiving end of a registration. -/
inductive Rx where
  | waiting
  | results (results : BatchResults)
  | closed

/-- Where the flusher stands in committing a batch. -/
inductive Flusher where
  | idle
  | ready (e : Entry)
  | loaded (e : Entry) (next : Nat)
  | registered (e : Entry) (next : Nat) (rx : Rx)
  | appended (e : Entry) (next : Nat) (rx : Rx)
  | conflict (e : Entry)

/-- Where the tailer stands in its loop. The rows of a fetch that are still to be applied are
carried along. -/
inductive Tailer where
  | idle
  | rows (buffer : List (Nat × Entry))
  | applied (idx : Nat) (results : BatchResults) (buffer : List (Nat × Entry))
  | seen (idx : Nat) (results : BatchResults) (buffer : List (Nat × Entry))
  | published (idx : Nat) (results : BatchResults) (buffer : List (Nat × Entry))
  | gap
  | restored (snapIdx : Nat) (state : MetadataState)
  | restoredSeen (snapIdx : Nat) (state : MetadataState)
  | restoredPublished (snapIdx : Nat) (state : MetadataState)
  | snapshotting
  | truncating
  | stopped

/-- A running node: what the tailer holds, what both tasks share, and where they stand. -/
structure Node where
  config : SqlSinkConfig
  state : MetadataState
  applied : Nat
  lastSnapshot : Nat
  lastSeen : Nat
  pending : OrdMap Nat Nat := ∅
  poisoned : Bool := false
  tailer : Tailer := .idle
  flusher : Flusher := .idle

/-- Where a cold start stands. -/
inductive Opening where
  | load
  | fetch (state : MetadataState) (applied snapshotBase : Nat)
  | rows (state : MetadataState) (applied snapshotBase : Nat) (buffer : List (Nat × Entry))
  | reload

inductive Proc where
  | opening (config : SqlSinkConfig) (o : Opening)
  | running (n : Node)

/-- What a node lets others see: a view it published, the view it opened with, or a batch it
acknowledged at an index. Readers load the view that was published last. -/
inductive Event where
  | published (node idx : Nat) (state : MetadataState)
  | opened (node idx : Nat) (state : MetadataState)
  | acked (node : Nat) (e : Entry) (idx : Nat) (results : BatchResults)
deriving DecidableEq

/-- The store, the nodes, and the events so far, latest first. -/
structure Sys where
  store : Store := {}
  procs : OrdMap Nat Proc := ∅
  nextProposal : Nat := 0
  trace : List Event := []

/-- One step of one node. Steps that access the store come with what the database makes of it. -/
inductive Action where
  | start (config : SqlSinkConfig)
  | crash
  | openLoad (reply : Reply)
  | openFetch (reply : Reply)
  | openRow
  | openReload (reply : Reply)
  | fetch (reply : Reply)
  | row
  | markSeen
  | publish
  | deliver
  | restoreLoad (reply : Reply)
  | restoreSeen
  | restorePublish
  | restoreInstall
  | finishRows
  | storeSnapshot (reply : Reply)
  | truncate (reply : Reply)
  | propose (commands : List MetadataCommand)
  | load
  | register
  | append (reply : Reply)
  | refresh (reply : Reply)
  | await

/-! ### Registrations -/

/-- Close the receiver of a registration that is dropped. -/
def Flusher.close (pending : OrdMap Nat Nat) (keep : Nat → Bool) : Flusher → Flusher
  | .registered e next .waiting =>
    if pending[next]? = some e.proposal ∧ keep next = false then .registered e next .closed
    else .registered e next .waiting
  | .appended e next .waiting =>
    if pending[next]? = some e.proposal ∧ keep next = false then .appended e next .closed
    else .appended e next .waiting
  | f => f

/-- Send results to the registration of a proposal at an index. -/
def Flusher.send (proposal idx : Nat) (results : BatchResults) : Flusher → Flusher
  | .registered e next .waiting =>
    if e.proposal = proposal ∧ next = idx then .registered e next (.results results)
    else .registered e next .waiting
  | .appended e next .waiting =>
    if e.proposal = proposal ∧ next = idx then .appended e next (.results results)
    else .appended e next .waiting
  | f => f

/-- Drop the registrations at the indexes that are not kept. -/
def Node.retain (n : Node) (keep : Nat → Bool) : Node :=
  { n with
    pending := n.pending.filter fun idx _ => keep idx
    flusher := n.flusher.close n.pending keep }

/-- The log cannot be followed any further: all waiters fail and the tailer stops. -/
def Node.poison (n : Node) : Node :=
  { n.retain fun _ => false with poisoned := true, tailer := .stopped }

/-! ### Cold start -/

/-- A cold start that fails leaves no node. -/
def Sys.stop (sys : Sys) (id : Nat) : Sys := { sys with procs := sys.procs.erase id }

def Sys.setOpening (sys : Sys) (id : Nat) (config : SqlSinkConfig) (o : Opening) : Sys :=
  { sys with procs := sys.procs.insert id (.opening config o) }

def Sys.setNode (sys : Sys) (id : Nat) (n : Node) : Sys :=
  { sys with procs := sys.procs.insert id (.running n) }

def Sys.emit (sys : Sys) (event : Event) : Sys := { sys with trace := event :: sys.trace }

/-- The node that a finished cold start leaves running. -/
def openedNode (config : SqlSinkConfig) (state : MetadataState) (applied base : Nat) : Node where
  config := config
  state := state
  applied := applied
  lastSnapshot := base
  lastSeen := applied

def stepOpening (sys : Sys) (id : Nat) (config : SqlSinkConfig) : Opening → Action → Option Sys
  | .load, .openLoad reply =>
    some <| match sys.store.loadSnapshot reply with
    | .error _ => sys.stop id
    | .ok none => sys.setOpening id config (.fetch .new 0 0)
    | .ok (some (idx, payload)) =>
      match Snapshot.decode payload with
      | .error _ => sys.stop id
      | .ok state => sys.setOpening id config (.fetch state idx idx)
  | .fetch state applied base, .openFetch reply =>
    some <| match sys.store.fetchAfter reply applied config.fetchLimit with
    | .error _ => sys.stop id
    | .ok [] =>
      (sys.setNode id (openedNode config state applied base)).emit (.opened id applied state)
    | .ok rows => sys.setOpening id config (.rows state applied base rows)
  | .rows state applied base [], .openRow =>
    some (sys.setOpening id config (.fetch state applied base))
  | .rows state applied base ((idx, e) :: buffer), .openRow =>
    some <| if idx > applied + 1 then sys.setOpening id config .reload
    else match playRow state e with
    | .done state _ => sys.setOpening id config (.rows state idx base buffer)
    | _ => sys.stop id
  | .reload, .openReload reply =>
    some <| match sys.store.loadSnapshot reply with
    | .error _ => sys.stop id
    | .ok none => sys.stop id
    | .ok (some (idx, payload)) =>
      match Snapshot.decode payload with
      | .error _ => sys.stop id
      | .ok state => sys.setOpening id config (.fetch state idx idx)
  | _, _ => none

/-! ### The tailer -/

def stepTailer (sys : Sys) (id : Nat) (n : Node) : Tailer → Action → Option Sys
  | .idle, .fetch reply =>
    some <| match sys.store.fetchAfter reply n.applied n.config.fetchLimit with
    | .error _ => sys
    | .ok [] => sys
    | .ok rows => sys.setNode id { n with tailer := .rows rows }
  | .rows ((idx, e) :: buffer), .row =>
    some <| if idx > n.applied + 1 then sys.setNode id { n with tailer := .gap }
    else match playRow n.state e with
    | .corrupt => sys.setNode id n.poison
    | .overflow => sys.setNode id { n with tailer := .stopped }
    | .done state results =>
      sys.setNode id { n with state, applied := idx, tailer := .applied idx results buffer }
  | .applied idx results buffer, .markSeen =>
    some (sys.setNode id { n with
      lastSeen := max n.lastSeen idx
      tailer := .seen idx results buffer })
  | .seen idx results buffer, .publish =>
    some ((sys.setNode id { n with tailer := .published idx results buffer }).emit
      (.published id idx n.state))
  | .published idx results buffer, .deliver =>
    some <| match n.pending[idx]? with
    | some proposal => sys.setNode id { n with
        pending := n.pending.erase idx
        flusher := n.flusher.send proposal idx results
        tailer := .rows buffer }
    | none => sys.setNode id { n with tailer := .rows buffer }
  | .gap, .restoreLoad reply =>
    some <| match sys.store.loadSnapshot reply with
    | .error _ => sys.setNode id { n with tailer := .idle }
    | .ok none => sys.setNode id n.poison
    | .ok (some (snapIdx, payload)) =>
      if snapIdx ≤ n.applied then sys.setNode id n.poison
      else match Snapshot.decode payload with
      | .error _ => sys.setNode id n.poison
      | .ok state => sys.setNode id { n with tailer := .restored snapIdx state }
  | .restored snapIdx state, .restoreSeen =>
    some (sys.setNode id { n with
      lastSeen := max n.lastSeen snapIdx
      tailer := .restoredSeen snapIdx state })
  | .restoredSeen snapIdx state, .restorePublish =>
    some ((sys.setNode id { n with tailer := .restoredPublished snapIdx state }).emit
      (.published id snapIdx state))
  | .restoredPublished snapIdx state, .restoreInstall =>
    some (sys.setNode id { n.retain fun idx => decide (snapIdx < idx) with
      state
      applied := snapIdx
      lastSnapshot := snapIdx
      tailer := .idle })
  | .rows [], .finishRows =>
    some (sys.setNode id { n with
      tailer :=
        if n.config.snapshotEvery > 0 ∧ n.applied - n.lastSnapshot ≥ n.config.snapshotEvery then
          .snapshotting
        else .idle })
  | .snapshotting, .storeSnapshot reply =>
    let (store, r) := sys.store.storeSnapshot reply n.applied (Snapshot.encode n.state)
    some <| match r with
    | .ok () => { sys with store }.setNode id { n with
        lastSnapshot := n.applied
        tailer := .truncating }
    | .error _ => { sys with store }.setNode id { n with tailer := .idle }
  | .truncating, .truncate reply =>
    let (store, _) := sys.store.truncateLog reply n.applied
    some ({ sys with store }.setNode id { n with tailer := .idle })
  | _, _ => none

/-! ### The flusher -/

def stepFlusher (sys : Sys) (id : Nat) (n : Node) : Flusher → Action → Option Sys
  | .idle, .propose commands =>
    if commands ≠ [] ∧ commands.length ≤ max 1 n.config.maxBatch then
      some ({ sys with nextProposal := sys.nextProposal + 1 }.setNode id { n with
        flusher := .ready ⟨sys.nextProposal, Codec.encodeBatch commands⟩ })
    else none
  | .ready e, .load => some (sys.setNode id { n with flusher := .loaded e (n.lastSeen + 1) })
  | .loaded e next, .register =>
    some <| if n.poisoned then sys.setNode id { n with flusher := .idle }
    else sys.setNode id { n with
      pending := n.pending.insert next e.proposal
      flusher := .registered e next .waiting }
  | .registered e next rx, .append reply =>
    let (store, r) := sys.store.append reply next e
    some <| match r with
    | .ok true => { sys with store }.setNode id { n with flusher := .appended e next rx }
    | .ok false => { sys with store }.setNode id { n with
        pending := n.pending.erase next
        flusher := .conflict e }
    | .error _ => { sys with store }.setNode id { n with
        pending := n.pending.erase next
        flusher := .idle }
  | .conflict e, .refresh reply =>
    some <| match sys.store.lastIdx reply with
    | .ok last => sys.setNode id { n with lastSeen := max n.lastSeen last, flusher := .ready e }
    | .error _ => sys.setNode id { n with flusher := .idle }
  | .appended e next (.results results), .await =>
    some ((sys.setNode id { n with flusher := .idle }).emit (.acked id e next results))
  | .appended _ _ .closed, .await => some (sys.setNode id { n with flusher := .idle })
  | _, _ => none

/-! ### Runs -/

/-- One step of the node `id`, if the node is at a point where it can take it. -/
def step (sys : Sys) (id : Nat) (action : Action) : Option Sys :=
  match sys.procs[id]?, action with
  | none, .start config => some (sys.setOpening id config .load)
  | some _, .crash => some (sys.stop id)
  | some (.opening config o), action => stepOpening sys id config o action
  | some (.running n), action =>
    (stepTailer sys id n n.tailer action).or (stepFlusher sys id n n.flusher action)
  | none, _ => none

def run (sys : Sys) (actions : List (Nat × Action)) : Option Sys :=
  actions.foldlM (fun sys a => step sys a.1 a.2) sys

end Sql
