import StreamStack.Metadata.Transfers

/-!
# Opening a stream that is being transferred

A node opens a stream in two steps. It holds back while its view of the metadata shows a pending
transfer of the stream, and then it proposes the `OpenStream` command. The view is the state after
some prefix of the shared log, and other commands may come between the two steps.
-/

namespace Service

open Metadata OrdMap Run List

/-! ### Nodes and the log -/

/-- Where the one `ensure_open` that holds the open lock of a node stands. -/
inductive Opening where
  | idle
  /-- In the loop of `await_transfer_settled`. -/
  | settling (streamId : UInt64)
  /-- The epoch is drawn and `OpenStream` is on its way. -/
  | proposing (streamId : UInt64) (epoch : UInt64)
deriving DecidableEq

/-- The stream whose `OpenStream` is on its way. -/
def Opening.proposed : Opening → Option UInt64
  | .proposing streamId _ => some streamId
  | _ => none

structure OpenerNode where
  nodeId : Int32
  nodeEpoch : Int64
  /-- The number of log entries that the published view has applied. -/
  applied : ℕ
  openStreams : List UInt64
  localEpochs : OrdMap UInt64 UInt64
  opening : Opening

/-- The nodes, the metadata state and the states the log went through before. -/
structure Cluster where
  past : List MetadataState
  state : MetadataState
  nodes : List OpenerNode

namespace Cluster

def states (c : Cluster) : List MetadataState :=
  c.past ++ [c.state]

/-- The published view of a node. -/
def view (c : Cluster) (node : OpenerNode) : MetadataState :=
  c.states[node.applied]?.getD c.state

def setNode (c : Cluster) (i : ℕ) (node : OpenerNode) : Cluster :=
  { c with nodes := c.nodes.set i node }

/-- The log takes a command. -/
def propose (c : Cluster) (command : MetadataCommand) :
    Option (Cluster × Except MetadataError MetadataResult) :=
  (apply c.state command).map fun (state, result) =>
    ({ c with past := c.past ++ [c.state], state }, result)

/-- A node that starts with an empty process. -/
def newNode (nodeId : Int32) (nodeEpoch : Int64) : OpenerNode where
  nodeId
  nodeEpoch
  applied := 0
  openStreams := []
  localEpochs := ∅
  opening := .idle

def start (nodes : List (Int32 × Int64)) : Cluster where
  past := []
  state := .new
  nodes := nodes.map fun (nodeId, nodeEpoch) => newNode nodeId nodeEpoch

end Cluster

/-! ### Steps -/

/-- The epoch to open at: one more than the last one used here, or than the one in the view. -/
def nextEpoch (view : MetadataState) (node : OpenerNode) (streamId : UInt64) : UInt64 :=
  match node.localEpochs[streamId]? with
  | some epoch => epoch + 1
  | none => ((view.streams[streamId]?.map fun row => row.toStreamMetadata.epoch).getD 0) + 1

inductive ClusterAction where
  /-- Any command but an open, proposed by whoever may. -/
  | propose (command : MetadataCommand)
  /-- The published view of a node takes the next entry of the log. -/
  | catchUp (i : ℕ)
  /-- `ensure_open` finds no handle and takes the open lock. -/
  | ensureOpen (i : ℕ) (streamId : UInt64)
  /-- One turn of the loop of `await_transfer_settled`, possibly past its deadline. -/
  | settle (i : ℕ) (late : Bool)
  /-- `OpenStream` is applied; its answer may be lost. -/
  | openStream (i : ℕ) (answered : Bool)
  /-- `release_for_transfer` gives the handle up. -/
  | release (i : ℕ) (streamId : UInt64)
  /-- The process starts again. -/
  | restart (i : ℕ) (nodeEpoch : Int64)

/-- The stream that a command opens. -/
def opensStream : MetadataCommand → Option UInt64
  | .openStream _ _ streamId _ => some streamId
  | _ => none

namespace Cluster

/-- One turn of the loop: nobody is held back without a pending transfer, the target waits for its
completion, and any other node is refused. -/
def settle (c : Cluster) (i : ℕ) (node : OpenerNode) (streamId : UInt64) (late : Bool) : Cluster :=
  match (c.view node).pendingTransfers[streamId]? with
  | none =>
    let epoch := nextEpoch (c.view node) node streamId
    c.setNode i { node with
      localEpochs := node.localEpochs.insert streamId epoch
      opening := .proposing streamId epoch }
  | some pending =>
    if pending.toNode ≠ node.nodeId then c.setNode i { node with opening := .idle }
    else if late then c.setNode i { node with opening := .idle }
    else c

/-- The command is applied, and if the answer arrives and is a success the handle is kept. -/
def openStream (c : Cluster) (i : ℕ) (node : OpenerNode) (streamId epoch : UInt64)
    (answered : Bool) : Option Cluster :=
  (c.propose (.openStream node.nodeId node.nodeEpoch streamId epoch.toInt64)).map fun (c, result) =>
    match result with
    | .ok (.stream metadata) =>
      if answered then
        c.setNode i { node with
          openStreams := streamId :: node.openStreams
          localEpochs := node.localEpochs.insert streamId metadata.epoch
          opening := .idle }
      else c.setNode i { node with opening := .idle }
    | _ => c.setNode i { node with opening := .idle }

def play (c : Cluster) (action : ClusterAction) : Option Cluster :=
  match action with
  | .propose command =>
    if (opensStream command).isSome then none else (c.propose command).map Prod.fst
  | .catchUp i => do
      let node ← c.nodes[i]?
      guard (node.applied < c.past.length)
      return c.setNode i { node with applied := node.applied + 1 }
  | .ensureOpen i streamId => do
      let node ← c.nodes[i]?
      guard (node.opening = .idle)
      if streamId ∈ node.openStreams then return c
      else return c.setNode i { node with opening := .settling streamId }
  | .settle i late => do
      let node ← c.nodes[i]?
      match node.opening with
      | .settling streamId => return c.settle i node streamId late
      | _ => none
  | .openStream i answered => do
      let node ← c.nodes[i]?
      match node.opening with
      | .proposing streamId epoch => c.openStream i node streamId epoch answered
      | _ => none
  | .release i streamId => do
      let node ← c.nodes[i]?
      return c.setNode i { node with
        openStreams := node.openStreams.filter (· ≠ streamId)
        localEpochs := node.localEpochs.erase streamId }
  | .restart i nodeEpoch => do
      let node ← c.nodes[i]?
      return c.setNode i { newNode node.nodeId nodeEpoch with applied := node.applied }

def run (c : Cluster) (actions : List ClusterAction) : Option Cluster :=
  actions.foldlM play c

end Cluster

/-! ### Who may have a stream in transfer -/

/-- A stream with a pending transfer is closed, or opened on the source. -/
def HeldBack (s : MetadataState) : Prop :=
  ∀ (streamId : UInt64) (pending : PendingTransfer),
    s.pendingTransfers[streamId]? = some pending → ∃ row, s.streams[streamId]? = some row ∧
      (row.state = .closed ∨ row.state = .opened ∧ row.nodeId = pending.fromNode)

variable {command : MetadataCommand}

/-- Every command but the opening of a stream in transfer keeps others out. -/
theorem HeldBack.applyInner {s s' : MetadataState} {result : MetadataResult} (h : HeldBack s)
    (hbelow : IdsBelow s) (hopen : ∀ streamId, opensStream command = some streamId →
      s.pendingTransfers[streamId]? = none) (hok : applyInner s command = .ok (s', result)) :
  HeldBack s'
  := by
  intro streamId pending hpending
  have hmove : PendingStep streamId command s _ _ := applyInner_pendingStep hok
  rw [hpending] at hmove
  generalize hbefore : s.pendingTransfers[streamId]? = before at hmove
  cases hmove with
  | recorded _ row isTransfer stored opened source =>
    subst isTransfer
    rw [transferStream_streams hok]
    exact ⟨row, stored, .inr ⟨opened, source⟩⟩
  | kept =>
    obtain ⟨row, hrow, hheld⟩ := h streamId pending hbefore
    have hrowMove := (applyInner_rowsStep hbelow hok).row streamId
    rw [hrow] at hrowMove
    generalize hafter : s'.streams[streamId]? = after at hrowMove
    cases hrowMove with
    | kept _ row' epoch state nodeId endOffset =>
      refine ⟨row', rfl, ?_⟩
      rw [state]
      apply hheld.imp_right
      rintro ⟨hopened, hnode⟩
      exact ⟨hopened, (nodeId hopened).trans hnode⟩
    | opened _ nodeId nodeEpoch epoch isOpen =>
      subst isOpen
      cases (hopen streamId rfl).symm.trans hbefore
    | closed => exact ⟨_, rfl, .inl rfl⟩
    | deleted _ nodeId nodeEpoch isDelete =>
      subst isDelete
      rcases deleteStream_pending hok with ⟨-, hnone⟩ | hpendings
      · cases hnone.symm.trans hrow
      · rw [hpendings, lookup_erase, if_pos rfl] at hpending
        cases hpending

namespace Cluster

variable {c c' : Cluster} {action : ClusterAction}

/-- A proposed command is applied to the state, which joins the past. -/
theorem propose_eq {result : Except MetadataError MetadataResult}
    (h : c.propose command = some (c', result)) :
  apply c.state command = some (c'.state, result) ∧ c'.past = c.past ++ [c.state]
  := by
  obtain ⟨⟨state, result⟩, happly, heq⟩ := Option.map_eq_some_iff.mp h
  cases heq
  exact ⟨happly, rfl⟩

/-- Waiting changes the node only. -/
theorem settle_same (c : Cluster) (i : ℕ) (node : OpenerNode) (streamId : UInt64) (late : Bool) :
  (c.settle i node streamId late).past = c.past ∧ (c.settle i node streamId late).state = c.state
  := by
  unfold settle
  repeat' split
  all_goals exact ⟨rfl, rfl⟩

theorem openStream_eq {i : ℕ} {node : OpenerNode} {streamId epoch : UInt64} {answered : Bool}
    (h : c.openStream i node streamId epoch answered = some c') :
  ∃ result,
    apply c.state (.openStream node.nodeId node.nodeEpoch streamId epoch.toInt64)
      = some (c'.state, result) ∧
    c'.past = c.past ++ [c.state]
  := by
  obtain ⟨⟨c₁, result⟩, hpropose, heq⟩ := Option.map_eq_some_iff.mp h
  obtain ⟨happly, hpast⟩ := propose_eq hpropose
  refine ⟨result, ?_⟩
  dsimp only at heq
  repeat' split at heq
  all_goals
    subst heq
    exact ⟨happly, hpast⟩

/-- The states after a step: those before it, or one more that a command led to. Only a node that
has passed the loop of `await_transfer_settled` opens a stream. -/
theorem states_of_play (h : c.play action = some c') :
  (c'.past = c.past ∧ c'.state = c.state) ∨
    ∃ command result, apply c.state command = some (c'.state, result) ∧
      c'.past = c.past ++ [c.state] ∧
      (action = .propose command ∧ opensStream command = none ∨ ∃ i answered node,
        action = .openStream i answered ∧ c.nodes[i]? = some node ∧
        (opensStream command).isSome ∧ node.opening.proposed = opensStream command)
  := by
  cases action with
  | propose command =>
    simp only [play] at h
    split at h
    next => cases h
    next hopens =>
      obtain ⟨⟨c₁, result⟩, hpropose, rfl⟩ := Option.map_eq_some_iff.mp h
      obtain ⟨happly, hpast⟩ := propose_eq hpropose
      exact .inr ⟨command, result, happly, hpast, .inl ⟨rfl, by simpa using hopens⟩⟩
  | openStream i answered =>
    obtain ⟨node, hnode, h⟩ := Option.bind_eq_some_iff.mp h
    split at h
    next streamId epoch hopening =>
      obtain ⟨result, happly, hpast⟩ := openStream_eq h
      refine .inr ⟨_, result, happly, hpast, .inr ⟨i, answered, node, rfl, hnode, rfl, ?_⟩⟩
      rw [hopening]
      rfl
    next => cases h
  | catchUp i =>
    obtain ⟨node, -, h⟩ := Option.bind_eq_some_iff.mp h
    obtain ⟨-, -, h⟩ := Option.bind_eq_some_iff.mp h
    cases h
    exact .inl ⟨rfl, rfl⟩
  | ensureOpen i streamId =>
    obtain ⟨node, -, h⟩ := Option.bind_eq_some_iff.mp h
    obtain ⟨-, -, h⟩ := Option.bind_eq_some_iff.mp h
    left
    split at h
    all_goals
      cases h
      exact ⟨rfl, rfl⟩
  | settle i late =>
    obtain ⟨node, -, h⟩ := Option.bind_eq_some_iff.mp h
    split at h
    next streamId _ =>
      cases h
      exact .inl (settle_same c i node streamId late)
    next => cases h
  | release i streamId =>
    obtain ⟨node, -, h⟩ := Option.bind_eq_some_iff.mp h
    cases h
    exact .inl ⟨rfl, rfl⟩
  | restart i nodeEpoch =>
    obtain ⟨node, -, h⟩ := Option.bind_eq_some_iff.mp h
    cases h
    exact .inl ⟨rfl, rfl⟩

/-- A row has an id that was handed out, also after a step. -/
theorem idsBelow_of_play (h : IdsBelow c.state) (hplay : c.play action = some c') :
  IdsBelow c'.state
  := by
  rcases states_of_play hplay with ⟨-, hstate⟩ | ⟨command, result, happly, -, -⟩
  · rw [hstate]
    exact h
  · exact ((Since.refl h).apply h happly).below

/-- An `OpenStream` is applied while no transfer of its stream is pending, as in the view that was
checked before it. -/
def Current (c : Cluster) : ClusterAction → Prop
  | .openStream i _ => ∀ node ∈ c.nodes[i]?,
      (node.opening.proposed.bind fun streamId => c.state.pendingTransfers[streamId]?) = none
  | _ => True

instance decidableCurrent (c : Cluster) : DecidablePred c.Current :=
  fun action => by cases action <;> dsimp only [Current] <;> infer_instance

/-- In every state of the log others are kept out. -/
structure KeptOut (c : Cluster) : Prop where
  heldBack : ∀ s ∈ c.states, HeldBack s
  below : IdsBelow c.state

theorem KeptOut.play (h : c.KeptOut) (hcurrent : c.Current action)
    (hplay : c.play action = some c') :
  c'.KeptOut
  := by
  refine ⟨?_, idsBelow_of_play h.below hplay⟩
  rcases states_of_play hplay with ⟨hpast, hstate⟩ | ⟨command, result, happly, hpast, hopens⟩
  · rw [states, hpast, hstate]
    exact h.heldBack
  · have hlast : HeldBack c'.state := by
      have hnow := h.heldBack c.state (mem_append_right _ mem_cons_self)
      rcases apply_cases happly with ⟨value, hok, -⟩ | ⟨heq, -⟩
      · apply hnow.applyInner h.below _ hok
        intro streamId hstream
        rcases hopens with ⟨-, hnone⟩ | ⟨i, answered, node, rfl, hnode, -, hproposed⟩
        · cases hnone.symm.trans hstream
        · have hnone := hcurrent node hnode
          rw [hproposed, hstream] at hnone
          exact hnone
      · rw [heq]
        exact hnow
    intro s hs
    rw [states, hpast] at hs
    rcases mem_append.mp hs with hs | hs
    · apply h.heldBack s hs
    · rw [mem_singleton.mp hs]
      exact hlast

theorem keptOut_start (nodes : List (Int32 × Int64)) :
  (start nodes).KeptOut
  := by
  constructor
  · intro s hs streamId pending hpending
    obtain rfl : s = .new := by simpa [start, states] using hs
    simp [MetadataState.new] at hpending
  · exact idsBelow_new

/-- In every run in which no `OpenStream` is applied while a transfer of its stream is pending, a
stream with a pending transfer is closed or opened on the source, in every state of the log. -/
theorem run_heldBack {nodes : List (Int32 × Int64)} {actions : List ClusterAction}
    (hcurrent : Along play Current actions (start nodes))
    (hrun : (start nodes).run actions = some c) :
  ∀ s ∈ c.states, ∀ (streamId : UInt64) (pending : PendingTransfer),
    s.pendingTransfers[streamId]? = some pending → ∃ row, s.streams[streamId]? = some row ∧
      (row.state = .closed ∨ row.state = .opened ∧ row.nodeId = pending.fromNode)
  := by
  have hkept : c.KeptOut := by
    apply Along.induction (I := KeptOut) _ hcurrent (keptOut_start nodes) hrun
    intro c action c' haction h hplay
    apply h.play haction hplay
  exact hkept.heldBack

/-- Node 1 opens a stream. -/
def openedOnSource : List ClusterAction :=
  [.propose (.registerNode 1 1 "" 1), .propose (.registerNode 2 1 "" 1),
    .propose (.registerNode 3 1 "" 1), .propose (.createStream 1 1), .catchUp 0, .catchUp 0,
    .catchUp 0, .catchUp 0, .ensureOpen 0 0, .settle 0 false, .openStream 0 true]

/-- The stream is released to node 2. -/
def releasedToTarget : List ClusterAction :=
  openedOnSource ++ [.propose (.transferStream 0 1 2), .release 0 0,
    .propose (.closeStream 1 1 0 1)]

theorem run_heldBack_releasedToTarget :
  ∃ c, (start [(1, 1), (2, 1), (3, 1)]).run releasedToTarget = some c ∧
    c.state.pendingTransfers[(0 : UInt64)]? = some ⟨1, 2⟩ ∧
    ∃ row : StreamRow, c.state.streams[(0 : UInt64)]? = some row ∧
      (row.state = .closed ∨ row.state = .opened ∧ row.nodeId = 1)
  := by
  obtain ⟨c, hguarded, hpending⟩ : ∃ c, releasedToTarget.foldlM (guarded play Current)
      (start [(1, 1), (2, 1), (3, 1)]) = some c ∧
      c.state.pendingTransfers[(0 : UInt64)]? = some ⟨1, 2⟩ := by
    decide +kernel
  obtain ⟨hcurrent, hrun⟩ := along_of_guarded hguarded
  have hlast : c.state ∈ c.states := mem_append_right _ mem_cons_self
  exact ⟨c, hrun, hpending, run_heldBack hcurrent hrun c.state hlast 0 ⟨1, 2⟩ hpending⟩

/-- Node 3 has a view of the stream opened at epoch 1 and passes the check before the transfer is
recorded. Its open is applied after the source has closed the stream. -/
def openedByThird : List ClusterAction :=
  openedOnSource ++ List.replicate 5 (.catchUp 2) ++ [.ensureOpen 2 0, .settle 2 false,
    .propose (.transferStream 0 1 2), .release 0 0, .propose (.closeStream 1 1 0 1),
    .openStream 2 true]

/-- The stream is opened on node 3 while its transfer from node 1 to node 2 is pending. -/
theorem opened_in_transfer_openedByThird :
  ∃ c, (start [(1, 1), (2, 1), (3, 1)]).run openedByThird = some c ∧
    c.state.pendingTransfers[(0 : UInt64)]? = some ⟨1, 2⟩ ∧
    ∃ row : StreamRow, c.state.streams[(0 : UInt64)]? = some row ∧ row.state = .opened ∧
      row.nodeId = 3
  := by
  decide +kernel

end Cluster

end Service
