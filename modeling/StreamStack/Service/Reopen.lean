import StreamStack.Service.Handoff

/-!
# Opening a stream again after a failure

When an append does not become durable, the service drops its handle on the stream, and the next
request opens the stream again at the next epoch. Nobody has closed the stream in the metadata,
which refuses to open a stream that is opened.
-/

namespace Service.Cluster

open Metadata OrdMap Run List

/-- What a failed append leaves of a handle: the last epoch is kept. -/
def dropHandle (c : Cluster) (i : ℕ) (node : OpenerNode) (streamId : UInt64) : Cluster :=
  c.setNode i { node with openStreams := node.openStreams.filter (· ≠ streamId) }

/-- One `ensure_open` whose command is applied and answered. -/
def reopening (i : ℕ) (streamId : UInt64) : List ClusterAction :=
  [.ensureOpen i streamId, .settle i false, .openStream i true]

/-- The node has a handle on the stream. -/
def Holds (c : Cluster) (i : ℕ) (streamId : UInt64) : Prop :=
  ∃ node ∈ c.nodes[i]?, streamId ∈ node.openStreams
deriving Decidable

/-- A newer epoch opens a stream that is closed, and only such a stream. -/
theorem apply_openStream_newer {s : MetadataState} {nodeId : Int32} {nodeEpoch epoch : Int64}
    {streamId : UInt64} {row : StreamRow} (hrow : s.streams[streamId]? = some row)
    (hnewer : row.epoch < epoch) (hregistered : nodeEpochCheck s nodeId nodeEpoch = .ok ()) :
  ∃ s' result, apply s (.openStream nodeId nodeEpoch streamId epoch) = some (s', result) ∧
    if row.state = .opened then result = .error (.streamNotClosed streamId)
    else ∃ stream, result = .ok (.stream stream)
  := by
  have hinner : applyInner s (.openStream nodeId nodeEpoch streamId epoch)
      = Metadata.openStream s nodeId nodeEpoch streamId epoch := rfl
  have hfenced : ¬ row.epoch > epoch := by
    intro h
    exact Int64.lt_asymm hnewer h
  have hused : row.epoch ≠ epoch := Int64.ne_of_lt hnewer
  by_cases hopened : row.state = .opened
  all_goals
    simp only [apply, hinner, Metadata.openStream, hregistered, requireStream, hrow, reject, hfenced,
      hused, hopened, bind, Except.bind, if_true, if_false, pure, Except.pure]
  · exact ⟨s, _, rfl, rfl⟩
  · exact ⟨_, _, rfl, _, rfl⟩

theorem nodes_setNode {c : Cluster} {i : ℕ} (h : i < c.nodes.length) (node : OpenerNode) :
  (c.setNode i node).nodes[i]? = some node
  := by
  rw [setNode, getElem?_set_self h]

theorem setNode_setNode (c : Cluster) (i : ℕ) (node node' : OpenerNode) :
  (c.setNode i node).setNode i node' = c.setNode i node'
  := by
  rw [setNode, setNode, set_set]
  rfl

/-- After a node has dropped its handle on a stream, its next `ensure_open` gives it a handle again
just when the stream is closed by then: the epoch is new, no transfer is pending and the node is
registered. -/
theorem holds_of_reopening_iff {c : Cluster} {i : ℕ} {node : OpenerNode} {streamId epoch : UInt64}
    {row : StreamRow} (hnode : c.nodes[i]? = some node) (hidle : node.opening = .idle)
    (hlast : node.localEpochs[streamId]? = some epoch)
    (hrow : c.state.streams[streamId]? = some row) (hnewer : row.epoch < (epoch + 1).toInt64)
    (hregistered : nodeEpochCheck c.state node.nodeId node.nodeEpoch = .ok ())
    (hsettled : (c.view node).pendingTransfers[streamId]? = none) :
  ∃ c', (c.dropHandle i node streamId).run (reopening i streamId) = some c' ∧
    (c'.Holds i streamId ↔ row.state = .closed)
  := by
  obtain ⟨s', result, happly, hresult⟩ := apply_openStream_newer hrow hnewer hregistered
  have hlength : i < c.nodes.length := (List.getElem?_eq_some_iff.mp hnode).1
  let dropped := { node with openStreams := node.openStreams.filter (· ≠ streamId) }
  have hgone : streamId ∉ dropped.openStreams := by
    simp [dropped]
  have hensure : (c.setNode i dropped).play (.ensureOpen i streamId)
      = some (c.setNode i { dropped with opening := .settling streamId }) := by
    simp only [play, nodes_setNode hlength, Option.bind_eq_bind, Option.bind_some]
    rw [if_neg hgone, setNode_setNode]
    simp [hidle, dropped]
  have hsettle : (c.setNode i { dropped with opening := .settling streamId }).play (.settle i false)
      = some (c.setNode i { dropped with
          localEpochs := node.localEpochs.insert streamId (epoch + 1)
          opening := .proposing streamId (epoch + 1) }) := by
    have hview : ((c.setNode i { dropped with opening := .settling streamId }).view
        { dropped with opening := .settling streamId }).pendingTransfers[streamId]? = none :=
      hsettled
    simp only [play, nodes_setNode hlength, Option.bind_eq_bind, Option.bind_some, settle, hview,
      setNode_setNode, nextEpoch, dropped, hlast]
    rfl
  have hopen : ∃ c', (c.setNode i { dropped with
      localEpochs := node.localEpochs.insert streamId (epoch + 1)
      opening := .proposing streamId (epoch + 1) }).play (.openStream i true) = some c' ∧
        (c'.Holds i streamId ↔ row.state = .closed) := by
    simp only [play, nodes_setNode hlength, Option.bind_eq_bind, Option.bind_some, openStream,
      propose]
    change ∃ c', Option.map _ (Option.map _ (apply c.state (.openStream node.nodeId node.nodeEpoch
      streamId (epoch + 1).toInt64))) = some c' ∧ _
    rw [happly]
    refine ⟨_, rfl, ?_⟩
    split at hresult
    next hopened =>
      subst hresult
      simp [Holds, hopened, setNode, hlength, dropped]
    next hclosed =>
      obtain ⟨stream, rfl⟩ := hresult
      have hstate : row.state = .closed := by
        cases h : row.state with
        | closed => rfl
        | opened => exact absurd h hclosed
      simp [Holds, hstate, setNode, hlength]
  obtain ⟨c', hopen, hholds⟩ := hopen
  refine ⟨c', ?_, hholds⟩
  change (reopening i streamId).foldlM play (c.setNode i dropped) = some c'
  simp only [reopening, foldlM_cons, hensure, hsettle, hopen, foldlM_nil, Option.bind_eq_bind,
    Option.bind_some, Option.pure_def]

/-! ### What a sole owner is granted -/

section Sole

variable {nodeId : Int32} {nodeEpoch epoch : Int64} {streamId : UInt64}

/-- The stream has the epoch, the node is registered and no transfer of the stream is pending. -/
structure Granted (nodeId : Int32) (nodeEpoch : Int64) (streamId : UInt64) (epoch : Int64)
    (s : MetadataState) : Prop where
  row : ∃ row, s.streams[streamId]? = some row ∧ row.epoch = epoch
  registered : nodeEpochCheck s nodeId nodeEpoch = .ok ()
  settled : s.pendingTransfers[streamId]? = none

/-- A command that neither opens, transfers or deletes the stream nor registers the node anew. -/
def SoleCommand (nodeId : Int32) (nodeEpoch : Int64) (streamId : UInt64) :
    MetadataCommand → Prop
  | .registerNode id epoch _ _ => id = nodeId → epoch = nodeEpoch
  | .openStream _ _ id _ | .transferStream id _ _ | .deleteStream _ _ id _ => id ≠ streamId
  | _ => True

/-- Nobody else has to do with the stream. A node that has a handle does not open it again. -/
def Sole (nodeId : Int32) (nodeEpoch : Int64) (streamId : UInt64) (c : Cluster) :
    ClusterAction → Prop
  | .propose command => SoleCommand nodeId nodeEpoch streamId command
  | .openStream i _ => ∀ node ∈ c.nodes[i]?, node.opening.proposed ≠ some streamId
  | _ => True

theorem Granted.apply {s s' : MetadataState} {command : MetadataCommand}
    {result : Except MetadataError MetadataResult}
    (h : Granted nodeId nodeEpoch streamId epoch s) (hbelow : IdsBelow s)
    (hsole : SoleCommand nodeId nodeEpoch streamId command)
    (happly : apply s command = some (s', result)) :
  Granted nodeId nodeEpoch streamId epoch s'
  := by
  rcases apply_cases happly with ⟨value, hok, -⟩ | ⟨rfl, -⟩
  · constructor
    · obtain ⟨row, hrow, rfl⟩ := h.row
      have hmove := (applyInner_rowsStep hbelow hok).row streamId
      rw [hrow] at hmove
      generalize s'.streams[streamId]? = after at hmove
      cases hmove with
      | kept _ row' hepoch => exact ⟨row', rfl, hepoch⟩
      | closed => exact ⟨_, rfl, rfl⟩
      | opened _ _ _ _ hcommand | deleted _ _ _ hcommand =>
        subst hcommand
        exact absurd rfl hsole
    · apply nodeEpochCheck_of_applyInner hok _ h.registered
      rintro epoch address slots rfl
      exact hsole rfl
    · have hmove : PendingStep streamId command s _ _ := applyInner_pendingStep hok
      rw [h.settled] at hmove
      generalize s'.pendingTransfers[streamId]? = after at hmove
      cases hmove with
      | kept | dropped => rfl
      | recorded _ _ hcommand =>
        subst hcommand
        exact absurd rfl hsole
  · exact h

variable {c c' : Cluster}

/-- What a node was granted lasts while it is the sole owner, in every state of the log. -/
theorem granted_of_run {nodes : List (Int32 × Int64)} {first rest : List ClusterAction}
    (hfirst : (start nodes).run first = some c)
    (h : Granted nodeId nodeEpoch streamId epoch c.state)
    (hsettled : ∀ s ∈ c.states, s.pendingTransfers[streamId]? = none)
    (hsole : Along play (Sole nodeId nodeEpoch streamId) rest c) (hrun : c.run rest = some c') :
  Granted nodeId nodeEpoch streamId epoch c'.state ∧
    ∀ s ∈ c'.states, s.pendingTransfers[streamId]? = none
  := by
  have hbelow : IdsBelow c.state :=
    foldlM_some_induction (I := fun c => IdsBelow c.state)
      (fun _ _ _ _ h => idsBelow_of_play h) idsBelow_new hfirst
  refine (Along.induction (I := fun c => IdsBelow c.state ∧
    Granted nodeId nodeEpoch streamId epoch c.state ∧
      ∀ s ∈ c.states, s.pendingTransfers[streamId]? = none) ?_ hsole ⟨hbelow, h, hsettled⟩ hrun).2
  rintro c action c' haction ⟨hbelow, h, hsettled⟩ hplay
  refine ⟨idsBelow_of_play hbelow hplay, ?_⟩
  rcases states_of_play hplay with ⟨hpast, hstate⟩ | ⟨command, result, happly, hpast, hopens⟩
  · rw [states, hpast, hstate]
    exact ⟨h, hsettled⟩
  · have hcommand : SoleCommand nodeId nodeEpoch streamId command := by
      rcases hopens with ⟨rfl, -⟩ | ⟨i, answered, node, rfl, hnode, hsome, hproposed⟩
      · exact haction
      · have hother := haction node hnode
        rw [hproposed] at hother
        cases command with
        | openStream => exact fun hid => hother (congrArg some hid)
        | _ => cases hsome
    have hgranted := h.apply hbelow hcommand happly
    refine ⟨hgranted, ?_⟩
    intro s hs
    rw [states, hpast] at hs
    rcases mem_append.mp hs with hs | hs
    · exact hsettled s hs
    · rw [mem_singleton.mp hs]
      exact hgranted.settled

/-- An epoch that is not negative as an `i64` is noted as it is. -/
theorem toUInt64_max_zero {epoch : UInt64} (h : epoch.toNat < 2 ^ 63) :
  (max epoch.toInt64 0).toUInt64 = epoch
  := by
  change (if epoch.toInt64 ≤ 0 then 0 else epoch.toInt64).toUInt64 = epoch
  split
  next hle =>
    have htoInt : epoch.toInt64.toInt = epoch.toNat := by
      simp only [UInt64.toInt64, Int64.toInt, Int64.toBitVec, BitVec.toInt, UInt64.toNat_toBitVec]
      omega
    rw [Int64.le_iff_toInt_le, htoInt] at hle
    apply UInt64.toNat_inj.mp
    exact (Nat.le_zero.mp (Int.ofNat_le.mp hle)).symm
  next => rfl

theorem granted_of_apply {s s' : MetadataState} {metadata : StreamMetadata}
    (hsettled : s.pendingTransfers[streamId]? = none)
    (happly : apply s (.openStream nodeId nodeEpoch streamId epoch)
      = some (s', .ok (.stream metadata))) :
  Granted nodeId nodeEpoch streamId epoch s' ∧ metadata.epoch = (max epoch 0).toUInt64
  := by
  rcases apply_cases happly with ⟨value, hok, hvalue⟩ | ⟨-, e, hvalue⟩
  · cases hvalue
    have hcheck : nodeEpochCheck s nodeId nodeEpoch = .ok () := by
      simp only [applyInner, Metadata.openStream, ok_of_do] at hok
      exact hok.choose_spec.1
    have hcheck' := nodeEpochCheck_of_applyInner hok (by simp) hcheck
    cases applyInner_handled hok with
    | reopened row stored => exact ⟨⟨⟨row, stored, rfl⟩, hcheck', hsettled⟩, rfl⟩
    | opened => exact ⟨⟨⟨_, by rw [lookup_insert, if_pos rfl], rfl⟩, hcheck', hsettled⟩, rfl⟩
  · cases hvalue

/-- A node that gets a handle has noted the epoch that it is granted. -/
theorem granted_of_openStream {i : ℕ} {node : OpenerNode} {epoch : UInt64} {answered : Bool}
    (hlength : i < c.nodes.length) (hnew : streamId ∉ node.openStreams)
    (hepoch : epoch.toNat < 2 ^ 63) (hsettled : c.state.pendingTransfers[streamId]? = none)
    (hopen : c.openStream i node streamId epoch answered = some c')
    (hholds : c'.Holds i streamId) :
  Granted node.nodeId node.nodeEpoch streamId epoch.toInt64 c'.state ∧
    ∃ node', c'.nodes[i]? = some node' ∧ node'.localEpochs[streamId]? = some epoch
  := by
  obtain ⟨⟨c₁, result⟩, hpropose, heq⟩ := Option.map_eq_some_iff.mp hopen
  obtain ⟨⟨state, _⟩, happly, hc₁⟩ := Option.map_eq_some_iff.mp hpropose
  cases hc₁
  obtain ⟨held, hheld, hmem⟩ := hholds
  dsimp only at heq
  repeat' split at heq
  all_goals
    subst heq
    cases (nodes_setNode (by exact hlength) _).symm.trans hheld
  · obtain ⟨hgranted, hnoted⟩ := granted_of_apply hsettled happly
    refine ⟨hgranted, _, hheld, ?_⟩
    rw [lookup_insert, if_pos rfl, hnoted, toUInt64_max_zero hepoch]
  all_goals exact absurd hmem hnew

end Sole

/-- The one node of a cluster opens a stream. -/
def openedAlone : List ClusterAction :=
  [.propose (.registerNode 1 1 "" 1), .propose (.createStream 1 1), .catchUp 0, .catchUp 0,
    .ensureOpen 0 0, .settle 0 false, .openStream 0 true]

/-- The state in which a node alone has opened a stream, closed it and not opened it again. -/
def closedAlone : List ClusterAction :=
  openedAlone ++ [.propose (.closeStream 1 1 0 1)]

theorem holds_of_reopening_closedAlone :
  ∃ c node c', (start [(1, 1)]).run closedAlone = some c ∧ c.nodes[0]? = some node ∧
    (c.dropHandle 0 node 0).run (reopening 0 0) = some c' ∧ c'.Holds 0 0
  := by
  obtain ⟨c₀, hfirst, hrow, hregistered, hsettled, c, hrun, node, hnode, hidle, hlast, hsame,
      hview, hclosed⟩ : ∃ c₀, (start [(1, 1)]).run openedAlone = some c₀ ∧
      (∃ row, c₀.state.streams[(0 : UInt64)]? = some row ∧ row.epoch = 1) ∧
      nodeEpochCheck c₀.state 1 1 = .ok () ∧
      (∀ s ∈ c₀.states, s.pendingTransfers[(0 : UInt64)]? = none) ∧
      ∃ c, c₀.run [.propose (.closeStream 1 1 0 1)] = some c ∧
      ∃ node, c.nodes[0]? = some node ∧ node.opening = .idle ∧
      node.localEpochs[(0 : UInt64)]? = some 1 ∧ (node.nodeId = 1 ∧ node.nodeEpoch = 1) ∧
      node.applied < c.states.length ∧
      ∀ row ∈ c.state.streams[(0 : UInt64)]?, row.state = .closed := by
    decide +kernel
  have hsole : Along play (Sole 1 1 0) [.propose (.closeStream 1 1 0 1)] c₀ :=
    ⟨trivial, fun _ _ => trivial⟩
  obtain ⟨⟨⟨row, hrow, hepoch⟩, hregistered, -⟩, hsettled⟩ :=
    granted_of_run hfirst ⟨hrow, hregistered, hsettled c₀.state (by simp [states])⟩ hsettled hsole
      hrun
  rw [← hsame.1, ← hsame.2] at hregistered
  have hviewed : (c.view node).pendingTransfers[(0 : UInt64)]? = none := by
    rw [view, getElem?_eq_getElem hview]
    exact hsettled _ (getElem_mem hview)
  have hnewer : row.epoch < (1 + 1 : UInt64).toInt64 := by
    rw [hepoch]
    decide
  obtain ⟨c', hreopen, hiff⟩ :=
    holds_of_reopening_iff hnode hidle hlast hrow hnewer hregistered hviewed
  refine ⟨c, node, c', ?_, hnode, hreopen, hiff.mpr (hclosed row hrow)⟩
  rw [run, closedAlone, foldlM_append, Option.bind_eq_bind]
  exact Option.bind_eq_some_iff.mpr ⟨c₀, hfirst, hrun⟩

/-- A node alone has opened a stream. After a failed append the stream cannot be opened again. -/
theorem reopening_is_refused :
  ∃ c node c', (start [(1, 1)]).run openedAlone = some c ∧ c.Holds 0 0 ∧ c.nodes[0]? = some node ∧
    (c.dropHandle 0 node 0).run (reopening 0 0) = some c' ∧ ¬ c'.Holds 0 0
  := by
  obtain ⟨c, hrun, hholds, node, hnode, c', hreopen, hlost⟩ : ∃ c,
      (start [(1, 1)]).run openedAlone = some c ∧ c.Holds 0 0 ∧
      ∃ node, c.nodes[0]? = some node ∧
      ∃ c', (c.dropHandle 0 node 0).run (reopening 0 0) = some c' ∧ ¬ c'.Holds 0 0 := by
    decide +kernel
  exact ⟨c, node, c', hrun, hholds, hnode, hreopen, hlost⟩

end Service.Cluster
