import StreamStack.Sql.Invariant

/-!
# Agreement of the nodes

Every step of every node keeps the log behind the store, provided that no row is appended at an
index that the stored snapshot covers and that snapshots can be written. Views at one index then
agree, and an acknowledged batch is in the history of every later view, once and at its index.
-/

namespace Sql

open Metadata OrdMap History Run
open List hiding next

/-! ### The condition on steps -/

/-- The node with this id, if it is running. -/
def Sys.node (sys : Sys) (id : Nat) : Option Node :=
  match sys.procs[id]? with
  | some (.running n) => some n
  | _ => none

/-- The index a registered batch is about to be appended at. -/
def Flusher.target : Flusher → Option Nat
  | .registered _ next _ => some next
  | _ => none

/-- The condition on a step, in the state before it. A proposed batch fits the encoding and
registers no negative node id, a snapshot is taken of a state whose rows can be counted, and an
append that finds its index free goes beyond the stored snapshot. -/
def Sound (sys : Sys) (id : Nat) : Action → Prop
  | .propose commands => commands.length < 2 ^ 32 ∧
      ∀ command ∈ commands, Codec.Writable command ∧ command.NodeIdNonneg
  | .storeSnapshot _ => ∀ n ∈ sys.node id,
      n.state.kv.size < 2 ^ 64 ∧ n.state.streamObjects.size < 2 ^ 64
  | .append _ => ∀ n ∈ sys.node id, ∀ next ∈ n.flusher.target,
      sys.store.log[next]? = none → sys.store.snapIdx < next
  | _ => True

instance decidableSound (sys : Sys) (id : Nat) : DecidablePred (Sound sys id) :=
  fun a => by cases a <;> dsimp only [Sound] <;> infer_instance

/-- Every step of a run meets the condition. -/
def SoundRun (actions : List (Nat × Action)) : Prop :=
  Along (fun sys (a : Nat × Action) => step sys a.1 a.2) (fun sys a => Sound sys a.1 a.2) actions {}

theorem Sys.node_of_running {sys : Sys} {id : Nat} {n : Node}
    (hn : sys.procs[id]? = some (.running n)) :
  sys.node id = some n
  := by
  rw [Sys.node, hn]

theorem lengths_of_writable {command : MetadataCommand} (h : Codec.Writable command) :
  command.Lengths (· < 2 ^ 32)
  := by
  cases command with
  | commitStreamSetObject => exact h.1
  | registerNode | putKv | putKvIfAbsent => exact h
  | _ => trivial

/-- An encoded batch of sound commands is a good row. -/
theorem good_of_sound {commands : List MetadataCommand} (hlen : commands.length < 2 ^ 32)
    (h : ∀ command ∈ commands, Codec.Writable command ∧ command.NodeIdNonneg) (proposal : Nat) :
  Entry.Good ⟨proposal, Codec.encodeBatch commands⟩
  := by
  use commands
  constructor
  · apply Codec.decodeBatch_encodeBatch hlen
    intro command hmem
    exact (h command hmem).1
  · intro command hmem
    obtain ⟨hwritable, hid⟩ := h command hmem
    exact ⟨hid, lengths_of_writable hwritable⟩

/-! ### Registrations -/

variable {results : BatchResults}

section

variable {L : List Entry} {f : Flusher} {pending : OrdMap Nat Nat} {keep : Nat → Bool}

theorem FlusherInv.close (h : FlusherInv L f) :
  FlusherInv L (f.close pending keep)
  := by
  fun_cases Flusher.close pending keep f with
  | case1 | case3 => exact h
  | case2 | case4 => exact h
  | case5 => exact h

theorem Flusher.held_close :
  (f.close pending keep).held = f.held
  := by
  fun_cases Flusher.close pending keep f <;> rfl

theorem FlusherInv.send (h : FlusherInv L f) {proposal idx : Nat} :
  FlusherInv L (f.send proposal idx results)
  := by
  fun_cases Flusher.send proposal idx results f with
  | case1 | case3 => exact h
  | case2 | case4 => exact h
  | case5 => exact h

theorem Flusher.held_send {proposal idx : Nat} :
  (f.send proposal idx results).held = f.held
  := by
  fun_cases Flusher.send proposal idx results f <;> rfl

end

/-! ### Steps of a cold start -/

variable {idx : Nat} {e : Entry} {buffer : List (Nat × Entry)} {applied : Nat}

/-- The first row of a buffer is ahead of what has been applied. -/
theorem Rows.uncons {L : List Entry} (h : Rows L applied ((idx, e) :: buffer)) :
  applied < idx ∧ RowAt L idx e ∧ Rows L idx buffer
  := by
  obtain ⟨hrows, hsorted⟩ := h
  rw [map_cons, pairwise_cons] at hsorted
  refine ⟨hsorted.1 idx mem_cons_self, hrows (idx, e) mem_cons_self, ?_, hsorted.2⟩
  intro r hr
  exact hrows r (mem_cons_of_mem _ hr)

variable {reply : Reply} {next : Nat}

section

variable {L : List Entry} {sys sys' : Sys} {id : Nat} {action : Action} {config : SqlSinkConfig}

/-- The node that a cold start leaves. -/
theorem NodeInv.opened {snapIdx base : Nat} {s : MetadataState} (h : AtLog L applied s) :
  NodeInv L snapIdx (openedNode config s applied base)
  where
  state := h
  lastSeen := h.1
  tailer := trivial
  flusher := trivial

/-- A node opens at the prefix of the log it has replayed. -/
theorem SysInv.opened (h : SysInv L sys) {s : MetadataState} {base : Nat} (hs : AtLog L applied s) :
  SysInv L ((sys.setNode id (openedNode config s applied base)).emit (.opened id applied s))
  := by
  have hopened : EventInv L (.opened id applied s) := hs
  apply SysInv.emit _ hopened
  apply h.setProc (p := .running (openedNode config s applied base)) (NodeInv.opened hs)
  intro e he
  cases he

/-- The steps of a node that is opening keep the invariant. -/
theorem SysInv.stepOpening (h : SysInv L sys) {o : Opening} (ho : OpeningInv L o)
    (hstep : stepOpening sys id config o action = some sys') :
  SysInv L sys'
  := by
  unfold Sql.stepOpening at hstep
  split at hstep
  next reply =>
    cases hstep
    split
    next => exact h.stop
    next => exact h.setOpening (At.start L)
    next idx payload hload =>
      split
      next => exact h.stop
      next s hdecode => exact h.setOpening (h.store.loaded hload hdecode)
  next s applied base reply =>
    cases hstep
    split
    next => exact h.stop
    next => exact h.opened ho
    next rows _ hrows => exact h.setOpening ⟨ho, h.store.fetched hrows⟩
  next s applied base =>
    cases hstep
    exact h.setOpening ho.1
  next s applied base idx e buffer =>
    cases hstep
    obtain ⟨hs, hrows⟩ := ho
    obtain ⟨hlt, hrow, hrest⟩ := hrows.uncons
    split
    next => exact h.setOpening trivial
    next hgap =>
      obtain rfl : idx = applied + 1 := by omega
      split
      next s' results hplay => exact h.setOpening ⟨hs.row hrow hplay, hrest⟩
      next => exact h.stop
  next reply =>
    cases hstep
    split
    next => exact h.stop
    next => exact h.stop
    next idx payload hload =>
      split
      next => exact h.stop
      next s hdecode => exact h.setOpening (h.store.loaded hload hdecode)
  next => cases hstep

/-! ### Steps of the tailer -/

variable {n : Node}

theorem NodeInv.poison {snapIdx : Nat} (h : NodeInv L snapIdx n) :
  NodeInv L snapIdx n.poison
  := { h with tailer := trivial, flusher := h.flusher.close }

section

variable (h : SysInv L sys) (hn : sys.procs[id]? = some (.running n))

include h hn

/-- The row a tailer applies next. -/
theorem SysInv.applyRow (hrows : Rows L n.applied ((idx, e) :: buffer))
    (hgap : ¬ idx > n.applied + 1) :
  SysInv L (match playRow n.state e with
    | .corrupt => sys.setNode id n.poison
    | .overflow => sys.setNode id { n with tailer := .stopped }
    | .done state results =>
      sys.setNode id { n with state, applied := idx, tailer := .applied idx results buffer })
  := by
  have hnode : NodeInv L sys.store.snapIdx n := h.procs id _ hn
  obtain ⟨hlt, hrow, hrest⟩ := hrows.uncons
  obtain rfl : idx = n.applied + 1 := by omega
  split
  next => exact h.setNode hn hnode.poison (.inr Flusher.held_close)
  next => exact h.setNode hn { hnode with tailer := trivial } (.inr rfl)
  next s results hplay =>
    refine h.setNode hn ?_ (.inr rfl)
    exact { hnode with state := hnode.state.row hrow hplay, tailer := ⟨rfl, hrest⟩ }

/-- The snapshot a tailer restores from. -/
theorem SysInv.restoreLoad (reply : Reply) :
  SysInv L (match sys.store.loadSnapshot reply with
    | .error _ => sys.setNode id { n with tailer := .idle }
    | .ok none => sys.setNode id n.poison
    | .ok (some (snapIdx, payload)) =>
      if snapIdx ≤ n.applied then sys.setNode id n.poison
      else match Snapshot.decode payload with
      | .error _ => sys.setNode id n.poison
      | .ok state => sys.setNode id { n with tailer := .restored snapIdx state })
  := by
  have hnode : NodeInv L sys.store.snapIdx n := h.procs id _ hn
  have hpoison : SysInv L (sys.setNode id n.poison) :=
    h.setNode hn hnode.poison (.inr Flusher.held_close)
  split
  next => exact h.setNode hn { hnode with tailer := trivial } (.inr rfl)
  next => exact hpoison
  next snapIdx payload hload =>
    split
    next => exact hpoison
    next =>
      split
      next => exact hpoison
      next s hdecode =>
        have hrestored := h.store.loaded hload hdecode
        exact h.setNode hn { hnode with tailer := hrestored } (.inr rfl)

theorem SysInv.storeSnapshot (hpairs : n.state.kv.size < 2 ^ 64)
    (hobjects : n.state.streamObjects.size < 2 ^ 64) {store : Store} {r : Except StoreError Unit}
    (hstore : sys.store.storeSnapshot reply n.applied (Snapshot.encode n.state) = (store, r)) :
  SysInv L { sys with store }
  := by
  have hnode : NodeInv L sys.store.snapIdx n := h.procs id _ hn
  have hinv : Inv True (· < 2 ^ 32) n.state := hnode.state.inv h.good
  have hdecode := Snapshot.decode_encode hinv (Snapshot.Fits.of_inv hinv hpairs hobjects)
  obtain ⟨-, hle, -, -⟩ := Store.storeSnapshot_cases hstore
  exact h.setStore (h.store.storeSnapshot hnode.state hdecode hstore) hle

/-- The steps of the tailer keep the invariant. -/
theorem SysInv.stepTailer (hsound : Sound sys id action)
    (hstep : stepTailer sys id n n.tailer action = some sys') :
  SysInv L sys'
  := by
  have hnode : NodeInv L sys.store.snapIdx n := h.procs id _ hn
  have htail := hnode.tailer
  generalize n.tailer = t at hstep htail
  unfold Sql.stepTailer at hstep
  split at hstep
  next reply =>
    cases hstep
    split
    next => exact h
    next => exact h
    next rows _ hrows =>
      exact h.setNode hn { hnode with tailer := h.store.fetched hrows } (.inr rfl)
  next idx e buffer =>
    cases hstep
    split
    next => exact h.setNode hn { hnode with tailer := trivial } (.inr rfl)
    next hgap => exact h.applyRow hn htail hgap
  next idx results buffer =>
    cases hstep
    obtain ⟨rfl, hrows⟩ := htail
    have hseen := Nat.max_le.mpr ⟨hnode.lastSeen, hnode.state.1⟩
    exact h.setNode hn { hnode with lastSeen := hseen, tailer := ⟨rfl, hrows⟩ } (.inr rfl)
  next idx results buffer =>
    cases hstep
    obtain ⟨rfl, hrows⟩ := htail
    have hevent : EventInv L (.published id n.applied n.state) := hnode.state
    apply SysInv.emit _ hevent
    exact h.setNode hn { hnode with tailer := ⟨rfl, hrows⟩ } (.inr rfl)
  next idx results buffer =>
    cases hstep
    split
    next proposal hproposal =>
      apply h.setNode hn _ (.inr Flusher.held_send)
      exact { hnode with flusher := hnode.flusher.send, tailer := htail.2 }
    next => exact h.setNode hn { hnode with tailer := htail.2 } (.inr rfl)
  next reply =>
    cases hstep
    exact h.restoreLoad hn reply
  next snapIdx s =>
    cases hstep
    have hseen := Nat.max_le.mpr ⟨hnode.lastSeen, htail.1⟩
    exact h.setNode hn { hnode with lastSeen := hseen, tailer := htail } (.inr rfl)
  next snapIdx s =>
    cases hstep
    have hevent : EventInv L (.published id snapIdx s) := htail
    apply SysInv.emit _ hevent
    exact h.setNode hn { hnode with tailer := htail } (.inr rfl)
  next snapIdx s =>
    cases hstep
    apply h.setNode hn _ (.inr Flusher.held_close)
    exact { hnode with state := htail, flusher := hnode.flusher.close, tailer := trivial }
  next =>
    cases hstep
    refine h.setNode hn { hnode with tailer := ?_ } (.inr rfl)
    split <;> trivial
  next reply =>
    obtain ⟨hpairs, hobjects⟩ := hsound n (Sys.node_of_running hn)
    rcases hstore : sys.store.storeSnapshot reply n.applied (Snapshot.encode n.state)
      with ⟨store, r⟩
    simp only [hstore, Option.some.injEq] at hstep
    have h := h.storeSnapshot hn hpairs hobjects hstore
    have hnode : NodeInv L store.snapIdx n := h.procs id _ hn
    obtain ⟨-, -, -, hcovered⟩ := Store.storeSnapshot_cases hstore
    cases r with
    | ok =>
      subst hstep
      exact h.setNode hn { hnode with tailer := hcovered rfl } (.inr rfl)
    | error =>
      subst hstep
      exact h.setNode hn { hnode with tailer := trivial } (.inr rfl)
  next reply =>
    rcases hstore : sys.store.truncateLog reply n.applied with ⟨store, r⟩
    simp only [hstore, Option.some.injEq] at hstep
    subst hstep
    obtain ⟨hinv, hsame⟩ := h.store.truncateLog htail hstore
    have h := h.setStore hinv (Nat.le_of_eq hsame.symm)
    have hnode : NodeInv L store.snapIdx n := h.procs id _ hn
    exact h.setNode hn { hnode with tailer := trivial } (.inr rfl)
  next => cases hstep

end

/-! ### Steps of the flusher -/

/-- An append that finds its index free and goes beyond the snapshot goes to the end of the
log. -/
theorem SysInv.append_end (h : SysInv L sys) (hpos : 1 ≤ next) (hle : next ≤ L.length + 1)
    (hfree : sys.store.log[next]? = none) (hlt : sys.store.snapIdx < next) :
  next = L.length + 1
  := by
  by_contra hne
  obtain ⟨e, he⟩ := (mem_iff_lookup _ _).mp (h.store.kept next hpos (by omega) hlt)
  cases hfree.symm.trans he

/-- An append of a registered batch, whatever the store makes of it. -/
theorem SysInv.stepAppend (h : SysInv L sys) {rx : Rx} (hn : sys.procs[id]? = some (.running n))
    (hf : n.flusher = .registered e next rx)
    (hsound : sys.store.log[next]? = none → sys.store.snapIdx < next)
    (hstep : stepFlusher sys id n (.registered e next rx) (.append reply) = some sys') :
  ∃ L', SysInv L' sys'
  := by
  have hnode : NodeInv L sys.store.snapIdx n := h.procs id _ hn
  have hheld : n.flusher.held = some e := by rw [hf]; rfl
  have hflusher := hnode.flusher
  rw [hf] at hflusher
  rcases hstore : sys.store.append reply next e with ⟨store, r⟩
  simp only [Sql.stepFlusher, hstore, Option.some.injEq] at hstep
  subst hstep
  rcases Store.append_cases hstore with ⟨rfl, hr⟩ | ⟨hfree, rfl, hr⟩
  · use L
    split
    next => exact absurd rfl hr
    next => exact h.setNode hn { hnode with flusher := trivial } (.inr hheld.symm)
    next => exact h.setNode hn { hnode with flusher := trivial } (.inl rfl)
  · obtain rfl := h.append_end hflusher.1 hflusher.2 hfree (hsound hfree)
    have hnode' : NodeInv (L ++ [e]) sys.store.snapIdx n := (h.procs id _ hn).mono [e] (le_refl _)
    have hrow : RowAt (L ++ [e]) (L.length + 1) e := by simp [RowAt]
    use L ++ [e]
    split
    next => exact h.append hn hheld { hnode' with flusher := hrow } rfl
    next => exact absurd rfl hr
    next => exact h.append hn hheld { hnode' with flusher := trivial } rfl

/-- The steps of the flusher keep the invariant, for a log that may have a row more. -/
theorem SysInv.stepFlusher (h : SysInv L sys) (hn : sys.procs[id]? = some (.running n))
    (hsound : Sound sys id action) (hstep : stepFlusher sys id n n.flusher action = some sys') :
  ∃ L', SysInv L' sys'
  := by
  have hnode : NodeInv L sys.store.snapIdx n := h.procs id _ hn
  have hflusher := hnode.flusher
  generalize hf : n.flusher = f at hstep hflusher
  have hidle : SysInv L (sys.setNode id { n with flusher := .idle }) :=
    h.setNode hn { hnode with flusher := trivial } (.inl rfl)
  unfold Sql.stepFlusher at hstep
  split at hstep
  next commands =>
    split at hstep
    next =>
      cases hstep
      use L
      apply h.propose (good_of_sound hsound.1 hsound.2 _) _ rfl
      exact { hnode with flusher := trivial }
    next => cases hstep
  next e =>
    cases hstep
    have hnext : FlusherInv L (.loaded e (n.lastSeen + 1)) :=
      ⟨Nat.succ_pos _, Nat.succ_le_succ hnode.lastSeen⟩
    exact ⟨L, h.setNode hn { hnode with flusher := hnext } (.inr (by rw [hf]; rfl))⟩
  next e next =>
    cases hstep
    use L
    split
    next => exact hidle
    next => exact h.setNode hn { hnode with flusher := hflusher } (.inr (by rw [hf]; rfl))
  next e next rx reply =>
    have htarget : n.flusher.target = some next := by rw [hf]; rfl
    exact h.stepAppend hn hf (hsound n (Sys.node_of_running hn) next htarget) hstep
  next e reply =>
    cases hstep
    use L
    split
    next last hlast =>
      have hseen := Nat.max_le.mpr ⟨hnode.lastSeen, h.store.lastIdx_le hlast⟩
      refine h.setNode hn { hnode with lastSeen := hseen, flusher := trivial } (.inr ?_)
      rw [hf]
      rfl
    next => exact hidle
  next e next results =>
    cases hstep
    use L
    have hevent : EventInv L (.acked id e next results) := hflusher
    exact hidle.emit hevent
  next =>
    cases hstep
    exact ⟨L, hidle⟩
  next => cases hstep

/-! ### Runs -/

/-- A step that meets the condition keeps a log behind the store. -/
theorem step_inv (h : SysInv L sys) (hsound : Sound sys id action)
    (hstep : step sys id action = some sys') :
  ∃ L', SysInv L' sys'
  := by
  unfold step at hstep
  split at hstep
  next config _ =>
    cases hstep
    exact ⟨L, h.setOpening trivial⟩
  next =>
    cases hstep
    exact ⟨L, h.stop⟩
  next config o _ hproc _ => exact ⟨L, h.stepOpening (h.procs id _ hproc) hstep⟩
  next n _ hn _ =>
    rcases Option.or_eq_some_iff.mp hstep with htailer | ⟨-, hflusher⟩
    · exact ⟨L, h.stepTailer hn hsound htailer⟩
    · exact h.stepFlusher hn hsound hflusher
  next => cases hstep

end

variable {actions : List (Nat × Action)}

/-- Every sound run has a log that it agrees with. -/
theorem run_inv {sys : Sys} (hsound : SoundRun actions) (hrun : run {} actions = some sys) :
  ∃ L, SysInv L sys
  := by
  apply Along.induction (I := fun sys => ∃ L, SysInv L sys) _ hsound ⟨[], sysInv_init⟩ hrun
  rintro sys a sys' hstep ⟨L, h⟩ hsys'
  exact step_inv h hstep hsys'

/-! ### Agreement -/

/-- The views that nodes showed so far, with the node and the applied index. -/
def Sys.views (sys : Sys) : List (Nat × Nat × MetadataState) :=
  sys.trace.filterMap fun
    | .published node idx s | .opened node idx s => some (node, idx, s)
    | .acked .. => none

variable {s : MetadataState}

/-- A view is the state at its index of the log. -/
theorem SysInv.view {L : List Entry} {sys : Sys} (h : SysInv L sys) {node : Nat}
    (hview : (node, idx, s) ∈ sys.views) :
  AtLog L idx s
  := by
  obtain ⟨event, hevent, heq⟩ := mem_filterMap.mp hview
  have hinv := h.events event hevent
  cases event with
  | published | opened =>
    obtain ⟨rfl, rfl, rfl⟩ : _ ∧ _ ∧ _ := by simpa using heq
    exact hinv
  | acked => cases heq

/-- In a run whose steps meet the condition, any two views at one index are equal. -/
theorem views_agree {actions : List (Nat × Action)} {sys : Sys} (hsound : SoundRun actions)
    (hrun : run {} actions = some sys) {node node' idx : Nat} {s s' : MetadataState}
    (hview : (node, idx, s) ∈ sys.views) (hview' : (node', idx, s') ∈ sys.views) :
  s = s'
  := by
  obtain ⟨L, h⟩ := run_inv hsound hrun
  exact (h.view hview).unique (h.view hview')

/-- A node opens on what is in the store. -/
def bootRun (id snapshotEvery : Nat) : List (Nat × Action) :=
  [(id, .start ⟨256, 1024, snapshotEvery⟩), (id, .openLoad .answered), (id, .openFetch .answered)]

/-- A node fetches a row, applies it and publishes the view. -/
def tailRun (id : Nat) : List (Nat × Action) :=
  [(id, .fetch .answered), (id, .row), (id, .markSeen), (id, .publish), (id, .deliver)]

/-- A node commits a batch: it appends the row, applies it and acknowledges it. -/
def commitRun (id : Nat) (commands : List MetadataCommand) : List (Nat × Action) :=
  [(id, .propose commands), (id, .load), (id, .register), (id, .append .answered)] ++ tailRun id ++
    [(id, .await), (id, .finishRows)]

def compactRun (id : Nat) : List (Nat × Action) :=
  [(id, .storeSnapshot .answered), (id, .truncate .answered)]

/-- One node commits, takes a snapshot and truncates, after another has followed. -/
def followRun : List (Nat × Action) :=
  bootRun 1 1 ++ bootRun 2 0 ++ commitRun 1 [.registerNode 1 10 "" 1] ++ tailRun 2 ++
    [(2, .finishRows)] ++ compactRun 1 ++ commitRun 2 [.registerNode 2 20 "" 1]

/-- The same, but the other node has not looked at the log when it commits. -/
def forkRun : List (Nat × Action) :=
  bootRun 1 1 ++ bootRun 2 0 ++ commitRun 1 [.registerNode 1 10 "" 1] ++ compactRun 1 ++
    commitRun 2 [.registerNode 2 20 "" 1]

/-- The state after a list of commands. -/
def stateAfter (commands : List MetadataCommand) : MetadataState :=
  (applyAll .new commands).getD .new

theorem views_agree_followRun :
  ∃ sys s s', run {} followRun = some sys ∧ (1, 1, s) ∈ sys.views ∧ (2, 1, s') ∈ sys.views ∧ s = s'
  := by
  have hsound : SoundRun followRun := by
    unfold SoundRun
    decide +kernel
  obtain ⟨sys, hrun, hview, hview'⟩ : ∃ sys, run {} followRun = some sys ∧
      (1, 1, stateAfter [.registerNode 1 10 "" 1]) ∈ sys.views ∧
      (2, 1, stateAfter [.registerNode 1 10 "" 1]) ∈ sys.views := by
    decide +kernel
  exact ⟨sys, _, _, hrun, hview, hview', views_agree hsound hrun hview hview'⟩

/-- Two nodes publish different states at index 1: the first has truncated the row that the second
did not see, and the second fills the index again. -/
theorem views_disagree_forkRun :
  ∃ sys s s', run {} forkRun = some sys ∧ (1, 1, s) ∈ sys.views ∧ (2, 1, s') ∈ sys.views ∧ s ≠ s'
  := by
  obtain ⟨sys, hrun, hview, hview'⟩ : ∃ sys, run {} forkRun = some sys ∧
      (1, 1, stateAfter [.registerNode 1 10 "" 1]) ∈ sys.views ∧
      (2, 1, stateAfter [.registerNode 2 20 "" 1]) ∈ sys.views := by
    decide +kernel
  refine ⟨sys, _, _, hrun, hview, hview', ?_⟩
  decide +kernel

/-! ### Acknowledged batches -/

/-- The state results from a history of `idx` rows that has the batch at index `i` and nowhere
else. -/
def HasOnce (e : Entry) (i idx : Nat) (s : MetadataState) : Prop :=
  ∃ H : List Entry, H.length = idx ∧ H.foldlM play .new = some s ∧ RowAt H i e ∧
    ∀ j e', RowAt H j e' → e'.proposal = e.proposal → j = i

variable {i : Nat}

/-- A batch is in the log once. -/
theorem ProposalsInv.once {L : List Entry} {procs : OrdMap Nat Proc} (h : ProposalsInv L procs next)
    {j : Nat} {e' : Entry} (he : RowAt L i e) (he' : RowAt L j e')
    (hsame : e'.proposal = e.proposal) :
  j = i
  := by
  obtain ⟨hi, he⟩ := he
  obtain ⟨hj, he'⟩ := he'
  have hmap : (L.map Entry.proposal)[j - 1]? = (L.map Entry.proposal)[i - 1]? := by
    rw [getElem?_map, getElem?_map, he, he', Option.map_some, Option.map_some, hsame]
  have hlt : j - 1 < (L.map Entry.proposal).length := by
    rw [length_map]
    exact (List.getElem?_eq_some_iff.mp he').1
  have := (getElem?_inj hlt h.nodup).mp hmap
  omega

theorem rowAt_take {L : List Entry} :
  RowAt (L.take idx) i e ↔ RowAt L i e ∧ i ≤ idx
  := by
  rw [RowAt, RowAt, getElem?_take]
  split
  next => constructor <;> rintro ⟨h, h'⟩ <;> grind
  next => constructor <;> rintro ⟨h, h'⟩ <;> grind

/-- A state has every row up to its index once. -/
theorem SysInv.hasOnce {L : List Entry} {sys : Sys} (h : SysInv L sys) (hs : AtLog L idx s)
    (hrow : RowAt L i e) (hle : i ≤ idx) :
  HasOnce e i idx s
  := by
  use L.take idx
  refine ⟨length_take_of_le hs.1, hs.2, rowAt_take.mpr ⟨hrow, hle⟩, ?_⟩
  intro j e' he'
  exact h.proposals.once hrow (rowAt_take.mp he').1

/-- A cold start that is about to fetch, with the index it has reached. -/
def Sys.fetching (sys : Sys) (id : Nat) : Option (SqlSinkConfig × Nat) :=
  match sys.procs[id]? with
  | some (.opening config (.fetch _ applied _)) => some (config, applied)
  | _ => none

/-- The further condition on the fetch of a cold start: it asks for rows, and when it finds none
the stored snapshot does not cover rows that the cold start has not applied. -/
def Caught (sys : Sys) (id : Nat) : Action → Prop
  | .openFetch _ => ∀ o ∈ sys.fetching id, 0 < o.1.fetchLimit ∧
      ((∀ r ∈ sys.store.log.toList, r.1 ≤ o.2) → sys.store.snapIdx ≤ o.2)
  | _ => True

instance decidableCaught (sys : Sys) (id : Nat) : DecidablePred (Caught sys id) :=
  fun a => by cases a <;> dsimp only [Caught] <;> infer_instance

/-- Every step of a run meets both conditions. -/
def CaughtRun (actions : List (Nat × Action)) : Prop :=
  Along (fun sys (a : Nat × Action) => step sys a.1 a.2)
    (fun sys a => Sound sys a.1 a.2 ∧ Caught sys a.1 a.2) actions {}

/-- A node that opens after an acknowledgement opens at its index or later. -/
def Covers : List Event → Prop
  | [] => True
  | .opened _ idx _ :: earlier =>
    (∀ node e i results, .acked node e i results ∈ earlier → i ≤ idx) ∧ Covers earlier
  | .published .. :: earlier | .acked .. :: earlier => Covers earlier

/-- A node that opens after an acknowledgement has replayed the row. -/
theorem Covers.le {earlier later : List Event} {node node' : Nat}
    (h : Covers (later ++ .opened node idx s :: earlier))
    (hack : .acked node' e i results ∈ earlier) :
  i ≤ idx
  := by
  induction later with
  | nil => exact h.1 node' e i results hack
  | cons event later ih =>
    apply ih
    cases event with
    | published | acked => exact h
    | opened => exact h.2

section

variable {L : List Entry} {sys sys' : Sys} {id : Nat} {action : Action}

/-- A cold start that finds no more rows has the whole log behind it. -/
theorem SysInv.caughtUp (h : SysInv L sys) {limit : Nat} (hlimit : 0 < limit)
    (hfetch : sys.store.fetchAfter reply applied limit = .ok [])
    (hsnap : (∀ r ∈ sys.store.log.toList, r.1 ≤ applied) → sys.store.snapIdx ≤ applied) :
  L.length ≤ applied
  := by
  have hrows := Store.fetchAfter_nil hlimit hfetch
  have hle := hsnap hrows
  by_contra hlt
  have hmem := h.store.kept L.length (by omega) (le_refl _) (by omega)
  obtain ⟨e, he⟩ := (mem_iff_lookup _ _).mp hmem
  have := hrows _ (Std.ExtTreeMap.mem_toList_iff_getElem?_eq_some.mpr he)
  omega

theorem SysInv.acked {node : Nat} (h : SysInv L sys) (hack : .acked node e i results ∈ sys.trace) :
  RowAt L i e
  := h.events _ hack

theorem stepOpening_covers (h : SysInv L sys) (hcovers : Covers sys.trace)
    {config : SqlSinkConfig} {o : Opening} (ho : sys.procs[id]? = some (.opening config o))
    (hcaught : Caught sys id action) (hstep : stepOpening sys id config o action = some sys') :
  Covers sys'.trace
  := by
  unfold stepOpening at hstep
  split at hstep
  next =>
    cases hstep
    repeat' split
    all_goals exact hcovers
  next s applied base reply =>
    cases hstep
    have hfetching : sys.fetching id = some (config, applied) := by rw [Sys.fetching, ho]
    obtain ⟨hlimit, hsnap⟩ := hcaught (config, applied) hfetching
    split
    next => exact hcovers
    next hfetch =>
      refine ⟨?_, hcovers⟩
      intro node e i results hack
      exact Nat.le_trans (h.acked hack).le (h.caughtUp hlimit hfetch hsnap)
    next => exact hcovers
  next =>
    cases hstep
    exact hcovers
  next =>
    cases hstep
    repeat' split
    all_goals exact hcovers
  next =>
    cases hstep
    repeat' split
    all_goals exact hcovers
  next => cases hstep

/-- The tailer and the flusher open no node. -/
theorem stepTailer_covers (hcovers : Covers sys.trace) {n : Node} {t : Tailer}
    (hstep : stepTailer sys id n t action = some sys') :
  Covers sys'.trace
  := by
  unfold stepTailer at hstep
  split at hstep
  all_goals first | cases hstep; done | cases hstep
  all_goals repeat' split
  all_goals exact hcovers

theorem stepFlusher_covers (hcovers : Covers sys.trace) {n : Node} {f : Flusher}
    (hstep : stepFlusher sys id n f action = some sys') :
  Covers sys'.trace
  := by
  unfold stepFlusher at hstep
  split at hstep
  next =>
    split at hstep
    next =>
      cases hstep
      exact hcovers
    next => cases hstep
  all_goals first | cases hstep; done | cases hstep
  all_goals repeat' split
  all_goals exact hcovers

/-- A step keeps what opened nodes cover. -/
theorem step_covers (h : SysInv L sys) (hcovers : Covers sys.trace)
    (hcaught : Caught sys id action) (hstep : step sys id action = some sys') :
  Covers sys'.trace
  := by
  unfold step at hstep
  split at hstep
  next =>
    cases hstep
    exact hcovers
  next =>
    cases hstep
    exact hcovers
  next config o _ hproc _ => exact stepOpening_covers h hcovers hproc hcaught hstep
  next n _ hn _ =>
    rcases Option.or_eq_some_iff.mp hstep with htailer | ⟨-, hflusher⟩
    · exact stepTailer_covers hcovers htailer
    · exact stepFlusher_covers hcovers hflusher
  next => cases hstep

end

/-- Opened nodes cover what was acknowledged, in every run in which they catch up. -/
theorem run_covers {sys : Sys} (hcaught : CaughtRun actions) (hrun : run {} actions = some sys) :
  ∃ L, SysInv L sys ∧ Covers sys.trace
  := by
  apply Along.induction (I := fun sys => ∃ L, SysInv L sys ∧ Covers sys.trace) _ hcaught
    ⟨[], sysInv_init, trivial⟩ hrun
  rintro sys a sys' ⟨hsound, hcaught⟩ ⟨L, h, hcovers⟩ hstep
  obtain ⟨L', h'⟩ := step_inv h hsound hstep
  exact ⟨L', h', step_covers h hcovers hcaught hstep⟩

/-- In a run whose steps meet both conditions, an acknowledged batch is part of the history of
every view at its index or later, once and at its index, and of every view that a node opens with
after the acknowledgement. -/
theorem acked_hasOnce {actions : List (Nat × Action)} {sys : Sys} (hcaught : CaughtRun actions)
    (hrun : run {} actions = some sys) {node i : Nat} {e : Entry} {results : BatchResults} :
  (.acked node e i results ∈ sys.trace →
      ∀ node' idx s, (node', idx, s) ∈ sys.views → i ≤ idx → HasOnce e i idx s) ∧
    ∀ later earlier node' idx s, sys.trace = later ++ .opened node' idx s :: earlier →
      .acked node e i results ∈ earlier → HasOnce e i idx s
  := by
  obtain ⟨L, h, hcovers⟩ := run_covers hcaught hrun
  constructor
  · intro hack node' idx s hview hle
    exact h.hasOnce (h.view hview) (h.acked hack) hle
  · intro later earlier node' idx s htrace hack
    rw [htrace] at hcovers
    have hopened : EventInv L (.opened node' idx s) := h.events _ (by simp [htrace])
    have hacked : .acked node e i results ∈ sys.trace := by simp [htrace, hack]
    exact h.hasOnce hopened (h.acked hacked) (hcovers.le hack)

/-- A third node opens on a snapshot and one row. -/
def joinRun : List (Nat × Action) :=
  followRun ++ [(3, .start ⟨256, 1024, 0⟩), (3, .openLoad .answered), (3, .openFetch .answered),
    (3, .openRow), (3, .openRow), (3, .openFetch .answered)]

/-- The batch that the first node commits in the runs. -/
def firstBatch : Entry := ⟨0, Codec.encodeBatch [.registerNode 1 10 "" 1]⟩

def secondBatch : Entry := ⟨1, Codec.encodeBatch [.registerNode 2 20 "" 1]⟩

theorem acked_hasOnce_joinRun :
  ∃ sys results later earlier s, run {} joinRun = some sys ∧
    sys.trace = later ++ .opened 3 2 s :: earlier ∧ .acked 1 firstBatch 1 results ∈ earlier ∧
    HasOnce firstBatch 1 2 s
  := by
  have hcaught : CaughtRun joinRun := by
    unfold CaughtRun
    decide +kernel
  obtain ⟨sys, hrun, hopened, hack⟩ : ∃ sys, run {} joinRun = some sys ∧
      .opened 3 2 (stateAfter [.registerNode 1 10 "" 1, .registerNode 2 20 "" 1])
        ∈ sys.trace.head? ∧
      .acked 1 firstBatch 1 [.ok .unit] ∈ sys.trace.tail := by
    decide +kernel
  have htrace := eq_cons_of_mem_head? hopened
  exact ⟨sys, _, [], _, _, hrun, htrace, hack,
    (acked_hasOnce hcaught hrun).2 [] _ _ _ _ htrace hack⟩

/-- A batch is acknowledged at an index and a node that opens later has another one there. -/
theorem acked_lost_forkRun :
  ∃ sys results later earlier s, run {} (forkRun ++ bootRun 3 0) = some sys ∧
    sys.trace = later ++ .opened 3 1 s :: earlier ∧ .acked 2 secondBatch 1 results ∈ earlier ∧
    ¬ HasOnce secondBatch 1 1 s
  := by
  obtain ⟨sys, hrun, hopened, hack⟩ : ∃ sys, run {} (forkRun ++ bootRun 3 0) = some sys ∧
      .opened 3 1 (stateAfter [.registerNode 1 10 "" 1]) ∈ sys.trace.head? ∧
      .acked 2 secondBatch 1 [.ok .unit] ∈ sys.trace.tail := by
    decide +kernel
  refine ⟨sys, _, [], _, _, hrun, eq_cons_of_mem_head? hopened, hack, ?_⟩
  rintro ⟨H, hlen, hplay, ⟨-, hrow⟩, -⟩
  obtain ⟨e, rfl⟩ := length_eq_one_iff.mp hlen
  obtain rfl : e = secondBatch := Option.some.inj hrow
  have hother : [secondBatch].foldlM play .new ≠ some (stateAfter [.registerNode 1 10 "" 1]) := by
    decide +kernel
  exact hother hplay

/-- A cold start loads no snapshot; before it fetches, another node commits, takes a snapshot and
truncates. -/
def staleRun : List (Nat × Action) :=
  bootRun 1 1 ++ [(2, .start ⟨256, 1024, 0⟩), (2, .openLoad .answered)] ++
    commitRun 1 [.registerNode 1 10 "" 1] ++ compactRun 1 ++ [(2, .openFetch .answered)]

-- The first condition alone does not do: this run meets it, and the node opens on the empty state
-- after a batch was acknowledged.
example : Along (fun sys (a : Nat × Action) => step sys a.1 a.2) (fun sys a => Sound sys a.1 a.2)
    staleRun {} ∧ (run {} staleRun).any fun sys => .opened 2 0 .new ∈ sys.trace.head? ∧
      .acked 1 firstBatch 1 [.ok .unit] ∈ sys.trace.tail := by
  decide +kernel

end Sql
