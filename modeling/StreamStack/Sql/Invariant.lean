import StreamStack.Lib.History
import StreamStack.Sql.Sink

/-!
# The log behind the store

The invariant of the sink speaks of one log: all the rows that were ever appended, as if none had
been truncated. What the store still holds, what a node has buffered and what a snapshot contains
are parts and results of this log, so two views at one index are equal.

The log exists as long as no row is appended at an index that a snapshot covers already. The store
does not prevent this: it refuses a second row at an index only while the first one is in the
table, and truncation removes it. A node that lags behind a truncation then fills the index again,
and its history forks from the others'.
-/

namespace Sql

open Metadata OrdMap History Run
open List hiding next

/-! ### The log that was never truncated -/

/-- Applying a row, as a step of a history. -/
def play (s : MetadataState) (e : Entry) : Option MetadataState :=
  match playRow s e with
  | .done s _ => some s
  | _ => none

/-- The first `n` rows of the log lead to `s`. -/
abbrev AtLog (L : List Entry) (n : Nat) (s : MetadataState) : Prop :=
  At play MetadataState.new L n s

/-- The row of the log at an index; indexes start at 1. -/
def RowAt (L : List Entry) (idx : Nat) (e : Entry) : Prop :=
  1 ≤ idx ∧ L[idx - 1]? = some e

variable {e : Entry}

theorem RowAt.le {L : List Entry} {idx : Nat} (h : RowAt L idx e) :
  idx ≤ L.length
  := by
  obtain ⟨hpos, hrow⟩ := h
  obtain ⟨hlt, -⟩ := List.getElem?_eq_some_iff.mp hrow
  omega

/-- Rows stay when the log gets longer. -/
theorem RowAt.extend {L : List Entry} {idx : Nat} (h : RowAt L idx e) (L' : List Entry) :
  RowAt (L ++ L') idx e
  := by
  obtain ⟨hpos, hrow⟩ := h
  obtain ⟨hlt, -⟩ := List.getElem?_eq_some_iff.mp hrow
  exact ⟨hpos, by rw [getElem?_append_left hlt, hrow]⟩

/-- The commands of a row register no negative node id, and its lengths fit a snapshot. -/
def Entry.Good (e : Entry) : Prop :=
  ∃ commands, Codec.decodeBatch e.payload = .ok commands ∧
    ∀ command ∈ commands, command.NodeIdNonneg ∧ command.Lengths (· < 2 ^ 32)

variable {s : MetadataState} {results : BatchResults} {s' : MetadataState}

/-- A batch of sound commands keeps the invariant of the state. -/
theorem applyBatch_inv {P : Nat → Prop} {commands : List MetadataCommand} (h : Inv True P s)
    (hgood : ∀ command ∈ commands, command.NodeIdNonneg ∧ command.Lengths P)
    (hok : applyBatch s commands = some (s', results)) :
  Inv True P s'
  := by
  induction commands generalizing s results with
  | nil =>
    cases hok
    exact h
  | cons command commands ih =>
    obtain ⟨⟨t, r⟩, ht, hok⟩ := Option.bind_eq_some_iff.mp hok
    obtain ⟨⟨u, rs⟩, hu, hok⟩ := Option.bind_eq_some_iff.mp hok
    cases hok
    obtain ⟨hid, hlen⟩ := hgood command mem_cons_self
    apply ih (apply_inv h (fun _ => hid) hlen ht) _ hu
    intro c hc
    exact hgood c (mem_cons_of_mem command hc)

/-- A state that good rows lead to satisfies the invariant of the metadata state. -/
theorem AtLog.inv {L : List Entry} {n : Nat} (h : AtLog L n s) (hgood : ∀ e ∈ L, e.Good) :
  Inv True (· < 2 ^ 32) s
  := by
  apply foldlM_some_induction _ (inv_new True _) h.2
  intro t e t' hmem ht hstep
  obtain ⟨commands, hdecode, hcommands⟩ := hgood e (mem_of_mem_take hmem)
  simp only [play, playRow, hdecode] at hstep
  cases hbatch : applyBatch t commands with
  | none => simp [hbatch] at hstep
  | some r =>
    obtain ⟨u, results⟩ := r
    obtain rfl : u = t' := by simpa [hbatch] using hstep
    exact applyBatch_inv ht hcommands hbatch

/-- Playing the next row gives the state at the next index. -/
theorem AtLog.row {L : List Entry} {n : Nat} (h : AtLog L n s) (hrow : RowAt L (n + 1) e)
    (hplay : playRow s e = .done s' results) :
  AtLog L (n + 1) s'
  := by
  apply h.next hrow.2
  simp only [play, hplay]

/-! ### Invariants of the parts -/

/-- Rows still to be applied are rows of the log, ascending and beyond what was applied. -/
def Rows (L : List Entry) (applied : Nat) (buffer : List (Nat × Entry)) : Prop :=
  (∀ r ∈ buffer, RowAt L r.1 r.2) ∧ (applied :: buffer.map Prod.fst).Pairwise (· < ·)

/-- What the tailer has in hand are rows of the log. -/
def TailerInv (L : List Entry) (snapIdx applied : Nat) : Tailer → Prop
  | .rows buffer => Rows L applied buffer
  | .applied idx _ buffer | .seen idx _ buffer | .published idx _ buffer =>
    idx = applied ∧ Rows L applied buffer
  | .restored m s | .restoredSeen m s | .restoredPublished m s => AtLog L m s
  | .truncating => applied ≤ snapIdx
  | _ => True

/-- What the flusher has in hand are places of the log, or just behind it. -/
def FlusherInv (L : List Entry) : Flusher → Prop
  | .loaded _ next | .registered _ next _ => 1 ≤ next ∧ next ≤ L.length + 1
  | .appended e next _ => RowAt L next e
  | _ => True

/-- A running node is at a prefix of the log. -/
structure NodeInv (L : List Entry) (snapIdx : Nat) (n : Node) : Prop where
  state : AtLog L n.applied n.state
  lastSeen : n.lastSeen ≤ L.length
  tailer : TailerInv L snapIdx n.applied n.tailer
  flusher : FlusherInv L n.flusher

/-- A node that opens is at a prefix of the log. -/
def OpeningInv (L : List Entry) : Opening → Prop
  | .fetch s applied _ => AtLog L applied s
  | .rows s applied _ buffer => AtLog L applied s ∧ Rows L applied buffer
  | _ => True

def ProcInv (L : List Entry) (snapIdx : Nat) : Proc → Prop
  | .opening _ o => OpeningInv L o
  | .running n => NodeInv L snapIdx n

/-- What has been seen from outside agrees with the log. -/
def EventInv (L : List Entry) : Event → Prop
  | .published _ idx s | .opened _ idx s => AtLog L idx s
  | .acked _ e idx _ => RowAt L idx e

/-- The batch a flusher has taken up and not yet put into the log. -/
def Flusher.held : Flusher → Option Entry
  | .ready e | .loaded e _ | .registered e _ _ | .conflict e => some e
  | _ => none

def Proc.held : Proc → Option Entry
  | .running n => n.flusher.held
  | .opening _ _ => none

/-- The rows of the store are those of the log, less a part that the snapshot covers. -/
structure StoreInv (L : List Entry) (store : Store) : Prop where
  rows : ∀ (idx : Nat) (e : Entry), store.log[idx]? = some e → RowAt L idx e
  -- a row that is gone is covered by the snapshot
  kept : ∀ idx, 1 ≤ idx → idx ≤ L.length → store.snapIdx < idx → idx ∈ store.log
  snapshot : ∀ m bytes, store.snapshot = some (m, bytes) →
    ∃ s, Snapshot.decode bytes = .ok s ∧ AtLog L m s

/-- Batches are told apart by their numbers, in the log and in the hands of the flushers. -/
structure ProposalsInv (L : List Entry) (procs : OrdMap Nat Proc) (next : Nat) : Prop where
  nodup : (L.map Entry.proposal).Nodup
  lt : ∀ e ∈ L, e.proposal < next
  held : ∀ (id : Nat) (p : Proc) (e : Entry), procs[id]? = some p → p.held = some e →
    e.Good ∧ e.proposal < next ∧ e.proposal ∉ L.map Entry.proposal
  apart : ∀ (id id' : Nat) (p p' : Proc) (e e' : Entry), procs[id]? = some p →
    procs[id']? = some p' → p.held = some e → p'.held = some e' → e.proposal = e'.proposal → id = id'

/-- The invariant of the system, over the log `L`. -/
structure SysInv (L : List Entry) (sys : Sys) : Prop where
  store : StoreInv L sys.store
  procs : ∀ (id : Nat) (p : Proc), sys.procs[id]? = some p → ProcInv L sys.store.snapIdx p
  proposals : ProposalsInv L sys.procs sys.nextProposal
  events : ∀ event ∈ sys.trace, EventInv L event
  good : ∀ e ∈ L, e.Good

/-! ### Growing logs and moving snapshots -/

variable {applied : Nat}

theorem Rows.extend {L : List Entry} {buffer : List (Nat × Entry)} (h : Rows L applied buffer)
    (L' : List Entry) :
  Rows (L ++ L') applied buffer
  := ⟨fun r hr => (h.1 r hr).extend L', h.2⟩

theorem TailerInv.mono {L : List Entry} {snapIdx snapIdx' : Nat} {t : Tailer}
    (h : TailerInv L snapIdx applied t) (L' : List Entry) (hle : snapIdx ≤ snapIdx') :
  TailerInv (L ++ L') snapIdx' applied t
  := by
  cases t with
  | rows => exact Rows.extend h L'
  | applied | seen | published => exact ⟨h.1, h.2.extend L'⟩
  | restored | restoredSeen | restoredPublished => exact At.extend h L'
  | truncating => exact Nat.le_trans h hle
  | idle | gap | snapshotting | stopped => trivial

theorem FlusherInv.extend {L : List Entry} {f : Flusher} (h : FlusherInv L f) (L' : List Entry) :
  FlusherInv (L ++ L') f
  := by
  cases f with
  | loaded | registered =>
    refine ⟨h.1, Nat.le_trans h.2 ?_⟩
    rw [length_append]
    omega
  | appended => exact RowAt.extend h L'
  | idle | ready | conflict => trivial

variable {p : Proc}

theorem ProcInv.mono {L : List Entry} {snapIdx snapIdx' : Nat} (h : ProcInv L snapIdx p)
    (L' : List Entry) (hle : snapIdx ≤ snapIdx') :
  ProcInv (L ++ L') snapIdx' p
  := by
  cases p with
  | opening config o =>
    cases o with
    | fetch => exact At.extend h L'
    | rows => exact ⟨h.1.extend L', h.2.extend L'⟩
    | load | reload => trivial
  | running n =>
    refine ⟨h.state.extend L', ?_, h.tailer.mono L' hle, h.flusher.extend L'⟩
    apply Nat.le_trans h.lastSeen
    rw [length_append]
    omega

theorem EventInv.extend {L : List Entry} {event : Event} (h : EventInv L event) (L' : List Entry) :
  EventInv (L ++ L') event
  := by
  cases event with
  | published | opened => exact At.extend h L'
  | acked => exact RowAt.extend h L'

/-! ### What the store answers -/

theorem StoreInv.snapIdx_le {L : List Entry} {store : Store} (h : StoreInv L store) :
  store.snapIdx ≤ L.length
  := by
  cases hsnap : store.snapshot with
  | none => simp [Store.snapIdx, hsnap]
  | some p =>
    obtain ⟨m, bytes⟩ := p
    obtain ⟨s, -, hs⟩ := h.snapshot m bytes hsnap
    simpa [Store.snapIdx, hsnap] using hs.1

theorem StoreInv.lastIdx_le {L : List Entry} {store : Store} (h : StoreInv L store)
    {reply : Reply} {last : Nat} (hlast : store.lastIdx reply = .ok last) :
  last ≤ L.length
  := by
  cases reply with
  | failed | lost => cases hlast
  | answered =>
    cases hlast
    apply Nat.max_le.mpr ⟨_, h.snapIdx_le⟩
    cases hmax : store.log.maxKey? with
    | none => exact Nat.zero_le _
    | some k =>
      have hmem := Std.ExtTreeMap.maxKey?_mem hmax
      rw [mem_iff_lookup] at hmem
      obtain ⟨e, he⟩ := hmem
      exact (h.rows k e he).le

/-- What is fetched are the next rows of the log. -/
theorem StoreInv.fetched {L : List Entry} {store : Store} (h : StoreInv L store) {reply : Reply}
    {limit : Nat} {rows : List (Nat × Entry)}
    (hrows : store.fetchAfter reply applied limit = .ok rows) :
  Rows L applied rows
  := by
  unfold Store.fetchAfter at hrows
  split at hrows
  next => cases hrows
  next =>
    cases reply with
    | failed | lost => cases hrows
    | answered =>
      cases hrows
      have hmem : ∀ r ∈ (store.log.toList.filter fun e => applied < e.1).take limit,
          store.log[r.1]? = some r.2 ∧ applied < r.1 := by
        intro r hr
        have hr := mem_filter.mp (mem_of_mem_take hr)
        exact ⟨Std.ExtTreeMap.mem_toList_iff_getElem?_eq_some.mp hr.1, of_decide_eq_true hr.2⟩
      constructor
      · intro r hr
        exact h.rows r.1 r.2 (hmem r hr).1
      · rw [pairwise_cons]
        constructor
        · intro idx hidx
          obtain ⟨r, hr, rfl⟩ := mem_map.mp hidx
          exact (hmem r hr).2
        · rw [pairwise_map]
          apply List.Pairwise.sublist ((take_sublist _ _).trans filter_sublist)
          apply Std.ExtTreeMap.ordered_keys_toList.imp
          intro r r' hlt
          exact Nat.compare_eq_lt.mp hlt

/-- A snapshot is the state at its index of the log. -/
theorem StoreInv.loaded {L : List Entry} {store : Store} (h : StoreInv L store) {reply : Reply}
    {m : Nat} {bytes : List UInt8} (hload : store.loadSnapshot reply = .ok (some (m, bytes)))
    (hdecode : Snapshot.decode bytes = .ok s) :
  AtLog L m s
  := by
  cases reply with
  | failed | lost => cases hload
  | answered =>
    obtain ⟨t, ht, hat⟩ := h.snapshot m bytes (Except.ok.inj hload)
    obtain rfl : t = s := Except.ok.inj (ht.symm.trans hdecode)
    exact hat

/-! ### Changing one part of the system -/

variable {procs : OrdMap Nat Proc}

section

variable {L : List Entry} {sys : Sys} {id : Nat}

/-- A process may be replaced by one that holds no other batch. -/
theorem ProposalsInv.setProc {next : Nat} (h : ProposalsInv L procs next)
    (hheld : ∀ e, p.held = some e → ∃ p₀, procs[id]? = some p₀ ∧ p₀.held = some e) :
  ProposalsInv L (procs.insert id p) next
  := by
  have hback : ∀ (a : Nat) (q : Proc) (e : Entry), (procs.insert id p)[a]? = some q →
      q.held = some e → ∃ q₀, procs[a]? = some q₀ ∧ q₀.held = some e := by
    intro a q e hq he
    rcases lookup_insert_cases hq with ⟨rfl, rfl⟩ | ⟨-, hq⟩
    · exact hheld e he
    · exact ⟨q, hq, he⟩
  refine { h with held := ?_, apart := ?_ }
  · intro a q e hq he
    obtain ⟨q₀, hq₀, he₀⟩ := hback a q e hq he
    exact h.held a q₀ e hq₀ he₀
  · intro a b q r e f hq hr he hf hsame
    obtain ⟨q₀, hq₀, he₀⟩ := hback a q e hq he
    obtain ⟨r₀, hr₀, hf₀⟩ := hback b r f hr hf
    exact h.apart a b q₀ r₀ e f hq₀ hr₀ he₀ hf₀ hsame

variable (h : SysInv L sys)

include h

theorem SysInv.setProc (hp : ProcInv L sys.store.snapIdx p)
    (hheld : ∀ e, p.held = some e → ∃ p₀, sys.procs[id]? = some p₀ ∧ p₀.held = some e) :
  SysInv L { sys with procs := sys.procs.insert id p }
  := by
  refine { h with procs := ?_, proposals := h.proposals.setProc hheld }
  exact forall_insert hp h.procs

theorem SysInv.setOpening {config : SqlSinkConfig} {o : Opening} (ho : OpeningInv L o) :
  SysInv L (sys.setOpening id config o)
  := by
  apply h.setProc (p := .opening config o) ho
  intro e he
  cases he

/-- A node that holds the batch it held, or none. -/
theorem SysInv.setNode {n n' : Node} (hn : sys.procs[id]? = some (.running n))
    (hn' : NodeInv L sys.store.snapIdx n')
    (hheld : n'.flusher.held = none ∨ n'.flusher.held = n.flusher.held) :
  SysInv L (sys.setNode id n')
  := by
  apply h.setProc (p := .running n') hn'
  intro e he
  rcases hheld with hnone | hsame
  · cases hnone.symm.trans he
  · exact ⟨.running n, hn, hsame.symm.trans he⟩

theorem SysInv.stop :
  SysInv L (sys.stop id)
  := by
  have hback : ∀ (a : Nat) (q : Proc), (sys.procs.erase id)[a]? = some q →
      sys.procs[a]? = some q := by
    intro a q hq
    obtain ⟨-, hq⟩ := lookup_erase_iff.mp hq
    exact hq
  refine { h with procs := ?_, proposals := { h.proposals with held := ?_, apart := ?_ } }
  · intro a q hq
    exact h.procs a q (hback a q hq)
  · intro a q e hq
    exact h.proposals.held a q e (hback a q hq)
  · intro a b q r e f hq hr
    exact h.proposals.apart a b q r e f (hback a q hq) (hback b r hr)

theorem SysInv.emit {event : Event} (hevent : EventInv L event) :
  SysInv L (sys.emit event)
  := by
  refine { h with events := ?_ }
  intro event' hmem
  rcases mem_cons.mp hmem with rfl | hmem
  · exact hevent
  · exact h.events event' hmem

theorem SysInv.setStore {store : Store} (hstore : StoreInv L store)
    (hle : sys.store.snapIdx ≤ store.snapIdx) :
  SysInv L { sys with store }
  := by
  refine { h with store := hstore, procs := ?_ }
  intro a q hq
  have := (h.procs a q hq).mono [] hle
  rwa [append_nil] at this

end

/-! ### Changing the store -/

section

variable {L : List Entry} {store store' : Store} {reply : Reply} {r : Except StoreError Unit}

/-- A snapshot of a state at the log may be stored. -/
theorem StoreInv.storeSnapshot (h : StoreInv L store) (hs : AtLog L applied s)
    (hdecode : Snapshot.decode (Snapshot.encode s) = .ok s)
    (hstore : store.storeSnapshot reply applied (Snapshot.encode s) = (store', r)) :
  StoreInv L store'
  := by
  obtain ⟨hlog, hle, hsnap, -⟩ := Store.storeSnapshot_cases hstore
  constructor
  · rw [hlog]
    exact h.rows
  · intro idx hpos hlen hlt
    rw [hlog]
    exact h.kept idx hpos hlen (Nat.lt_of_le_of_lt hle hlt)
  · intro m bytes hm
    rcases hsnap with hsame | hnew
    · exact h.snapshot m bytes (hsame ▸ hm)
    · obtain ⟨rfl, rfl⟩ := Prod.mk.inj (Option.some.inj (hnew.symm.trans hm))
      exact ⟨s, hdecode, hs⟩

/-- Rows may be removed that a snapshot covers. -/
theorem StoreInv.truncateLog (h : StoreInv L store) {upTo : Nat} (hle : upTo ≤ store.snapIdx)
    (hstore : store.truncateLog reply upTo = (store', r)) :
  StoreInv L store' ∧ store'.snapIdx = store.snapIdx
  := by
  obtain ⟨hsnap, hlog⟩ := Store.truncateLog_cases hstore
  have hidx : store'.snapIdx = store.snapIdx := by rw [Store.snapIdx, hsnap, Store.snapIdx]
  refine ⟨?_, hidx⟩
  rcases hlog with hlog | hlog
  · constructor
    · rw [hlog]
      exact h.rows
    · rw [hlog, hidx]
      exact h.kept
    · rw [hsnap]
      exact h.snapshot
  · constructor
    · intro idx e he
      rw [hlog, Std.ExtTreeMap.getElem?_filter', Option.filter_eq_some_iff] at he
      exact h.rows idx e he.1
    · intro idx hpos hlen hlt
      rw [hidx] at hlt
      obtain ⟨e, he⟩ := (mem_iff_lookup _ _).mp (h.kept idx hpos hlen hlt)
      rw [hlog, mem_iff_lookup]
      use e
      rw [Std.ExtTreeMap.getElem?_filter', Option.filter_eq_some_iff]
      exact ⟨he, decide_eq_true (Nat.lt_of_le_of_lt hle hlt)⟩
    · rw [hsnap]
      exact h.snapshot

end

/-- The row of an append that goes to the end of the log. -/
theorem StoreInv.append {L : List Entry} {store : Store} (h : StoreInv L store) (e : Entry) :
  StoreInv (L ++ [e]) { store with log := store.log.insert (L.length + 1) e }
  := by
  constructor
  · intro idx e' he
    rcases lookup_insert_cases he with ⟨rfl, rfl⟩ | ⟨-, he⟩
    · simp [RowAt]
    · exact (h.rows idx e' he).extend [e]
  · intro idx hpos hlen hlt
    rw [length_append, length_singleton] at hlen
    rw [OrdMap.mem_insert_iff]
    by_cases heq : idx = L.length + 1
    · exact .inl heq.symm
    · exact .inr (h.kept idx hpos (by omega) hlt)
  · intro m bytes hm
    obtain ⟨s, hdecode, hs⟩ := h.snapshot m bytes hm
    exact ⟨s, hdecode, hs.extend [e]⟩

/-- The batch a flusher held is the new end of the log. -/
theorem ProposalsInv.append {L : List Entry} {next id : Nat} (h : ProposalsInv L procs next)
    {p' : Proc} (hp : procs[id]? = some p) (he : p.held = some e) (hnone : p'.held = none) :
  ProposalsInv (L ++ [e]) (procs.insert id p') next
  := by
  obtain ⟨-, hlt, hfresh⟩ := h.held id p e hp he
  have hinsert : ProposalsInv L (procs.insert id p') next := by
    apply h.setProc
    intro f hf
    cases hnone.symm.trans hf
  constructor
  · rw [map_append, nodup_append]
    refine ⟨h.nodup, nodup_singleton _, ?_⟩
    intro a ha b hb hab
    obtain rfl : b = e.proposal := mem_singleton.mp hb
    exact hfresh (hab ▸ ha)
  · intro f hf
    rcases mem_append.mp hf with hf | hf
    · exact h.lt f hf
    · obtain rfl := mem_singleton.mp hf
      exact hlt
  · intro a q f hq hf
    obtain ⟨hgood, hltf, hfreshf⟩ := hinsert.held a q f hq hf
    refine ⟨hgood, hltf, ?_⟩
    rw [map_append, mem_append, not_or]
    refine ⟨hfreshf, ?_⟩
    intro hsame
    have hsame : f.proposal = e.proposal := mem_singleton.mp hsame
    rw [lookup_insert] at hq
    split at hq
    next =>
      cases hq
      cases hnone.symm.trans hf
    -- two flushers do not hold the same batch
    next hne => exact hne (h.apart id a p q e f hp hq he hf hsame.symm)
  · exact hinsert.apart

/-- The log gets a row when the flusher appends one. -/
theorem SysInv.append {L : List Entry} {sys : Sys} {id : Nat} (h : SysInv L sys) {n n' : Node}
    (hn : sys.procs[id]? = some (.running n)) (he : n.flusher.held = some e)
    (hn' : NodeInv (L ++ [e]) sys.store.snapIdx n') (hnone : n'.flusher.held = none) :
  SysInv (L ++ [e]) ({ sys with store :=
    { sys.store with log := sys.store.log.insert (L.length + 1) e } }.setNode id n')
  where
  store := h.store.append e
  procs a q hq := by
    simp only [Sys.setNode, lookup_insert] at hq
    split at hq
    next =>
      cases hq
      exact hn'
    next => exact (h.procs a q hq).mono [e] (le_refl _)
  proposals := h.proposals.append hn he hnone
  events event hevent := (h.events event hevent).extend [e]
  good f hf := by
    rcases mem_append.mp hf with hf | hf
    · exact h.good f hf
    · obtain rfl := mem_singleton.mp hf
      exact (h.proposals.held id _ f hn he).1

/-- A flusher may take up a batch under a new number. -/
theorem SysInv.propose {L : List Entry} {sys : Sys} {id : Nat} (h : SysInv L sys) {n' : Node}
    {payload : List UInt8} (hgood : Entry.Good ⟨sys.nextProposal, payload⟩)
    (hn' : NodeInv L sys.store.snapIdx n')
    (hheld : n'.flusher.held = some ⟨sys.nextProposal, payload⟩) :
  SysInv L ({ sys with nextProposal := sys.nextProposal + 1 }.setNode id n')
  where
  store := h.store
  procs a q hq := by
    simp only [Sys.setNode, lookup_insert] at hq
    split at hq
    next =>
      cases hq
      exact hn'
    next => exact h.procs a q hq
  proposals := by
    have hsplit : ∀ (a : Nat) (q : Proc) (e : Entry),
        (sys.procs.insert id (.running n'))[a]? = some q → q.held = some e →
        (a = id ∧ e = ⟨sys.nextProposal, payload⟩) ∨ (sys.procs[a]? = some q ∧
          e.Good ∧ e.proposal < sys.nextProposal ∧ e.proposal ∉ L.map Entry.proposal) := by
      intro a q e hq he
      rcases lookup_insert_cases hq with ⟨heq, rfl⟩ | ⟨-, hq⟩
      · exact .inl ⟨heq.symm, Option.some.inj (he.symm.trans hheld)⟩
      · exact .inr ⟨hq, h.proposals.held a q e hq he⟩
    constructor
    · exact h.proposals.nodup
    · intro e he
      exact Nat.lt_succ_of_lt (h.proposals.lt e he)
    · intro a q e hq he
      rcases hsplit a q e hq he with ⟨-, rfl⟩ | ⟨-, hgood, hlt, hfresh⟩
      · refine ⟨hgood, Nat.lt_succ_self _, ?_⟩
        intro hmem
        obtain ⟨f, hf, heq⟩ := mem_map.mp hmem
        exact Nat.ne_of_lt (h.proposals.lt f hf) heq
      · exact ⟨hgood, Nat.lt_succ_of_lt hlt, hfresh⟩
    · intro a b q r e f hq hr he hf hsame
      rcases hsplit a q e hq he with ⟨rfl, rfl⟩ | ⟨hq₀, -, hlt, -⟩
      · rcases hsplit b r f hr hf with ⟨rfl, rfl⟩ | ⟨-, -, hlt', -⟩
        · rfl
        · exact absurd hsame (Nat.ne_of_gt hlt')
      · rcases hsplit b r f hr hf with ⟨rfl, rfl⟩ | ⟨hr₀, -, -, -⟩
        · exact absurd hsame (Nat.ne_of_lt hlt)
        · exact h.proposals.apart a b q r e f hq₀ hr₀ he hf hsame
  events := h.events
  good := h.good

theorem sysInv_init :
  SysInv [] {}
  where
  store := by
    constructor
    · intro idx e he
      simp at he
    · intro idx hpos hlen
      simp at hlen
      omega
    · intro m bytes hm
      cases hm
  procs id p hp := by simp at hp
  proposals := by
    constructor
    · exact nodup_nil
    · intro e he
      cases he
    · intro id p e hp
      simp at hp
    · intro id id' p p' e e' hp
      simp at hp
  events event hevent := by cases hevent
  good e he := by cases he

end Sql
