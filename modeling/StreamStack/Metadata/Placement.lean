import StreamStack.Metadata.Changes
import StreamStack.Metadata.Reachable

/-!
# Placement

A stream that was never opened goes to the node with the lowest score, which is the load of the
node per slot in whole thousandths. Nodes of one score may still carry different loads.
-/

namespace Metadata

open OrdMap Run List

variable {s s' : MetadataState}

/-- The opened and the placed streams of a node. -/
def nodeLoad (s : MetadataState) (nodeId : Int32) : ℕ :=
  (rangeOf s.openingByNode (nodeId, 0) (nodeId, u64Max)).length
    + (rangeOf s.placedByNode (nodeId, 0) (nodeId, u64Max)).length

/-- An index with an entry under its node for every row with `p` has as many entries of a node as
there are such rows. -/
theorem length_rangeOf_derive {f : UInt64 → StreamRow → List ((Int32 × UInt64) × Unit)}
    (p : StreamRow → Bool)
    (hf : ∀ id row, f id row = if p row then [((row.nodeId, id), ())] else [])
    (streams : OrdMap UInt64 StreamRow) (nodeId : Int32) :
  (rangeOf (derive f streams) (nodeId, 0) (nodeId, u64Max)).length =
    (streams.toList.filter fun e => p e.2 ∧ e.2.nodeId = nodeId).length
  := by
  have howned : Owned f Prod.snd := by
    intro id row e he
    rw [hf] at he
    split at he
    · obtain rfl := mem_singleton.mp he
      rfl
    · cases he
  have hmem (e : (Int32 × UInt64) × Unit) := mem_rangeOf (derive f streams) zero_le_u64 le_u64Max
    nodeId e
  -- both lists name the same streams, each once
  have hleft : ((rangeOf (derive f streams) (nodeId, 0) (nodeId, u64Max)).map
      fun e => e.1.2).Nodup := by
    apply Nodup.map_on
    · intro e he e' he' heq
      have hnode := ((hmem e).mp he).2.trans ((hmem e').mp he').2.symm
      exact Prod.ext (Prod.ext hnode heq) rfl
    · exact (nodup_keys_toList _).of_map.sublist filter_sublist
  have hright : ((streams.toList.filter fun e => p e.2 ∧ e.2.nodeId = nodeId).map
      Prod.fst).Nodup := (filter_sublist.map Prod.fst).nodup (nodup_keys_toList streams)
  have hsame (id : UInt64) : id ∈ (rangeOf (derive f streams) (nodeId, 0) (nodeId, u64Max)).map
      (fun e => e.1.2) ↔ id ∈ (streams.toList.filter fun e => p e.2 ∧ e.2.nodeId = nodeId).map
        Prod.fst := by
    have hlookup : (derive f streams)[(nodeId, id)]? = some () ↔
        ∃ row, streams[id]? = some row ∧ p row ∧ row.nodeId = nodeId := by
      rw [lookup_derive howned, Option.bind_eq_some_iff]
      refine exists_congr fun row => and_congr_right fun _ => ?_
      rw [hf]
      cases p row with
      | false => simp [ofEntries]
      | true => simp [ofEntries, lookup_insert]
    rw [mem_map, mem_map]
    constructor
    · rintro ⟨e, he, rfl⟩
      obtain ⟨hentry, rfl⟩ := (hmem e).mp he
      obtain ⟨row, hrow, hp⟩ := hlookup.mp hentry
      exact ⟨(e.1.2, row), by simpa using ⟨hrow, hp⟩, rfl⟩
    · rintro ⟨⟨id, row⟩, he, rfl⟩
      refine ⟨((nodeId, id), ()), (hmem _).mpr ⟨hlookup.mpr ⟨row, ?_⟩, rfl⟩, rfl⟩
      simpa using he
  have hperm := (perm_ext_iff_of_nodup hleft hright).mpr hsame
  simpa using hperm.length_eq

/-- In every state that commands lead to, the load of a node counts the rows of its opened streams
and of those that were placed on it and never opened. -/
theorem nodeLoad_of_applyAll {commands : List MetadataCommand}
    (hid : ∀ command ∈ commands, command.NodeIdNonneg) (hok : applyAll .new commands = some s)
    (nodeId : Int32) :
  nodeLoad s nodeId =
    (s.streams.toList.filter fun e => e.2.state = .opened ∧ e.2.nodeId = nodeId).length +
    (s.streams.toList.filter fun e =>
      (e.2.state = .closed ∧ e.2.epoch = -1 ∧ e.2.nodeId ≠ -1) ∧ e.2.nodeId = nodeId).length
  := by
  have hinv := (inv_of_applyAll (N := True) (fun _ => hid) hok).streams
  rw [nodeLoad, hinv.opening, hinv.placed trivial,
    length_rangeOf_derive (fun row => row.state = .opened) fun _ _ => by simp [openingEntries],
    length_rangeOf_derive (fun row => row.state = .closed ∧ row.epoch = -1 ∧ row.nodeId ≠ -1)
      fun _ _ => by simp [placedEntries]]
  simp

/-- The load of a node per slot in whole thousandths, in 64 bits. -/
def thousandths (s : MetadataState) (nodeId : Int32) (node : NodeRow) : ℕ :=
  nodeLoad s nodeId * 1000 % 2 ^ 64 / node.slots.toNat

theorem toNat_nodeScore (s : MetadataState) (nodeId : Int32) (node : NodeRow) :
  (nodeScore s nodeId node).toNat = thousandths s nodeId node
  := by
  simp [nodeScore, nodeCount, thousandths, nodeLoad]

/-- The order of the search: the lower score first, then the lower id. -/
def rank (s : MetadataState) (e : Int32 × NodeRow) : ℕ ×ₗ ℤ :=
  toLex (thousandths s e.1 e.2, e.1.toInt)

/-- What the search holds after the nodes `seen`. -/
def Leads (s : MetadataState) (seen : List (Int32 × NodeRow)) :
    Option (Int32 × UInt64) → Prop
  | none => ∀ e ∈ seen, ¬ 1 ≤ e.2.slots
  | some best => ∃ node, (best.1, node) ∈ seen ∧ 1 ≤ node.slots ∧
      best.2.toNat = thousandths s best.1 node ∧
      ∀ e ∈ seen, 1 ≤ e.2.slots → rank s (best.1, node) ≤ rank s e

variable {seen : List (Int32 × NodeRow)} {winner : Option (Int32 × UInt64)} {e : Int32 × NodeRow}

theorem Leads.skip (h : Leads s seen winner) (hslots : ¬ 1 ≤ e.2.slots) :
  Leads s (seen ++ [e]) winner
  := by
  cases winner with
  | none =>
    rw [Leads, forall_mem_append, forall_mem_singleton]
    exact ⟨h, hslots⟩
  | some best =>
    obtain ⟨node, hmem, hone, hbest, hall⟩ := h
    refine ⟨node, mem_append_left _ hmem, hone, hbest, ?_⟩
    rw [forall_mem_append, forall_mem_singleton]
    exact ⟨hall, fun hone' => absurd hone' hslots⟩

/-- A node that comes before all the others leads. -/
theorem Leads.take (hslots : 1 ≤ e.2.slots)
    (h : ∀ e' ∈ seen, 1 ≤ e'.2.slots → rank s e ≤ rank s e') :
  Leads s (seen ++ [e]) (some (e.1, nodeScore s e.1 e.2))
  := by
  refine ⟨e.2, mem_append_right _ (mem_singleton_self e), hslots, ?_, ?_⟩
  · exact toNat_nodeScore s e.1 e.2
  · rw [forall_mem_append, forall_mem_singleton]
    exact ⟨h, fun _ => le_refl _⟩

theorem leads_placeRound (h : Leads s seen winner) (e : Int32 × NodeRow) :
  Leads s (seen ++ [e]) (placeRound s winner e)
  := by
  by_cases hslots : e.2.slots < 1
  · rw [placeRound, if_pos hslots]
    exact h.skip (UInt32.not_le.mpr hslots)
  rw [placeRound, if_neg hslots]
  rw [UInt32.not_lt] at hslots
  cases winner with
  | none =>
    apply Leads.take hslots
    intro e' he' hone
    exact absurd hone (h e' he')
  | some best =>
    obtain ⟨node, hmem, hone, hbest, hall⟩ := h
    have hless : nodeScore s e.1 e.2 < best.2 ∨ (nodeScore s e.1 e.2 = best.2 ∧ e.1 < best.1) ↔
        rank s e < rank s (best.1, node) := by
      rw [rank, rank, Prod.Lex.toLex_lt_toLex, UInt64.lt_iff_toNat_lt, ← UInt64.toNat_inj,
        toNat_nodeScore, hbest, Int32.lt_iff_toInt_lt]
    simp only [hless]
    split
    next hbetter =>
      apply Leads.take hslots
      intro e' he' hone'
      exact hbetter.le.trans (hall e' he' hone')
    next hworse =>
      refine ⟨node, mem_append_left _ hmem, hone, hbest, ?_⟩
      rw [forall_mem_append, forall_mem_singleton]
      exact ⟨hall, fun _ => not_lt.mp hworse⟩

theorem leads_foldl (h : Leads s seen winner) (l : List (Int32 × NodeRow)) :
  Leads s (seen ++ l) (l.foldl (placeRound s) winner)
  := by
  induction l generalizing seen winner with
  | nil =>
    rw [append_nil]
    exact h
  | cons e l ih =>
    rw [append_cons]
    exact ih (leads_placeRound h e)

/-- An unplaced stream goes to the node that comes first: one of the lowest score, and among those
the one with the lowest id. -/
theorem placeStream_lowest {streamId : UInt64} {row : StreamRow} {result : MetadataResult}
    (hrow : s.streams[streamId]? = some row) (hunplaced : row.nodeId = -1)
    (hok : placeStream s streamId = .ok (s', result)) :
  ∃ winner node, s.nodes[winner]? = some node ∧ 1 ≤ node.slots ∧
    s'.streams[streamId]? = some { row with nodeId := winner } ∧
    result = nodeIdResult winner ∧
    ∀ (other : Int32) (node' : NodeRow), s.nodes[other]? = some node' → 1 ≤ node'.slots →
      rank s (winner, node) ≤ rank s (other, node')
  := by
  have hrequire : requireStream s streamId = .ok row := by
    rw [requireStream, hrow]
  rw [placeStream, hrequire] at hok
  simp only [bind, Except.bind, hunplaced, ne_eq, not_true_eq_false, if_false] at hok
  have hleads : Leads s ([] ++ s.nodes.toList) (s.nodes.toList.foldl (placeRound s) none) := by
    apply leads_foldl
    exact forall_mem_nil _
  split at hok
  next => cases hok
  split at hok
  next => cases hok
  next winner score hwinner =>
    rw [hwinner] at hleads
    obtain ⟨node, hmem, hslots, -, hall⟩ := hleads
    obtain ⟨rfl, rfl⟩ := Prod.mk.inj (ok_of_return.mp hok)
    use winner, node
    refine ⟨Std.ExtTreeMap.mem_toList_iff_getElem?_eq_some.mp hmem, hslots, ?_, rfl, ?_⟩
    · rw [lookup_insert, if_pos rfl]
    · intro other node' hother
      apply hall (other, node')
      exact Std.ExtTreeMap.mem_toList_iff_getElem?_eq_some.mpr hother

/-- A stream on the first of two nodes, and a second stream to place. -/
def sparseRun : List MetadataCommand :=
  [.registerNode 1 10 "" 2000, .createStreams 1 10 2, .placeStream 0, .registerNode 2 20 "" 1]

theorem placed_sparseRun :
  ∃ s s', applyAll .new sparseRun = some s ∧ s.streams[(1 : UInt64)]? = some (createdRow 1) ∧
    placeStream s 1 = .ok (s', .id 1) ∧ s.nodes[(1 : Int32)]? = some ⟨1, 10, "", 2000⟩ ∧
    s.nodes[(2 : Int32)]? = some ⟨2, 20, "", 1⟩ ∧ nodeLoad s 1 = 1 ∧ nodeLoad s 2 = 0
  := by
  obtain ⟨s, hs, hrow, ⟨s', result⟩, hplaced, rfl, hnodes⟩ : ∃ s,
      applyAll .new sparseRun = some s ∧ s.streams[(1 : UInt64)]? = some (createdRow 1) ∧
      ∃ r, (placeStream s 1).toOption = some r ∧ r.2 = .id 1 ∧
        s.nodes[(1 : Int32)]? = some ⟨1, 10, "", 2000⟩ ∧
        s.nodes[(2 : Int32)]? = some ⟨2, 20, "", 1⟩ ∧ nodeLoad s 1 = 1 ∧ nodeLoad s 2 = 0 := by
    decide +kernel
  exact ⟨s, s', hs, hrow, ok_of_toOption hplaced, hnodes⟩

theorem placeStream_lowest_sparseRun :
  ∃ s winner node, applyAll .new sparseRun = some s ∧ s.nodes[winner]? = some node ∧
    rank s (winner, node) ≤ rank s (2, ⟨2, 20, "", 1⟩)
  := by
  obtain ⟨s, s', hs, hrow, hok, -, hnode, -⟩ := placed_sparseRun
  obtain ⟨winner, node, hwinner, -, -, -, hleast⟩ := placeStream_lowest hrow rfl hok
  exact ⟨s, winner, node, hs, hwinner, hleast 2 _ hnode (by decide)⟩

/-- The second node is empty and the first is not, and the stream goes to the first. -/
theorem placeStream_loaded_sparseRun :
  ∃ s s', applyAll .new sparseRun = some s ∧ placeStream s 1 = .ok (s', .id 1) ∧
    s.nodes[(1 : Int32)]? = some ⟨1, 10, "", 2000⟩ ∧
    s.nodes[(2 : Int32)]? = some ⟨2, 20, "", 1⟩ ∧
    (nodeLoad s 2 : ℚ) / 1 < (nodeLoad s 1 : ℚ) / 2000
  := by
  obtain ⟨s, s', hs, -, hok, hfirst, hsecond, hload, hempty⟩ := placed_sparseRun
  use s, s', hs, hok, hfirst, hsecond
  rw [hload, hempty]
  norm_num

end Metadata
