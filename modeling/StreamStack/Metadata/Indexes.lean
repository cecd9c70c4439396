import StreamStack.Lib.Run
import StreamStack.Metadata.Apply

/-!
# The secondary indexes

Every handler updates the secondary indexes by hand, next to the rows they index. In every
state that commands lead to from the empty state, each index is the one derived from its
primary rows. The invariant that carries this is split by the fields it speaks of, so that a
handler has to be looked at only for the fields it changes.

Lengths that a snapshot stores in 32 bits are bounded by a predicate `P` throughout; the
indexes do not depend on it.
-/

namespace Metadata

open OrdMap List

/-! ### What an index holds for a row -/

/-- An opened stream is indexed by its node. -/
def openingEntries (streamId : UInt64) (row : StreamRow) : List ((Int32 × UInt64) × Unit) :=
  if row.state = .opened then [((row.nodeId, streamId), ())] else []

/-- A stream that was placed and never opened is indexed by its node. -/
def placedEntries (streamId : UInt64) (row : StreamRow) : List ((Int32 × UInt64) × Unit) :=
  if row.state = .closed ∧ row.epoch = -1 ∧ row.nodeId ≠ -1 then
    [((row.nodeId, streamId), ())]
  else []

/-- A prepared object is indexed by its deadline. -/
def deadlineEntries (objectId : UInt64) (deadline : Int64) : List ((Int64 × UInt64) × Unit) :=
  [((deadline, objectId), ())]

/-- The ranges of a stream-set object, in the order of its list. -/
def rangeEntries (objectId : UInt64) (row : StreamSetObjectRow) :
    List (StreamOffsetKey × UInt64) :=
  row.object.offsetRanges.map fun r => ((r.streamId, r.startOffset, objectId), r.endOffset)

/-- A stream set object is indexed by its node. -/
def ownerEntries (objectId : UInt64) (row : StreamSetObjectRow) :
    List ((Int32 × UInt64) × Unit) :=
  [((row.nodeId, objectId), ())]

theorem openingEntries_owned :
  Owned openingEntries Prod.snd
  := by
  intro id row e he
  unfold openingEntries at he
  split at he
  · obtain rfl := mem_singleton.mp he
    rfl
  · simp at he

theorem placedEntries_owned :
  Owned placedEntries Prod.snd
  := by
  intro id row e he
  unfold placedEntries at he
  split at he
  · obtain rfl := mem_singleton.mp he
    rfl
  · simp at he

theorem deadlineEntries_owned :
  Owned deadlineEntries Prod.snd
  := by
  intro id deadline e he
  obtain rfl := mem_singleton.mp he
  rfl

theorem rangeEntries_owned :
  Owned rangeEntries fun key => key.2.2
  := by
  intro id row e he
  obtain ⟨r, -, rfl⟩ := mem_map.mp he
  rfl

theorem ownerEntries_owned :
  Owned ownerEntries Prod.snd
  := by
  intro id row e he
  obtain rfl := mem_singleton.mp he
  rfl

/-! ### The indexes of a state -/

/-- Every secondary index of `s` is the one derived from its primary rows. -/
structure IndexesDerived (s : MetadataState) : Prop where
  openingByNode : s.openingByNode = derive openingEntries s.streams
  placedByNode : s.placedByNode = derive placedEntries s.streams
  preparedByDeadline : s.preparedByDeadline = derive deadlineEntries s.prepared
  ssoRanges : s.ssoRanges = derive rangeEntries s.streamSetObjects
  ssoByNode : s.ssoByNode = derive ownerEntries s.streamSetObjects
  streamObjectIds : ∀ (id : UInt64) (key : StreamOffsetKey),
    s.streamObjectIds[id]? = some key ↔ key ∈ s.streamObjects ∧ key.2.2 = id
  destroyedById : ∀ id seq : UInt64,
    s.destroyedById[id]? = some seq ↔ ∃ op, s.markDestroyed[seq]? = some (id, op)
  pendingTransfers : ∀ id : UInt64, id ∈ s.pendingTransfers → id ∈ s.streams

/-! ### The invariant -/

/-- Streams, nodes and transfers. -/
structure StreamsInv (N : Prop) (P : Nat → Prop) (nextStreamId : UInt64)
    (streams : OrdMap UInt64 StreamRow) (nodes : OrdMap Int32 NodeRow)
    (opening placed : OrdMap (Int32 × UInt64) Unit)
    (pending : OrdMap UInt64 PendingTransfer) : Prop where
  rows : ∀ (id : UInt64) (row : StreamRow), streams[id]? = some row →
    row.streamId = id ∧ id < nextStreamId ∧ -1 ≤ row.epoch ∧
      (row.state = .opened → row.epoch ≠ -1)
  nodes : ∀ (id : Int32) (node : NodeRow), nodes[id]? = some node →
    node.nodeId = id ∧ (N → 0 ≤ id) ∧ P node.httpAddress.utf8ByteSize
  opening : opening = derive openingEntries streams
  placed : N → placed = derive placedEntries streams
  -- a transfer starts from an opened stream, so completing it never yields a placed one
  pending : ∀ (id : UInt64) (p : PendingTransfer), pending[id]? = some p →
    ∃ row, streams[id]? = some row ∧ row.epoch ≠ -1

/-- Prepared objects. -/
structure PreparedInv (nextObjectId : UInt64) (prepared : OrdMap UInt64 Int64)
    (byDeadline : OrdMap (Int64 × UInt64) Unit) : Prop where
  fresh : ∀ (id : UInt64) (deadline : Int64), prepared[id]? = some deadline → id < nextObjectId
  index : byDeadline = derive deadlineEntries prepared

/-- Stream-set objects. -/
structure SetObjectsInv (P : Nat → Prop) (objects : OrdMap UInt64 StreamSetObjectRow)
    (ranges : OrdMap StreamOffsetKey UInt64) (byNode : OrdMap (Int32 × UInt64) Unit) : Prop where
  rows : ∀ (id : UInt64) (row : StreamSetObjectRow), objects[id]? = some row →
    row.object.objectId = id ∧ id ≠ noopObjectId ∧ P row.object.offsetRanges.length
  ranges : ranges = derive rangeEntries objects
  byNode : byNode = derive ownerEntries objects

/-- A stream object has one range, and its key is read off it. -/
def StreamObjectRow.Keyed (key : StreamOffsetKey) (row : StreamObjectRow) : Prop :=
  row.object.objectId = key.2.2 ∧
    ∃ endOffset, row.object.offsetRanges = [⟨key.1, key.2.1, endOffset⟩]

/-- Stream objects. -/
structure StreamObjectsInv (objects : OrdMap StreamOffsetKey StreamObjectRow)
    (ids : OrdMap UInt64 StreamOffsetKey) : Prop where
  rows : ∀ (key : StreamOffsetKey) (row : StreamObjectRow), objects[key]? = some row →
    row.Keyed key
  ids : ∀ (id : UInt64) (key : StreamOffsetKey),
    ids[id]? = some key ↔ key ∈ objects ∧ key.2.2 = id

/-- Objects waiting to be destroyed. -/
structure DestroyedInv (nextSeq : UInt64) (queue : OrdMap UInt64 (UInt64 × CompactOperations))
    (byId : OrdMap UInt64 UInt64) : Prop where
  fresh : ∀ (seq : UInt64) (e : UInt64 × CompactOperations), queue[seq]? = some e → seq < nextSeq
  ids : ∀ id seq : UInt64, byId[id]? = some seq ↔ ∃ op, queue[seq]? = some (id, op)

/-- The invariant of the metadata state, with `P` true of every stored length. -/
structure Inv (N : Prop) (P : Nat → Prop) (s : MetadataState) : Prop where
  streams : StreamsInv N P s.nextStreamId s.streams s.nodes s.openingByNode s.placedByNode
    s.pendingTransfers
  prepared : PreparedInv s.nextObjectId s.prepared s.preparedByDeadline
  setObjects : SetObjectsInv P s.streamSetObjects s.ssoRanges s.ssoByNode
  streamObjects : StreamObjectsInv s.streamObjects s.streamObjectIds
  destroyed : DestroyedInv s.nextDestroyedSeq s.markDestroyed s.destroyedById
  kv : ∀ (key : String) (value : List UInt8), s.kv[key]? = some value →
    P key.utf8ByteSize ∧ P value.length

/-- The invariant says of every index that it is derived. -/
theorem Inv.indexesDerived {P : Nat → Prop} {s : MetadataState} (h : Inv True P s) :
  IndexesDerived s
  where
  openingByNode := h.streams.opening
  placedByNode := h.streams.placed trivial
  preparedByDeadline := h.prepared.index
  ssoRanges := h.setObjects.ranges
  ssoByNode := h.setObjects.byNode
  streamObjectIds := h.streamObjects.ids
  destroyedById := h.destroyed.ids
  pendingTransfers := by
    intro id hid
    obtain ⟨p, hp⟩ := (mem_iff_lookup _ _).mp hid
    obtain ⟨row, hrow, -⟩ := h.streams.pending id p hp
    exact (mem_iff_lookup _ _).mpr ⟨row, hrow⟩

/-! ### Streams, nodes and transfers -/

variable {next' : UInt64}

namespace StreamsInv

variable {N : Prop} {P : Nat → Prop} {nextStreamId : UInt64} {streams : OrdMap UInt64 StreamRow}
  {nodes : OrdMap Int32 NodeRow} {opening placed : OrdMap (Int32 × UInt64) Unit}
  {pending : OrdMap UInt64 PendingTransfer}

theorem insertNode (h : StreamsInv N P nextStreamId streams nodes opening placed pending)
    (node : NodeRow) (hid : N → 0 ≤ node.nodeId) (haddr : P node.httpAddress.utf8ByteSize) :
  StreamsInv N P nextStreamId streams (nodes.insert node.nodeId node) opening placed pending
  := by
  refine { h with nodes := ?_ }
  exact forall_insert ⟨rfl, hid, haddr⟩ h.nodes

variable {id : UInt64} {row : StreamRow}

section

variable (h : StreamsInv N P nextStreamId streams nodes opening placed pending)

include h

/-- The row of one stream is replaced, and the indexes with it. -/
theorem update {row' : StreamRow} {opening' placed' : OrdMap (Int32 × UInt64) Unit}
    (hrow : streams[id]? = some row) (hid : row'.streamId = row.streamId)
    (hepoch : row.epoch ≤ row'.epoch) (hopened : row'.state = .opened → row'.epoch ≠ -1)
    (hopening : opening' = derive openingEntries (streams.insert id row'))
    (hplaced : N → placed' = derive placedEntries (streams.insert id row')) :
  StreamsInv N P nextStreamId (streams.insert id row') nodes opening' placed' pending
  := by
  obtain ⟨hkey, hlt, hge, -⟩ := h.rows id row hrow
  refine ⟨?_, h.nodes, hopening, hplaced, ?_⟩
  · exact forall_insert ⟨hid.trans hkey, hlt, Int64.le_trans hge hepoch, hopened⟩ h.rows
  · intro i p hp
    obtain ⟨r, hr, hne⟩ := h.pending i p hp
    rw [lookup_insert]
    split
    next heq =>
      subst heq
      obtain rfl : row = r := Option.some.inj (hrow.symm.trans hr)
      use row'
      refine ⟨rfl, ?_⟩
      intro hback
      apply hne
      exact Int64.le_antisymm (hback ▸ hepoch) hge
    next => exact ⟨r, hr, hne⟩

/-- A row is replaced by one that the indexes do not tell apart from it. -/
theorem updateOffsets {row' : StreamRow} (hrow : streams[id]? = some row)
    (hid : row'.streamId = row.streamId) (hepoch : row'.epoch = row.epoch)
    (hstate : row'.state = row.state) (hnode : row'.nodeId = row.nodeId) :
  StreamsInv N P nextStreamId (streams.insert id row') nodes opening placed pending
  := by
  apply h.update hrow hid (hepoch ▸ Int64.le_refl _)
  · rw [hstate, hepoch]
    exact (h.rows id row hrow).2.2.2
  · rw [h.opening]
    symm
    apply derive_insert_same openingEntries_owned _ hrow
    simp only [openingEntries, hstate, hnode]
  · intro hN
    rw [h.placed hN]
    symm
    apply derive_insert_same placedEntries_owned _ hrow
    simp only [placedEntries, hstate, hepoch, hnode]

theorem mono (hle : nextStreamId ≤ next') :
  StreamsInv N P next' streams nodes opening placed pending
  := by
  refine { h with rows := ?_ }
  intro id row hrow
  obtain ⟨hkey, hlt, hrest⟩ := h.rows id row hrow
  exact ⟨hkey, UInt64.lt_of_lt_of_le hlt hle, hrest⟩

/-- A created stream is in no index. -/
theorem create (hlt : id < nextStreamId) (hnew : streams[id]? = none) :
  StreamsInv N P nextStreamId (streams.insert id (createdRow id)) nodes opening placed pending
  := by
  refine ⟨?_, h.nodes, ?_, ?_, ?_⟩
  · exact forall_insert ⟨rfl, hlt, Int64.le_refl _, nofun⟩ h.rows
  · rw [h.opening, derive_insert_add openingEntries_owned _ (by simp [hnew])]
    rfl
  · intro hN
    rw [h.placed hN, derive_insert_add placedEntries_owned _ (by simp [hnew])]
    rfl
  · intro i p hp
    obtain ⟨r, hr, hne⟩ := h.pending i p hp
    rw [lookup_insert]
    split
    next heq =>
      subst heq
      simp [hnew] at hr
    next => exact ⟨r, hr, hne⟩

/-- A batch of new streams is created. -/
theorem createAll {ids : List UInt64} (hnodup : ids.Nodup) (hlt : ∀ id ∈ ids, id < nextStreamId)
    (hnew : ∀ id ∈ ids, streams[id]? = none) :
  StreamsInv N P nextStreamId (ids.foldl (fun m id => m.insert id (createdRow id)) streams) nodes
    opening placed pending
  := by
  induction ids generalizing streams with
  | nil => exact h
  | cons id ids ih =>
    obtain ⟨hid, hnodup⟩ := nodup_cons.mp hnodup
    rw [foldl_cons]
    apply ih (h.create (hlt id mem_cons_self) (hnew id mem_cons_self)) hnodup
    · intro i hi
      exact hlt i (mem_cons_of_mem id hi)
    · intro i hi
      rw [lookup_insert, if_neg]
      · exact hnew i (mem_cons_of_mem id hi)
      · rintro rfl
        exact hid hi

/-- Only an opened stream is transferred. -/
theorem startTransfer (hrow : streams[id]? = some row) (hopen : row.state = .opened)
    (p : PendingTransfer) :
  StreamsInv N P nextStreamId streams nodes opening placed (pending.insert id p)
  := by
  refine { h with pending := ?_ }
  exact forall_insert ⟨row, hrow, (h.rows id row hrow).2.2.2 hopen⟩ h.pending

theorem endTransfer (id : UInt64) :
  StreamsInv N P nextStreamId streams nodes opening placed (pending.erase id)
  := by
  refine { h with pending := ?_ }
  intro i p hp
  obtain ⟨-, hp⟩ := lookup_erase_iff.mp hp
  exact h.pending i p hp

/-- A stream that was never opened is placed on a node. -/
theorem place (hrow : streams[id]? = some row) (hclosed : row.state = .closed)
    (hepoch : row.epoch = -1) (hnode : row.nodeId = -1) {winner : Int32}
    (hwinner : N → winner ≠ -1) :
  StreamsInv N P nextStreamId (streams.insert id { row with nodeId := winner }) nodes opening
    (placed.insert (winner, id) ()) pending
  := by
  refine h.update hrow ?_ ?_ ?_ ?_ ?_
  · rfl
  · apply Int64.le_refl
  · intro hopen
    simp [hclosed] at hopen
  · rw [h.opening]
    symm
    apply derive_insert_same openingEntries_owned _ hrow
    simp [openingEntries, hclosed]
  · intro hN
    rw [h.placed hN, derive_insert_add placedEntries_owned]
    · simp [placedEntries, hclosed, hepoch, hwinner hN]
    · intro row₀ hrow₀
      obtain rfl : row = row₀ := Option.some.inj (hrow.symm.trans hrow₀)
      simp [placedEntries, hnode]

/-- A closed stream is opened at a later epoch, on whatever node. -/
theorem openAt (hrow : streams[id]? = some row) (hclosed : row.state = .closed) {epoch : Int64}
    (hnewer : row.epoch < epoch) (nodeId : Int32) :
  StreamsInv N P nextStreamId (streams.insert id { row with epoch, state := .opened, nodeId }) nodes
    (opening.insert (nodeId, id) ()) (placed.erase (row.nodeId, id)) pending
  := by
  have hge := (h.rows id row hrow).2.2.1
  refine h.update hrow ?_ (Int64.le_of_lt hnewer) ?_ ?_ ?_
  · rfl
  · rintro - rfl
    exact Int64.not_lt.mpr hge hnewer
  · rw [h.opening, derive_insert_add openingEntries_owned]
    · simp [openingEntries]
    · intro row₀ hrow₀
      obtain rfl : row = row₀ := Option.some.inj (hrow.symm.trans hrow₀)
      simp [openingEntries, hclosed]
  · intro hN
    rw [h.placed hN, derive_insert_drop placedEntries_owned _ hrow (by simp [placedEntries])]
    by_cases hp : row.epoch = -1 ∧ row.nodeId ≠ -1
    · simp [placedEntries, hclosed, hp]
    -- the source erases the key whether or not the stream was placed
    · have hnil : placedEntries id row = [] := by
        simp only [placedEntries, hclosed, true_and, if_neg hp]
      rw [hnil]
      apply erase_of_lookup_eq_none
      rw [lookup_derive placedEntries_owned, hrow, Option.bind_some, hnil, lookup_ofEntries_nil]

/-- A stream that is closed leaves the index of its node. -/
theorem close (hrow : streams[id]? = some row) (hopen : row.state = .opened) :
  StreamsInv N P nextStreamId (streams.insert id { row with state := .closed }) nodes
    (opening.erase (row.nodeId, id)) placed pending
  := by
  have hepoch := (h.rows id row hrow).2.2.2 hopen
  refine h.update hrow ?_ ?_ ?_ ?_ ?_
  · rfl
  · apply Int64.le_refl
  · nofun
  · rw [h.opening, derive_insert_drop openingEntries_owned _ hrow (by simp [openingEntries])]
    simp [openingEntries, hopen]
  · intro hN
    rw [h.placed hN]
    symm
    apply derive_insert_same placedEntries_owned _ hrow
    simp [placedEntries, hopen, hepoch]

/-- A closed stream that was opened before is handed to another node. -/
theorem retarget (hrow : streams[id]? = some row) (hclosed : row.state = .closed)
    (hepoch : row.epoch ≠ -1) (nodeId : Int32) :
  StreamsInv N P nextStreamId (streams.insert id { row with nodeId }) nodes opening placed pending
  := by
  refine h.update hrow ?_ ?_ ?_ ?_ ?_
  · rfl
  · apply Int64.le_refl
  · intro hopen
    simp [hclosed] at hopen
  · rw [h.opening]
    symm
    apply derive_insert_same openingEntries_owned _ hrow
    simp [openingEntries, hclosed]
  · intro hN
    rw [h.placed hN]
    symm
    apply derive_insert_same placedEntries_owned _ hrow
    simp [placedEntries, hepoch]

end

/-- Erasing the placed keys that name a stream leaves the placed keys of the others. -/
theorem lookup_removePlaced (placed : OrdMap (Int32 × UInt64) Unit) (id : UInt64)
    (a : Int32 × UInt64) :
  ((placed.keys.filter fun key => key.2 = id).foldl (fun m key => m.erase key) placed)[a]?
    = if id = a.2 then none else placed[a]?
  := by
  rw [lookup_foldl_erase]
  by_cases hid : id = a.2
  · rw [if_pos hid]
    split
    next => rfl
    next ha =>
      by_contra hsome
      apply ha
      simp only [mem_filter, Std.ExtTreeMap.mem_keys, decide_eq_true_eq]
      refine ⟨(mem_iff_lookup _ _).mpr ?_, hid.symm⟩
      exact Option.ne_none_iff_exists'.mp hsome
  · rw [if_neg hid, if_neg]
    intro ha
    simp only [mem_filter, decide_eq_true_eq] at ha
    exact hid ha.2.symm

theorem delete (h : StreamsInv N P nextStreamId streams nodes opening placed pending)
    (hrow : streams[id]? = some row) (hclosed : row.state = .closed) :
  StreamsInv N P nextStreamId (streams.erase id) nodes opening
    ((placed.keys.filter fun key => key.2 = id).foldl (fun m key => m.erase key) placed)
    (pending.erase id)
  := by
  refine ⟨?_, h.nodes, ?_, ?_, ?_⟩
  · intro i r hr
    obtain ⟨-, hr⟩ := lookup_erase_iff.mp hr
    exact h.rows i r hr
  · rw [h.opening, derive_erase openingEntries_owned hrow]
    simp [openingEntries, hclosed]
  · intro hN
    apply ext_lookup
    intro a
    rw [lookup_removePlaced, lookup_derive_erase placedEntries_owned, h.placed hN]
  · intro i p hp
    obtain ⟨hne, hp⟩ := lookup_erase_iff.mp hp
    obtain ⟨r, hr, hepoch⟩ := h.pending i p hp
    use r
    rw [lookup_erase, if_neg hne]
    exact ⟨hr, hepoch⟩

end StreamsInv

/-! ### Batches of ids -/

theorem checkedAdd_ok {a b c : UInt64} (h : checkedAdd a b = .ok c) :
  c.toNat = a.toNat + b.toNat
  := by
  unfold checkedAdd at h
  split at h
  next hlt =>
    cases h
    rw [UInt64.toNat_add, Nat.mod_eq_of_lt hlt]
  next => cases h

/-- The ids that are given out lie between the old and the new counter. -/
theorem mem_idRange {first next : UInt64} {count : UInt32}
    (hnext : checkedAdd first count.toUInt64 = .ok next) {id : UInt64}
    (hid : id ∈ idRange first count) :
  first ≤ id ∧ id < next
  := by
  have hsum := checkedAdd_ok hnext
  obtain ⟨i, hi, rfl⟩ := mem_map.mp hid
  rw [mem_range] at hi
  rw [UInt32.toNat_toUInt64] at hsum
  have hbound := next.toNat_lt
  have hi' : i < 2 ^ 64 := by omega
  have hval : (first + UInt64.ofNat i).toNat = first.toNat + i := by
    rw [UInt64.toNat_add, UInt64.toNat_ofNat_of_lt' hi', Nat.mod_eq_of_lt (by omega)]
  rw [UInt64.le_iff_toNat_le, UInt64.lt_iff_toNat_lt, hval]
  omega

theorem nodup_idRange (first : UInt64) (count : UInt32) :
  (idRange first count).Nodup
  := by
  apply List.Nodup.map_on _ nodup_range
  intro i hi j hj heq
  rw [mem_range] at hi hj
  have hcount := count.toNat_lt
  have hij : UInt64.ofNat i = UInt64.ofNat j := (UInt64.add_right_inj first).mp heq
  have hi' : i < 2 ^ 64 := by omega
  have hj' : j < 2 ^ 64 := by omega
  have hnat := congrArg UInt64.toNat hij
  rwa [UInt64.toNat_ofNat_of_lt' hi', UInt64.toNat_ofNat_of_lt' hj'] at hnat

/-! ### Prepared objects -/

namespace PreparedInv

variable {nextObjectId : UInt64} {prepared : OrdMap UInt64 Int64}
  {byDeadline : OrdMap (Int64 × UInt64) Unit} (h : PreparedInv nextObjectId prepared byDeadline)

include h

theorem mono (hle : nextObjectId ≤ next') :
  PreparedInv next' prepared byDeadline
  := by
  refine { h with fresh := ?_ }
  intro id deadline hid
  exact UInt64.lt_of_lt_of_le (h.fresh id deadline hid) hle

/-- All new ids get the same deadline. -/
theorem prepareAll {ids : List UInt64} (hnodup : ids.Nodup) (hlt : ∀ id ∈ ids, id < nextObjectId)
    (hnew : ∀ id ∈ ids, prepared[id]? = none) (deadline : Int64) :
  PreparedInv nextObjectId (ids.foldl (fun m id => m.insert id deadline) prepared)
    (ids.foldl (fun m id => m.insert (deadline, id) ()) byDeadline)
  := by
  induction ids generalizing prepared byDeadline with
  | nil => exact h
  | cons id ids ih =>
    obtain ⟨hid, hnodup⟩ := nodup_cons.mp hnodup
    have hhead : PreparedInv nextObjectId (prepared.insert id deadline)
        (byDeadline.insert (deadline, id) ()) := by
      constructor
      · exact forall_insert (hlt id mem_cons_self) h.fresh
      · rw [h.index, derive_insert_add deadlineEntries_owned]
        · rfl
        · simp [hnew id mem_cons_self]
    rw [foldl_cons, foldl_cons]
    apply ih hhead hnodup
    · intro i hi
      exact hlt i (mem_cons_of_mem id hi)
    · intro i hi
      rw [lookup_insert, if_neg]
      · exact hnew i (mem_cons_of_mem id hi)
      · rintro rfl
        exact hid hi

theorem remove {id : UInt64} {deadline : Int64} (hid : prepared[id]? = some deadline) :
  PreparedInv nextObjectId (prepared.erase id) (byDeadline.erase (deadline, id))
  := by
  constructor
  · intro i d hd
    obtain ⟨-, hd⟩ := lookup_erase_iff.mp hd
    exact h.fresh i d hd
  · rw [h.index, derive_erase deadlineEntries_owned hid]
    rfl

/-- The index by deadline knows prepared objects only. -/
theorem mem_index {e : Int64 × UInt64} {u : Unit} (he : byDeadline[e]? = some u) :
  prepared[e.2]? = some e.1
  := by
  rw [h.index, lookup_derive deadlineEntries_owned, Option.bind_eq_some_iff] at he
  obtain ⟨deadline, hd, he⟩ := he
  have hkey : e = (deadline, e.2) := by
    simpa [deadlineEntries] using mem_of_lookup_ofEntries he
  rw [hd, hkey]

end PreparedInv

/-! ### Stream-set objects -/

namespace SetObjectsInv

variable {P : Nat → Prop} {objects : OrdMap UInt64 StreamSetObjectRow}
  {ranges : OrdMap StreamOffsetKey UInt64} {byNode : OrdMap (Int32 × UInt64) Unit}

theorem insert (h : SetObjectsInv P objects ranges byNode) (id : UInt64) (row : StreamSetObjectRow)
    (hnew : objects[id]? = none) (hid : row.object.objectId = id) (hnoop : id ≠ noopObjectId)
    (hlen : P row.object.offsetRanges.length) :
  SetObjectsInv P (objects.insert id row)
    (row.object.offsetRanges.foldl
      (fun m r => m.insert (r.streamId, r.startOffset, id) r.endOffset) ranges)
    (byNode.insert (row.nodeId, id) ())
  := by
  constructor
  · exact forall_insert ⟨hid, hnoop, hlen⟩ h.rows
  · rw [h.ranges, derive_insert_add rangeEntries_owned _ (by simp [hnew]), rangeEntries,
      foldl_map]
  · rw [h.byNode, derive_insert_add ownerEntries_owned _ (by simp [hnew])]
    rfl

theorem remove (h : SetObjectsInv P objects ranges byNode) {id : UInt64} {row : StreamSetObjectRow}
    (hrow : objects[id]? = some row) :
  SetObjectsInv P (objects.erase id)
    (row.object.offsetRanges.foldl (fun m r => m.erase (r.streamId, r.startOffset, id)) ranges)
    (byNode.erase (row.nodeId, id))
  := by
  constructor
  · intro i r hr
    obtain ⟨-, hr⟩ := lookup_erase_iff.mp hr
    exact h.rows i r hr
  · rw [h.ranges, derive_erase rangeEntries_owned hrow, rangeEntries, foldl_map,
      foldl_map]
  · rw [h.byNode, derive_erase ownerEntries_owned hrow]
    rfl

end SetObjectsInv

/-! ### Stream objects -/

namespace StreamObjectsInv

variable {objects : OrdMap StreamOffsetKey StreamObjectRow} {ids : OrdMap UInt64 StreamOffsetKey}

/-- An object is registered under a key that no other key of the object precedes. -/
theorem insert (h : StreamObjectsInv objects ids) (key : StreamOffsetKey) (row : StreamObjectRow)
    (hrow : row.Keyed key) (huniq : ∀ key', ids[key.2.2]? = some key' → key' = key) :
  StreamObjectsInv (objects.insert key row) (ids.insert key.2.2 key)
  := by
  constructor
  · exact forall_insert hrow h.rows
  · intro id k
    rw [lookup_insert, OrdMap.mem_insert_iff]
    split
    next hid =>
      constructor
      · intro hk
        cases hk
        exact ⟨.inl rfl, hid⟩
      · rintro ⟨rfl | hk, hkid⟩
        · rfl
        · rw [huniq k]
          rw [hid]
          exact (h.ids id k).mpr ⟨hk, hkid⟩
    next hid =>
      rw [h.ids]
      constructor
      · rintro ⟨hk, hkid⟩
        exact ⟨.inr hk, hkid⟩
      · rintro ⟨rfl | hk, hkid⟩
        · exact absurd hkid hid
        · exact ⟨hk, hkid⟩

theorem remove (h : StreamObjectsInv objects ids) {key : StreamOffsetKey}
    (huniq : ∀ key', ids[key.2.2]? = some key' → key' = key) :
  StreamObjectsInv (objects.erase key) (ids.erase key.2.2)
  := by
  constructor
  · intro k r hr
    obtain ⟨-, hr⟩ := lookup_erase_iff.mp hr
    exact h.rows k r hr
  · intro id k
    rw [lookup_erase, mem_erase_iff]
    split
    next hid =>
      refine ⟨nofun, ?_⟩
      rintro ⟨⟨hne, hk⟩, hkid⟩
      refine absurd (huniq k ?_).symm hne
      rw [hid]
      exact (h.ids id k).mpr ⟨hk, hkid⟩
    next hid =>
      rw [h.ids]
      constructor
      · rintro ⟨hk, hkid⟩
        refine ⟨⟨?_, hk⟩, hkid⟩
        rintro rfl
        exact hid hkid
      · rintro ⟨⟨-, hk⟩, hkid⟩
        exact ⟨hk, hkid⟩

end StreamObjectsInv

/-! ### Objects waiting to be destroyed -/

namespace DestroyedInv

variable {nextSeq : UInt64} {queue : OrdMap UInt64 (UInt64 × CompactOperations)}
  {byId : OrdMap UInt64 UInt64} {id : UInt64} (h : DestroyedInv nextSeq queue byId)

include h

/-- An object that is not queued is queued at a new place. -/
theorem mark (hnew : byId[id]? = none) (hnext : nextSeq < next') (op : CompactOperations) :
  DestroyedInv next' (queue.insert nextSeq (id, op)) (byId.insert id nextSeq)
  := by
  have hfree : queue[nextSeq]? = none := by
    cases hq : queue[nextSeq]? with
    | none => rfl
    | some e => exact absurd (h.fresh nextSeq e hq) (UInt64.lt_irrefl _)
  constructor
  · intro seq e he
    rcases lookup_insert_cases he with ⟨heq, -⟩ | ⟨-, he⟩
    · exact heq ▸ hnext
    · exact UInt64.lt_trans (h.fresh seq e he) hnext
  · intro i seq
    rw [lookup_insert, lookup_insert]
    by_cases hi : id = i
    · subst hi
      by_cases hseq : nextSeq = seq
      · simp [hseq]
      · have hnone : ¬ ∃ op, queue[seq]? = some (id, op) := by
          rw [← h.ids, hnew]
          nofun
        simpa [hseq] using hnone
    · by_cases hseq : nextSeq = seq
      · subst hseq
        rw [if_neg hi, h.ids]
        simp [hfree, hi]
      · rw [if_neg hi, if_neg hseq, h.ids]

/-- A queued object keeps its place when it is queued again. -/
theorem remark {seq : UInt64} (hseq : byId[id]? = some seq) (op : CompactOperations) :
  DestroyedInv nextSeq (queue.insert seq (id, op)) byId
  := by
  obtain ⟨op₀, hop₀⟩ := (h.ids id seq).mp hseq
  constructor
  · exact forall_insert (h.fresh seq _ hop₀) h.fresh
  · intro i n
    rw [h.ids, lookup_insert]
    by_cases hn : seq = n
    · subst hn
      simp [hop₀]
    · rw [if_neg hn]

theorem clean {seq : UInt64} (hseq : byId[id]? = some seq) :
  DestroyedInv nextSeq (queue.erase seq) (byId.erase id)
  := by
  obtain ⟨op₀, hop₀⟩ := (h.ids id seq).mp hseq
  constructor
  · intro n e he
    obtain ⟨-, he⟩ := lookup_erase_iff.mp he
    exact h.fresh n e he
  · intro i n
    rw [lookup_erase, lookup_erase]
    by_cases hn : seq = n
    · subst hn
      by_cases hi : id = i
      · simp [hi]
      · rw [if_neg hi, h.ids]
        simp [hop₀, hi]
    · by_cases hi : id = i
      · subst hi
        have hother : ¬ ∃ op, queue[n]? = some (id, op) := by
          rw [← h.ids, hseq]
          intro heq
          exact hn (Option.some.inj heq)
        simpa [hn] using hother
      · rw [if_neg hi, if_neg hn, h.ids]

end DestroyedInv

end Metadata
