import StreamStack.Metadata.Handlers
import StreamStack.Metadata.Indexes

/-!
# Reachable states

Every handler keeps the invariant of the metadata state, and so does every sequence of
commands. What is asked of the commands is that the lengths they bring in satisfy the bound and,
for the index of placed streams (`N`), that registered nodes have ids that are not negative.
-/

namespace Metadata

open OrdMap Run List

variable {N : Prop} {P : Nat → Prop} {s s' : MetadataState} {result : MetadataResult}

/-! ### Nodes and streams -/

/-- Ids that have not been given out have no row. -/
theorem fresh_stream (h : Inv N P s) {id : UInt64} (hid : s.nextStreamId ≤ id) :
  s.streams[id]? = none
  := by
  cases hrow : s.streams[id]? with
  | none => rfl
  | some row =>
    have hlt := (h.streams.rows id row hrow).2.1
    exact absurd (UInt64.lt_of_lt_of_le hlt hid) (UInt64.lt_irrefl _)

theorem le_of_checkedAdd {a b c : UInt64} (h : checkedAdd a b = .ok c) :
  a ≤ c
  := by
  rw [UInt64.le_iff_toNat_le, checkedAdd_ok h]
  omega

theorem lt_of_checkedAdd_one {a c : UInt64} (h : checkedAdd a 1 = .ok c) :
  a < c
  := by
  rw [UInt64.lt_iff_toNat_lt, checkedAdd_ok h]
  exact Nat.lt_succ_self _

/-- The search for a node finds a registered one. -/
theorem placeRound_registered (h : Inv N P s) (hN : N) {id : Int32} {score : UInt64}
    (hwinner : s.nodes.toList.foldl (placeRound s) none = some (id, score)) :
  0 ≤ id
  := by
  have hall : ∀ (id : Int32) (score : UInt64),
      s.nodes.toList.foldl (placeRound s) none = some (id, score) → 0 ≤ id := by
    apply List.foldlRecOn (motive := fun w => ∀ (id : Int32) (score : UInt64),
      w = some (id, score) → 0 ≤ id)
    · nofun
    · rintro w hw ⟨n, node⟩ hmem id score hround
      have hn : 0 ≤ n := by
        rw [Std.ExtTreeMap.mem_toList_iff_getElem?_eq_some] at hmem
        exact (h.streams.nodes n node hmem).2.1 hN
      unfold placeRound at hround
      grind
  exact hall id score hwinner

/-! ### Objects -/

variable {streamId objectId : UInt64} {nodeId : Int32} {nodeEpoch : Int64} {op : CompactOperations}

theorem markDestroyed_inv (h : Inv N P s) (hok : markDestroyed s objectId op = .ok s') :
  Inv N P s'
  := by
  unfold markDestroyed at hok
  split at hok
  next seq hseq =>
    obtain rfl := ok_of_return.mp hok
    exact { h with destroyed := h.destroyed.remark hseq op }
  next hnone =>
    simp only [ok_of_do, ok_of_return] at hok
    obtain ⟨next, hnext, rfl⟩ := hok
    exact { h with destroyed := h.destroyed.mark hnone (lt_of_checkedAdd_one hnext) op }

/-- Queueing an object leaves the stream objects alone. -/
theorem markDestroyed_streamObjectIds (hok : markDestroyed s objectId op = .ok s') :
  s'.streamObjectIds = s.streamObjectIds
  := by
  unfold markDestroyed at hok
  split at hok
  next =>
    obtain rfl := ok_of_return.mp hok
    rfl
  next =>
    simp only [ok_of_do, ok_of_return] at hok
    obtain ⟨next, -, rfl⟩ := hok
    rfl

/-- A key that is the only one its object can be registered under. -/
def OnlyKey (s : MetadataState) (key : StreamOffsetKey) : Prop :=
  ∀ key' : StreamOffsetKey, s.streamObjectIds[key.2.2]? = some key' → key' = key

variable {key : StreamOffsetKey}

/-- An object id belongs to one key. -/
theorem Inv.onlyKey (h : Inv N P s) {id : UInt64} (hkey : s.streamObjectIds[id]? = some key) :
  key.2.2 = id ∧ OnlyKey s key
  := by
  obtain ⟨hmem, hid⟩ := (h.streamObjects.ids id key).mp hkey
  refine ⟨hid, ?_⟩
  intro key' hkey'
  rw [hid, hkey] at hkey'
  exact (Option.some.inj hkey').symm

theorem destroyStreamObject_inv (h : Inv N P s) (hkey : OnlyKey s key)
    (hok : destroyStreamObject s key = .ok s') :
  Inv N P s'
  := by
  apply markDestroyed_inv _ hok
  exact { h with streamObjects := h.streamObjects.remove hkey }

theorem destroyStreamObject_onlyKey {other : StreamOffsetKey} (hother : OnlyKey s other)
    (hok : destroyStreamObject s key = .ok s') :
  OnlyKey s' other
  := by
  intro key' hkey'
  rw [markDestroyed_streamObjectIds hok] at hkey'
  obtain ⟨-, hkey'⟩ := lookup_erase_iff.mp hkey'
  exact hother key' hkey'

/-- Keys collected at one time stay the only keys of their objects while they are dropped. -/
theorem destroyStreamObjects_inv (h : Inv N P s) {keys : List StreamOffsetKey}
    (hkeys : ∀ key ∈ keys, OnlyKey s key) (hok : keys.foldlM destroyStreamObject s = .ok s') :
  Inv N P s'
  := by
  have hboth : Inv N P s' ∧ ∀ key ∈ keys, OnlyKey s' key := by
    apply foldlM_ok_induction (I := fun t => Inv N P t ∧ ∀ key ∈ keys, OnlyKey t key) _
      ⟨h, hkeys⟩ hok
    rintro t key t' hkey ⟨ht, honly⟩ hstep
    constructor
    · exact destroyStreamObject_inv ht (honly key hkey) hstep
    · intro other hother
      exact destroyStreamObject_onlyKey (honly other hother) hstep
  exact hboth.1

/-- A deletion takes the row and all objects of the stream. -/
theorem deleteStream_inv (h : Inv N P s) {row : StreamRow}
    (hrow : s.streams[streamId]? = some row) (hclosed : row.state = .closed)
    (hfold : ((rangeOf s.streamObjects (streamId, 0, 0) (streamId, u64Max, u64Max)).map
      Prod.fst).foldlM destroyStreamObject (s.withoutStream streamId) = .ok s') :
  Inv N P s'
  := by
  have hstart : Inv N P (s.withoutStream streamId) :=
    { h with streams := h.streams.delete hrow hclosed }
  apply destroyStreamObjects_inv hstart _ hfold
  intro key hkey
  obtain ⟨e, he, rfl⟩ := mem_map.mp hkey
  have hmem := (mem_filter.mp he).1
  rw [Std.ExtTreeMap.mem_toList_iff_getElem?_eq_some] at hmem
  have hid : s.streamObjectIds[e.1.2.2]? = some e.1 := by
    apply (h.streamObjects.ids _ _).mpr
    exact ⟨(mem_iff_lookup _ _).mpr ⟨_, hmem⟩, rfl⟩
  exact (h.onlyKey hid).2

variable {nowMs : Int64}

theorem commitPrepared_inv (h : Inv N P s) (objectId : UInt64) :
  Inv N P (commitPrepared s objectId)
  := by
  unfold commitPrepared
  split
  next deadline hd => exact { h with prepared := h.prepared.remove hd }
  next => exact h

theorem commitPrepared_eq (s : MetadataState) (objectId : UInt64) :
  ∃ prepared byDeadline,
    commitPrepared s objectId = { s with prepared, preparedByDeadline := byDeadline }
  := by
  unfold commitPrepared
  split
  · exact ⟨_, _, rfl⟩
  · exact ⟨_, _, rfl⟩

variable {compact : Bool}

/-- Checking or advancing an end offset changes stream rows only. -/
theorem advanceEndOffset_spec (h : Inv N P s) {startOffset endOffset : UInt64}
    (hok : advanceEndOffset s streamId startOffset endOffset compact = .ok s') :
  Inv N P s' ∧ ∃ streams, s' = { s with streams }
  := by
  simp only [advanceEndOffset, ok_of_do] at hok
  obtain ⟨row, hrow, hok⟩ := hok
  have hrow := requireStream_ok hrow
  split at hok
  next =>
    simp only [ok_of_do, ok_of_return] at hok
    obtain ⟨-, -, -, -, rfl⟩ := hok
    exact ⟨h, s.streams, rfl⟩
  next =>
    simp only [ok_of_do, ok_of_return] at hok
    obtain ⟨-, -, rfl⟩ := hok
    refine ⟨{ h with streams := h.streams.updateOffsets hrow ?_ ?_ ?_ ?_ }, _, rfl⟩
    all_goals rfl

/-- A commit moves the ends of its streams, one range after the other. -/
theorem advanceEndOffsets_spec (h : Inv N P s) {ranges : List ObjectStreamRange}
    (hok : ranges.foldlM (fun s range =>
      advanceEndOffset s range.streamId range.startOffset range.endOffset compact) s = .ok s') :
  Inv N P s' ∧ ∃ streams, s' = { s with streams }
  := by
  apply foldlM_ok_induction (I := fun t => Inv N P t ∧ ∃ streams, t = { s with streams }) _
    ⟨h, s.streams, rfl⟩ hok
  rintro t range t' - ⟨ht, streams, rfl⟩ hstep
  obtain ⟨ht', streams', rfl⟩ := advanceEndOffset_spec ht hstep
  exact ⟨ht', streams', rfl⟩

theorem markDestroyObjects_inv (h : Inv N P s) {ids : List UInt64} {ops : List CompactOperations}
    (hok : markDestroyObjects s ids ops = .ok s') :
  Inv N P s'
  := by
  unfold markDestroyObjects at hok
  split at hok
  next =>
    obtain rfl := ok_of_return.mp hok
    exact h
  next =>
    split at hok
    · apply foldlM_ok_induction _ h hok
      intro t id t' _ ht hstep
      exact markDestroyed_inv ht hstep
    · simp only [ok_of_do] at hok
      obtain ⟨-, -, hok⟩ := hok
      apply foldlM_ok_induction _ h hok
      intro t e t' _ ht hstep
      exact markDestroyed_inv ht hstep

theorem removeStreamSetObject_inv (h : Inv N P s) (objectId : UInt64) :
  Inv N P (removeStreamSetObject s objectId)
  := by
  unfold removeStreamSetObject
  split
  next row hrow => exact { h with setObjects := h.setObjects.remove hrow }
  next => exact h

/-- A free object is no stream-set object, and has no other key than the new one. -/
theorem checkObjectIdFree_ok {newKey : Option StreamOffsetKey} {u : Unit}
    (hok : checkObjectIdFree s objectId newKey = .ok u) :
  s.streamSetObjects[objectId]? = none ∧
    ∀ key, s.streamObjectIds[objectId]? = some key → newKey = some key
  := by
  simp only [checkObjectIdFree, ok_of_do, reject_ok_iff] at hok
  obtain ⟨-, hset, hok⟩ := hok
  constructor
  · exact lookup_eq_none_of_not_contains hset
  · intro key hkey
    simpa [hkey] using hok

variable {dataTimeMs : Int64}

section

variable (h : Inv N P s)

include h

variable {request : CommitStreamSetObjectRequest}

theorem commitSetObject_inv (hlen : P request.streamRanges.length)
    (hok : commitSetObject s nodeId request nowMs dataTimeMs compact = .ok s') :
  Inv N P s'
  := by
  unfold commitSetObject at hok
  split at hok
  case isFalse =>
      cases hok
      exact h
  case isTrue hnoop =>
      simp only [ok_of_do, ok_of_return] at hok
      obtain ⟨⟨⟩, hfree, s₂, hfold, rfl⟩ := hok
      have hnew := (checkObjectIdFree_ok hfree).1
      obtain ⟨prepared, byDeadline, heq⟩ := commitPrepared_eq s request.objectId
      obtain ⟨h₂, streams, rfl⟩ :=
        advanceEndOffsets_spec (commitPrepared_inv h request.objectId) hfold
      rw [heq] at h₂ ⊢
      have hinsert := h₂.setObjects.insert request.objectId
        ⟨nodeId, committedObject request nowMs dataTimeMs⟩ hnew rfl hnoop
        (by simpa [committedObject] using hlen)
      simp only [committedObject, foldl_map] at hinsert
      exact { h₂ with setObjects := hinsert }

/-- Registering a stream object under a key that no other key of the object precedes. -/
theorem insertStreamObject_inv {startOffset endOffset objectSize : UInt64} {attributes : UInt32}
    (honly : OnlyKey s (streamId, startOffset, objectId)) :
  Inv N P (insertStreamObject s streamId objectId startOffset endOffset objectSize attributes
    dataTimeMs nowMs)
  := by
  have hinsert := h.streamObjects.insert (streamId, startOffset, objectId)
    ⟨objectId, .stream, [⟨streamId, startOffset, endOffset⟩], objectSize, attributes, nowMs,
      dataTimeMs⟩ ⟨rfl, endOffset, rfl⟩ honly
  exact { h with streamObjects := hinsert }

theorem commitStreamObject_inv {so : StreamObject}
    (hok : commitStreamObject nowMs dataTimeMs compact s so = .ok s') :
  Inv N P s'
  := by
  simp only [commitStreamObject, ok_of_do, ok_of_return] at hok
  obtain ⟨⟨⟩, hfree, s₂, hadvance, rfl⟩ := hok
  obtain ⟨prepared, byDeadline, heq⟩ := commitPrepared_eq s so.objectId
  obtain ⟨h₂, streams, rfl⟩ := advanceEndOffset_spec (commitPrepared_inv h so.objectId) hadvance
  apply insertStreamObject_inv h₂
  intro key hkey
  rw [heq] at hkey
  exact (Option.some.inj ((checkObjectIdFree_ok hfree).2 key hkey)).symm

theorem commitStreamSetObject_inv (hlen : P request.streamRanges.length)
    (hok : commitStreamSetObject s nodeId nodeEpoch request nowMs = .ok (s', result)) :
  Inv N P s'
  := by
  simp only [commitStreamSetObject, ok_of_do, ok_of_return, Prod.mk.injEq] at hok
  obtain ⟨-, -, -, -, dataTimeMs, -, s₁, hcompact, s₂, hset, s₃, hobjects, rfl, -⟩ := hok
  have h₁ : Inv N P s₁ := by
    apply foldlM_ok_induction _ h hcompact
    intro t id t' _ ht hstep
    exact markDestroyed_inv (removeStreamSetObject_inv ht id) hstep
  apply foldlM_ok_induction _ (commitSetObject_inv h₁ hlen hset) hobjects
  intro t so t' _ ht hstep
  exact commitStreamObject_inv ht hstep

theorem removeSourceObject_inv (streamId sourceId : UInt64) :
  Inv N P (removeSourceObject streamId s sourceId)
  := by
  unfold removeSourceObject
  split
  next key hkey =>
    split
    · obtain ⟨hid, honly⟩ := h.onlyKey hkey
      subst hid
      exact { h with streamObjects := h.streamObjects.remove honly }
    · exact h
  next => exact h

theorem compactStreamObject_inv {request : CompactStreamObjectRequest}
    (hok : compactStreamObject s nodeId nodeEpoch request nowMs = .ok (s', result)) :
  Inv N P s'
  := by
  simp only [compactStreamObject, ok_of_do, ok_of_return, Prod.mk.injEq] at hok
  obtain ⟨-, -, -, -, row, -, -, -, -, -, -, -, ⟨⟩, hfree, s₂, hmark, rfl, -⟩ := hok
  apply markDestroyObjects_inv _ hmark
  apply List.foldlRecOn
  · have hprepared := commitPrepared_inv h request.objectId
    obtain ⟨prepared, byDeadline, heq⟩ := commitPrepared_eq s request.objectId
    split
    next hobject =>
      apply insertStreamObject_inv hprepared
      intro key hkey
      rw [heq] at hkey
      rw [checkReplacement, if_pos hobject] at hfree
      exact (Option.some.inj ((checkObjectIdFree_ok hfree).2 key hkey)).symm
    next => exact hprepared
  · intro t ht sourceId _
    exact removeSourceObject_inv ht request.streamId sourceId

end

/-- An entry names the only deadline its object can have. -/
def OnlyDeadline (s : MetadataState) (e : Int64 × UInt64) : Prop :=
  ∀ deadline, s.prepared[e.2]? = some deadline → deadline = e.1

theorem dropPrepared_inv (h : Inv N P s) {e : Int64 × UInt64} (he : OnlyDeadline s e) :
  Inv N P (dropPrepared s e)
  := by
  cases hd : s.prepared[e.2]? with
  | some deadline =>
    obtain rfl := he deadline hd
    exact { h with prepared := h.prepared.remove hd }
  | none =>
    have hindex : s.preparedByDeadline[e]? = none := by
      cases hu : s.preparedByDeadline[e]? with
      | none => rfl
      | some u =>
        rw [h.prepared.mem_index hu] at hd
        cases hd
    unfold dropPrepared
    rw [erase_of_lookup_eq_none hd, erase_of_lookup_eq_none hindex]
    exact h

theorem expirePreparedObjects_inv (h : Inv N P s)
    (hok : expirePreparedObjects s nowMs = .ok (s', result)) :
  Inv N P s'
  := by
  cases hok
  generalize hexpired : (s.preparedByDeadline.toList.filter
    fun e => (compare e.1 (nowMs, u64Max)).isLE).map Prod.fst = expired
  have honly : ∀ e ∈ expired, OnlyDeadline s e := by
    intro e he deadline hd
    subst hexpired
    obtain ⟨⟨e, u⟩, hentry, rfl⟩ := mem_map.mp he
    have hmem := (mem_filter.mp hentry).1
    rw [Std.ExtTreeMap.mem_toList_iff_getElem?_eq_some] at hmem
    rw [h.prepared.mem_index hmem] at hd
    exact (Option.some.inj hd).symm
  have hboth : Inv N P (expired.foldl dropPrepared s) ∧
      ∀ e ∈ expired, OnlyDeadline (expired.foldl dropPrepared s) e := by
    apply List.foldlRecOn (motive := fun t => Inv N P t ∧ ∀ e ∈ expired, OnlyDeadline t e)
    · exact ⟨h, honly⟩
    · rintro t ⟨ht, hall⟩ e he
      refine ⟨dropPrepared_inv ht (hall e he), ?_⟩
      intro other hother deadline hd
      simp only [dropPrepared, lookup_erase] at hd
      split at hd
      · cases hd
      · exact hall other hother deadline hd
  exact hboth.1

/-! ### Key-value pairs -/

theorem insertKv_inv (h : Inv N P s) {key : String} {value : List UInt8} (hkey : P key.utf8ByteSize)
    (hvalue : P value.length) :
  Inv N P { s with kv := s.kv.insert key value }
  := by
  refine { h with kv := ?_ }
  intro k v hv
  rcases lookup_insert_cases hv with ⟨heq, rfl⟩ | ⟨-, hv⟩
  · exact ⟨heq ▸ hkey, hvalue⟩
  · exact h.kv k v hv

/-! ### Commands and runs -/

/-- A registered node has an id that is not negative. -/
def MetadataCommand.NodeIdNonneg : MetadataCommand → Prop
  | .registerNode nodeId _ _ _ => 0 ≤ nodeId
  | _ => True

instance decidableNodeIdNonneg : DecidablePred MetadataCommand.NodeIdNonneg :=
  fun command => by
    induction command using MetadataCommand.casesOn
    all_goals (dsimp only [MetadataCommand.NodeIdNonneg]; infer_instance)

/-- The lengths that a command stores satisfy `P`. -/
def MetadataCommand.Lengths (P : Nat → Prop) : MetadataCommand → Prop
  | .registerNode _ _ httpAddress _ => P httpAddress.utf8ByteSize
  | .commitStreamSetObject _ _ request _ => P request.streamRanges.length
  | .putKv key value => P key.utf8ByteSize ∧ P value.length
  | .putKvIfAbsent key value => P key.utf8ByteSize ∧ P value.length
  | _ => True

variable {command : MetadataCommand}

/-- Every handler keeps the invariant. -/
theorem Handled.inv (hstep : Handled s command s' result) (h : Inv N P s)
    (hid : N → command.NodeIdNonneg) (hlen : command.Lengths P) :
  Inv N P s'
  := by
  cases hstep with
  | replaced | reopened | reclosed | absent | putAgain | retransferred => exact h
  | registered address kept =>
    refine { h with streams := h.streams.insertNode ⟨_, _, address, _⟩ hid ?_ }
    rcases kept with rfl | ⟨node, hnode, rfl⟩
    · exact hlen
    · exact (h.streams.nodes _ node hnode).2.2
  | created nextStreamId next =>
    refine { h with streams := ?_ }
    apply (h.streams.mono (le_of_checkedAdd next)).create (lt_of_checkedAdd_one next)
    exact fresh_stream h (UInt64.le_refl _)
  | createdAll nextStreamId next =>
    refine { h with streams := ?_ }
    apply (h.streams.mono (le_of_checkedAdd next)).createAll (nodup_idRange _ _)
    · intro id hid
      exact (mem_idRange next hid).2
    · intro id hid
      exact fresh_stream h (mem_idRange next hid).1
  | placed row winner score stored unplaced closed unopened found =>
    have hwinner (hN : N) : winner ≠ -1 := by
      rintro rfl
      exact absurd (placeRound_registered h hN found) (by decide)
    exact { h with streams := h.streams.place stored closed unopened unplaced hwinner }
  | opened row stored closed newer =>
    exact { h with streams := h.streams.openAt stored closed newer _ }
  | trimmed row stored start stop =>
    exact { h with streams := h.streams.updateOffsets stored rfl rfl rfl rfl }
  | closed row stored opened => exact { h with streams := h.streams.close stored opened }
  | deleted row stored closed destroyed => exact deleteStream_inv h stored closed destroyed
  | prepared nextObjectId deadline next =>
    refine { h with prepared := ?_ }
    apply (h.prepared.mono (le_of_checkedAdd next)).prepareAll (nodup_idRange _ _)
    · intro id hid
      exact (mem_idRange next hid).2
    · intro id hid
      cases hd : s.prepared[id]? with
      | none => rfl
      | some d =>
        have hlt := h.prepared.fresh id d hd
        have hle := (mem_idRange next hid).1
        exact absurd (UInt64.lt_of_lt_of_le hlt hle) (UInt64.lt_irrefl _)
  | committed ok => exact commitStreamSetObject_inv h hlen ok
  | compacted ok => exact compactStreamObject_inv h ok
  | expired ok => exact expirePreparedObjects_inv h ok
  | cleaned =>
    apply List.foldlRecOn
    · exact h
    · intro t ht id _
      unfold cleanDestroyedObject
      split
      next seq hseq => exact { ht with destroyed := ht.destroyed.clean hseq }
      next => exact ht
  | put | putNew => exact insertKv_inv h hlen.1 hlen.2
  | removed =>
    refine { h with kv := ?_ }
    intro k v hv
    obtain ⟨-, hv⟩ := lookup_erase_iff.mp hv
    exact h.kv k v hv
  | transferred row unrecorded stored opened source =>
    exact { h with streams := h.streams.startTransfer stored opened _ }
  | completed row pending recorded stored closed =>
    -- the transfer is pending, so the stream was opened once
    obtain ⟨row₀, hrow₀, hne⟩ := h.streams.pending _ pending recorded
    obtain rfl : row = row₀ := Option.some.inj (stored.symm.trans hrow₀)
    exact { h with
      streams := (h.streams.retarget stored closed hne pending.toNode).endTransfer _ }

/-- Applying a command keeps the invariant, whether the command succeeds or fails. -/
theorem apply_inv (h : Inv N P s) (hid : N → command.NodeIdNonneg) (hlen : command.Lengths P)
    {r : Except MetadataError MetadataResult} (hok : apply s command = some (s', r)) :
  Inv N P s'
  := by
  unfold apply at hok
  split at hok
  next t res hres =>
    cases hok
    exact (applyInner_handled hres).inv h hid hlen
  next =>
    cases hok
    exact h
  next => cases hok

variable {commands : List MetadataCommand}

/-- A run keeps the invariant. -/
theorem applyAll_inv (h : Inv N P s) (hid : N → ∀ command ∈ commands, command.NodeIdNonneg)
    (hlen : ∀ command ∈ commands, command.Lengths P) (hok : applyAll s commands = some s') :
  Inv N P s'
  := by
  apply foldlM_some_induction _ h hok
  intro t command t' hmem ht hstep
  obtain ⟨⟨t', r⟩, hr, rfl⟩ := Option.map_eq_some_iff.mp hstep
  exact apply_inv ht (fun hN => hid hN command hmem) (hlen command hmem) hr

/-- The empty state has empty indexes. -/
theorem inv_new (N : Prop) (P : Nat → Prop) :
  Inv N P MetadataState.new
  where
  streams := ⟨by simp [MetadataState.new], by simp [MetadataState.new], rfl,
    fun _ => rfl, by simp [MetadataState.new]⟩
  prepared := ⟨by simp [MetadataState.new], rfl⟩
  setObjects := ⟨by simp [MetadataState.new], rfl, rfl⟩
  streamObjects := ⟨by simp [MetadataState.new], by simp [MetadataState.new]⟩
  destroyed := ⟨by simp [MetadataState.new], by simp [MetadataState.new]⟩
  kv := by simp [MetadataState.new]

/-- Every reachable state satisfies the invariant. -/
theorem inv_of_applyAll (hid : N → ∀ command ∈ commands, command.NodeIdNonneg)
    (hok : applyAll .new commands = some s) :
  Inv N (fun _ => True) s
  := by
  apply applyAll_inv (inv_new N _) hid _ hok
  intro command _
  cases command with
  | putKv | putKvIfAbsent => exact ⟨trivial, trivial⟩
  | _ => trivial

/-- Every sequence of commands from the empty state, failing ones included, leaves every
secondary index as the one derived from its primary rows. -/
theorem indexesDerived_of_applyAll {commands : List MetadataCommand}
    (hid : ∀ command ∈ commands, command.NodeIdNonneg)
    (hok : applyAll .new commands = some s) :
  IndexesDerived s
  := (inv_of_applyAll (fun _ => hid) hok).indexesDerived

/-- Two nodes, a stream that is placed, opened and on its way to the second node, an object
that is prepared, and a command that fails. -/
def transferringRun : List MetadataCommand :=
  [.registerNode 1 10 "" 1, .registerNode 2 20 "" 1, .createStream 1 10, .placeStream 0,
    .openStream 1 10 0 0, .openStream 2 20 0 0, .prepareObject 1 10 1 100 5, .transferStream 0 1 2]

theorem indexesDerived_transferringRun :
  ∃ s, applyAll .new transferringRun = some s ∧ (1, 0) ∈ s.openingByNode ∧
    0 ∈ s.pendingTransfers ∧ IndexesDerived s
  := by
  have hid : ∀ command ∈ transferringRun, command.NodeIdNonneg := by
    simp [transferringRun, MetadataCommand.NodeIdNonneg]
  obtain ⟨s, hs, hopening, hpending⟩ : ∃ s, applyAll .new transferringRun = some s ∧
      (1, 0) ∈ s.openingByNode ∧ 0 ∈ s.pendingTransfers := by
    decide +kernel
  exact ⟨s, hs, hopening, hpending, indexesDerived_of_applyAll hid hs⟩

end Metadata
