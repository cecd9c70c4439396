import StreamStack.Metadata.Coverage

/-!
# The objects of a stream

A read asks for the objects that hold a range of a stream. The answer merges two scans, one of the
ranges of the stream-set objects and one of the stream objects, and stops at a limit. A scan looks
up the object of a range without a check, and takes the first range of a stream object without a
check; the indexes of a reachable state are such that neither is missing.
-/

namespace Metadata

open OrdMap List

/-! ### The query -/

def overlaps (startOffset endOffset rangeStart rangeEnd : UInt64) : Bool :=
  rangeEnd > startOffset && rangeStart < endOffset

/-- Move to the next stream object that overlaps the range that is asked for. -/
def peekStreamObject (startOffset endOffset : UInt64) :
    List (StreamOffsetKey × StreamObjectRow) → Option (List (StreamOffsetKey × StreamObjectRow))
  | [] => some []
  | (key, row) :: rest => do
      let range ← row.object.offsetRanges.head?
      if overlaps startOffset endOffset range.startOffset range.endOffset then
        return (key, row) :: rest
      else peekStreamObject startOffset endOffset rest

/-- The merge of the two scans; `none` is the panic at a missing entry. -/
def getObjectsLoop (s : MetadataState) (startOffset endOffset : UInt64) :
    ℕ → List (UInt64 × UInt64) → List (StreamOffsetKey × StreamObjectRow) →
    Option (List S3ObjectMetadata)
  | 0, _, _ => some []
  | limit + 1, sso, streamObjs => do
      match sso, ← peekStreamObject startOffset endOffset streamObjs with
      | (_, objectId) :: rest, [] =>
        let row ← s.streamSetObjects[objectId]?
        return row.object :: (← getObjectsLoop s startOffset endOffset limit rest [])
      | (ssoStart, objectId) :: rest, (key, next) :: streamRest =>
        if key.2.1 < ssoStart then
          return next.object :: (← getObjectsLoop s startOffset endOffset limit sso streamRest)
        else
          let row ← s.streamSetObjects[objectId]?
          return row.object ::
            (← getObjectsLoop s startOffset endOffset limit rest ((key, next) :: streamRest))
      | [], (_, next) :: streamRest =>
        return next.object :: (← getObjectsLoop s startOffset endOffset limit [] streamRest)
      | [], [] => return []

/-- The slice of one stream, up to the first entry that starts too late. -/
def streamSlice {ν : Type} (m : OrdMap StreamOffsetKey ν) (streamId endOffset : UInt64) :
    List (StreamOffsetKey × ν) :=
  (rangeOf m (streamId, 0, 0) (streamId, u64Max, u64Max)).takeWhile
    fun e => decide (e.1.2.1 < endOffset)

def getObjects (s : MetadataState) (streamId startOffset endOffset : UInt64) (limit : ℕ) :
    Option (List S3ObjectMetadata) :=
  let sso := (streamSlice s.ssoRanges streamId endOffset).filter
    fun e => overlaps startOffset endOffset e.1.2.1 e.2
  getObjectsLoop s startOffset endOffset limit (sso.map fun e => e.1.2)
    (streamSlice s.streamObjects streamId endOffset)

/-! ### What is listed for a stream -/

/-- A range of the stream in an object; `own` is true of a stream object. -/
structure Listed where
  start : UInt64
  own : Bool
  objectId : UInt64
  endOffset : UInt64
  object : S3ObjectMetadata

/-- Range start, then stream-set objects before stream objects, then object id. -/
def Listed.rank (e : Listed) : ℕ ×ₗ Bool ×ₗ ℕ :=
  toLex (e.start.toNat, toLex (e.own, e.objectId.toNat))

/-- A stream-set object holds the stream from the start of the range, up to the end that its list
of ranges gives last for this start. -/
def InSetObject (s : MetadataState) (streamId : UInt64) (e : Listed) : Prop :=
  e.own = false ∧ ∃ row, s.streamSetObjects[e.objectId]? = some row ∧ e.object = row.object ∧
    (row.object.offsetRanges.filter fun r =>
      r.streamId = streamId ∧ r.startOffset = e.start).getLast?.map (·.endOffset)
      = some e.endOffset

/-- The range of a stream object of the stream. -/
def IsStreamObject (s : MetadataState) (streamId : UInt64) (e : Listed) : Prop :=
  e.own = true ∧ ∃ (key : StreamOffsetKey) (row : StreamObjectRow),
    s.streamObjects[key]? = some row ∧ e.object = row.object ∧ e.objectId = row.object.objectId ∧
    row.object.offsetRanges = [⟨streamId, e.start, e.endOffset⟩]

variable {s : MetadataState} {streamId : UInt64}

def Listed.overlaps (startOffset endOffset : UInt64) (e : Listed) : Bool :=
  Metadata.overlaps startOffset endOffset e.start e.endOffset

/-- The entry of the stream objects that a listed one stands for. -/
def streamEntry (streamId : UInt64) (e : Listed) : StreamOffsetKey × StreamObjectRow :=
  ((streamId, e.start, e.objectId), ⟨e.object⟩)

theorem lookup_ofEntries_last {κ ν : Type} [Ord κ] [Std.TransOrd κ] [Std.LawfulEqOrd κ]
    [DecidableEq κ] (l : List (κ × ν)) (a : κ) :
  (ofEntries l)[a]? = (l.filter fun e => e.1 = a).getLast?.map Prod.snd
  := by
  induction l with
  | nil => rw [lookup_ofEntries_nil, filter_nil, getLast?_nil, Option.map_none]
  | cons e l ih =>
    rw [lookup_ofEntries_cons, ih, filter_cons]
    by_cases heq : e.1 = a
    · simp only [heq, decide_true, if_true, getLast?_cons]
      cases (l.filter fun e => e.1 = a).getLast? with
      | none => rfl
      | some last => rfl
    · simp [heq]

theorem ssoRanges_iff (streamId : UInt64)
    (h : s.ssoRanges = derive rangeEntries s.streamSetObjects) (start objectId endOffset : UInt64) :
  s.ssoRanges[(streamId, start, objectId)]? = some endOffset ↔
    ∃ e, InSetObject s streamId e ∧ e.start = start ∧ e.objectId = objectId ∧
      e.endOffset = endOffset
  := by
  rw [h, lookup_derive rangeEntries_owned, Option.bind_eq_some_iff]
  have hlast (row : StreamSetObjectRow) : (ofEntries (rangeEntries objectId row))[
      (streamId, start, objectId)]? = (row.object.offsetRanges.filter fun r =>
        r.streamId = streamId ∧ r.startOffset = start).getLast?.map (·.endOffset) := by
    rw [lookup_ofEntries_last, rangeEntries, filter_map, getLast?_map, Option.map_map]
    simp [Function.comp_def]
  constructor
  · rintro ⟨row, hrow, hend⟩
    rw [hlast] at hend
    exact ⟨⟨start, false, objectId, endOffset, row.object⟩, ⟨rfl, row, hrow, rfl, hend⟩, rfl, rfl,
      rfl⟩
  · rintro ⟨e, ⟨-, row, hrow, -, hend⟩, rfl, rfl, rfl⟩
    exact ⟨row, hrow, (hlast row).trans hend⟩

theorem streamObjects_iff (streamId : UInt64)
    (h : StreamObjectsInv s.streamObjects s.streamObjectIds) (start objectId : UInt64)
    (row : StreamObjectRow) :
  s.streamObjects[(streamId, start, objectId)]? = some row ↔
    ∃ e, IsStreamObject s streamId e ∧ e.start = start ∧ e.objectId = objectId ∧
      ⟨e.object⟩ = row
  := by
  constructor
  · intro hrow
    obtain ⟨hid, endOffset, hranges⟩ := h.rows _ row hrow
    exact ⟨⟨start, true, objectId, endOffset, row.object⟩,
      ⟨rfl, _, row, hrow, rfl, hid.symm, hranges⟩, rfl, rfl, rfl⟩
  · rintro ⟨e, ⟨-, key, row, hrow, hobject, hid, hranges⟩, rfl, rfl, rfl⟩
    obtain ⟨hid', endOffset, hranges'⟩ := h.rows key row hrow
    rw [hranges, List.cons.injEq, StreamOffsetRange.mk.injEq] at hranges'
    obtain ⟨⟨rfl, hstart, -⟩, -⟩ := hranges'
    rw [hid, hid', hstart, hobject]
    exact hrow

variable {e e' : Listed}

theorem InSetObject.eq (h : InSetObject s streamId e) (h' : InSetObject s streamId e')
    (hstart : e.start = e'.start) (hid : e.objectId = e'.objectId) :
  e = e'
  := by
  obtain ⟨start, own, objectId, endOffset, object⟩ := e
  obtain ⟨start', own', objectId', endOffset', object'⟩ := e'
  grind [InSetObject]

theorem IsStreamObject.eq (h : StreamObjectsInv s.streamObjects s.streamObjectIds)
    (he : IsStreamObject s streamId e) (he' : IsStreamObject s streamId e')
    (hstart : e.start = e'.start) (hid : e.objectId = e'.objectId) :
  e = e'
  := by
  have hrow := (streamObjects_iff streamId h _ _ _).mpr ⟨e, he, rfl, rfl, rfl⟩
  have hrow' := (streamObjects_iff streamId h _ _ _).mpr ⟨e', he', rfl, rfl, rfl⟩
  obtain ⟨start, own, objectId, endOffset, object⟩ := e
  obtain ⟨start', own', objectId', endOffset', object'⟩ := e'
  grind [IsStreamObject]

/-! ### One scan -/

theorem rank_lt (hown : e.own = e'.own)
    (h : compare (streamId, e.start, e.objectId) (streamId, e'.start, e'.objectId) = .lt) :
  e.rank < e'.rank
  := by
  have hlex : compare (streamId, e.start, e.objectId) (streamId, e'.start, e'.objectId)
      = (compare streamId streamId).then
        ((compare e.start e'.start).then (compare e.objectId e'.objectId)) := rfl
  rw [hlex, Std.ReflOrd.compare_self, Ordering.then_eq_lt, Ordering.then_eq_lt] at h
  simp only [reduceCtorEq, true_and, false_or, Std.compare_eq_lt,
    Std.LawfulEqCmp.compare_eq_iff_eq, UInt64.lt_iff_toNat_lt] at h
  simp only [Listed.rank, Prod.Lex.toLex_lt_toLex, hown, lt_self_iff_false, false_or, true_and]
  rcases h with hlt | ⟨heq, hlt⟩
  · exact .inl hlt
  · exact .inr ⟨congrArg UInt64.toNat heq, hlt⟩

/-- The entries of an index of the stream, when each stands for one thing that is listed. -/
theorem exists_scan {ν : Type} {m : OrdMap StreamOffsetKey ν} {P : Listed → Prop}
    {value : Listed → ν} {own : Bool} (hown : ∀ e, P e → e.own = own)
    (hmem : ∀ start objectId v, m[(streamId, start, objectId)]? = some v ↔
      ∃ e, P e ∧ e.start = start ∧ e.objectId = objectId ∧ value e = v)
    (heq : ∀ e e', P e → P e' → e.start = e'.start → e.objectId = e'.objectId → e = e') :
  ∃ listed : List Listed,
    rangeOf m (streamId, 0, 0) (streamId, u64Max, u64Max)
      = listed.map (fun e => ((streamId, e.start, e.objectId), value e)) ∧
    (∀ e, e ∈ listed ↔ P e) ∧ listed.Pairwise fun e e' => e.rank < e'.rank
  := by
  have hlo := isLE_lex_of_least zero_le_u64 zero_le_u64
  have hhi := isLE_lex_of_greatest le_u64Max le_u64Max
  have hscan (x : StreamOffsetKey × ν) :=
    mem_rangeOf m hlo hhi streamId x
  have hall : ∀ x ∈ rangeOf m (streamId, 0, 0) (streamId, u64Max, u64Max),
      ∃ e, P e ∧ ((streamId, e.start, e.objectId), value e) = x := by
    rintro ⟨⟨_, start, objectId⟩, v⟩ hx
    obtain ⟨hv, rfl⟩ := (hscan _).mp hx
    obtain ⟨e, he, rfl, rfl, rfl⟩ := (hmem _ _ _).mp hv
    exact ⟨e, he, rfl⟩
  choose pick hpick hentry using hall
  refine ⟨List.pmap pick _ fun _ hx => hx, ?_, ?_, ?_⟩
  · rw [map_pmap]
    simp only [hentry, pmap_eq_map, map_id']
  · intro e
    rw [mem_pmap]
    constructor
    · rintro ⟨x, hx, rfl⟩
      exact hpick x hx
    · intro he
      have hx := (hscan ((streamId, e.start, e.objectId), value e)).mpr
        ⟨(hmem _ _ _).mpr ⟨e, he, rfl, rfl, rfl⟩, rfl⟩
      have hkey := Prod.mk.inj (Prod.mk.inj (hentry _ hx)).1
      obtain ⟨hstart, hid⟩ := Prod.mk.inj hkey.2
      exact ⟨_, hx, heq _ _ (hpick _ hx) he hstart hid⟩
  · rw [pairwise_pmap]
    apply (List.Pairwise.filter _ Std.ExtTreeMap.ordered_keys_toList).imp
    intro x y hlt hx hy
    rw [← hentry x hx, ← hentry y hy] at hlt
    exact rank_lt ((hown _ (hpick x hx)).trans (hown _ (hpick y hy)).symm) hlt

/-! ### The merge -/

variable {listed : List Listed}

/-- Beyond the first entry that starts too late, none overlaps. -/
theorem filter_takeWhile (h : listed.Pairwise fun e e' => e.rank < e'.rank)
    (startOffset endOffset : UInt64) :
  (listed.takeWhile fun e => decide (e.start < endOffset)).filter
      (Listed.overlaps startOffset endOffset)
    = listed.filter (Listed.overlaps startOffset endOffset)
  := by
  induction listed with
  | nil => rfl
  | cons e listed ih =>
    obtain ⟨hfirst, hrest⟩ := pairwise_cons.mp h
    by_cases hstart : e.start < endOffset
    · rw [takeWhile_cons_of_pos (by simpa using hstart), filter_cons, filter_cons,
        ih hrest]
    · rw [takeWhile_cons_of_neg (by simpa using hstart), filter_nil]
      symm
      rw [filter_eq_nil_iff]
      intro e' he'
      have hle : e.start ≤ e'.start := by
        rcases mem_cons.mp he' with rfl | he'
        · exact UInt64.le_refl _
        · have hrank := (hfirst e' he').le
          rw [Listed.rank, Listed.rank, Prod.Lex.toLex_le_toLex] at hrank
          rw [UInt64.le_iff_toNat_le]
          omega
      simp only [Listed.overlaps, overlaps, Bool.and_eq_true, decide_eq_true_eq, not_and]
      exact fun _ hlt => hstart (UInt64.lt_of_le_of_lt hle hlt)

theorem rank_le_iff (hsso : e.own = false) (hown : e'.own = true) :
  e.rank ≤ e'.rank ↔ ¬ e'.start < e.start
  := by
  simp only [Listed.rank, hsso, hown, Prod.Lex.toLex_le_toLex, Bool.false_lt_true, true_or,
    and_true, UInt64.lt_iff_toNat_lt]
  omega

theorem peekStreamObject_spec (h : ∀ e ∈ listed, IsStreamObject s streamId e)
    (startOffset endOffset : UInt64) :
  ∃ rest : List Listed,
    peekStreamObject startOffset endOffset (listed.map (streamEntry streamId))
      = some (rest.map (streamEntry streamId)) ∧
    listed.filter (Listed.overlaps startOffset endOffset)
      = rest.filter (Listed.overlaps startOffset endOffset) ∧
    (∀ e ∈ rest, IsStreamObject s streamId e) ∧
    ∀ e ∈ rest.head?, e.overlaps startOffset endOffset
  := by
  induction listed with
  | nil => exact ⟨[], rfl, rfl, nofun, nofun⟩
  | cons e listed ih =>
    obtain ⟨-, key, row, -, hobject, -, hranges⟩ := h e mem_cons_self
    simp only [map_cons, streamEntry, peekStreamObject, hobject, hranges, head?_cons,
      Option.bind_eq_bind, Option.bind_some]
    rw [← Listed.overlaps]
    by_cases hover : e.overlaps startOffset endOffset
    · refine ⟨e :: listed, ?_, rfl, h, ?_⟩
      · rw [if_pos hover, map_cons, streamEntry, hobject]
        rfl
      · rintro _ ⟨⟩
        exact hover
    · rw [if_neg hover, filter_cons_of_neg hover]
      exact ih fun e' he' => h e' (mem_cons_of_mem e he')

/-- The loop returns the objects of the merged scans up to the limit. -/
theorem getObjectsLoop_eq {sso own : List Listed} (hsso : ∀ e ∈ sso, InSetObject s streamId e)
    (hown : ∀ e ∈ own, IsStreamObject s streamId e) (startOffset endOffset : UInt64) (limit : ℕ) :
  getObjectsLoop s startOffset endOffset limit (sso.map fun e => (e.start, e.objectId))
      (own.map (streamEntry streamId))
    = some (((sso.merge (own.filter (Listed.overlaps startOffset endOffset))
      fun e e' => decide (e.rank ≤ e'.rank)).take limit).map (·.object))
  := by
  induction limit generalizing sso own with
  | zero => simp [getObjectsLoop]
  | succ limit ih =>
    obtain ⟨rest, hpeek, hfilter, hrest, hhead⟩ :=
      peekStreamObject_spec hown startOffset endOffset
    rw [getObjectsLoop, hpeek, hfilter]
    cases sso with
    | nil =>
      cases rest with
      | nil => simp
      | cons e rest =>
        have hnext := ih hsso fun e' he' => hrest e' (mem_cons_of_mem e he')
        rw [nil_merge] at hnext
        rw [filter_cons_of_pos (hhead e rfl), nil_merge]
        simp only [map_nil] at hnext
        simp [hnext, streamEntry]
    | cons e sso =>
      obtain ⟨-, row, hrow, hobject, -⟩ := hsso e mem_cons_self
      have hsso' := fun e' he' => hsso e' (mem_cons_of_mem e he')
      cases rest with
      | nil =>
        have hnext := ih hsso' hrest
        simp only [map_nil, filter_nil, merge_right] at hnext
        simp [hrow, hnext, hobject]
      | cons e' rest =>
        have hnext := ih hsso fun e'' he'' => hrest e'' (mem_cons_of_mem e' he'')
        have hnext' := ih hsso' hrest
        rw [filter_cons_of_pos (hhead e' rfl)] at hnext' ⊢
        rw [cons_merge_cons]
        have hrank := rank_le_iff (hsso e mem_cons_self).1
          (hrest e' mem_cons_self).1
        simp only [map_cons, streamEntry] at hnext hnext'
        by_cases hlt : e'.start < e.start
        · simp [hnext, hlt, hrank, streamEntry]
        · simp [hnext', hlt, hrank, hrow, hobject, streamEntry]

theorem pairwise_merge_rank {l l' : List Listed} (h : l.Pairwise fun e e' => e.rank < e'.rank)
    (h' : l'.Pairwise fun e e' => e.rank < e'.rank)
    (hne : ∀ e ∈ l, ∀ e' ∈ l', e.rank ≠ e'.rank) :
  (l.merge l' fun e e' => decide (e.rank ≤ e'.rank)).Pairwise fun e e' => e.rank < e'.rank
  := by
  have hle : (l.merge l' fun e e' => decide (e.rank ≤ e'.rank)).Pairwise
      fun e e' => decide (e.rank ≤ e'.rank) = true := by
    apply pairwise_merge
    · intro a b c hab hbc
      exact decide_eq_true ((of_decide_eq_true hab).trans (of_decide_eq_true hbc))
    · intro a b
      simpa using le_total a.rank b.rank
    · exact h.imp fun hlt => decide_eq_true hlt.le
    · exact h'.imp fun hlt => decide_eq_true hlt.le
  have hdistinct : (l.merge l' fun e e' => decide (e.rank ≤ e'.rank)).Pairwise
      fun e e' => e.rank ≠ e'.rank := by
    rw [(merge_perm_append ..).pairwise_iff fun hne => hne.symm, pairwise_append]
    exact ⟨h.imp fun hlt => hlt.ne, h'.imp fun hlt => hlt.ne, hne⟩
  apply (hle.and hdistinct).imp
  intro e e' hboth
  exact lt_of_le_of_ne (of_decide_eq_true hboth.1) hboth.2

/-- In every state that commands lead to, a query finds each entry it looks up, and returns the
first objects of all that is listed for the stream and overlaps the range, in order. -/
theorem getObjects_exact {commands : List MetadataCommand} (hrun : applyAll .new commands = some s)
    (streamId startOffset endOffset : UInt64) (limit : ℕ) :
  ∃ listed : List Listed, listed.Pairwise (fun e e' => e.rank < e'.rank) ∧
    (∀ e, e ∈ listed ↔ (InSetObject s streamId e ∨ IsStreamObject s streamId e) ∧
      e.overlaps startOffset endOffset) ∧
    getObjects s streamId startOffset endOffset limit
      = some ((listed.take limit).map (·.object))
  := by
  have hinv := inv_of_applyAll (N := False) nofun hrun
  obtain ⟨sso, hscan, hsso, hsorted⟩ := exists_scan (fun _ he => he.1)
    (ssoRanges_iff streamId hinv.setObjects.ranges) fun _ _ => InSetObject.eq
  obtain ⟨own, hscan', hown, hsorted'⟩ := exists_scan (fun _ he => he.1)
    (streamObjects_iff streamId hinv.streamObjects)
    fun _ _ => IsStreamObject.eq hinv.streamObjects
  use (sso.filter (Listed.overlaps startOffset endOffset)).merge
    (own.filter (Listed.overlaps startOffset endOffset)) fun e e' => decide (e.rank ≤ e'.rank)
  refine ⟨?_, ?_, ?_⟩
  · apply pairwise_merge_rank (hsorted.filter _) (hsorted'.filter _)
    intro e he e' he' heq
    have hsame : e.own = e'.own := congrArg (fun r => (ofLex (ofLex r).2).1) heq
    rw [((hsso e).mp (mem_of_mem_filter he)).1,
      ((hown e').mp (mem_of_mem_filter he')).1] at hsame
    cases hsame
  · intro e
    rw [mem_merge, mem_filter, mem_filter, hsso, hown, or_and_right]
  · have hsso' : ∀ e ∈ sso.filter (Listed.overlaps startOffset endOffset),
        InSetObject s streamId e := fun e he => (hsso e).mp (mem_of_mem_filter he)
    have hown' : ∀ e ∈ own.takeWhile fun e => decide (e.start < endOffset),
        IsStreamObject s streamId e := fun e he => (hown e).mp (takeWhile_subset _ he)
    rw [← filter_takeWhile hsorted', ← getObjectsLoop_eq hsso' hown', ← filter_takeWhile hsorted,
      getObjects, streamSlice, streamSlice, hscan, hscan', takeWhile_map, takeWhile_map, filter_map,
      map_map]
    rfl

theorem getObjects_exact_coveredRun :
  ∃ s listed, applyAll .new coveredRun = some s ∧
    (getObjects s 0 0 9 2).map (List.map (·.objectId)) = some [0, 1] ∧
    getObjects s 0 0 9 2 = some ((List.take 2 listed).map Listed.object)
  := by
  obtain ⟨s, hs, hids⟩ : ∃ s, applyAll .new coveredRun = some s ∧
      (getObjects s 0 0 9 2).map (List.map (·.objectId)) = some [0, 1] := by
    decide +kernel
  obtain ⟨listed, -, -, heq⟩ := getObjects_exact hs 0 0 9 2
  exact ⟨s, listed, hs, hids, heq⟩

end Metadata
