import StreamStack.Metadata.State

/-!
# The groups of the stream object compactor

`group0` cuts the objects it may merge into runs. A group holds objects whose offsets follow on,
within the limits on their number, their size, their parts and the span of their offsets; the
groups together hold every object that passes the filter, in order.
-/

namespace Object

def i32Max : UInt64 := 2147483647

def ObjectAttributes.isComposite (attributes : UInt32) : Bool := (attributes &&& 3) == 1

end Object

namespace Compact

open Metadata Object List

inductive CompactionLevel where
  | cleanup
  | minor
  | major
  | cleanupV1
  | minorV1
  | majorV1
deriving DecidableEq, Repr

def maxPartCount : UInt64 := 10000
def maxPartSize : UInt64 := 5 * 1024 * 1024 * 1024
def maxObjectSize : UInt64 := maxPartCount * maxPartSize
def maxObjectGroupCount : Nat := 5000

def startOffsetOf (object : S3ObjectMetadata) : UInt64 :=
  (object.offsetRanges.head?.map StreamOffsetRange.startOffset).getD 0

def endOffsetOf (object : S3ObjectMetadata) : UInt64 :=
  (object.offsetRanges.getLast?.map StreamOffsetRange.endOffset).getD 0

def objectFilter (level : CompactionLevel) (minMajorV1Size : UInt64) (object : S3ObjectMetadata) :
    Bool :=
  let isComposite := ObjectAttributes.isComposite object.attributes
  if level ≠ .majorV1 ∧ isComposite then false
  else if level = .majorV1 ∧ ¬ isComposite ∧ object.objectSize < minMajorV1Size then false
  else true

def divCeil (a b : UInt64) : UInt64 := if a % b > 0 then a / b + 1 else a / b

/-- The groups gathered so far, and the group that is open. -/
structure Grouping where
  groups : List (List S3ObjectMetadata) := []
  group : List S3ObjectMetadata := []
  groupSize : UInt64 := 0
  groupStartOffset : UInt64 := 0
  groupNextOffset : Option UInt64 := none
  partCount : UInt64 := 0

/-- Put one more object into a group: the open one, or a new one when the object does not follow
on or would make the open one too large. -/
def groupObject (maxStreamObjectSize : UInt64) (level : CompactionLevel)
    (minMajorV1Size : UInt64) (g : Grouping) (object : S3ObjectMetadata) : Grouping :=
  let objectPartCount := divCeil object.objectSize maxPartSize
  if ¬ objectFilter level minMajorV1Size object ∨ objectPartCount ≥ maxPartCount then g
  else
    let start := startOffsetOf object
    let stop := endOffsetOf object
    let g := if g.groupNextOffset.isNone then
        { g with groupStartOffset := start, groupNextOffset := some start }
      else g
    let g := if g.groupNextOffset ≠ some start
          ∨ (g.groupSize + object.objectSize > maxStreamObjectSize ∧ ¬ g.group.isEmpty)
          ∨ g.group.length ≥ maxObjectGroupCount
          ∨ g.partCount + objectPartCount > maxPartCount
          ∨ stop - g.groupStartOffset > i32Max then
        { g with
          groups := if g.group.isEmpty then g.groups else g.groups ++ [g.group]
          group := []
          groupSize := 0
          groupStartOffset := start
          partCount := 0 }
      else g
    { g with
      group := g.group ++ [object]
      groupSize := g.groupSize + object.objectSize
      groupNextOffset := some stop
      partCount := g.partCount + objectPartCount }

/-- Group adjacent objects under the limits on size and number. -/
def group0 (objects : List S3ObjectMetadata) (maxStreamObjectSize : UInt64)
    (level : CompactionLevel) (minMajorV1Size : UInt64) : List (List S3ObjectMetadata) :=
  let g := objects.foldl (groupObject maxStreamObjectSize level minMajorV1Size) {}
  if g.group.isEmpty then g.groups else g.groups ++ [g.group]

def partsOf (object : S3ObjectMetadata) : UInt64 := divCeil object.objectSize maxPartSize

/-- Whether `group0` puts an object into a group at all. -/
def groupable (level : CompactionLevel) (least : UInt64) (object : S3ObjectMetadata) : Bool :=
  objectFilter level least object && partsOf object < maxPartCount

def sizeOfGroup (group : List S3ObjectMetadata) : Nat :=
  (group.map fun object => object.objectSize.toNat).sum

def partsOfGroup (group : List S3ObjectMetadata) : Nat :=
  (group.map fun object => (partsOf object).toNat).sum

/-- The limits of a group. -/
structure GroupFits (limit : UInt64) (group : List S3ObjectMetadata) : Prop where
  nonempty : group ≠ []
  chained : group.IsChain fun a b => endOffsetOf a = startOffsetOf b
  count : group.length ≤ maxObjectGroupCount
  size : sizeOfGroup group ≤ limit.toNat ∨ group.length = 1
  parts : partsOfGroup group ≤ maxPartCount.toNat
  span : (∀ first ∈ group.head?, ∀ last ∈ group.getLast?,
      (endOffsetOf last).toNat ≤ (startOffsetOf first).toNat + i32Max.toNat) ∨ group.length = 1

/-! ### The object at hand -/

namespace Grouping

/-- The grouping when an object is looked at: the first one opens a group. -/
def opened (g : Grouping) (object : S3ObjectMetadata) : Grouping :=
  if g.groupNextOffset.isNone then
    { g with
      groupStartOffset := startOffsetOf object, groupNextOffset := some (startOffsetOf object) }
  else g

def cut (g : Grouping) (start : UInt64) : Grouping :=
  { g with
    groups := if g.group.isEmpty then g.groups else g.groups ++ [g.group]
    group := []
    groupSize := 0
    groupStartOffset := start
    partCount := 0 }

def add (g : Grouping) (object : S3ObjectMetadata) : Grouping :=
  { g with
    group := g.group ++ [object]
    groupSize := g.groupSize + object.objectSize
    groupNextOffset := some (endOffsetOf object)
    partCount := g.partCount + partsOf object }

/-- The object cannot join the open group. -/
def Cuts (limit : UInt64) (g : Grouping) (object : S3ObjectMetadata) : Prop :=
  g.groupNextOffset ≠ some (startOffsetOf object)
    ∨ (g.groupSize + object.objectSize > limit ∧ ¬ g.group.isEmpty)
    ∨ g.group.length ≥ maxObjectGroupCount
    ∨ g.partCount + partsOf object > maxPartCount
    ∨ endOffsetOf object - g.groupStartOffset > i32Max

end Grouping

variable {limit least start : UInt64} {level : CompactionLevel} {g : Grouping}
  {object : S3ObjectMetadata} {passed objects : List S3ObjectMetadata}

theorem groupObject_skips (h : groupable level least object = false) :
  groupObject limit level least g object = g
  := by
  apply if_pos
  rw [groupable, Bool.and_eq_false_iff, decide_eq_false_iff_not, UInt64.not_lt] at h
  exact h.imp_left Bool.eq_false_iff.mp

theorem groupObject_adds (h : groupable level least object = true) :
  (g.opened object).Cuts limit object ∧
    groupObject limit level least g object =
      ((g.opened object).cut (startOffsetOf object)).add object ∨
  ¬ (g.opened object).Cuts limit object ∧
    groupObject limit level least g object = (g.opened object).add object
  := by
  rw [groupable, Bool.and_eq_true, decide_eq_true_eq] at h
  have hpass : ¬ (¬ objectFilter level least object = true ∨ partsOf object ≥ maxPartCount) := by
    rw [not_or, not_not, ge_iff_le, UInt64.not_le]
    exact h
  by_cases hcut : (g.opened object).Cuts limit object
  · refine .inl ⟨hcut, (if_neg hpass).trans ?_⟩
    exact congrArg (Grouping.add · object) (if_pos hcut)
  · refine .inr ⟨hcut, (if_neg hpass).trans ?_⟩
    exact congrArg (Grouping.add · object) (if_neg hcut)

/-- An object that may be grouped is small: the sums of a group never overflow. -/
theorem size_of_groupable (h : groupable level least object = true) :
  object.objectSize.toNat ≤ maxObjectSize.toNat ∧ (partsOf object).toNat < maxPartCount.toNat
  := by
  rw [groupable, Bool.and_eq_true, decide_eq_true_eq, UInt64.lt_iff_toNat_lt] at h
  refine ⟨?_, h.2⟩
  have hdiv : object.objectSize.toNat / 5368709120 ≤ (partsOf object).toNat := by
    have hlt := object.objectSize.toNat_lt
    rw [partsOf, divCeil]
    split
    · rw [UInt64.toNat_add, UInt64.toNat_div]
      change _ ≤ (object.objectSize.toNat / 5368709120 + 1) % _
      omega
    · exact (UInt64.toNat_div object.objectSize maxPartSize).ge
  have hparts : (partsOf object).toNat < 10000 := h.2
  change _ ≤ 53687091200000
  omega

/-! ### The fold -/

/-- After the objects `passed` were put into groups: closed groups are within the limits, and the
running quantities are those of the open group. -/
structure Grouping.Inv (limit : UInt64) (passed : List S3ObjectMetadata) (g : Grouping) : Prop where
  flatten : g.groups.flatten ++ g.group = passed
  groups : ∀ group ∈ g.groups, GroupFits limit group
  group : g.group = [] ∨ GroupFits limit g.group
  small : ∀ object ∈ g.group, object.objectSize.toNat ≤ maxObjectSize.toNat
  size : g.groupSize.toNat = sizeOfGroup g.group
  parts : g.partCount.toNat = partsOfGroup g.group
  start : ∀ first ∈ g.group.head?, g.groupStartOffset = startOffsetOf first
  next : ∀ last ∈ g.group.getLast?, g.groupNextOffset = some (endOffsetOf last)
  ordered : ∀ last ∈ g.group.getLast?, g.groupStartOffset ≤ endOffsetOf last

/-- An object that is looked at while no group is open begins one. -/
theorem Grouping.start_opened (hidle : g.group = [] → g.groupNextOffset = none)
    (hempty : (g.opened object).group = []) :
  (g.opened object).groupStartOffset = startOffsetOf object
  := by
  rw [opened] at hempty ⊢
  split at hempty
  next hnone => rw [if_pos hnone]
  next hsome => exact absurd (Option.isNone_iff_eq_none.mpr (hidle hempty)) hsome

namespace Grouping.Inv

theorem opened (h : Inv limit passed g) (object : S3ObjectMetadata) :
  Inv limit passed (g.opened object)
  := by
  rw [Grouping.opened]
  split
  next hnone =>
    -- A group that holds an object has a next offset, so that the open group is empty here.
    have hempty : g.group = [] := by
      apply getLast?_eq_none_iff.mp
      apply Option.eq_none_iff_forall_ne_some.mpr
      intro last hlast
      rw [h.next last hlast] at hnone
      exact absurd hnone Bool.false_ne_true
    refine { h with start := ?_, next := ?_, ordered := ?_ }
    all_goals simp [hempty]
  · exact h

theorem cut (h : Inv limit passed g) (start : UInt64) :
  Inv limit passed (g.cut start)
  := by
  have hclosed : (g.cut start).groups.flatten = passed ∧
      ∀ group ∈ (g.cut start).groups, GroupFits limit group := by
    rw [Grouping.cut]
    rcases h.group with hempty | hfits
    · have hflatten := h.flatten
      rw [hempty, append_nil] at hflatten
      simpa [hempty] using ⟨hflatten, h.groups⟩
    · simpa [hfits.nonempty, h.flatten, or_imp, forall_and] using ⟨h.groups, hfits⟩
  refine ⟨(append_nil _).trans hclosed.1, hclosed.2, .inl rfl, ?_, rfl, rfl, ?_, ?_, ?_⟩
  all_goals simp [Grouping.cut]

/-- The open group is short enough for its sums not to overflow. -/
theorem sizeOfGroup_le (h : Inv limit passed g) :
  sizeOfGroup g.group ≤ maxObjectGroupCount * maxObjectSize.toNat
  := by
  have hcount : g.group.length ≤ maxObjectGroupCount := by
    rcases h.group with hempty | hfits
    · simp [hempty]
    · exact hfits.count
  have hsum : sizeOfGroup g.group ≤ (g.group.map fun _ => maxObjectSize.toNat).sum :=
    sum_le_sum h.small
  rw [map_const', sum_replicate] at hsum
  exact hsum.trans (Nat.mul_le_mul_right _ hcount)

/-- The open group starts at or below the end of an object that begins it or follows on. -/
theorem start_le (h : Inv limit passed g)
    (horder : startOffsetOf object ≤ endOffsetOf object)
    (hfirst : g.group = [] → g.groupStartOffset = startOffsetOf object)
    (hnext : g.group ≠ [] → g.groupNextOffset = some (startOffsetOf object)) :
  g.groupStartOffset ≤ endOffsetOf object
  := by
  by_cases hempty : g.group = []
  · rw [hfirst hempty]
    exact horder
  · have hlast := getLast?_eq_some_getLast hempty
    have hfollows := hnext hempty
    rw [h.next _ hlast, Option.some.injEq] at hfollows
    apply UInt64.le_trans (h.ordered _ hlast)
    rw [hfollows]
    exact horder

/-- An object joins the open group, which it begins or follows on within the limits. -/
theorem add (h : Inv limit passed g)
    (hsmall : object.objectSize.toNat ≤ maxObjectSize.toNat ∧
      (partsOf object).toNat < maxPartCount.toNat)
    (horder : startOffsetOf object ≤ endOffsetOf object)
    (hfirst : g.group = [] → g.groupStartOffset = startOffsetOf object)
    (hjoin : g.group ≠ [] → ¬ g.Cuts limit object) :
  Inv limit (passed ++ [object]) (g.add object)
  := by
  have hsizeSum : (g.groupSize + object.objectSize).toNat =
      sizeOfGroup g.group + object.objectSize.toNat := by
    have hle := h.sizeOfGroup_le
    rw [UInt64.toNat_add, h.size, Nat.mod_eq_of_lt]
    change _ ≤ 5000 * 53687091200000 at hle
    have hobject : object.objectSize.toNat ≤ 53687091200000 := hsmall.1
    omega
  have hpartSum : (g.partCount + partsOf object).toNat =
      partsOfGroup g.group + (partsOf object).toNat := by
    have hle : partsOfGroup g.group ≤ 10000 := by
      rcases h.group with hempty | hfits
      · simp [partsOfGroup, hempty]
      · exact hfits.parts
    have hobject : (partsOf object).toNat < 10000 := hsmall.2
    rw [UInt64.toNat_add, h.parts, Nat.mod_eq_of_lt]
    omega
  have hsize : sizeOfGroup (g.group ++ [object]) =
      sizeOfGroup g.group + object.objectSize.toNat := by
    simp [sizeOfGroup]
  have hparts : partsOfGroup (g.group ++ [object]) =
      partsOfGroup g.group + (partsOf object).toNat := by
    simp [partsOfGroup]
  have hordered : g.groupStartOffset ≤ endOffsetOf object :=
    h.start_le horder hfirst fun hne => not_not.mp (not_or.mp (hjoin hne)).1
  have hfits : GroupFits limit (g.group ++ [object]) := by
    by_cases hempty : g.group = []
    · rw [hempty] at hsize hparts ⊢
      refine ⟨cons_ne_nil _ _, .singleton _, Nat.succ_pos _, .inr rfl, ?_, .inr rfl⟩
      rw [hparts]
      exact (Nat.zero_add _).trans_le hsmall.2.le
    · have hfits := h.group.resolve_left hempty
      have hcuts := hjoin hempty
      rw [Cuts, not_or, not_or, not_or, not_or, not_not] at hcuts
      obtain ⟨hnext, hsizeLe, hcount, hpartsLe, hspan⟩ := hcuts
      refine ⟨append_ne_nil_of_right_ne_nil _ (cons_ne_nil _ _), ?_, ?_, .inl ?_, ?_, .inl ?_⟩
      · refine isChain_append.mpr ⟨hfits.chained, .singleton _, ?_⟩
        intro last hlast first hfirst
        rw [h.next last hlast, Option.some.injEq] at hnext
        rw [hnext, Option.some.inj hfirst]
      · rw [length_append, length_singleton]
        omega
      · rw [hsize, ← hsizeSum, ← UInt64.le_iff_toNat_le, ← UInt64.not_lt]
        exact fun hlt => hsizeLe ⟨hlt, by simpa using hempty⟩
      · rw [hparts, ← hpartSum, ← UInt64.le_iff_toNat_le, ← UInt64.not_lt]
        exact hpartsLe
      · intro first hfirst last hlast
        rw [getLast?_concat, Option.mem_def, Option.some.injEq] at hlast
        rw [head?_append_of_ne_nil _ hempty] at hfirst
        have hle : (endOffsetOf object - g.groupStartOffset).toNat ≤ i32Max.toNat :=
          UInt64.le_iff_toNat_le.mp (UInt64.not_lt.mp hspan)
        rw [UInt64.toNat_sub_of_le _ _ hordered] at hle
        rw [← hlast, ← h.start first hfirst]
        omega
  refine ⟨?_, h.groups, .inr hfits, ?_, hsizeSum.trans hsize.symm, hpartSum.trans hparts.symm,
    ?_, ?_, ?_⟩
  · rw [← h.flatten]
    exact (append_assoc _ _ _).symm
  · simpa [Grouping.add, or_imp, forall_and] using ⟨h.small, hsmall.1⟩
  · intro first hmem
    by_cases hempty : g.group = []
    · rw [Grouping.add, hempty] at hmem
      rw [← Option.some.inj hmem]
      exact hfirst hempty
    · rw [Grouping.add, head?_append_of_ne_nil _ hempty] at hmem
      exact h.start first hmem
  · simp [Grouping.add]
  · simpa [Grouping.add] using hordered

end Grouping.Inv

variable (limit least level) in
/-- The grouping after some objects: the invariant, and a group is open once one was added. -/
theorem inv_foldl (horder : ∀ object ∈ objects, startOffsetOf object ≤ endOffsetOf object) :
  let g := objects.foldl (groupObject limit level least) {}
  g.Inv limit (objects.filter (groupable level least)) ∧
    (g.group = [] → g.groupNextOffset = none)
  := by
  induction objects using reverseRecOn with
  | nil =>
    refine ⟨⟨rfl, ?_, .inl rfl, ?_, rfl, rfl, ?_, ?_, ?_⟩, fun _ => rfl⟩
    all_goals simp
  | append_singleton objects object ih =>
    rw [forall_mem_append, forall_mem_singleton] at horder
    obtain ⟨hinv, hidle⟩ := ih horder.1
    simp only [foldl_append, foldl_cons, foldl_nil, filter_append]
    generalize objects.foldl (groupObject limit level least) {} = g at *
    cases hpass : groupable level least object with
    | false =>
      rw [groupObject_skips hpass, filter_singleton, hpass]
      simpa using ⟨hinv, hidle⟩
    | true =>
      rw [filter_singleton, hpass, cond_true]
      have hopened := hinv.opened object
      rcases groupObject_adds hpass with ⟨-, heq⟩ | ⟨hcuts, heq⟩
      · rw [heq]
        refine ⟨(hopened.cut _).add (size_of_groupable hpass) horder.2 (fun _ => rfl) ?_, ?_⟩
        · exact fun hne => absurd rfl hne
        · simp [Grouping.add]
      · rw [heq]
        refine ⟨hopened.add (size_of_groupable hpass) horder.2 ?_ fun _ => hcuts, ?_⟩
        · exact Grouping.start_opened hidle
        · simp [Grouping.add]

/-- The groups are runs of the objects that pass, each within the limits, and the span of an object
that follows on is taken from an offset that is not above its end. -/
theorem group0_runs
    (horder : ∀ object ∈ objects, startOffsetOf object ≤ endOffsetOf object) :
  (group0 objects limit level least).flatten =
    objects.filter (groupable level least) ∧
  (∀ group ∈ group0 objects limit level least,
    GroupFits limit group) ∧
  ∀ before object after, objects = before ++ object :: after →
    groupable level least object = true →
    let g := (before.foldl (groupObject limit level least) {}).opened object
    g.groupNextOffset = some (startOffsetOf object) → g.groupStartOffset ≤ endOffsetOf object
  := by
  have hinv := (inv_foldl limit least level horder).1.cut 0
  refine ⟨(append_nil _).symm.trans hinv.flatten, hinv.groups, ?_⟩
  intro before object after hsplit hpass g hnext
  rw [hsplit, forall_mem_append, forall_mem_cons] at horder
  obtain ⟨hbefore, hidle⟩ := inv_foldl limit least level horder.1
  exact (hbefore.opened _).start_le horder.2.1 (Grouping.start_opened hidle) fun _ => hnext

/-- Two objects that follow on and one after a gap. -/
def twoRuns : List S3ObjectMetadata :=
  [⟨1, .stream, [⟨7, 0, 10⟩], 100, 0, 0, 0⟩, ⟨2, .stream, [⟨7, 10, 30⟩], 200, 0, 0, 0⟩,
    ⟨3, .stream, [⟨7, 40, 50⟩], 50, 0, 0, 0⟩]

theorem group0_runs_twoRuns :
  (group0 twoRuns 1000 .major 0).map (·.map (·.objectId)) = [[1, 2], [3]] ∧
    ∀ group ∈ group0 twoRuns 1000 .major 0, GroupFits 1000 group
  := ⟨by decide, (group0_runs (by decide)).2.1⟩

end Compact
