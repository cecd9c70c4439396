import StreamStack.Wal.Windows

/-!
# Recovery of an ordered log

A log is ordered when the windows of its objects come one after the other in the order of epochs and
start offsets. No object of such a log is dropped for an overlap, the last object of a listing ends
last, and recovery reads exactly the objects that end beyond the trim offset and have no gap before
them. It yields their records in the order of the offsets, without an error.
-/

namespace Wal

open OrdMap Spans List RecoverIterator

/-! ### Listings of an ordered log -/

/-- The windows of the objects come one after the other in the order of recovery, and the records
lie in them one after the other. -/
structure Ordered (store : Store) : Prop where
  window : ∀ key ∈ store, key.2.1 < key.2.2 ∧ dataFileAlignSize ∣ key.2.2 ∧ key.2.2 < 2 ^ 63
  objects : ∀ (key : ObjectKey) (object : ObjectData), store[key]? = some object →
    object.Valid ∧ object.frames.Pairwise (fun f g => f.offset < g.offset) ∧
      ∀ f ∈ object.frames, key.2.1 ≤ f.offset ∧ f.offset + f.size ≤ key.2.2
  next : ∀ key ∈ store, ∀ key' ∈ store,
    key.1 < key'.1 ∨ key.1 = key'.1 ∧ key.2.1 < key'.2.1 → key.2.2 ≤ key'.2.1
  unique : ∀ key ∈ store, ∀ key' ∈ store, key.1 = key'.1 → key.2.1 = key'.2.1 → key = key'

variable {key : ObjectKey}

theorem Ordered.frame_lt {store : Store} (h : Ordered store) {object : ObjectData}
    (hobject : store[key]? = some object) :
  ∀ f ∈ object.frames, f.offset < key.2.2
  := by
  intro f hf
  have hend := ((h.objects key object hobject).2.2 f hf).2
  rw [Frame.size, walRecordHeaderSize] at hend
  omega

theorem ordered_empty :
  Ordered ∅
  := by
  have hempty (key : ObjectKey) : key ∉ (∅ : Store) := Std.ExtTreeMap.not_mem_empty
  refine ⟨?_, ?_, ?_, ?_⟩
  · exact fun key hkey => absurd hkey (hempty key)
  · intro key object hobject
    rw [lookup_empty] at hobject
    cases hobject
  · exact fun key hkey => absurd hkey (hempty key)
  · exact fun key hkey => absurd hkey (hempty key)

/-- What is left after an object is deleted is ordered. -/
theorem Ordered.erase {store : Store} (h : Ordered store) (deleted : ObjectKey) :
  Ordered (store.erase deleted)
  := by
  have hmem {key : ObjectKey} (hmem : key ∈ store.erase deleted) : key ∈ store :=
    ((mem_erase_iff _ _ _).mp hmem).2
  refine ⟨?_, ?_, ?_, ?_⟩
  · exact fun key hkey => h.window key (hmem hkey)
  · intro key object hobject
    obtain ⟨-, hobject⟩ := lookup_erase_iff.mp hobject
    exact h.objects key object hobject
  · exact fun key hkey key' hkey' => h.next key (hmem hkey) key' (hmem hkey')
  · exact fun key hkey key' hkey' => h.unique key (hmem hkey) key' (hmem hkey')

/-- An object is stored whose window lies between those of the others. -/
theorem Ordered.insert {store : Store} (h : Ordered store) {object : ObjectData}
    (hwindow : key.2.1 < key.2.2 ∧ dataFileAlignSize ∣ key.2.2 ∧ key.2.2 < 2 ^ 63)
    (hobject : object.Valid ∧ object.frames.Pairwise (fun f g => f.offset < g.offset) ∧ ∀ f ∈
      object.frames, key.2.1 ≤ f.offset ∧ f.offset + f.size ≤ key.2.2) (hbefore : ∀ key' ∈ store,
      key'.1 < key.1 ∨ key'.1 = key.1 ∧ key'.2.1 < key.2.1 → key'.2.2 ≤ key.2.1) (hafter : ∀ key'
      ∈ store, key.1 < key'.1 ∨ key.1 = key'.1 ∧ key.2.1 < key'.2.1 → key.2.2 ≤ key'.2.1)
    (hsame : ∀ key' ∈ store, key'.1 = key.1 → key'.2.1 = key.2.1 → key' = key) :
  Ordered (store.insert key object)
  := by
  refine ⟨?_, ?_, ?_, ?_⟩
  · intro key' hkey'
    rcases (OrdMap.mem_insert_iff _ _ _ _).mp hkey' with rfl | hkey'
    · exact hwindow
    · exact h.window key' hkey'
  · exact forall_insert hobject h.objects
  · intro a ha b hb hlt
    rcases (OrdMap.mem_insert_iff _ _ _ _).mp ha with rfl | ha
    · rcases (OrdMap.mem_insert_iff _ _ _ _).mp hb with rfl | hb
      · omega
      · exact hafter b hb hlt
    · rcases (OrdMap.mem_insert_iff _ _ _ _).mp hb with rfl | hb
      · exact hbefore a ha hlt
      · exact h.next a ha b hb hlt
  · intro a ha b hb hepoch hstart
    rcases (OrdMap.mem_insert_iff _ _ _ _).mp ha with rfl | ha
    · rcases (OrdMap.mem_insert_iff _ _ _ _).mp hb with rfl | hb
      · rfl
      · exact (hsame b hb hepoch.symm hstart.symm).symm
    · rcases (OrdMap.mem_insert_iff _ _ _ _).mp hb with rfl | hb
      · exact hsame a ha hepoch hstart
      · exact h.unique a ha b hb hepoch hstart

/-- The object that comes last in the order of recovery. -/
def Newest (store : Store) (key : ObjectKey) : Prop :=
  key ∈ store ∧ ∀ key' ∈ store, key'.1 < key.1 ∨ key'.1 = key.1 ∧ key'.2.1 ≤ key.2.1

/-- The object that comes first in the order of recovery. -/
def Oldest (store : Store) (key : ObjectKey) : Prop :=
  key ∈ store ∧ ∀ key' ∈ store, key' ≠ key →
    key.1 < key'.1 ∨ key.1 = key'.1 ∧ key.2.1 < key'.2.1

section

variable {store : Store} {listed : List WalObject} {o : WalObject}

theorem mem_list :
  o ∈ store.list ↔ ∃ object, store[o.key]? = some object ∧ o = listing (o.key, object)
  := by
  constructor
  · intro ho
    obtain ⟨e, he, rfl⟩ := mem_map.mp ho
    exact ⟨e.2, Std.ExtTreeMap.mem_toList_iff_getElem?_eq_some.mp he, rfl⟩
  · rintro ⟨object, hobject, ho⟩
    rw [ho]
    apply mem_map_of_mem
    exact Std.ExtTreeMap.mem_toList_iff_getElem?_eq_some.mpr hobject

theorem nodup_list (store : Store) :
  store.list.Nodup
  := by
  apply List.Nodup.of_map WalObject.key
  rw [Store.list, map_map]
  exact nodup_keys_toList store

theorem mem_parse (hperm : listed.Perm store.list) :
  o ∈ parseWalObjects listed ↔ ∃ object, store[o.key]? = some object ∧ o = listing (o.key, object)
  := by
  rw [← mem_list, ← hperm.mem_iff]
  exact (mergeSort_perm listed WalObject.le).mem_iff

/-- The objects in the order of recovery. -/
theorem parse_sorted (listed : List WalObject) :
  (parseWalObjects listed).Pairwise fun a b => WalObject.le a b = true
  := by
  apply pairwise_mergeSort
  · intro a b c hab hbc
    simp only [WalObject.le, decide_eq_true_eq] at hab hbc ⊢
    omega
  · intro a b
    simp only [WalObject.le, Bool.or_eq_true, decide_eq_true_eq]
    omega

/-- An object that overlaps one of another epoch is dropped when it comes first. -/
theorem skipOverlapObjects_cons {first : WalObject} {rest : List WalObject} (hnotin : first ∉ rest)
    (hoverlap : ∃ o ∈ rest, first.epoch ≠ o.epoch ∧ first.endOffset > o.startOffset) :
  ∃ overlaps, skipOverlapObjects (first :: rest) = (rest, overlaps) ∧ ∀ o ∈ overlaps, o = first
  := by
  have hgone (more : List WalObject) (hmore : ∀ o ∈ more, o = first) :
      more.foldl List.erase rest = rest := by
    induction more with
    | nil => rfl
    | cons x more ih =>
      rw [foldl_cons, hmore x mem_cons_self, erase_of_not_mem hnotin]
      exact ih fun o ho => hmore o (mem_cons_of_mem x ho)
  unfold skipOverlapObjects
  dsimp only
  -- every overlap that is noted is one of the first object
  generalize hoverlaps : rest.filterMap (fun o => if first.epoch ≠ o.epoch ∧
    first.endOffset > o.startOffset then some first else none) = overlaps
  have hnoted : ∀ o ∈ overlaps, o = first := by
    rw [← hoverlaps]
    intro o ho
    obtain ⟨other, -, heq⟩ := mem_filterMap.mp ho
    exact (Option.some.inj (Option.ite_none_right_eq_some.mp heq).2).symm
  refine ⟨overlaps, ?_, hnoted⟩
  cases overlaps with
  | nil =>
    obtain ⟨o, ho, hcond⟩ := hoverlap
    exact absurd (filterMap_eq_nil_iff.mp hoverlaps o ho) (by simp [hcond])
  | cons x more =>
    rw [foldl_cons, hnoted x mem_cons_self, erase_cons_head,
      hgone more fun o ho => hnoted o (mem_cons_of_mem x ho)]

/-- When the first object overlaps one of another epoch, recovery goes on with the others. -/
theorem discover_of_overlapped (hperm : listed.Perm store.list) (holdest : Oldest store key)
    (hoverlap : ∃ key' ∈ store, key.1 ≠ key'.1 ∧ key'.2.1 < key.2.2) :
  ∃ listed', listed'.Perm (Store.list (store.erase key)) ∧
    discoverWalObjects listed = parseWalObjects listed' ∧
    ∀ o ∈ (skipOverlapObjects (parseWalObjects listed)).2, o.key = key
  := by
  obtain ⟨object, hobject⟩ := (mem_iff_lookup _ _).mp holdest.1
  have hnodup : (parseWalObjects listed).Nodup :=
    ((mergeSort_perm listed WalObject.le).trans hperm).nodup_iff.mpr (nodup_list store)
  have hsorted := parse_sorted listed
  have hmem (o : WalObject) := mem_parse (o := o) hperm
  have hself := (hmem (listing (key, object))).mpr ⟨object, hobject, rfl⟩
  have hothers (o : WalObject) (ho : o ∈ parseWalObjects listed) (hkey : o.key = key) :
      o = listing (key, object) := by
    obtain ⟨object', hobject', heq⟩ := (hmem o).mp ho
    rw [hkey] at hobject' heq
    cases hobject.symm.trans hobject'
    exact heq
  rw [discoverWalObjects]
  cases hparse : parseWalObjects listed with
  | nil =>
    rw [hparse] at hself
    cases hself
  | cons first rest =>
    rw [hparse] at hnodup hsorted hmem hself hothers
    obtain ⟨hnotin, hnodup'⟩ := nodup_cons.mp hnodup
    obtain ⟨hfirst, hsorted'⟩ := pairwise_cons.mp hsorted
    obtain rfl : first = listing (key, object) := by
      rcases mem_cons.mp hself with heq | hin
      · exact heq.symm
      · apply hothers first mem_cons_self
        by_contra hne
        obtain ⟨object', hobject', -⟩ := (hmem first).mp mem_cons_self
        have hlater := holdest.2 first.key ((mem_iff_lookup _ _).mpr ⟨object', hobject'⟩) hne
        have hle := of_decide_eq_true (hfirst _ hin)
        change first.epoch < key.1 ∨ first.epoch = key.1 ∧ first.startOffset ≤ key.2.1 at hle
        change key.1 < first.epoch ∨ key.1 = first.epoch ∧ key.2.1 < first.startOffset at hlater
        omega
    have hrest : rest.Perm (Store.list (store.erase key)) := by
      apply (perm_ext_iff_of_nodup hnodup' (nodup_list _)).mpr
      intro o
      simp only [mem_list, lookup_erase_iff, and_assoc, exists_and_left, ← hmem o, mem_cons]
      constructor
      · intro ho
        refine ⟨fun heq => hnotin ?_, .inr ho⟩
        rw [← hothers o (mem_cons_of_mem _ ho) heq.symm]
        exact ho
      · rintro ⟨hne, rfl | ho⟩
        · exact absurd rfl hne
        · exact ho
    obtain ⟨key', hkey', hepoch, hstart⟩ := hoverlap
    obtain ⟨object', hobject'⟩ := (mem_iff_lookup _ _).mp hkey'
    have hother : listing (key', object') ∈ rest := by
      have hin := (hmem (listing (key', object'))).mpr ⟨object', hobject', rfl⟩
      refine (mem_cons.mp hin).resolve_left fun heq => ?_
      exact hepoch (congrArg WalObject.epoch heq).symm
    obtain ⟨overlaps, hskip, hnoted⟩ := skipOverlapObjects_cons hnotin ⟨_, hother, hepoch, hstart⟩
    rw [hskip]
    refine ⟨rest, hrest, (mergeSort_of_pairwise hsorted').symm, ?_⟩
    intro o ho
    rw [hnoted o ho]
    rfl

variable (h : Ordered store) (hperm : listed.Perm store.list)

include h hperm

theorem Ordered.parse :
  (parseWalObjects listed).Pairwise fun a b => a.endOffset ≤ b.startOffset
  := by
  have hnodup : (parseWalObjects listed).Nodup :=
    ((mergeSort_perm listed WalObject.le).trans hperm).nodup_iff.mpr (nodup_list store)
  apply (parse_sorted listed |>.and hnodup).imp_of_mem
  rintro a b ha hb ⟨hle, hne⟩
  obtain ⟨object, hobject, ha⟩ := (mem_parse hperm).mp ha
  obtain ⟨object', hobject', hb⟩ := (mem_parse hperm).mp hb
  have hamem : a.key ∈ store := (mem_iff_lookup _ _).mpr ⟨object, hobject⟩
  have hbmem : b.key ∈ store := (mem_iff_lookup _ _).mpr ⟨object', hobject'⟩
  simp only [WalObject.le, decide_eq_true_eq] at hle
  by_cases hsame : a.epoch = b.epoch ∧ a.startOffset = b.startOffset
  · have hkey := h.unique _ hamem _ hbmem hsame.1 hsame.2
    rw [hkey] at hobject ha
    cases hobject.symm.trans hobject'
    exact absurd (ha.trans hb.symm) hne
  · apply h.next _ hamem _ hbmem
    change a.epoch < b.epoch ∨ a.epoch = b.epoch ∧ a.startOffset < b.startOffset
    omega

/-- No object of an ordered log overlaps another, so none is dropped. -/
theorem Ordered.skipOverlap :
  skipOverlapObjects (parseWalObjects listed) = (parseWalObjects listed, [])
  := by
  have hpairwise := h.parse hperm
  unfold skipOverlapObjects
  split
  next hnil => rw [hnil]
  next last rest hcons =>
    rw [hcons] at hpairwise ⊢
    have hoverlap : rest.filterMap (fun object =>
        if last.epoch ≠ object.epoch ∧ last.endOffset > object.startOffset then some last
        else none) = [] := by
      apply filterMap_eq_nil_iff.mpr
      intro object hobject
      have hle := (pairwise_cons.mp hpairwise).1 object hobject
      apply if_neg
      omega
    dsimp only
    rw [hoverlap]
    rfl

theorem Ordered.discover :
  discoverWalObjects listed = parseWalObjects listed
  := by
  rw [discoverWalObjects, h.skipOverlap hperm]

/-- The last object of a listing is the newest, and it ends last. -/
theorem Ordered.getLast (hlast : (discoverWalObjects listed).getLast? = some o) :
  Newest store o.key ∧ ∀ key ∈ store, key.2.2 ≤ o.endOffset
  := by
  rw [h.discover hperm] at hlast
  have ho := mem_of_getLast? hlast
  obtain ⟨object, hobject, -⟩ := (mem_parse hperm).mp ho
  have homem : o.key ∈ store := (mem_iff_lookup _ _).mpr ⟨object, hobject⟩
  obtain ⟨front, hfront⟩ := getLast?_eq_some_iff.mp hlast
  have hsorted := parse_sorted listed
  have hpairwise := h.parse hperm
  rw [hfront] at hsorted hpairwise
  have hbefore : ∀ key ∈ store, key = o.key ∨ ∃ p ∈ front, p.key = key := by
    intro key hkey
    obtain ⟨object', hobject'⟩ := (mem_iff_lookup _ _).mp hkey
    have hp : listing (key, object') ∈ parseWalObjects listed :=
      (mem_parse hperm).mpr ⟨object', hobject', rfl⟩
    rw [hfront] at hp
    rcases mem_append.mp hp with hp | hp
    · exact .inr ⟨_, hp, rfl⟩
    · rw [← mem_singleton.mp hp]
      exact .inl rfl
  refine ⟨⟨homem, ?_⟩, ?_⟩
  · intro key hkey
    rcases hbefore key hkey with rfl | ⟨p, hp, rfl⟩
    · exact .inr ⟨rfl, le_refl _⟩
    · have hle := (pairwise_append.mp hsorted).2.2 p hp o (mem_singleton_self _)
      exact of_decide_eq_true hle
  · intro key hkey
    rcases hbefore key hkey with rfl | ⟨p, hp, rfl⟩
    · exact le_refl _
    · have hle := (pairwise_append.mp hpairwise).2.2 p hp o (mem_singleton_self _)
      have hwindow : o.startOffset < o.endOffset := (h.window _ homem).1
      exact hle.trans hwindow.le

/-- An empty listing is one of an empty log. -/
theorem Ordered.getLast_none (hlast : (discoverWalObjects listed).getLast? = none)
    (key : ObjectKey) :
  key ∉ store
  := by
  intro hkey
  obtain ⟨object, hobject⟩ := (mem_iff_lookup _ _).mp hkey
  have hmem : listing (key, object) ∈ parseWalObjects listed :=
    (mem_parse hperm).mpr ⟨object, hobject, rfl⟩
  rw [h.discover hperm] at hlast
  rw [getLast?_eq_none_iff.mp hlast] at hmem
  cases hmem

end

/-! ### Runs of objects -/

/-- The object ends beyond the trim offset, and none before it that does is followed by a gap. -/
def InRun (objects : List WalObject) (trimOffset : Int) (o : WalObject) : Prop :=
  o ∈ objects ∧ trimOffset < o.endOffset ∧
    ∀ p ∈ objects, trimOffset < p.endOffset → p.startOffset < o.startOffset →
      ∃ q ∈ objects, q.startOffset = p.endOffset

variable {trimOffset : Int}

section

variable {objects : List WalObject} {o p : WalObject}

/-- Objects with windows one after the other. -/
structure Sorted (objects : List WalObject) : Prop where
  window : ∀ o ∈ objects, o.startOffset < o.endOffset
  next : objects.Pairwise fun a b => a.endOffset ≤ b.startOffset

theorem Sorted.tail (h : Sorted (o :: objects)) :
  Sorted objects
  := ⟨fun p hp => h.window p (mem_cons_of_mem o hp), (pairwise_cons.mp h.next).2⟩

/-- The head ends before all others start. -/
theorem Sorted.head (h : Sorted (o :: objects)) :
  o.startOffset < o.endOffset ∧ ∀ p ∈ objects, o.endOffset ≤ p.startOffset ∧
    p.startOffset < p.endOffset
  := by
  refine ⟨h.window o mem_cons_self, fun p hp => ?_⟩
  exact ⟨(pairwise_cons.mp h.next).1 p hp, h.window p (mem_cons_of_mem o hp)⟩

/-- Dropping what ends at or below the trim offset leaves what ends beyond it. -/
theorem Sorted.dropWhile (h : Sorted objects) (trimOffset : Int) :
  objects.dropWhile (fun o => (o.endOffset : Int) ≤ trimOffset)
    = objects.filter fun o => trimOffset < (o.endOffset : Int)
  := by
  induction objects with
  | nil => rfl
  | cons o rest ih =>
    by_cases hle : (o.endOffset : Int) ≤ trimOffset
    · rw [dropWhile_cons_of_pos (by simpa using hle), filter_cons_of_neg (by simpa using hle)]
      exact ih h.tail
    · rw [dropWhile_cons_of_neg (by simpa using hle)]
      symm
      apply filter_eq_self.mpr
      intro p hp
      apply decide_eq_true
      rcases mem_cons.mp hp with rfl | hp
      · omega
      · have hafter := h.head.2 p hp
        omega

/-- The objects up to the first gap are those before which there is none. -/
theorem Sorted.mem_takeContinuous (h : Sorted objects) :
  o ∈ takeContinuous objects ↔ o ∈ objects ∧
    ∀ p ∈ objects, p.startOffset < o.startOffset → ∃ q ∈ objects, q.startOffset = p.endOffset
  := by
  induction objects with
  | nil => simp [takeContinuous]
  | cons a rest ih =>
    -- nothing starts before the first object
    have hfirst : ∀ p ∈ a :: rest, ¬ p.startOffset < a.startOffset := by
      intro p hp
      rcases mem_cons.mp hp with rfl | hp
      · exact lt_irrefl _
      · have hafter := h.head.2 p hp
        have hlt := h.head.1
        omega
    cases rest with
    | nil =>
      simp only [takeContinuous, mem_singleton]
      constructor
      · rintro rfl
        exact ⟨rfl, fun p hp hlt => absurd hlt (hfirst p (by simp [hp]))⟩
      · exact fun ho => ho.1
    | cons b rest =>
      rw [takeContinuous]
      split
      next hgap =>
        constructor
        · intro ho
          obtain rfl := mem_singleton.mp ho
          exact ⟨mem_cons_self, fun p hp hlt => absurd hlt (hfirst p hp)⟩
        · rintro ⟨ho, hnogap⟩
          rcases mem_cons.mp ho with rfl | ho
          · exact mem_singleton_self _
          · -- nothing starts where the first object ends
            have hafter := h.head.2 o ho
            have hlt := h.head.1
            obtain ⟨q, hq, hstart⟩ := hnogap a mem_cons_self (by omega)
            rcases mem_cons.mp hq with rfl | hq
            · omega
            · rcases mem_cons.mp hq with rfl | hq
              · exact absurd hstart hgap
              · have hb := h.head.2 b mem_cons_self
                have hbq := h.tail.head.2 q hq
                omega
      next hnext =>
        rw [mem_cons, ih h.tail]
        constructor
        · rintro (rfl | ⟨ho, hnogap⟩)
          · exact ⟨mem_cons_self, fun p hp hlt => absurd hlt (hfirst p hp)⟩
          · refine ⟨mem_cons_of_mem a ho, ?_⟩
            intro p hp hlt
            rcases mem_cons.mp hp with rfl | hp
            · exact ⟨b, mem_cons_of_mem p mem_cons_self, not_not.mp hnext⟩
            · obtain ⟨q, hq, hstart⟩ := hnogap p hp hlt
              exact ⟨q, mem_cons_of_mem a hq, hstart⟩
        · rintro ⟨ho, hnogap⟩
          rcases mem_cons.mp ho with rfl | ho
          · exact .inl rfl
          · refine .inr ⟨ho, ?_⟩
            intro p hp hlt
            obtain ⟨q, hq, hstart⟩ := hnogap p (mem_cons_of_mem a hp) hlt
            rcases mem_cons.mp hq with rfl | hq
            · have hafter := h.head.2 p hp
              have hwindow := h.head.1
              omega
            · exact ⟨q, hq, hstart⟩

theorem Sorted.filter (h : Sorted objects) (keep : WalObject → Bool) :
  Sorted (objects.filter keep)
  := ⟨fun p hp => h.window p (mem_filter.mp hp).1, h.next.sublist filter_sublist⟩

/-- The objects that recovery reads are those of the run. -/
theorem Sorted.mem_getContinuous (h : Sorted objects) :
  o ∈ getContinuousFromTrimOffset objects trimOffset ↔ InRun objects trimOffset o
  := by
  rw [getContinuousFromTrimOffset, h.dropWhile, (h.filter _).mem_takeContinuous]
  simp only [mem_filter, decide_eq_true_eq, InRun, and_assoc]
  constructor
  · rintro ⟨ho, hlt, hnogap⟩
    refine ⟨ho, hlt, fun p hp hpend hstart => ?_⟩
    obtain ⟨q, hq, -, hqstart⟩ := hnogap p ⟨hp, hpend⟩ hstart
    exact ⟨q, hq, hqstart⟩
  · rintro ⟨ho, hlt, hnogap⟩
    refine ⟨ho, hlt, ?_⟩
    rintro p ⟨hp, hpend⟩ hstart
    obtain ⟨q, hq, hqstart⟩ := hnogap p hp hpend hstart
    have hwindow := h.window q hq
    exact ⟨q, hq, by omega, hqstart⟩

/-! ### Epochs of offsets -/

/-- The epochs in the index are those of objects, and the first object is in it. -/
theorem epochIndex_spec (o : WalObject) (objects : List WalObject) :
  (∀ offset epoch : Nat, (epochIndex (o :: objects))[offset]? = some epoch →
      ∃ p ∈ o :: objects, p.epoch = epoch) ∧
    o.startOffset ∈ epochIndex (o :: objects)
  := by
  unfold epochIndex
  rw [foldl_cons]
  apply List.foldlRecOn (motive := fun acc : OrdMap Nat Nat × Option Nat =>
    (∀ offset epoch : Nat, acc.1[offset]? = some epoch → ∃ p ∈ o :: objects, p.epoch = epoch) ∧
      o.startOffset ∈ acc.1)
  · rw [if_neg nofun]
    constructor
    · intro offset epoch hlookup
      rw [lookup_insert, lookup_empty] at hlookup
      split at hlookup
      next => exact ⟨o, mem_cons_self, Option.some.inj hlookup⟩
      next => cases hlookup
    · exact (OrdMap.mem_insert_iff _ _ _ _).mpr (.inl rfl)
  · rintro acc ⟨hindex, hfirst⟩ p hp
    split
    next => exact ⟨hindex, hfirst⟩
    next =>
      constructor
      · intro offset epoch hlookup
        rw [lookup_insert] at hlookup
        split at hlookup
        next => exact ⟨p, mem_cons_of_mem o hp, Option.some.inj hlookup⟩
        next => exact hindex offset epoch hlookup
      · exact (OrdMap.mem_insert_iff _ _ _ _).mpr (.inr hfirst)

/-- Every offset from the first object on has the epoch of some object. -/
theorem epochAt_spec {offset : Nat} (ho : o.startOffset ≤ offset) :
  ∃ p ∈ o :: objects, epochAt (epochIndex (o :: objects)) offset = some p.epoch
  := by
  obtain ⟨hindex, hfirst⟩ := epochIndex_spec o objects
  obtain ⟨epoch, hepoch⟩ := (mem_iff_lookup _ _).mp hfirst
  have hmem : (o.startOffset, epoch) ∈
      (epochIndex (o :: objects)).toList.filter fun e => e.1 ≤ offset := by
    apply mem_filter.mpr
    exact ⟨Std.ExtTreeMap.mem_toList_iff_getElem?_eq_some.mpr hepoch, decide_eq_true ho⟩
  cases hlast : ((epochIndex (o :: objects)).toList.filter fun e => e.1 ≤ offset).getLast? with
  | none =>
    rw [getLast?_eq_none_iff.mp hlast] at hmem
    cases hmem
  | some e =>
    have he := (mem_filter.mp (mem_of_getLast? hlast)).1
    obtain ⟨p, hp, hpepoch⟩ :=
      hindex e.1 e.2 (Std.ExtTreeMap.mem_toList_iff_getElem?_eq_some.mp he)
    refine ⟨p, hp, ?_⟩
    rw [epochAt, hlast, hpepoch]
    rfl

end

/-! ### Recovery from a storage -/

/-- What an object of a listing holds. -/
def Store.data (store : Store) (o : WalObject) : ObjectData :=
  (store[o.key]?).getD ⟨.v1 0 0 0 0 trimOffsetNone, []⟩

def Store.read (crc32 : List UInt8 → UInt32) (store : Store) (o : WalObject) : List UInt8 :=
  (store.data o).bytes crc32

/-- The records that trimming appends. -/
def StreamRecordBatch.IsTrim (r : StreamRecordBatch) : Prop :=
  r.streamId = trimRecordSentinel ∧ r.epoch = trimRecordSentinel

/-- An object is stored as it is listed. -/
structure Stored (store : Store) (o : WalObject) (object : ObjectData) : Prop where
  lookup : store[o.key]? = some object
  listed : o = listing (o.key, object)

variable {store : Store} {objects listed : List WalObject} {o : WalObject} {object : ObjectData}
  {crc32 : List UInt8 → UInt32}

theorem Stored.data (h : Stored store o object) :
  store.data o = object
  := by
  rw [Store.data, h.lookup]
  rfl

theorem ObjectData.length_bytes (crc32 : List UInt8 → UInt32)
    (hmagic : object.header.magic = walHeaderMagicV1) :
  (object.bytes crc32).length = object.size
  := by
  rw [ObjectData.bytes, length_append, WalObjectHeader.length_marshal hmagic, ObjectData.size,
    WalObjectHeader.size, if_pos hmagic, length_flatMap]
  simp only [Frame.length_bytes]

theorem Stored.holds (h : Stored store o object) (hvalid : object.Valid) :
  Holds crc32 (store.read crc32) store.data o
  := by
  refine ⟨rfl, ?_, ?_⟩
  · rw [Store.read, h.data, ObjectData.length_bytes crc32 hvalid.magic, h.listed]
    rfl
  · rw [h.data]
    exact hvalid

variable {maxReadaheadDataSize : Nat}

/-- Recovery of stored objects. -/
theorem recoverStream_stored (hpos : 0 < maxReadaheadDataSize)
    (hobjects : ∀ o ∈ objects, ∃ object, Stored store o object ∧ object.Valid) (hfirst : ∀ first ∈
      objects.head?, ∀ o ∈ objects, ∀ f ∈ (store.data o).frames, first.startOffset ≤ f.offset) :
  recoverStream crc32 (store.read crc32) objects maxReadaheadDataSize = some
    ((results (epochIndex objects)
      ((getContinuousFromTrimOffset objects (trimOf store.data objects)).flatMap
        fun o => (store.data o).frames)).filter
      (yields (trimOf store.data objects)), none)
  := by
  apply recoverStream_spec hpos
  · intro o ho
    obtain ⟨object, hstored, hvalid⟩ := hobjects o ho
    exact hstored.holds hvalid
  · intro o ho f hf
    cases objects with
    | nil => cases ho
    | cons first rest =>
      obtain ⟨p, -, hepoch⟩ := epochAt_spec (hfirst first rfl o ho f hf)
      exact ⟨p.epoch, hepoch⟩

variable {index : OrdMap Nat Nat} {frames : List Frame}

/-- A record that recovery yields. -/
theorem mem_recovered {r : RecoverResult} :
  r ∈ (results index frames).filter (yields trimOffset) ↔
    ∃ f ∈ frames, trimOffset < f.offset ∧ ¬ f.record.IsTrim ∧
      ∃ epoch, epochAt index f.offset = some epoch ∧ r = f.result epoch
  := by
  have hyields (f : Frame) (epoch : Nat) :
      yields trimOffset (f.result epoch) = true ↔
        trimOffset < f.offset ∧ ¬ f.record.IsTrim := by
    change (!(decide ((f.offset : Int) ≤ trimOffset) ||
      (f.record.streamId = trimRecordSentinel && f.record.epoch = trimRecordSentinel))) = true ↔ _
    simp [StreamRecordBatch.IsTrim, imp_iff_not_or]
  rw [mem_filter, results, mem_filterMap]
  constructor
  · rintro ⟨⟨f, hf, hr⟩, hyield⟩
    obtain ⟨epoch, hepoch, rfl⟩ := Option.map_eq_some_iff.mp hr
    obtain ⟨hlt, hnot⟩ := (hyields f epoch).mp hyield
    exact ⟨f, hf, hlt, hnot, epoch, hepoch, rfl⟩
  · rintro ⟨f, hf, hlt, hnot, epoch, hepoch, rfl⟩
    refine ⟨⟨f, hf, ?_⟩, (hyields f epoch).mpr ⟨hlt, hnot⟩⟩
    rw [hepoch]
    rfl

/-- Records are yielded in the order of the frames. -/
theorem recovered_pairwise (h : frames.Pairwise fun f g => f.offset < g.offset) :
  (((results index frames).filter (yields trimOffset)).map
    RecoverResult.offset).Pairwise (· < ·)
  := by
  apply pairwise_map.mpr
  apply List.Pairwise.sublist filter_sublist
  rw [results]
  apply List.Pairwise.filterMap _ _ h
  intro f g hlt r hr s hs
  obtain ⟨epoch, -, rfl⟩ := Option.map_eq_some_iff.mp hr
  obtain ⟨epoch', -, rfl⟩ := Option.map_eq_some_iff.mp hs
  exact hlt

/-! ### What recovery yields -/

/-- What recovery yields, as a list. -/
def recoveredRecords (store : Store) (objects : List WalObject) : List RecoverResult :=
  (results (epochIndex objects)
    ((getContinuousFromTrimOffset objects (trimOf store.data objects)).flatMap
      fun o => (store.data o).frames)).filter
    (yields (trimOf store.data objects))

theorem recoveredRecords_congr {store' : Store}
    (h : ∀ o ∈ objects, store.data o = store'.data o) :
  recoveredRecords store objects = recoveredRecords store' objects
  := by
  have htrim : trimOf store.data objects = trimOf store'.data objects := by
    unfold trimOf
    cases hlast : objects.getLast? with
    | none => simp only [Option.elim_none]
    | some o => simp only [Option.elim_some, h o (mem_of_getLast? hlast)]
  have hframes (objects' : List WalObject) (hsub : objects'.Sublist objects) :
      (objects'.flatMap fun o => (store.data o).frames)
        = objects'.flatMap fun o => (store'.data o).frames := by
    simp only [List.flatMap]
    congr 1
    exact map_congr_left fun o ho => by rw [h o (hsub.subset ho)]
  rw [recoveredRecords, recoveredRecords, htrim,
    hframes _ (getContinuousFromTrimOffset_sublist _ _)]

theorem mem_parse_stored (hperm : listed.Perm store.list) :
  o ∈ parseWalObjects listed ↔ ∃ object, Stored store o object
  := by
  rw [mem_parse hperm]
  constructor
  · rintro ⟨object, hlookup, hlisted⟩
    exact ⟨object, hlookup, hlisted⟩
  · rintro ⟨object, hlookup, hlisted⟩
    exact ⟨object, hlookup, hlisted⟩

section

variable (h : Ordered store) (hperm : listed.Perm store.list)

include h hperm

theorem Ordered.sorted :
  Sorted (parseWalObjects listed)
  := by
  refine ⟨?_, h.parse hperm⟩
  intro o ho
  obtain ⟨object, hstored⟩ := (mem_parse_stored hperm).mp ho
  exact (h.window o.key ((mem_iff_lookup _ _).mpr ⟨object, hstored.lookup⟩)).1

/-- The frames of objects one after the other are in the order of their offsets. -/
theorem Ordered.frames_pairwise (hsub : objects.Sublist (parseWalObjects listed)) :
  (objects.flatMap fun o => (store.data o).frames).Pairwise fun f g => f.offset < g.offset
  := by
  apply pairwise_flatMap.mpr
  constructor
  · intro o ho
    obtain ⟨object, hstored⟩ := (mem_parse_stored hperm).mp (hsub.subset ho)
    rw [hstored.data]
    exact (h.objects _ _ hstored.lookup).2.1
  · apply ((h.sorted hperm).next.sublist hsub).imp_of_mem
    intro o p ho hp hle f hf g hg
    obtain ⟨object, hstored⟩ := (mem_parse_stored hperm).mp (hsub.subset ho)
    obtain ⟨object', hstored'⟩ := (mem_parse_stored hperm).mp (hsub.subset hp)
    rw [hstored.data] at hf
    rw [hstored'.data] at hg
    have hlt : f.offset < o.endOffset := h.frame_lt hstored.lookup f hf
    have hge : p.startOffset ≤ g.offset := ((h.objects _ _ hstored'.lookup).2.2 g hg).1
    omega

/-- No record lies before the first object. -/
theorem Ordered.first_le {first : WalObject} {rest : List WalObject}
    (hobjects : parseWalObjects listed = first :: rest) (hstored : Stored store o object)
    {f : Frame} (hf : f ∈ object.frames) :
  first.startOffset ≤ f.offset
  := by
  have hsorted := h.sorted hperm
  have ho := (mem_parse_stored hperm).mpr ⟨object, hstored⟩
  have hge : o.startOffset ≤ f.offset := ((h.objects _ _ hstored.lookup).2.2 f hf).1
  rw [hobjects] at ho hsorted
  rcases mem_cons.mp ho with rfl | ho
  · exact hge
  · have hafter := hsorted.head.2 o ho
    have hwindow := hsorted.head.1
    omega

/-- Recovery of an ordered log returns without an error, also when there are other objects in the
storage. -/
theorem Ordered.recoverStream {store' : Store} (hsub : ∀ (key : ObjectKey) (object : ObjectData),
      store[key]? = some object → store'[key]? = some object)
    (crc32 : List UInt8 → UInt32) (hpos : 0 < maxReadaheadDataSize) :
  recoverStream crc32 (store'.read crc32) (parseWalObjects listed) maxReadaheadDataSize
    = some (recoveredRecords store (parseWalObjects listed), none)
  := by
  have hdata {o : WalObject} (ho : o ∈ parseWalObjects listed) : store.data o = store'.data o := by
    obtain ⟨object, hstored⟩ := (mem_parse_stored hperm).mp ho
    rw [hstored.data, Stored.data ⟨hsub _ _ hstored.lookup, hstored.listed⟩]
  rw [recoveredRecords_congr fun o ho => hdata ho]
  apply recoverStream_stored hpos
  · intro o ho
    obtain ⟨object, hstored⟩ := (mem_parse_stored hperm).mp ho
    exact ⟨object, ⟨hsub _ _ hstored.lookup, hstored.listed⟩,
      (h.objects _ _ hstored.lookup).1⟩
  · intro first hfirst o ho f hf
    obtain ⟨object, hstored⟩ := (mem_parse_stored hperm).mp ho
    rw [← hdata ho, hstored.data] at hf
    obtain ⟨rest, hobjects⟩ := head?_eq_some_iff.mp hfirst
    exact h.first_le hperm hobjects hstored hf

/-- Every record has the epoch of some object. -/
theorem Ordered.epochAt (hstored : Stored store o object) {f : Frame} (hf : f ∈ object.frames) :
  ∃ p object', Stored store p object' ∧
    epochAt (epochIndex (parseWalObjects listed)) f.offset = some p.epoch
  := by
  have ho := (mem_parse_stored hperm).mpr ⟨object, hstored⟩
  cases hobjects : parseWalObjects listed with
  | nil =>
    rw [hobjects] at ho
    cases ho
  | cons first rest =>
    obtain ⟨p, hp, hpepoch⟩ := epochAt_spec (h.first_le hperm hobjects hstored hf)
    rw [← hobjects] at hp
    obtain ⟨object', hstored'⟩ := (mem_parse_stored hperm).mp hp
    exact ⟨p, object', hstored', hpepoch⟩

/-- What recovery yields are the records of the run above the trim offset. -/
theorem Ordered.mem_recoveredRecords {r : RecoverResult} :
  r ∈ recoveredRecords store (parseWalObjects listed) ↔
    ∃ o object f epoch, Stored store o object ∧
      InRun store.list (trimOf store.data (parseWalObjects listed)) o ∧
      f ∈ object.frames ∧ trimOf store.data (parseWalObjects listed) < f.offset ∧
      ¬ f.record.IsTrim ∧
      Wal.epochAt (epochIndex (parseWalObjects listed)) f.offset = some epoch ∧ r = f.result epoch
  := by
  have hsorted := h.sorted hperm
  have hmem (o : WalObject) : o ∈ parseWalObjects listed ↔ o ∈ store.list := by
    rw [mem_parse hperm, mem_list]
  rw [recoveredRecords, mem_recovered]
  constructor
  · rintro ⟨f, hf, hlt, hnot, epoch, hat, rfl⟩
    obtain ⟨o, ho, hf⟩ := mem_flatMap.mp hf
    have hinrun := hsorted.mem_getContinuous.mp ho
    obtain ⟨object, hstored⟩ := (mem_parse_stored hperm).mp hinrun.1
    rw [hstored.data] at hf
    refine ⟨o, object, f, epoch, hstored, ?_, hf, hlt, hnot, hat, rfl⟩
    simpa only [InRun, hmem] using hinrun
  · rintro ⟨o, object, f, epoch, hstored, hinrun, hf, hlt, hnot, hat, rfl⟩
    refine ⟨f, ?_, hlt, hnot, epoch, hat, rfl⟩
    apply mem_flatMap.mpr
    refine ⟨o, hsorted.mem_getContinuous.mpr ?_, ?_⟩
    · simpa only [InRun, hmem] using hinrun
    · rw [hstored.data]
      exact hf

theorem Ordered.recoveredRecords_pairwise :
  ((recoveredRecords store (parseWalObjects listed)).map RecoverResult.offset).Pairwise (· < ·)
  := by
  apply recovered_pairwise
  exact h.frames_pairwise hperm (getContinuousFromTrimOffset_sublist _ _)

/-- The trim offset that recovery uses is that of the newest object. -/
theorem Ordered.trimOf_newest (hobject : store[key]? = some object) (hnewest : Newest store key) :
  trimOf store.data (parseWalObjects listed) = object.header.trimOffset.toInt
  := by
  have hdiscover := h.discover hperm
  cases hlast : (parseWalObjects listed).getLast? with
  | none =>
    rw [← hdiscover] at hlast
    exact absurd hnewest.1 (h.getLast_none hperm hlast key)
  | some o =>
    obtain ⟨object', hstored⟩ := (mem_parse_stored hperm).mp (mem_of_getLast? hlast)
    rw [trimOf, hlast]
    rw [← hdiscover] at hlast
    have ho := (h.getLast hperm hlast).1
    have hkey : key = o.key := by
      have hle := hnewest.2 _ ho.1
      have hge := ho.2 _ hnewest.1
      exact h.unique _ hnewest.1 _ ho.1 (by omega) (by omega)
    rw [hkey] at hobject
    cases hstored.lookup.symm.trans hobject
    change (store.data o).header.trimOffset.toInt = _
    rw [hstored.data]

end

/-- There is a newest object as soon as something is stored. -/
theorem Ordered.exists_newest (h : Ordered store) (hkey : key ∈ store) :
  ∃ key object, store[key]? = some object ∧ Newest store key
  := by
  cases hlast : (discoverWalObjects store.list).getLast? with
  | none => exact absurd hkey (h.getLast_none (List.Perm.refl _) hlast _)
  | some o =>
    have hnewest := (h.getLast (List.Perm.refl _) hlast).1
    obtain ⟨object, hobject⟩ := (mem_iff_lookup _ _).mp hnewest.1
    exact ⟨o.key, object, hobject, hnewest⟩

end Wal
