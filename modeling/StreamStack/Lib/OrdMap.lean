import Mathlib

/-!
# Ordered maps and derived indexes

`OrdMap κ ν` is a finite map with ordered keys. Two ordered maps are equal exactly when
all lookups in them agree.

`OrdMap.derive f m` is the secondary index of `m` whose entries are the entries `f k v`
of all the rows `(k, v)` of `m`, inserted in key order. When every entry of the row `k`
names `k`, in the sense that `owner` recovers `k` from the key of the entry, a lookup in
the index is a lookup in the entries of one row, and changing a row of `m` changes the
entries of that row only.
-/

universe u v w

open Std ExtTreeMap

set_option linter.unusedSectionVars false

attribute [instance] lexOrd

/-- Finite maps with keys in the order of `κ`. -/
abbrev OrdMap (κ : Type u) (ν : Type v) [Ord κ] : Type (max u v) :=
  ExtTreeMap κ ν compare

namespace OrdMap

open List

variable {κ : Type u} {ν : Type v} [Ord κ] [TransOrd κ] [LawfulEqOrd κ] [DecidableEq κ]

@[simp]
theorem lookup_insert (m : OrdMap κ ν) (k a : κ) (v : ν) :
  (m.insert k v)[a]? = if k = a then some v else m[a]?
  := by
  rw [ExtTreeMap.getElem?_insert]
  simp only [LawfulEqCmp.compare_eq_iff_eq]

@[simp]
theorem lookup_erase (m : OrdMap κ ν) (k a : κ) :
  (m.erase k)[a]? = if k = a then none else m[a]?
  := by
  rw [getElem?_erase]
  simp only [LawfulEqCmp.compare_eq_iff_eq]

@[simp]
theorem lookup_empty (a : κ) :
  (∅ : OrdMap κ ν)[a]? = none
  := getElem?_empty

variable {m : OrdMap κ ν}

/-- An ordered map is determined by its lookups. -/
theorem ext_lookup {m' : OrdMap κ ν} (h : ∀ a : κ, m[a]? = m'[a]?) :
  m = m'
  := ExtTreeMap.ext_getElem? h

variable {k : κ} {a : κ}

/-- A value found after an insertion is the inserted one or was there before. -/
theorem lookup_insert_cases {v b : ν} (h : (m.insert k v)[a]? = some b) :
  k = a ∧ v = b ∨ k ≠ a ∧ m[a]? = some b
  := by
  rw [lookup_insert] at h
  split at h
  next hk => exact .inl ⟨hk, Option.some.inj h⟩
  next hk => exact .inr ⟨hk, h⟩

/-- What holds of all entries still does after an insertion, if it holds of the new one. -/
theorem forall_insert {P : κ → ν → Prop} {v : ν} (hnew : P k v) (h : ∀ a b, m[a]? = some b → P a b) :
  ∀ a b, (m.insert k v)[a]? = some b → P a b
  := by
  intro a b hb
  rcases lookup_insert_cases hb with ⟨rfl, rfl⟩ | ⟨-, hb⟩
  · exact hnew
  · exact h a b hb

theorem lookup_erase_iff {b : ν} :
  (m.erase k)[a]? = some b ↔ k ≠ a ∧ m[a]? = some b
  := by
  rw [lookup_erase]
  split
  next hk => simp [hk]
  next hk => simp [hk]

theorem mem_iff_lookup (m : OrdMap κ ν) (a : κ) :
  a ∈ m ↔ ∃ v, m[a]? = some v
  := by
  rw [mem_iff_isSome_getElem?, Option.isSome_iff_exists]

theorem lookup_eq_none_of_not_contains (h : ¬ m.contains a = true) :
  m[a]? = none
  := by
  cases hv : m[a]? with
  | none => rfl
  | some v =>
    apply absurd _ h
    rw [ExtTreeMap.contains_iff_mem, mem_iff_lookup]
    exact ⟨v, hv⟩

theorem mem_insert_iff (m : OrdMap κ ν) (k a : κ) (v : ν) :
  a ∈ m.insert k v ↔ k = a ∨ a ∈ m
  := by
  rw [mem_insert, LawfulEqCmp.compare_eq_iff_eq]

theorem mem_erase_iff (m : OrdMap κ ν) (k a : κ) :
  a ∈ m.erase k ↔ k ≠ a ∧ a ∈ m
  := by
  rw [mem_erase, ne_eq, LawfulEqCmp.compare_eq_iff_eq]

instance [DecidableEq ν] : DecidableEq (OrdMap κ ν) :=
  fun _ _ => decidable_of_iff _ toList_inj

/-! ### Inserting a list of entries -/

/-- The map holding the entries `l`, later entries replacing earlier ones. -/
def ofEntries (l : List (κ × ν)) : OrdMap κ ν :=
  l.foldl (fun m e => m.insert e.1 e.2) ∅

/-- A lookup after inserting entries is a lookup among the entries, or in the map they
were inserted into when no entry has the key. -/
theorem lookup_foldl_insert (m : OrdMap κ ν) (l : List (κ × ν)) (a : κ) :
  (l.foldl (fun m e => m.insert e.1 e.2) m)[a]? = (ofEntries l)[a]?.or m[a]?
  := by
  induction l using List.reverseRecOn with
  | nil => simp [ofEntries]
  | append_singleton l e ih =>
    simp only [ofEntries, foldl_append, foldl_cons, foldl_nil, lookup_insert]
      at ih ⊢
    split
    · simp
    · apply ih

theorem lookup_ofEntries_append (l l' : List (κ × ν)) (a : κ) :
  (ofEntries (l ++ l'))[a]? = (ofEntries l')[a]?.or (ofEntries l)[a]?
  := by
  rw [ofEntries, foldl_append, lookup_foldl_insert]
  rfl

@[simp]
theorem lookup_ofEntries_nil (a : κ) :
  (ofEntries ([] : List (κ × ν)))[a]? = none
  := lookup_empty a

theorem lookup_ofEntries_cons (e : κ × ν) (l : List (κ × ν)) (a : κ) :
  (ofEntries (e :: l))[a]? = (ofEntries l)[a]?.or (if e.1 = a then some e.2 else none)
  := by
  rw [ofEntries, foldl_cons, lookup_foldl_insert, lookup_insert, lookup_empty]

variable {l : List (κ × ν)}

/-- A lookup among entries finds one of them. -/
theorem mem_of_lookup_ofEntries {v : ν} (h : (ofEntries l)[a]? = some v) :
  (a, v) ∈ l
  := by
  induction l with
  | nil => simp at h
  | cons e l ih =>
    rw [lookup_ofEntries_cons, Option.or_eq_some_iff] at h
    rcases h with h | ⟨-, h⟩
    · apply mem_cons_of_mem _ (ih h)
    · split at h
      · obtain ⟨a', v'⟩ := e
        simp_all
      · simp at h

/-- A key among the entries is found. -/
theorem lookup_ofEntries_isSome {v : ν} (h : (a, v) ∈ l) :
  (ofEntries l)[a]?.isSome
  := by
  induction l with
  | nil => simp at h
  | cons e l ih =>
    rw [lookup_ofEntries_cons]
    rcases mem_cons.mp h with rfl | h
    · simp
    · simp [ih h]

theorem lookup_ofEntries_eq_none (h : ∀ e ∈ l, e.1 ≠ a) :
  (ofEntries l)[a]? = none
  := by
  cases hv : (ofEntries l)[a]? with
  | none => rfl
  | some v => exact absurd rfl (h _ (mem_of_lookup_ofEntries hv))

/-- When the entries with one key agree, a lookup finds exactly the entries. -/
theorem lookup_ofEntries_iff (hl : ∀ a v v', (a, v) ∈ l → (a, v') ∈ l → v = v') (a : κ) (v : ν) :
  (ofEntries l)[a]? = some v ↔ (a, v) ∈ l
  := by
  constructor
  · apply mem_of_lookup_ofEntries
  · intro h
    obtain ⟨v', hv'⟩ := Option.isSome_iff_exists.mp (lookup_ofEntries_isSome h)
    rw [hv', hl a v v' h (mem_of_lookup_ofEntries hv')]

/-- A map is rebuilt by inserting its entries in key order. -/
theorem ofEntries_toList (m : OrdMap κ ν) :
  ofEntries m.toList = m
  := by
  apply ext_lookup
  intro a
  have hfun : ∀ a v v', (a, v) ∈ m.toList → (a, v') ∈ m.toList → v = v' := by
    intro a v v' h h'
    rw [mem_toList_iff_getElem?_eq_some] at h h'
    simpa [h] using h'
  apply Option.ext
  intro v
  rw [lookup_ofEntries_iff hfun, mem_toList_iff_getElem?_eq_some]

/-- A lookup after erasing keys. -/
theorem lookup_foldl_erase (m : OrdMap κ ν) (l : List κ) (a : κ) :
  (l.foldl (fun m k => m.erase k) m)[a]? = if a ∈ l then none else m[a]?
  := by
  induction l generalizing m with
  | nil => simp
  | cons k l ih =>
    rw [foldl_cons, ih, lookup_erase]
    by_cases hk : k = a
    · simp [hk]
    · simp [hk, Ne.symm hk]

/-- A lookup after giving keys the values of a function. -/
theorem lookup_foldl_insert_keys (m : OrdMap κ ν) (f : κ → ν) (l : List κ) (a : κ) :
  (l.foldl (fun m k => m.insert k (f k)) m)[a]? = if a ∈ l then some (f a) else m[a]?
  := by
  induction l generalizing m with
  | nil => simp
  | cons k l ih =>
    rw [foldl_cons, ih, lookup_insert]
    by_cases hk : k = a
    · simp [hk]
    · simp [hk, Ne.symm hk]

/-- Erasing a key that is not there changes nothing. -/
theorem erase_of_lookup_eq_none (h : m[k]? = none) :
  m.erase k = m
  := by
  apply ext_lookup
  intro a
  rw [lookup_erase]
  split
  next hk => rw [← hk, h]
  next => rfl

/-! ### Derived indexes -/

variable {κ' : Type w} {ν' : Type w} [Ord κ'] [TransOrd κ'] [LawfulEqOrd κ'] [DecidableEq κ']

/-- The entries of all rows of `m`, in key order. -/
def entries (f : κ → ν → List (κ' × ν')) (m : OrdMap κ ν) : List (κ' × ν') :=
  m.toList.flatMap fun e => f e.1 e.2

/-- The index holding the entries `f k v` of all the rows `(k, v)` of `m`. -/
def derive (f : κ → ν → List (κ' × ν')) (m : OrdMap κ ν) : OrdMap κ' ν' :=
  ofEntries (entries f m)

theorem mem_entries (f : κ → ν → List (κ' × ν')) (m : OrdMap κ ν) (e : κ' × ν') :
  e ∈ entries f m ↔ ∃ k v, m[k]? = some v ∧ e ∈ f k v
  := by
  simp [entries, mem_toList_iff_getElem?_eq_some]

/-- `owner` names the row of every entry `f k v`: an entry of row `k` has a key whose
owner is `k`. -/
def Owned (f : κ → ν → List (κ' × ν')) (owner : κ' → κ) : Prop :=
  ∀ k v, ∀ e ∈ f k v, owner e.1 = k

/-- When entries name their rows, a lookup in the entries of a list of rows with distinct
keys is a lookup in the entries of the row that owns the key. -/
theorem lookup_ofEntries_flatMap {f : κ → ν → List (κ' × ν')} {owner : κ' → κ}
    (hf : Owned f owner) (l : List (κ × ν)) (hl : (l.map Prod.fst).Nodup) (a : κ') (v : ν)
    (hv : (owner a, v) ∈ l) :
  (ofEntries (l.flatMap fun e => f e.1 e.2))[a]? = (ofEntries (f (owner a) v))[a]?
  := by
  induction l with
  | nil => simp at hv
  | cons e l ih =>
    rw [map_cons, nodup_cons] at hl
    rw [flatMap_cons, lookup_ofEntries_append]
    rcases mem_cons.mp hv with rfl | hv
    · have hrest : (ofEntries (l.flatMap fun e => f e.1 e.2))[a]? = none := by
        apply lookup_ofEntries_eq_none
        intro e' he' heq
        obtain ⟨r, hr, hre⟩ := mem_flatMap.mp he'
        have hk : owner a = r.1 := by rw [← heq, hf _ _ _ hre]
        apply hl.1
        rw [hk]
        apply mem_map_of_mem hr
      rw [hrest, Option.none_or]
    · have hne : e.1 ≠ owner a := by
        rintro heq
        apply hl.1
        rw [heq]
        exact mem_map_of_mem (f := Prod.fst) hv
      have hhead : (ofEntries (f e.1 e.2))[a]? = none := by
        apply lookup_ofEntries_eq_none
        intro e' he' heq
        apply hne
        rw [← hf _ _ _ he', heq]
      rw [ih hl.2 hv, hhead, Option.or_none]

theorem nodup_keys_toList (m : OrdMap κ ν) :
  (m.toList.map Prod.fst).Nodup
  := by
  apply pairwise_map.mpr
  apply (distinct_keys_toList (t := m)).imp
  intro e e' hne heq
  apply hne
  rw [heq]
  apply ReflCmp.compare_self

/-- A map has no more rows than there are values for its keys. -/
theorem size_le_of_keys_mem (m : OrdMap κ ν) (l : List κ)
    (h : ∀ (k : κ) (v : ν), m[k]? = some v → k ∈ l) :
  m.size ≤ l.length
  := by
  have hsub : m.toList.map Prod.fst ⊆ l := by
    intro k hk
    obtain ⟨⟨k, v⟩, he, rfl⟩ := mem_map.mp hk
    apply h k v
    rwa [mem_toList_iff_getElem?_eq_some] at he
  have hlen := (subperm_of_subset (nodup_keys_toList m) hsub).length_le
  rwa [length_map, length_toList] at hlen

/-- When entries name their rows, a lookup in the derived index is a lookup in the
entries of one row. -/
theorem lookup_derive {f : κ → ν → List (κ' × ν')} {owner : κ' → κ} (hf : Owned f owner)
    (m : OrdMap κ ν) (a : κ') :
  (derive f m)[a]? = m[owner a]?.bind fun v => (ofEntries (f (owner a) v))[a]?
  := by
  cases hv : m[owner a]? with
  | none =>
    apply lookup_ofEntries_eq_none
    intro e he heq
    obtain ⟨k, v, hk, hkv⟩ := (mem_entries f m e).mp he
    rw [← heq, hf _ _ _ hkv, hk] at hv
    simp at hv
  | some v =>
    apply lookup_ofEntries_flatMap hf _ (nodup_keys_toList m)
    rw [mem_toList_iff_getElem?_eq_some, hv]

/-- Inserting a row replaces the entries of that row. -/
theorem lookup_derive_insert {f : κ → ν → List (κ' × ν')} {owner : κ' → κ}
    (hf : Owned f owner) (m : OrdMap κ ν) (k : κ) (v : ν) (a : κ') :
  (derive f (m.insert k v))[a]?
    = if k = owner a then (ofEntries (f k v))[a]? else (derive f m)[a]?
  := by
  rw [lookup_derive hf, lookup_derive hf, lookup_insert]
  split
  next h => rw [← h, Option.bind_some]
  next => rfl

/-- Erasing a row drops the entries of that row. -/
theorem lookup_derive_erase {f : κ → ν → List (κ' × ν')} {owner : κ' → κ}
    (hf : Owned f owner) (m : OrdMap κ ν) (k : κ) (a : κ') :
  (derive f (m.erase k))[a]? = if k = owner a then none else (derive f m)[a]?
  := by
  rw [lookup_derive hf, lookup_derive hf, lookup_erase]
  split
  · rfl
  · rfl

section Update

variable {f : κ → ν → List (κ' × ν')} {owner : κ' → κ} (hf : Owned f owner)

include hf

/-- A row that is new, or had no entries, adds its entries to the index. -/
theorem derive_insert_add (v : ν) (hold : ∀ v₀, m[k]? = some v₀ → f k v₀ = []) :
  derive f (m.insert k v) = (f k v).foldl (fun m e => m.insert e.1 e.2) (derive f m)
  := by
  apply ext_lookup
  intro a
  rw [lookup_derive_insert hf, lookup_foldl_insert]
  split
  next hk =>
    have hnone : (derive f m)[a]? = none := by
      rw [lookup_derive hf, ← hk]
      cases hv : m[k]? with
      | none => rfl
      | some v₀ => simp [hold v₀ hv]
    rw [hnone, Option.or_none]
  next hk =>
    rw [lookup_ofEntries_eq_none, Option.none_or]
    rintro e he rfl
    exact hk (hf k v e he).symm

variable {v₀ : ν}

/-- Replacing a row by one with the same entries leaves the index as it is. -/
theorem derive_insert_same (v : ν) (hold : m[k]? = some v₀) (hsame : f k v = f k v₀) :
  derive f (m.insert k v) = derive f m
  := by
  apply ext_lookup
  intro a
  rw [lookup_derive_insert hf]
  split
  next hk => rw [lookup_derive hf, ← hk, hold, Option.bind_some, hsame]
  next => rfl

/-- The index without the entries of one row. -/
theorem lookup_derive_drop (hold : m[k]? = some v₀) (a : κ') :
  (((f k v₀).map Prod.fst).foldl (fun m k => m.erase k) (derive f m))[a]?
    = if k = owner a then none else (derive f m)[a]?
  := by
  rw [lookup_foldl_erase]
  by_cases ha : a ∈ (f k v₀).map Prod.fst
  · obtain ⟨e, he, rfl⟩ := mem_map.mp ha
    rw [if_pos ha, if_pos (hf k v₀ e he).symm]
  · rw [if_neg ha]
    split
    next hk =>
      rw [lookup_derive hf, ← hk, hold, Option.bind_some]
      apply lookup_ofEntries_eq_none
      rintro e he rfl
      exact ha (mem_map_of_mem he)
    next => rfl

/-- Replacing a row by one without entries drops the entries of the row. -/
theorem derive_insert_drop (v : ν) (hold : m[k]? = some v₀) (hnew : f k v = []) :
  derive f (m.insert k v) = ((f k v₀).map Prod.fst).foldl (fun m k => m.erase k) (derive f m)
  := by
  apply ext_lookup
  intro a
  rw [lookup_derive_insert hf, lookup_derive_drop hf hold, hnew, lookup_ofEntries_nil]

/-- Erasing a row drops its entries. -/
theorem derive_erase (hold : m[k]? = some v₀) :
  derive f (m.erase k) = ((f k v₀).map Prod.fst).foldl (fun m k => m.erase k) (derive f m)
  := by
  apply ext_lookup
  intro a
  rw [lookup_derive_erase hf, lookup_derive_drop hf hold]

end Update

/-- An index inverse to its primary is the derived index. -/
theorem eq_derive_of_inverse {f : κ → ν → List (κ' × ν')} {idx : OrdMap κ' ν'}
    (h : ∀ a v', idx[a]? = some v' ↔ ∃ k v, m[k]? = some v ∧ (a, v') ∈ f k v) :
  idx = derive f m
  := by
  apply ext_lookup
  intro a
  apply Option.ext
  intro v'
  rw [h, derive, lookup_ofEntries_iff]
  · rw [mem_entries]
  · intro a v₁ v₂ h₁ h₂
    rw [mem_entries, ← h] at h₁ h₂
    rw [h₁] at h₂
    exact Option.some.inj h₂

/-! ### Pairs in the order of their parts -/

section Pairs

variable {α : Type u} {β : Type v} [Ord α] [Ord β]

theorem isLE_lex (p q : α × β) :
  (compare p q).isLE ↔ compare p.1 q.1 = .lt ∨ compare p.1 q.1 = .eq ∧ (compare p.2 q.2).isLE
  := by
  have hlex : compare p q = (compare p.1 q.1).then (compare p.2 q.2) := rfl
  rw [hlex]
  cases compare p.1 q.1 <;> simp

theorem isLE_lex_of_least {a : α} {b : β} (ha : ∀ x, (compare a x).isLE)
    (hb : ∀ y, (compare b y).isLE) (p : α × β) :
  (compare (a, b) p).isLE
  := by
  rw [isLE_lex]
  have hp := ha p.1
  cases hcmp : compare a p.1 with
  | lt => exact .inl rfl
  | eq => exact .inr ⟨rfl, hb p.2⟩
  | gt =>
    rw [hcmp] at hp
    cases hp

theorem isLE_lex_of_greatest {a : α} {b : β} (ha : ∀ x, (compare x a).isLE)
    (hb : ∀ y, (compare y b).isLE) (p : α × β) :
  (compare p (a, b)).isLE
  := by
  rw [isLE_lex]
  have hp := ha p.1
  cases hcmp : compare p.1 a with
  | lt => exact .inl rfl
  | eq => exact .inr ⟨rfl, hb p.2⟩
  | gt =>
    rw [hcmp] at hp
    cases hp

/-- The pairs from the first to the last with a given first part. -/
theorem between_iff [TransOrd α] [LawfulEqOrd α] {lo hi : β} (hlo : ∀ y, (compare lo y).isLE)
    (hhi : ∀ y, (compare y hi).isLE) (a : α) (p : α × β) :
  ((compare (a, lo) p).isLE && (compare p (a, hi)).isLE) = true ↔ p.1 = a
  := by
  rw [Bool.and_eq_true, isLE_lex, isLE_lex]
  simp only [hlo, hhi, and_true, LawfulEqCmp.compare_eq_iff_eq]
  constructor
  · rintro ⟨hlt | heq, hlt' | heq'⟩
    · exact absurd hlt (by rw [OrientedCmp.gt_of_lt hlt']; nofun)
    · exact heq'
    · exact heq.symm
    · exact heq'
  · rintro rfl
    exact ⟨.inr rfl, .inr rfl⟩

end Pairs

end OrdMap
