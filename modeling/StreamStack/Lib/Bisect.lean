import Mathlib

/-!
# Binary search

A search for an element that a comparison calls equal, in a list where the elements called less come
first and those called greater come last. It finds such an element whenever there is one.
-/

universe u

namespace Bisect

open List

variable {α : Type u}

/-- Search the places from `lo` to `hi`, both included; the error is the place to insert at. -/
def search (cmp : α → Ordering) (l : List α) (lo hi : Int) : Except Nat Nat :=
  if lo ≤ hi then
    let mid := (lo + hi) / 2
    match l[mid.toNat]? with
    | none => .error lo.toNat
    | some x =>
      match cmp x with
      | .lt => search cmp l (mid + 1) hi
      | .gt => search cmp l lo (mid - 1)
      | .eq => .ok mid.toNat
  else .error lo.toNat
termination_by (hi + 1 - lo).toNat
decreasing_by
  · omega
  · omega

/-- Less elements come first, and greater ones last. -/
def Sorted (cmp : α → Ordering) (l : List α) : Prop :=
  l.Pairwise fun x y => (cmp y = .lt → cmp x = .lt) ∧ (cmp x = .gt → cmp y = .gt)

variable {cmp : α → Ordering} {l : List α}

theorem Sorted.get (h : Sorted cmp l) {i j : Nat} {x y : α} (hx : l[i]? = some x)
    (hy : l[j]? = some y) (hlt : i < j) :
  (cmp y = .lt → cmp x = .lt) ∧ (cmp x = .gt → cmp y = .gt)
  := by
  obtain ⟨hi, rfl⟩ := List.getElem?_eq_some_iff.mp hx
  obtain ⟨hj, rfl⟩ := List.getElem?_eq_some_iff.mp hy
  exact pairwise_iff_getElem.mp h i j hi hj hlt

/-- What is found is equal. -/
theorem search_sound {lo hi : Int} {i : Nat} (h : search cmp l lo hi = .ok i) :
  ∃ x ∈ l, cmp x = .eq
  := by
  fun_induction search cmp l lo hi with
  | case1 | case5 => cases h
  | case2 lo hi hle mid y hy hlt ih => exact ih h
  | case3 lo hi hle mid y hy hgt ih => exact ih h
  | case4 lo hi hle mid y hy hfound => exact ⟨y, mem_of_getElem? hy, hfound⟩

/-- An element that is there is found. -/
theorem search_ok (hsorted : Sorted cmp l) {i : Nat} {x : α} (hx : l[i]? = some x)
    (heq : cmp x = .eq) {lo hi : Int} (hlo : 0 ≤ lo) (hloi : lo ≤ i) (hihi : i ≤ hi)
    (hhi : hi < l.length) :
  ∃ j y, search cmp l lo hi = .ok j ∧ l[j]? = some y ∧ cmp y = .eq
  := by
  fun_induction search cmp l lo hi with
  | case1 lo hi hle mid hnone =>
    rw [getElem?_eq_none_iff] at hnone
    omega
  | case2 lo hi hle mid y hy hlt ih =>
    -- the middle is less, so the place we look for is after it
    have hafter : mid < i := by
      by_contra hge
      rcases Nat.lt_or_eq_of_le (show i ≤ mid.toNat by omega) with hbefore | hsame
      · rw [(hsorted.get hx hy hbefore).1 hlt] at heq
        cases heq
      · rw [hsame, hy] at hx
        cases hx
        rw [hlt] at heq
        cases heq
    apply ih
    · omega
    · omega
    · exact hihi
    · exact hhi
  | case3 lo hi hle mid y hy hgt ih =>
    have hbefore : (i : Int) < mid := by
      by_contra hge
      rcases Nat.lt_or_eq_of_le (show mid.toNat ≤ i by omega) with hafter | hsame
      · rw [(hsorted.get hy hx hafter).2 hgt] at heq
        cases heq
      · rw [← hsame, hy] at hx
        cases hx
        rw [hgt] at heq
        cases heq
    apply ih
    · exact hlo
    · exact hloi
    · omega
    · omega
  | case4 lo hi hle mid y hy hfound => exact ⟨mid.toNat, y, rfl, hy, hfound⟩
  | case5 lo hi hgt => omega

end Bisect
