import Mathlib

/-!
# Taking items within a budget

Items are taken one after the other. An item that would pass the size budget is left, unless nothing
of any size has been taken yet, and nothing more is taken once one of the two budgets is used up.
What is taken of a list is a prefix of it, and a longer list only gives more.
-/

universe u

namespace Budget

open List

variable {α : Type u} {size : α → ℕ} {maxSize maxCount : ℕ}

/-- The items taken so far and their size. -/
structure Taken (α : Type u) where
  items : List α
  total : ℕ
deriving DecidableEq, Repr

def Taken.nothing : Taken α := ⟨[], 0⟩

def Taken.add (size : α → ℕ) (t : Taken α) (x : α) : Taken α :=
  ⟨t.items ++ [x], t.total + size x⟩

/-- One of the budgets is used up. -/
def Taken.full (maxSize maxCount : ℕ) (t : Taken α) : Bool :=
  decide (t.total ≥ maxSize) || decide (t.items.length ≥ maxCount)

/-- Offer one item. The flag tells that no more is to be offered. -/
def offer (size : α → ℕ) (maxSize maxCount : ℕ) (t : Taken α) (x : α) : Taken α × Bool :=
  if t.total + size x > maxSize ∧ t.total > 0 then (t, true)
  else (t.add size x, (t.add size x).full maxSize maxCount)

/-- Offer items until no more is to be offered. -/
def offerAll (size : α → ℕ) (maxSize maxCount : ℕ) : Taken α → List α → Taken α × Bool
  | t, [] => (t, false)
  | t, x :: l =>
    match offer size maxSize maxCount t x with
    | (t, true) => (t, true)
    | (t, false) => offerAll size maxSize maxCount t l

/-- The three things that can become of an item that is offered first. -/
theorem offerAll_cons (size : α → ℕ) (maxSize maxCount : ℕ) (t : Taken α) (x : α) (l : List α) :
  (t.total + size x > maxSize ∧ t.total > 0 ∧
      offerAll size maxSize maxCount t (x :: l) = (t, true)) ∨
    ((t.total = 0 ∨ t.total + size x ≤ maxSize) ∧
      (((t.add size x).full maxSize maxCount = true ∧
          offerAll size maxSize maxCount t (x :: l) = (t.add size x, true)) ∨
        ((t.add size x).full maxSize maxCount = false ∧
          offerAll size maxSize maxCount t (x :: l) =
            offerAll size maxSize maxCount (t.add size x) l)))
  := by
  rw [offerAll, offer]
  by_cases hover : t.total + size x > maxSize ∧ t.total > 0
  · rw [if_pos hover]
    exact .inl ⟨hover.1, hover.2, rfl⟩
  · rw [if_neg hover]
    refine .inr ⟨by omega, ?_⟩
    cases hfull : (t.add size x).full maxSize maxCount with
    | true => exact .inl ⟨rfl, rfl⟩
    | false => exact .inr ⟨rfl, rfl⟩

theorem offerAll_append (t : Taken α) (l l' : List α) :
  offerAll size maxSize maxCount t (l ++ l') =
    match offerAll size maxSize maxCount t l with
    | (t, true) => (t, true)
    | (t, false) => offerAll size maxSize maxCount t l'
  := by
  induction l generalizing t with
  | nil => rfl
  | cons x l ih =>
    rw [cons_append, offerAll, offerAll]
    split
    next => rfl
    next t' _ => apply ih t'

/-- What is taken of a list is a prefix of it, and all of it unless offering stopped. -/
theorem offerAll_items (size : α → ℕ) (maxSize maxCount : ℕ) (t : Taken α) (l : List α) :
  ∃ taken, taken <+: l ∧ (offerAll size maxSize maxCount t l).1.items = t.items ++ taken ∧
    ((offerAll size maxSize maxCount t l).2 = false → taken = l)
  := by
  induction l generalizing t with
  | nil => exact ⟨[], prefix_rfl, (append_nil _).symm, fun _ => rfl⟩
  | cons x l ih =>
    rcases offerAll_cons size maxSize maxCount t x l with ⟨-, -, heq⟩ | ⟨-, ⟨-, heq⟩ | ⟨-, heq⟩⟩
    · rw [heq]
      exact ⟨[], nil_prefix, (append_nil _).symm, nofun⟩
    · rw [heq]
      exact ⟨[x], (prefix_append [x] l), rfl, nofun⟩
    · obtain ⟨taken, hprefix, hitems, hall⟩ := ih (t.add size x)
      rw [heq]
      refine ⟨x :: taken, cons_prefix_cons.mpr ⟨rfl, hprefix⟩, ?_, ?_⟩
      · rw [hitems, Taken.add]
        simp
      · intro hgoing
        rw [hall hgoing]

/-- A longer list gives no less. -/
theorem offerAll_prefix (t : Taken α) {l l' : List α} (h : l <+: l') :
  (offerAll size maxSize maxCount t l).1.items <+: (offerAll size maxSize maxCount t l').1.items
  := by
  obtain ⟨rest, rfl⟩ := h
  rw [offerAll_append]
  split
  next heq => rw [heq]
  next t' heq =>
    rw [heq]
    obtain ⟨taken, -, hitems, -⟩ := offerAll_items size maxSize maxCount t' rest
    rw [hitems]
    apply prefix_append

/-- The total is the size of the items. -/
def Taken.Summed (size : α → ℕ) (t : Taken α) : Prop :=
  t.total = (t.items.map size).sum

variable {t : Taken α}

theorem Taken.Summed.add (h : t.Summed size) (x : α) :
  (t.add size x).Summed size
  := by
  rw [Taken.Summed, Taken.add] at *
  simp [h]

theorem summed_offerAll (h : t.Summed size) (l : List α) :
  (offerAll size maxSize maxCount t l).1.Summed size
  := by
  induction l generalizing t with
  | nil => exact h
  | cons x l ih =>
    rcases offerAll_cons size maxSize maxCount t x l with ⟨-, -, heq⟩ | ⟨-, ⟨-, heq⟩ | ⟨-, heq⟩⟩
    · rw [heq]
      exact h
    · rw [heq]
      exact h.add x
    · rw [heq]
      exact ih (h.add x)

/-- The count budget is kept. -/
theorem length_offerAll (h : t.items.length < maxCount) (l : List α) :
  (offerAll size maxSize maxCount t l).1.items.length ≤ maxCount
  := by
  induction l generalizing t with
  | nil => exact h.le
  | cons x l ih =>
    have hlength : (t.add size x).items.length = t.items.length + 1 := by
      simp [Taken.add]
    rcases offerAll_cons size maxSize maxCount t x l with
      ⟨-, -, heq⟩ | ⟨-, ⟨-, heq⟩ | ⟨hfull, heq⟩⟩
    · rw [heq]
      exact h.le
    · rw [heq, hlength]
      omega
    · rw [heq]
      apply ih
      simp [Taken.full] at hfull
      exact hfull.2

/-- The size budget is kept, unless the first item of any size passes it alone. -/
def Taken.Within (size : α → ℕ) (maxSize : ℕ) (t : Taken α) : Prop :=
  t.total ≤ maxSize ∨ ∃ empty last, t.items = empty ++ [last] ∧ (∀ x ∈ empty, size x = 0) ∧
    maxSize < size last

theorem within_offerAll (hsum : t.Summed size) (h : t.total ≤ maxSize) (l : List α) :
  (offerAll size maxSize maxCount t l).1.Within size maxSize
  := by
  induction l generalizing t with
  | nil => exact .inl h
  | cons x l ih =>
    rcases offerAll_cons size maxSize maxCount t x l with ⟨-, -, heq⟩ | ⟨hroom, hnext⟩
    · rw [heq]
      exact .inl h
    · by_cases hover : t.total + size x ≤ maxSize
      · rcases hnext with ⟨-, heq⟩ | ⟨-, heq⟩
        · rw [heq]
          exact .inl hover
        · rw [heq]
          exact ih (hsum.add x) hover
      · -- everything before the item is empty, and offering stops with it
        have hzero : t.total = 0 := by omega
        have hfull : (t.add size x).full maxSize maxCount = true := by
          simp [Taken.full, Taken.add]
          omega
        rcases hnext with ⟨-, heq⟩ | ⟨hgoing, -⟩
        · rw [heq]
          refine .inr ⟨t.items, x, rfl, ?_, by omega⟩
          intro y hy
          rw [Taken.Summed, hzero] at hsum
          exact sum_eq_zero_iff.mp hsum.symm (size y) (mem_map_of_mem hy)
        · rw [hfull] at hgoing
          cases hgoing

/-- Something is taken of a list that is not empty, when nothing was taken before. -/
theorem offerAll_ne_nil {l : List α} (h : l ≠ []) :
  (offerAll size maxSize maxCount Taken.nothing l).1.items ≠ []
  := by
  obtain ⟨x, l, rfl⟩ := exists_cons_of_ne_nil h
  rcases offerAll_cons size maxSize maxCount Taken.nothing x l with
    ⟨-, hpos, -⟩ | ⟨-, ⟨-, heq⟩ | ⟨-, heq⟩⟩
  · simp [Taken.nothing] at hpos
  · rw [heq]
    simp [Taken.add]
  · obtain ⟨taken, -, hitems, -⟩ :=
      offerAll_items size maxSize maxCount (Taken.nothing.add size x) l
    rw [heq, hitems]
    simp [Taken.add]

end Budget
