import Mathlib

/-!
# Histories

A log is played entry by entry from an initial state, and playing may stop without a result.
`At L n a` states that the first `n` entries of `L` lead to `a`. A position of a log determines
the state, a longer log says the same about the positions it shares, and the next entry leads
to the next position.
-/

universe u v

namespace History

open List

variable {α : Type u} {ρ : Type v} {play : α → ρ → Option α} {init : α}

/-- The first `n` entries of `L` lead from `init` to `a`. -/
def At (play : α → ρ → Option α) (init : α) (L : List ρ) (n : ℕ) (a : α) : Prop :=
  n ≤ L.length ∧ (L.take n).foldlM play init = some a

theorem At.start (L : List ρ) :
  At play init L 0 init
  := ⟨Nat.zero_le _, rfl⟩

variable {n : ℕ} {L : List ρ}

/-- One position, one state. -/
theorem At.unique {a b : α} (ha : At play init L n a) (hb : At play init L n b) :
  a = b
  := Option.some.inj (ha.2.symm.trans hb.2)

/-- A longer log has the same past. -/
theorem At.extend {a : α} (h : At play init L n a) (L' : List ρ) :
  At play init (L ++ L') n a
  := by
  obtain ⟨hle, hplay⟩ := h
  constructor
  · rw [length_append]
    omega
  · rw [take_append_of_le_length hle, hplay]

/-- The entry at a position leads to the next position. -/
theorem At.next {a b : α} {r : ρ} (h : At play init L n a) (hr : L[n]? = some r)
    (hplay : play a r = some b) :
  At play init L (n + 1) b
  := by
  obtain ⟨hlt, rfl⟩ := List.getElem?_eq_some_iff.mp hr
  constructor
  · omega
  · rw [← take_concat_get' L n hlt, foldlM_append, h.2]
    simp [hplay]

end History
