import Mathlib

/-!
# Spans laid end to end

A list of things that each cover a span from `lo` to `hi` is laid from a point when the first
starts there and each of the others starts where the one before it ends. What is laid in parts is
laid, so a list can be cut at any place and the parts be moved through queues as long as they keep
their order.

Of any list, the spans that continue from a point can be taken one after the other. When the list
is in the order of the starts, taking them may stop at any place and be resumed over the whole list.
-/

universe u v

namespace Spans

open List

variable {α : Type u} {β : Type v} (lo hi : α → β)

/-- Spans one after the other, starting at a point. -/
def Laid : β → List α → Prop
  | _, [] => True
  | a, x :: l => lo x = a ∧ Laid (hi x) l

instance decidableLaid [DecidableEq β] : ∀ a l, Decidable (Laid lo hi a l)
  | _, [] => isTrue trivial
  | a, x :: l =>
    have := decidableLaid (hi x) l
    inferInstanceAs (Decidable (lo x = a ∧ Laid lo hi (hi x) l))

/-- The end of the last span, or the point itself. -/
def reach (a : β) (l : List α) : β := (l.getLast?).elim a hi

variable {lo hi}

@[simp]
theorem reach_nil (a : β) :
  reach hi a [] = a
  := rfl

@[simp]
theorem reach_cons (a : β) (x : α) (l : List α) :
  reach hi a (x :: l) = reach hi (hi x) l
  := by
  cases l with
  | nil => rfl
  | cons y l =>
    rw [reach, reach, getLast?_cons_cons]
    rfl

theorem reach_append (a : β) (l l' : List α) :
  reach hi a (l ++ l') = reach hi (reach hi a l) l'
  := by
  induction l generalizing a with
  | nil => rfl
  | cons x l ih => rw [cons_append, reach_cons, ih, reach_cons]

theorem laid_append {a : β} {l l' : List α} :
  Laid lo hi a (l ++ l') ↔ Laid lo hi a l ∧ Laid lo hi (reach hi a l) l'
  := by
  induction l generalizing a with
  | nil => simp [Laid]
  | cons x l ih => simp only [cons_append, Laid, ih, reach_cons, and_assoc]

/-- The parts of what is laid are laid. -/
theorem Laid.of_mem_parts {a : β} {ls : List (List α)} (h : Laid lo hi a ls.flatten) {l : List α}
    (hl : l ∈ ls) :
  ∃ b, Laid lo hi b l
  := by
  induction ls generalizing a with
  | nil => cases hl
  | cons l' ls ih =>
    rw [flatten_cons, laid_append] at h
    rcases mem_cons.mp hl with rfl | hl
    · exact ⟨a, h.1⟩
    · exact ih h.2 hl

/-- Each span starts where the one before it ends. -/
theorem Laid.next {a : β} {l : List α} (h : Laid lo hi a l) {i : Nat} {x y : α}
    (hx : l[i]? = some x) (hy : l[i + 1]? = some y) :
  lo y = hi x
  := by
  induction l generalizing a i with
  | nil => cases hx
  | cons z l ih =>
    obtain ⟨-, hl⟩ := h
    cases i with
    | zero =>
      cases hx
      cases l with
      | nil => cases hy
      | cons y' l =>
        cases hy
        exact hl.1
    | succ i => exact ih hl hx hy

/-- Spans laid end to end leave no point out. -/
theorem Laid.covers [LinearOrder β] {a o : β} {l : List α} (h : Laid lo hi a l) (ha : a ≤ o)
    (ho : o < reach hi a l) :
  ∃ x ∈ l, lo x ≤ o ∧ o < hi x
  := by
  induction l generalizing a with
  | nil => exact absurd ha (not_le.mpr ho)
  | cons x l ih =>
    obtain ⟨hx, hl⟩ := h
    rcases lt_or_ge o (hi x) with hlt | hge
    · exact ⟨x, mem_cons_self, hx ▸ ha, hlt⟩
    · rw [reach_cons] at ho
      obtain ⟨y, hy, hspan⟩ := ih hl hge ho
      exact ⟨y, mem_cons_of_mem x hy, hspan⟩

section

variable [Preorder β] {a : β} {l : List α}

/-- Spans laid end to end come one after the other, from the point on. -/
theorem Laid.pairwise (h : Laid lo hi a l) (hle : ∀ x ∈ l, lo x ≤ hi x) :
  l.Pairwise (fun x y => hi x ≤ lo y) ∧ ∀ x ∈ l, a ≤ lo x
  := by
  induction l generalizing a with
  | nil => exact ⟨List.Pairwise.nil, nofun⟩
  | cons x l ih =>
    obtain ⟨rfl, hl⟩ := h
    obtain ⟨hpairwise, hfrom⟩ := ih hl fun y hy => hle y (mem_cons_of_mem x hy)
    refine ⟨pairwise_cons.mpr ⟨hfrom, hpairwise⟩, ?_⟩
    intro y hy
    rcases mem_cons.mp hy with rfl | hy
    · exact le_refl _
    · exact (hle x mem_cons_self).trans (hfrom y hy)

/-- They end where the last of them ends. -/
theorem Laid.le_reach (h : Laid lo hi a l) (hle : ∀ x ∈ l, lo x ≤ hi x) :
  a ≤ reach hi a l ∧ ∀ x ∈ l, hi x ≤ reach hi a l
  := by
  induction l generalizing a with
  | nil => exact ⟨le_refl _, nofun⟩
  | cons x l ih =>
    obtain ⟨rfl, hl⟩ := h
    obtain ⟨hfrom, hall⟩ := ih hl fun y hy => hle y (mem_cons_of_mem x hy)
    rw [reach_cons]
    refine ⟨(hle x mem_cons_self).trans hfrom, ?_⟩
    intro y hy
    rcases mem_cons.mp hy with rfl | hy
    · exact hfrom
    · exact hall y hy

end

/-- Of spans that come one after the other only one covers a point. -/
theorem eq_of_covers [LinearOrder β] {l : List α} (h : l.Pairwise fun x y => hi x ≤ lo y)
    {x y : α} (hx : x ∈ l) (hy : y ∈ l) {o : β} (hxo : lo x ≤ o ∧ o < hi x)
    (hyo : lo y ≤ o ∧ o < hi y) :
  x = y
  := by
  induction h with
  | nil => cases hx
  | cons hz _ ih =>
    rcases mem_cons.mp hx with rfl | hx'
    · rcases mem_cons.mp hy with rfl | hy'
      · rfl
      · exact absurd (hxo.2.trans_le (hz y hy')) (not_lt.mpr hyo.1)
    · rcases mem_cons.mp hy with rfl | hy'
      · exact absurd (hyo.2.trans_le (hz x hx')) (not_lt.mpr hxo.1)
      · exact ih hx' hy'

/-- Spans that come one after the other and are not empty are different. -/
theorem nodup_of_pairwise [Preorder β] {l : List α} (h : l.Pairwise fun x y => hi x ≤ lo y)
    (hpos : ∀ x ∈ l, lo x < hi x) :
  l.Nodup
  := by
  apply h.imp_of_mem
  rintro x y hx - hle rfl
  exact absurd (hpos x hx) (not_lt_of_ge hle)

/-! ### Longest parts -/

section Longest

variable (lo hi)

/-- A part of a list that is laid and cannot be made longer. -/
structure Longest (l run : List α) : Prop where
  laid : ∃ a, Laid lo hi a run
  part : ∃ u v, l = u ++ run ++ v ∧
    (∀ x ∈ u.getLast?, ∀ y ∈ run.head?, hi x ≠ lo y) ∧
    ∀ x ∈ run.getLast?, ∀ y ∈ v.head?, hi x ≠ lo y

variable {lo hi}

/-- Where what is laid is cut, the part after the cut starts where the one before it ends. -/
theorem Laid.at_cut {a : β} {l l' : List α} (h : Laid lo hi a (l ++ l')) {x y : α}
    (hx : l.getLast? = some x) (hy : l'.head? = some y) :
  hi x = lo y
  := by
  have hlaid := (laid_append.mp h).2
  rw [reach, hx] at hlaid
  cases l' with
  | nil => cases hy
  | cons z l' =>
    cases hy
    exact hlaid.1.symm

/-- A laid part that starts in `run` ends in it, when what follows `run` does not continue it. -/
theorem Laid.isInfix_of_append {a : β} {run v p part q : List α} (hlaid : Laid lo hi a part)
    (hafter : ∀ x ∈ run.getLast?, ∀ y ∈ v.head?, hi x ≠ lo y) {x : α} (hx : x ∈ part)
    (hxv : x ∉ v) (heq : run ++ v = p ++ (part ++ q)) :
  part <:+: run
  := by
  rcases append_eq_append_iff.mp heq with ⟨w, -, hv⟩ | ⟨r, hrun, hrest⟩
  · apply absurd _ hxv
    rw [hv]
    exact mem_append_right _ (mem_append_left _ hx)
  rcases append_eq_append_iff.mp hrest with ⟨w, hr, -⟩ | ⟨w, hpart, hv⟩
  · refine ⟨p, w, ?_⟩
    rw [append_assoc, ← hr, hrun]
  · cases w with
    | nil =>
      refine ⟨p, [], ?_⟩
      rw [hpart, hrun, append_nil, append_nil]
    | cons y w =>
      have hxr : x ∈ r := by
        rw [hpart] at hx
        rcases mem_append.mp hx with hx | hx
        · exact hx
        · apply absurd _ hxv
          rw [hv]
          exact mem_append_left _ hx
      obtain ⟨z, hz⟩ : ∃ z, r.getLast? = some z :=
        ⟨_, getLast?_eq_some_getLast (ne_nil_of_mem hxr)⟩
      rw [hpart] at hlaid
      refine absurd (hlaid.at_cut hz rfl) (hafter z ?_ y ?_)
      · rw [hrun, getLast?_append, hz]
        rfl
      · rw [hv]
        rfl

/-- A laid part of the list that shares an element with a longest part is in it. -/
theorem Longest.isInfix {l run part : List α} (h : Longest lo hi l run) (hnodup : l.Nodup)
    (hpart : part <:+: l) (hlaid : ∃ a, Laid lo hi a part) {x : α} (hx : x ∈ run)
    (hx' : x ∈ part) :
  part <:+: run
  := by
  obtain ⟨a, hlaid⟩ := hlaid
  obtain ⟨u, v, rfl, hbefore, hafter⟩ := h.part
  obtain ⟨p, q, heq⟩ := hpart
  rw [append_assoc] at hnodup
  obtain ⟨-, hrest, hu⟩ := nodup_append.mp hnodup
  obtain ⟨-, -, hv⟩ := nodup_append.mp hrest
  have hxu : x ∉ u := fun hmem => hu x hmem x (mem_append_left _ hx) rfl
  have hxv : x ∉ v := fun hmem => hv x hx x hmem rfl
  rw [append_assoc, append_assoc] at heq
  -- the part starts in `u`, or not before `run`
  rcases append_eq_append_iff.mp heq with ⟨u', hpu, hrest⟩ | ⟨p', -, hrest⟩
  · rcases append_eq_append_iff.mp hrest with ⟨w, hw, -⟩ | ⟨w, hw, hrun⟩
    · apply absurd _ hxu
      rw [hpu, hw]
      exact mem_append_right _ (mem_append_left _ hx')
    · cases hlast : u'.getLast? with
      | none =>
        rw [getLast?_eq_none_iff.mp hlast, nil_append] at hw
        rw [← hw] at hrun
        exact hlaid.isInfix_of_append (p := []) hafter hx' hxv hrun
      | some z =>
        obtain ⟨y, run', rfl⟩ : ∃ y run', run = y :: run' :=
          exists_cons_of_ne_nil (ne_nil_of_mem hx)
        have hy : w.head? = some y := by
          cases w with
          | nil =>
            rw [append_nil] at hw
            rw [hw] at hx'
            apply absurd _ hxu
            rw [hpu]
            exact mem_append_right _ hx'
          | cons y' w =>
            rw [cons_append, cons_append] at hrun
            rw [(List.cons.inj hrun).1]
            rfl
        rw [hw] at hlaid
        refine absurd (hlaid.at_cut hlast hy) (hbefore z ?_ y rfl)
        rw [hpu, getLast?_append, hlast]
        rfl
  · exact hlaid.isInfix_of_append hafter hx' hxv hrest

end Longest

end Spans
