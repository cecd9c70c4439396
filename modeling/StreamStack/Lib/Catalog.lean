import Mathlib

/-!
# Catalogs

Things known by an id go through a life: an id is handed out, is later put to use with some data,
is retired into a queue of things to be destroyed, and is at last cleaned out of the queue. A
catalog is the three collections a moment of this is made of. The operations say what each change
does to all three at once, and the laws of `OneOf` which changes leave an id in one place.
-/

universe u v

/-- The ids that are prepared, those in use with their data, and those queued for destruction. -/
@[ext]
structure Catalog (κ : Type u) (ω : Type v) where
  prepared : Set κ
  live : κ → Option ω
  queued : Set κ

/-- Exactly one of four. -/
def OneOf (p l q c : Prop) : Prop :=
  (p ∨ l ∨ q ∨ c) ∧ ¬ (p ∧ (l ∨ q ∨ c)) ∧ ¬ (l ∧ (q ∨ c)) ∧ ¬ (q ∧ c)

/-! ### Moving between four places -/

namespace OneOf

variable {p l q c : Prop} (h : OneOf p l q c)

include h

/-- Something in use is queued when it is among `m`; something among `i` is put to use. -/
theorem commit_iff {i m : Prop} (hm : m → l) :
  OneOf (p ∧ ¬ i) ((l ∧ ¬ m) ∨ i) (q ∨ m) c ↔ (i → ¬ q ∧ ¬ c ∧ ¬ m)
  := by
  unfold OneOf at h ⊢
  grind

/-- Something among `i` is put to use; what is among `r` is queued, and is taken out of use if it
is among `o` or `i`. -/
theorem replace_iff {i r o : Prop} (hi : i → ¬ l) (ho : o → l) :
  OneOf (p ∧ ¬ i) ((l ∨ i) ∧ ¬ (r ∧ (o ∨ i))) (q ∨ r) c ↔
    (i → ¬ c ∧ (¬ r → ¬ q)) ∧ (r → ¬ c ∧ (l → o) ∧ (p → i))
  := by
  unfold OneOf at h ⊢
  grind

/-- What is forgotten is in no place any more. -/
theorem forget_iff {e : Prop} (he : e → p) :
  OneOf (p ∧ ¬ e) l q c ↔ ¬ e
  := by
  unfold OneOf at h ⊢
  grind

/-- What is cleaned goes from the queue to the cleaned. -/
theorem clean (m : Prop) :
  OneOf p l (q ∧ ¬ m) (c ∨ (m ∧ q))
  := by
  unfold OneOf at h ⊢
  grind

/-- What was live goes to the queue. -/
theorem retire {m : Prop} (hm : m → l) :
  OneOf p (l ∧ ¬ m) (q ∨ m) c
  := by
  unfold OneOf at h ⊢
  grind

end OneOf

namespace Catalog

open List

variable {κ : Type u} {ω : Type v} {c : Catalog κ ω} {id : κ}

/-! ### Ids that are not in use -/

/-- Hand out ids. -/
def prepare (c : Catalog κ ω) (ids : List κ) : Catalog κ ω :=
  { c with prepared := c.prepared ∪ {id | id ∈ ids} }

/-- Forget prepared ids. -/
def forget (c : Catalog κ ω) (ids : List κ) : Catalog κ ω :=
  { c with prepared := c.prepared \ {id | id ∈ ids} }

/-- Queue ids for destruction. -/
def queue (c : Catalog κ ω) (ids : List κ) : Catalog κ ω :=
  { c with queued := c.queued ∪ {id | id ∈ ids} }

/-- Take ids out of the queue. -/
def clean (c : Catalog κ ω) (ids : List κ) : Catalog κ ω :=
  { c with queued := c.queued \ {id | id ∈ ids} }

section

variable (ids : List κ)

include ids

@[simp]
theorem prepare_live :
  (c.prepare ids).live = c.live
  := rfl

@[simp]
theorem prepare_queued :
  (c.prepare ids).queued = c.queued
  := rfl

@[simp]
theorem mem_prepare_prepared :
  id ∈ (c.prepare ids).prepared ↔ id ∈ c.prepared ∨ id ∈ ids
  := Iff.rfl

@[simp]
theorem forget_live :
  (c.forget ids).live = c.live
  := rfl

@[simp]
theorem forget_queued :
  (c.forget ids).queued = c.queued
  := rfl

@[simp]
theorem mem_forget_prepared :
  id ∈ (c.forget ids).prepared ↔ id ∈ c.prepared ∧ id ∉ ids
  := Iff.rfl

@[simp]
theorem queue_live :
  (c.queue ids).live = c.live
  := rfl

@[simp]
theorem queue_prepared :
  (c.queue ids).prepared = c.prepared
  := rfl

@[simp]
theorem mem_queue_queued :
  id ∈ (c.queue ids).queued ↔ id ∈ c.queued ∨ id ∈ ids
  := Iff.rfl

@[simp]
theorem clean_live :
  (c.clean ids).live = c.live
  := rfl

@[simp]
theorem clean_prepared :
  (c.clean ids).prepared = c.prepared
  := rfl

@[simp]
theorem mem_clean_queued :
  id ∈ (c.clean ids).queued ↔ id ∈ c.queued ∧ id ∉ ids
  := Iff.rfl

end

theorem forget_nil :
  c.forget [] = c
  := by simp [forget]

theorem forget_cons (ids : List κ) :
  c.forget (id :: ids) = (c.forget [id]).forget ids
  := by
  ext x
  · simp [forget, and_assoc]
  · rfl
  · rfl

theorem queue_nil :
  c.queue [] = c
  := by simp [queue]

theorem queue_cons (ids : List κ) :
  c.queue (id :: ids) = (c.queue [id]).queue ids
  := by
  ext x
  · rfl
  · rfl
  · simp only [queue, Set.mem_union, Set.mem_ofPred_eq, mem_cons, not_mem_nil, or_false,
      or_assoc]

theorem clean_nil :
  c.clean [] = c
  := by simp [clean]

theorem clean_cons (ids : List κ) :
  c.clean (id :: ids) = (c.clean [id]).clean ids
  := by
  ext x
  · rfl
  · rfl
  · simp [clean, and_assoc]

/-- An operation on a list of ids that can be done one id at a time is a fold. -/
theorem foldl_op {op : Catalog κ ω → List κ → Catalog κ ω} (hnil : ∀ c, op c [] = c)
    (hcons : ∀ c id ids, op c (id :: ids) = op (op c [id]) ids) (ids : List κ) :
  ids.foldl (fun c id => op c [id]) c = op c ids
  := by
  induction ids generalizing c with
  | nil => exact (hnil c).symm
  | cons id ids ih => rw [foldl_cons, ih, ← hcons]

/-! ### Ids in use -/

variable [DecidableEq κ]

/-- Put one id to use. -/
def add (c : Catalog κ ω) (e : κ × ω) : Catalog κ ω where
  prepared := c.prepared \ {e.1}
  live := Function.update c.live e.1 (some e.2)
  queued := c.queued

/-- Put ids to use, one after the other. -/
def commit (c : Catalog κ ω) (entries : List (κ × ω)) : Catalog κ ω :=
  entries.foldl add c

/-- Take ids out of use. -/
def remove (c : Catalog κ ω) (ids : List κ) : Catalog κ ω :=
  { c with live := fun id => if id ∈ ids then none else c.live id }

/-- Take ids out of use and queue them. -/
def retire (c : Catalog κ ω) (ids : List κ) : Catalog κ ω :=
  (c.remove ids).queue ids

theorem add_live (e : κ × ω) (id : κ) :
  (c.add e).live id = if id = e.1 then some e.2 else c.live id
  := Function.update_apply _ _ _ _

@[simp]
theorem remove_queued (ids : List κ) :
  (c.remove ids).queued = c.queued
  := rfl

@[simp]
theorem remove_prepared (ids : List κ) :
  (c.remove ids).prepared = c.prepared
  := rfl

theorem remove_nil :
  c.remove [] = c
  := by simp [remove]

theorem remove_cons (ids : List κ) :
  c.remove (id :: ids) = (c.remove [id]).remove ids
  := by
  ext x
  · rfl
  · by_cases hx : x ∈ ids
    · simp [remove, hx]
    · simp [remove, hx]
  · rfl

theorem retire_nil :
  c.retire [] = c
  := by rw [retire, remove_nil, queue_nil]

theorem retire_cons (ids : List κ) :
  c.retire (id :: ids) = (c.retire [id]).retire ids
  := by
  rw [retire, remove_cons, queue_cons]
  rfl

/-- Commits add up. -/
theorem commit_append (entries entries' : List (κ × ω)) :
  c.commit (entries ++ entries') = (c.commit entries).commit entries'
  := foldl_append

@[simp]
theorem commit_queued (entries : List (κ × ω)) :
  (c.commit entries).queued = c.queued
  := by
  induction entries generalizing c with
  | nil => rfl
  | cons e entries ih => exact ih

@[simp]
theorem mem_commit_prepared (entries : List (κ × ω)) :
  id ∈ (c.commit entries).prepared ↔ id ∈ c.prepared ∧ id ∉ entries.map Prod.fst
  := by
  induction entries generalizing c with
  | nil => simp [commit]
  | cons e entries ih =>
    apply (ih (c := c.add e)).trans
    simp [add, and_assoc]

variable {entries : List (κ × ω)}

theorem commit_live_of_not_mem (h : id ∉ entries.map Prod.fst) :
  (c.commit entries).live id = c.live id
  := by
  induction entries generalizing c with
  | nil => rfl
  | cons e entries ih =>
    rw [map_cons, mem_cons, not_or] at h
    apply (ih (c := c.add e) h.2).trans
    rw [add_live, if_neg h.1]

/-- What is committed once is live as it was committed. -/
theorem commit_live_of_mem (hnodup : (entries.map Prod.fst).Nodup) {o : ω} (h : (id, o) ∈ entries) :
  (c.commit entries).live id = some o
  := by
  induction entries generalizing c with
  | nil => cases h
  | cons e entries ih =>
    rw [map_cons, nodup_cons] at hnodup
    rcases mem_cons.mp h with rfl | h
    · apply (commit_live_of_not_mem (c := c.add (id, o)) hnodup.1).trans
      rw [add_live, if_pos rfl]
    · exact ih hnodup.2 h

/-- What is live after a commit was live, or is committed now. -/
@[simp]
theorem commit_live_isSome (entries : List (κ × ω)) :
  ((c.commit entries).live id).isSome ↔ (c.live id).isSome ∨ id ∈ entries.map Prod.fst
  := by
  induction entries generalizing c with
  | nil => simp [commit]
  | cons e entries ih =>
    apply (ih (c := c.add e)).trans
    rw [add_live]
    by_cases hid : id = e.1
    · simp [hid]
    · simp [hid]

/-- What is live after a removal was live, and is not removed. -/
@[simp]
theorem remove_live_isSome (ids : List κ) :
  ((c.remove ids).live id).isSome ↔ (c.live id).isSome ∧ id ∉ ids
  := by
  by_cases hid : id ∈ ids
  · simp [remove, hid]
  · simp [remove, hid]

end Catalog
