import StreamStack.Lib.OrdMap

/-!
# The store of the metadata log

One table of log rows keyed by index and one snapshot row, shared by all nodes. Every operation
is atomic. An operation may fail in the database, before or after it took effect, and refuses an
index that does not fit a signed 64-bit column.
-/

namespace Sql

open OrdMap

/-- A row of the log. The number of the proposal is not stored by the program: it tells apart two
batches that happen to have the same bytes. -/
structure Entry where
  proposal : Nat
  payload : List UInt8
deriving DecidableEq, Repr

structure Store where
  log : OrdMap Nat Entry := ∅
  snapshot : Option (Nat × List UInt8) := none
deriving DecidableEq

inductive StoreError where
  | sql
  | corrupt (message : String)
deriving DecidableEq, Repr

/-- What the database makes of an operation: it answers, it fails without an effect, or it takes
effect and the answer is lost. -/
inductive Reply where
  | answered
  | failed
  | lost
deriving DecidableEq, Repr

def i64Max : Nat := 9223372036854775807

/-- An index as a signed column value. -/
def toI64 (value : Nat) (what : String) : Except StoreError Unit :=
  if value ≤ i64Max then .ok () else .error (.corrupt s!"{what} {value} exceeds i64")

/-- The outcome of a statement whose effect is `after` and whose answer is `a`. -/
def Reply.run {α : Type} (reply : Reply) (before after : Store) (a : α) :
    Store × Except StoreError α :=
  match reply with
  | .answered => (after, .ok a)
  | .failed => (before, .error .sql)
  | .lost => (after, .error .sql)

namespace Store

/-- The index of the stored snapshot, or 0. -/
def snapIdx (s : Store) : Nat := (s.snapshot.map Prod.fst).getD 0

/-- A unique key rejects a second row with an index that is still in the table. -/
def append (s : Store) (reply : Reply) (idx : Nat) (e : Entry) :
    Store × Except StoreError Bool :=
  match toI64 idx "log idx" with
  | .error err => (s, .error err)
  | .ok () =>
    if s.log.contains idx then reply.run s s false
    else reply.run s { s with log := s.log.insert idx e } true

def lastIdx (s : Store) (reply : Reply) : Except StoreError Nat :=
  (reply.run s s (max ((s.log.maxKey?).getD 0) s.snapIdx)).2

def fetchAfter (s : Store) (reply : Reply) (after limit : Nat) :
    Except StoreError (List (Nat × Entry)) :=
  match toI64 after "after idx" with
  | .error err => .error err
  | .ok () => (reply.run s s ((s.log.toList.filter fun e => after < e.1).take limit)).2

def loadSnapshot (s : Store) (reply : Reply) : Except StoreError (Option (Nat × List UInt8)) :=
  (reply.run s s s.snapshot).2

/-- The snapshot row is overwritten by a newer snapshot only. -/
def storeSnapshot (s : Store) (reply : Reply) (appliedIdx : Nat) (payload : List UInt8) :
    Store × Except StoreError Unit :=
  match toI64 appliedIdx "snapshot idx" with
  | .error err => (s, .error err)
  | .ok () =>
    let after := match s.snapshot with
      | none => { s with snapshot := some (appliedIdx, payload) }
      | some (idx, _) =>
        if idx < appliedIdx then { s with snapshot := some (appliedIdx, payload) } else s
    reply.run s after ()

def truncateLog (s : Store) (reply : Reply) (upTo : Nat) : Store × Except StoreError Unit :=
  match toI64 upTo "truncate idx" with
  | .error err => (s, .error err)
  | .ok () =>
    reply.run s { s with log := s.log.filter fun idx _ => upTo < idx } ()

/-! ### What the operations can do -/

variable {s s' : Store} {reply : Reply}

/-- An append leaves the log as it was, or adds a row at an index the table does not hold. It
reports success only in the second case. -/
theorem append_cases {idx : Nat} {e : Entry} {r : Except StoreError Bool}
    (h : s.append reply idx e = (s', r)) :
  (s' = s ∧ r ≠ .ok true) ∨
    (s.log[idx]? = none ∧ s' = { s with log := s.log.insert idx e } ∧ r ≠ .ok false)
  := by
  unfold append at h
  split at h
  next err _ =>
    cases h
    exact .inl ⟨rfl, nofun⟩
  next =>
    split at h
    next =>
      left
      cases reply with
      | answered | failed | lost =>
        cases h
        exact ⟨rfl, nofun⟩
    next habsent =>
      have hnone := lookup_eq_none_of_not_contains habsent
      cases reply with
      | failed =>
        cases h
        exact .inl ⟨rfl, nofun⟩
      | answered | lost =>
        cases h
        exact .inr ⟨hnone, rfl, nofun⟩

variable {r : Except StoreError Unit}

/-- Storing a snapshot leaves the log alone and never moves the snapshot back. The snapshot
afterwards is the old one or the new one, and covers the new index when success is reported. -/
theorem storeSnapshot_cases {idx : Nat} {payload : List UInt8}
    (h : s.storeSnapshot reply idx payload = (s', r)) :
  s'.log = s.log ∧ s.snapIdx ≤ s'.snapIdx ∧
    (s'.snapshot = s.snapshot ∨ s'.snapshot = some (idx, payload)) ∧
    (r = .ok () → idx ≤ s'.snapIdx)
  := by
  unfold storeSnapshot at h
  split at h
  next =>
    cases h
    exact ⟨rfl, le_refl _, .inl rfl, nofun⟩
  next =>
    cases hsnap : s.snapshot with
    | none =>
      simp only [hsnap] at h
      cases reply with
      | failed =>
        cases h
        exact ⟨rfl, le_refl _, .inl hsnap, nofun⟩
      | answered | lost =>
        cases h
        simp [snapIdx, hsnap]
    | some p =>
      obtain ⟨old, bytes⟩ := p
      simp only [hsnap] at h
      split at h
      next hlt =>
        cases reply with
        | failed =>
          cases h
          exact ⟨rfl, le_refl _, .inl hsnap, nofun⟩
        | answered | lost =>
          cases h
          simp [snapIdx, hsnap]
          omega
      next hge =>
        cases reply with
        | answered | failed | lost =>
          cases h
          refine ⟨rfl, le_refl _, .inl hsnap, ?_⟩
          intro _
          simp only [snapIdx, hsnap, Option.map_some, Option.getD_some]
          omega

/-- Truncation removes rows up to an index, or none. -/
theorem truncateLog_cases {upTo : Nat} (h : s.truncateLog reply upTo = (s', r)) :
  s'.snapshot = s.snapshot ∧
    (s'.log = s.log ∨ s'.log = s.log.filter fun idx _ => decide (upTo < idx))
  := by
  unfold truncateLog at h
  split at h
  next =>
    cases h
    exact ⟨rfl, .inl rfl⟩
  next =>
    cases reply with
    | failed =>
      cases h
      exact ⟨rfl, .inl rfl⟩
    | answered | lost =>
      cases h
      exact ⟨rfl, .inr rfl⟩

/-- A fetch that asks for rows and gets none has reached the end of the table. -/
theorem fetchAfter_nil {after limit : Nat} (hlimit : 0 < limit)
    (h : s.fetchAfter reply after limit = .ok []) :
  ∀ r ∈ s.log.toList, r.1 ≤ after
  := by
  unfold fetchAfter at h
  split at h
  next => cases h
  next =>
    cases reply with
    | failed | lost => cases h
    | answered =>
      have hnil := List.take_eq_nil_iff.mp (Except.ok.inj h)
      rcases hnil with hzero | hnil
      · omega
      · intro r hr
        have := List.filter_eq_nil_iff.mp hnil r hr
        simpa using this

end Store

end Sql
