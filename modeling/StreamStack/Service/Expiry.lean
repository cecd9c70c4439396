import StreamStack.Service.Effects

/-!
# Expiry

`expire` deletes the entry of a name after a copy of it was found expired. The copy is the one
cached on the node, and another node may have moved the deadline since.
-/

namespace Service

open Tasks

variable {parseJson : Bytes → Option JsonBody} {w : World}

/-- The entry that is deleted has the deadline of the one that was found expired. -/
theorem mem_expired_deleteExpired {entry : RegistryEntry} {nowMs : Int64} {x : Expired}
    (hstale : (w.deleteExpired entry nowMs).trace.stale = false)
    (hx : x ∈ (w.deleteExpired entry nowMs).trace.expired) :
  x ∈ w.trace.expired ∨ x.entry.deadlineMs = entry.deadlineMs ∧ x.nowMs = nowMs
  := by
  cases hkv : w.kv with
  | none =>
    rw [World.deleteExpired, hkv] at hx
    exact .inl hx
  | some stored =>
    rw [World.deleteExpired, hkv] at hx hstale
    obtain ⟨-, hcurrent⟩ := Bool.or_eq_false_iff.mp hstale
    have hsame : stored.deadlineMs = entry.deadlineMs := by simpa using hcurrent
    rcases List.mem_cons.mp hx with rfl | hx
    · exact .inr ⟨hsame, rfl⟩
    · exact .inl hx

/-- The only effect that adds to what `expire` has deleted is a deletion of an entry found expired.
-/
theorem Effect.expired {n : ℕ} {w' : World} {x : Expired} (h : Effect n w w')
    (hstale : w'.trace.stale = false) (hx : x ∈ w'.trace.expired) :
  x ∈ w.trace.expired ∨ x.entry.expired x.nowMs
  := by
  cases h with
  | expire entry nowMs answered hexpired =>
    -- the answer makes no difference to what was deleted
    have hdeleted : x ∈ w.trace.expired ∨
        x.entry.deadlineMs = entry.deadlineMs ∧ x.nowMs = nowMs := by
      cases answered with
      | true => exact mem_expired_deleteExpired hstale hx
      | false => exact mem_expired_deleteExpired hstale hx
    rcases hdeleted with hx | ⟨hdeadline, hnow⟩
    · exact .inl hx
    · right
      rw [RegistryEntry.expired, hdeadline, hnow]
      exact hexpired
  | key value answered =>
    cases answered with
    | true => exact .inl hx
    | false => exact .inl hx
  | mild h =>
    cases h with
    | opening h =>
      cases h with
      | _ => exact .inl hx
    | _ => exact .inl hx
  | _ => exact .inl hx

theorem Outside.change_trace {x : Outside} {w' : World} (h : x.change w = some w') :
  w'.trace = w.trace
  := by
  cases x with
  | settle id place durable =>
    obtain ⟨s, -, h⟩ := Option.bind_eq_some_iff.mp h
    obtain ⟨s', -, h⟩ := Option.bind_eq_some_iff.mp h
    cases h
    rfl
  | publish n =>
    obtain ⟨-, h⟩ := Option.ite_none_right_eq_some.mp h
    cases h
    rfl

/-- In every run of any number of nodes in which `expire` only deletes entries with the deadline
that was found expired, the deadline stored for the name when it is deleted has passed. -/
theorem expire_current {events : List Happening} {pool : Pool}
    (hcurrent : Through parseJson (fun w => w.trace.stale = false) .new events)
    (hrun : runPool parseJson .new events = some pool) :
  ∀ x ∈ pool.shared.trace.expired, x.entry.deadlineMs > 0 ∧ x.nowMs > x.entry.deadlineMs
  := by
  have hall : ∀ x ∈ pool.shared.trace.expired, x.entry.expired x.nowMs := by
    apply invariant_of_runPool (I := fun w => ∀ x ∈ w.trace.expired, x.entry.expired x.nowMs)
      _ _ _ hcurrent hrun
    · intro n w w' hw heffect hstale x hx
      rcases heffect.expired hstale hx with hx | hx
      · exact hw x hx
      · exact hx
    · intro x w w' hw hchange
      rw [Outside.change_trace hchange]
      exact hw
    · intro x hx
      cases hx
  intro x hx
  have hexpired := hall x hx
  rw [RegistryEntry.expired, Bool.and_eq_true, decide_eq_true_eq, decide_eq_true_eq] at hexpired
  exact hexpired

/-- A name is created at 1 ms and looked up on the same node at 60002 ms. -/
def unusedForAMinute : List Happening :=
  [.call (0, .create minuteStream)] ++ acts 0 10 1 ++ [.call (0, .head)] ++ acts 1 13 60002

theorem expire_current_unusedForAMinute :
  ∃ pool, runPool (fun _ => none) .new unusedForAMinute = some pool ∧
    pool.shared.trace.expired ≠ [] ∧
    ∀ x ∈ pool.shared.trace.expired, x.entry.deadlineMs > 0 ∧ x.nowMs > x.entry.deadlineMs
  := by
  obtain ⟨pool, hguarded, hexpired⟩ : ∃ pool, unusedForAMinute.foldlM (Run.guarded
      (stepPool fun _ => none)
      (Keeps (taskOf fun _ => none) Outside.change fun w => w.trace.stale = false))
      ⟨.new, []⟩ = some pool ∧ pool.shared.trace.expired.length ≠ 0 := by
    decide +kernel
  obtain ⟨hcurrent, hrun⟩ := Run.along_of_guarded hguarded
  exact ⟨pool, hrun, mt List.length_eq_zero_iff.mpr hexpired, expire_current hcurrent hrun⟩

/-- Node 1 has cached the entry when a read on node 0 at 50000 ms moves the deadline to 110000 ms.
At 60002 ms a lookup on node 1 finds its copy expired. -/
def cachedElsewhere : List Happening :=
  [.call (0, .create minuteStream)] ++ acts 0 10 1 ++
    [.outside (.publish 1), .call (1, .head)] ++ acts 1 11 2 ++
    [.call (0, .read 0 1 1)] ++ acts 2 9 50000 ++ [.call (1, .head)] ++ acts 3 10 60002

/-- An entry is deleted before its deadline. -/
theorem expire_early_cachedElsewhere :
  ∃ pool, runPool (fun _ => none) .new cachedElsewhere = some pool ∧
    ∃ x ∈ pool.shared.trace.expired, x.entry.deadlineMs = 110000 ∧ x.nowMs = 60002
  := by
  decide +kernel

end Service
