import StreamStack.Service.Programs

/-!
# What a node can come across

The entries of a name that are cached on a node or that its view shows now or will show, and how
they change with the key.
-/

namespace Service

open World

variable {n : ℕ} {w w' : World} {value : Option RegistryEntry} {entry : RegistryEntry}

/-- An entry that the node can still come across. -/
def Visible (n : ℕ) (w : World) (entry : RegistryEntry) : Prop :=
  (∃ j, (w.nodes n).seen ≤ j ∧ w.kvAt j = some entry) ∨ (w.nodes n).entryCache = some entry

/-- A node that is not ahead of the log sees what is stored. -/
theorem visible_kv (hseen : (w.nodes n).seen ≤ w.kvLog.length) (h : w.kv = some entry) :
  Visible n w entry
  := .inl ⟨w.kvLog.length, hseen, h⟩

/-- As long as the key and the cached entry stay, entries only disappear. -/
theorem Visible.of_later (h : Visible n w' entry) (hlog : w'.kvLog = w.kvLog)
    (hcache : (w'.nodes n).entryCache = (w.nodes n).entryCache)
    (hseen : (w.nodes n).seen ≤ (w'.nodes n).seen) :
  Visible n w entry
  := by
  rcases h with ⟨j, hj, hentry⟩ | hcached
  · refine .inl ⟨j, hseen.trans hj, ?_⟩
    rw [kvAt, ← hlog]
    exact hentry
  · exact .inr (hcache ▸ hcached)

/-- Caching makes at most the cached entry visible. -/
theorem Visible.of_cache
    (h : Visible n (w.setNode n fun node => { node with entryCache := value }) entry) :
  Visible n w entry ∨ value = some entry
  := by
  rcases h with ⟨j, hj, hentry⟩ | hcached
  · rw [nodes_setNode] at hj
    exact .inl (.inl ⟨j, hj, hentry⟩)
  · rw [nodes_setNode] at hcached
    exact .inr hcached

/-! ### Changes of the key -/

/-- The key changes, and the view stays or catches up. -/
structure PutsKey (n : ℕ) (w : World) (value : Option RegistryEntry) (w' : World) : Prop where
  log : w'.kvLog = w.kvLog ++ [value]
  seen : (w'.nodes n).seen = (w.nodes n).seen ∨ (w'.nodes n).seen = w.kvLog.length + 1
  node : ∃ seen, w'.nodes n = { w.nodes n with seen }
  applied : w'.trace.applied = w.trace.applied
  looking : w'.trace.looking = w.trace.looking
  streams : w'.streams = w.streams
  nextStreamId : w'.nextStreamId = w.nextStreamId

/-- The node that is answered has seen its own change. -/
theorem putsKey_answered :
  PutsKey n w value ((w.putKv value).catchUp n)
  := by
  refine ⟨rfl, .inr ?_, ⟨_, nodes_setNode ..⟩, rfl, rfl, rfl, rfl⟩
  simp [catchUp, World.putKv]

/-- Without an answer the view of the node stays where it is. -/
theorem putsKey_lost :
  PutsKey n w value ((w.putKv value).setTrace fun t => { t with failed := true })
  := ⟨rfl, .inl rfl, ⟨_, rfl⟩, rfl, rfl, rfl, rfl⟩

/-- Besides the key, a deletion of an expired entry only changes what is noted about it. -/
theorem trace_deleteExpired (w : World) (entry : RegistryEntry) (nowMs : Int64) :
  (w.deleteExpired entry nowMs).trace.applied = w.trace.applied ∧
    (w.deleteExpired entry nowMs).trace.looking = w.trace.looking
  := by
  rw [deleteExpired]
  cases w.kv with
  | none => exact ⟨rfl, rfl⟩
  | some stored => exact ⟨rfl, rfl⟩

theorem putsKey_expired {nowMs : Int64} :
  PutsKey n w none ((w.deleteExpired entry nowMs).catchUp n)
  := by
  obtain ⟨happlied, hlooking⟩ := trace_deleteExpired w entry nowMs
  refine ⟨rfl, .inr ?_, ⟨_, nodes_setNode ..⟩, happlied, hlooking, rfl, rfl⟩
  simp [catchUp, deleteExpired, World.putKv, setTrace]

theorem putsKey_expiredLost {nowMs : Int64} :
  PutsKey n w none (w.deleteExpired entry nowMs).noAnswer
  := by
  obtain ⟨happlied, hlooking⟩ := trace_deleteExpired w entry nowMs
  exact ⟨rfl, .inl rfl, ⟨_, rfl⟩, happlied, hlooking, rfl, rfl⟩

namespace PutsKey

variable (h : PutsKey n w value w')
include h

theorem gate :
  (w'.nodes n).gate = (w.nodes n).gate
  := by
  obtain ⟨seen, hnode⟩ := h.node
  rw [hnode]

theorem cache :
  (w'.nodes n).entryCache = (w.nodes n).entryCache
  := by
  obtain ⟨seen, hnode⟩ := h.node
  rw [hnode]

/-- No view runs ahead of the log. -/
theorem seen_le (hseen : (w.nodes n).seen ≤ w.kvLog.length) :
  (w'.nodes n).seen ≤ w'.kvLog.length
  := by
  rw [h.log, List.length_append, List.length_singleton]
  rcases h.seen with heq | heq
  · rw [heq]
    exact hseen.trans (Nat.le_succ _)
  · exact heq.le

/-- A change of the key makes at most the new value visible. -/
theorem visible (hseen : (w.nodes n).seen ≤ w.kvLog.length) (hvisible : Visible n w' entry) :
  Visible n w entry ∨ value = some entry
  := by
  have hlater : (w.nodes n).seen ≤ (w'.nodes n).seen := by
    rcases h.seen with heq | heq
    · exact heq.ge
    · rw [heq]
      exact hseen.trans (Nat.le_succ _)
  rcases hvisible with ⟨j, hj, hvalue⟩ | hcached
  · have hat : w'.kvAt j = (w.putKv value).kvAt j := by
      rw [kvAt, h.log]
      rfl
    rw [hat, kvAt_putKv] at hvalue
    split at hvalue
    · exact .inr hvalue
    · exact .inl (.inl ⟨j, hlater.trans hj, hvalue⟩)
  · exact .inl (.inr (h.cache ▸ hcached))

end PutsKey

end Service
