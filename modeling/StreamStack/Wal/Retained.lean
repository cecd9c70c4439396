import StreamStack.Wal.Stored

/-!
# What trimming keeps

The log is written by one writer after the other. A writer may crash at any point, and the next one,
of a higher epoch, starts where the listed log ends. Trims delete only objects whose records are all
covered. The object that was flushed last stays, so that the log never becomes empty again and its
end never moves back: a writer that starts on it starts after every object that was acknowledged.
The header of the newest object carries the offset of every trim of its writer that has begun to
delete, because such a trim has waited for an object that was built after its offset was stored. A
writer that is restarted does not know the trims before it until it resets the log.
-/

namespace Wal

open OrdMap Run List

/-! ### Restarts -/

/-- The log over restarts. The trims that have begun to delete are kept, with the epoch of their
writer. -/
structure Log where
  sys : Sys
  begun : List (Nat × Int) := []

inductive LogAction where
  | act (a : Action)
  | restart (config : ObjectWalConfig) (listed : List WalObject)
deriving DecidableEq, Repr

/-- The trims of a writer that have begun to delete. -/
def Writer.begun (w : Writer) : List (Nat × Int) :=
  (w.trims.filter fun t => t.stage = .deleting).map fun t => (w.config.epoch, t.offset)

namespace Log

/-- A writer that crashes is gone. The next one has a higher epoch and lists the objects in any
order. -/
def step (log : Log) : LogAction → Option Log
  | .act a => (Wal.step log.sys a).map fun sys => { log with sys }
  | .restart config listed =>
    if log.sys.writer.config.epoch < config.epoch ∧ listed.isPerm log.sys.store.list then
      some {
        sys := { log.sys with writer := .start config listed }
        begun := log.begun ++ log.sys.writer.begun }
    else none

def run (log : Log) (actions : List LogAction) : Option Log := actions.foldlM step log

def start (config : ObjectWalConfig) : Log where
  sys := .start config

end Log

/-! ### The invariant -/

/-- The writer and the storage, and what holds over restarts: some object ends where the writer has
started, as long as nothing was flushed since. -/
structure LogInv (start : Nat) (listed : List WalObject) (log : Log) : Prop
    extends StoreInv start listed log.sys.writer log.sys.store where
  nothing : log.sys.writer.overlaps = []
  base : start = 0 ∨ (∃ b, log.sys.writer.Flushed b) ∨ ∃ key ∈ log.sys.store, start ≤ key.2.2
  acknowledged : ∀ key ∈ log.sys.acknowledged,
    (∃ b, log.sys.writer.Flushed b ∧ key = b.key log.sys.writer.config) ∨ key.2.2 ≤ start
  written : log.sys.written = true → ∃ key, key ∈ log.sys.store
  past : ∀ e ∈ log.begun, e.1 < log.sys.writer.config.epoch
  begun : ∀ key object, log.sys.store[key]? = some object → Newest log.sys.store key →
    ∀ e ∈ log.begun, e.1 ≤ key.1 ∧ (key.1 = e.1 → e.2 ≤ object.header.trimOffset.toInt)

variable {start : Nat} {listed : List WalObject} {log : Log} {key : ObjectKey}
  {config : ObjectWalConfig}

namespace LogInv

/-- The newest object carries the trims that have begun to delete. -/
theorem newest_begun (h : LogInv start listed log) {object : ObjectData}
    (hobject : log.sys.store[key]? = some object) (hnewest : Newest log.sys.store key) :
  ∀ e ∈ log.begun ++ log.sys.writer.begun,
    e.1 ≤ key.1 ∧ (key.1 = e.1 → e.2 ≤ object.header.trimOffset.toInt)
  := by
  intro e he
  rcases mem_append.mp he with he | he
  · exact h.begun key object hobject hnewest e he
  · obtain ⟨t, ht, rfl⟩ := mem_map.mp he
    obtain ⟨ht, hstage⟩ := mem_filter.mp ht
    obtain ⟨hepoch, hle⟩ := h.newest_trim hobject hnewest ht (of_decide_eq_true hstage)
    exact ⟨hepoch.symm.le, fun _ => hle⟩

/-- Some object ends at or after each that was acknowledged. -/
theorem acknowledged_le (h : LogInv start listed log) (hkey : key ∈ log.sys.acknowledged) :
  key.2.2 = 0 ∨ ∃ key' ∈ log.sys.store, key.2.2 ≤ key'.2.2
  := by
  -- the bulk flushed last ends after all that this writer has acknowledged, and after its start
  have hflushed (b : Bulk) (hb : log.sys.writer.Flushed b) :
      ∃ key' ∈ log.sys.store, b.endOffsetAligned ≤ key'.2.2 ∧ start ≤ key'.2.2 := by
    obtain ⟨c, hc, hle, hmem⟩ := exists_kept h.windows h.kept hb
    obtain ⟨hckey, hfrom, hlt, -⟩ := h.windows.key_window hc.1
    refine ⟨_, hmem, ?_⟩
    rw [hckey]
    change b.endOffsetAligned ≤ c.endOffsetAligned ∧ start ≤ c.endOffsetAligned
    rcases lt_or_eq_of_le hle with hlt' | heq
    · have hend := h.windows.window_le hb.1 hc.1 hlt'
      omega
    · rw [h.windows.eq_of_seq hb.1 hc.1 heq]
      omega
  rcases h.acknowledged key hkey with ⟨b, hb, rfl⟩ | hle
  · obtain ⟨key', hmem, hend, -⟩ := hflushed b hb
    rw [(h.windows.key_window hb.1).1]
    exact .inr ⟨key', hmem, hend⟩
  · rcases h.base with hzero | ⟨b, hb⟩ | ⟨key', hmem, hstart⟩
    · left
      omega
    · obtain ⟨key', hmem, -, hstart⟩ := hflushed b hb
      exact .inr ⟨key', hmem, hle.trans hstart⟩
    · exact .inr ⟨key', hmem, hle.trans hstart⟩

/-! ### Steps -/

/-- Where an object of this writer is stored, the newest object is one of its own. -/
theorem begun_of_own {store : Store} {epoch : Nat} {begun : List (Nat × Int)}
    (hpast : ∀ e ∈ begun, e.1 < epoch) {own : ObjectKey} (hown : own ∈ store)
    (hepoch : own.1 = epoch) :
  ∀ key object, store[key]? = some object → Newest store key →
    ∀ e ∈ begun, e.1 ≤ key.1 ∧ (key.1 = e.1 → e.2 ≤ object.header.trimOffset.toInt)
  := by
  intro key object hobject hnewest e he
  have hlast := hnewest.2 _ hown
  have hlt := hpast e he
  refine ⟨by omega, fun heq => ?_⟩
  omega

theorem act (h : LogInv start listed log) {a : Action} {sys : Sys}
    (hstep : step log.sys a = some sys) :
  LogInv start listed { log with sys }
  := by
  have hstore := h.toStoreInv.step hstep
  obtain ⟨n, hack⟩ := h.acks
  have hmem {key : ObjectKey} {u : UploadingBulk} {object : ObjectData}
      (hmem : key ∈ log.sys.store) :
      key ∈ log.sys.store.insert (u.bulk.key log.sys.writer.config) object :=
    (OrdMap.mem_insert_iff _ _ _ _).mpr (.inr hmem)
  have hself {u : UploadingBulk} {object : ObjectData} : u.bulk.key log.sys.writer.config ∈
      log.sys.store.insert (u.bulk.key log.sys.writer.config) object :=
    (OrdMap.mem_insert_iff _ _ _ _).mpr (.inl rfl)
  cases step_effect hack (h.windows.bound h.bound) hstep with
  | writer hchange hacknowledged =>
    have hflushed (b : Bulk) := hchange.flushed_iff (b := b) h.flushes hstore.windows
    refine ⟨hstore, hchange.overlaps.trans h.nothing, ?_, ?_, h.written, ?_, h.begun⟩
    · simp only [hflushed]
      exact h.base
    · simp only [hflushed, hchange.config]
      intro key hkey
      rcases hacknowledged key hkey with hkey | hnew
      · exact h.acknowledged key hkey
      · exact .inl hnew
    · rw [hchange.config]
      exact h.past
  | land hu hputting =>
    refine ⟨hstore, h.nothing, ?_, h.acknowledged, fun _ => ⟨_, hself⟩, h.past, ?_⟩
    · rcases h.base with hzero | hflushed | ⟨key, hkey, hle⟩
      · exact .inl hzero
      · exact .inr (.inl hflushed)
      · exact .inr (.inr ⟨key, hmem hkey, hle⟩)
    · exact begun_of_own h.past hself rfl
  | put hu hputting =>
    refine ⟨hstore, h.nothing, ?_, ?_, fun _ => ⟨_, hself⟩, h.past, ?_⟩
    · right
      left
      refine ⟨_, hack.mem_sealed (mem_append_right _ hu), ?_⟩
      exact mem_append_right _ (mem_singleton_self _)
    · intro key hkey
      rcases h.acknowledged key hkey with ⟨b, hb, hbkey⟩ | hle
      · exact .inl ⟨b, ⟨hb.1, mem_append_left _ hb.2⟩, hbkey⟩
      · exact .inr hle
    · exact begun_of_own h.past hself rfl
  | delete hkey =>
    -- something was flushed, and the last of it is kept
    rw [h.nothing] at hkey
    obtain ⟨e, he, -⟩ := mem_map.mp (hkey.resolve_right nofun)
    obtain ⟨t, ht, -, hstage⟩ := h.flushes.trimmed e he
    obtain ⟨b, hb, -⟩ := h.trims.deleting t ht hstage
    obtain ⟨c, hc, -, hcmem⟩ := exists_kept hstore.windows hstore.kept hb
    refine ⟨hstore, h.nothing, .inr (.inl ⟨b, hb⟩), h.acknowledged, fun _ => ⟨_, hcmem⟩, h.past, ?_⟩
    exact begun_of_own h.past hcmem rfl

variable {objects : List WalObject}

/-- A writer of a higher epoch starts after all that was acknowledged. -/
theorem restart_offset (h : LogInv start listed log)
    (hepoch : log.sys.writer.config.epoch < config.epoch) (hperm : objects.Perm log.sys.store.list) :
  ∀ key ∈ log.sys.acknowledged, key.2.2 ≤ (Writer.start config objects).nextOffset
  := by
  have hlower : ∀ key ∈ log.sys.store, key.1 < config.epoch :=
    fun key hkey => lt_of_le_of_lt (h.epoch_le hkey) hepoch
  obtain ⟨-, -, -, hstored, -⟩ := storeInv_start h.ordered hlower hperm
  intro key hkey
  rcases h.acknowledged_le hkey with hzero | ⟨key', hkey', hle⟩
  · rw [hzero]
    exact Nat.zero_le _
  · exact hle.trans (hstored key' hkey')

/-- A writer that has just started. -/
theorem restart (h : LogInv start listed log) (hepoch : log.sys.writer.config.epoch < config.epoch)
    (hperm : objects.Perm log.sys.store.list) :
  LogInv (Writer.start config objects).nextOffset objects {
    sys := { log.sys with writer := .start config objects }
    begun := log.begun ++ log.sys.writer.begun }
  := by
  have hlower : ∀ key ∈ log.sys.store, key.1 < config.epoch :=
    fun key hkey => lt_of_le_of_lt (h.epoch_le hkey) hepoch
  obtain ⟨hstore, hconfig, hnothing, -, hbase⟩ := storeInv_start h.ordered hlower hperm
  refine ⟨hstore, hnothing, ?_, ?_, h.written, ?_, ?_⟩
  · exact hbase.imp_right fun ⟨key, hkey, heq⟩ => .inr ⟨key, hkey, heq.le⟩
  · exact fun key hkey => .inr (h.restart_offset hepoch hperm key hkey)
  · rw [hconfig]
    intro e he
    rcases mem_append.mp he with he | he
    · exact (h.past e he).trans hepoch
    · obtain ⟨t, -, rfl⟩ := mem_map.mp he
      exact hepoch
  · exact fun key object hobject hnewest => h.newest_begun hobject hnewest

end LogInv

theorem logInv_start (config : ObjectWalConfig) :
  LogInv 0 [] (Log.start config)
  := by
  refine ⟨storeInv_empty config, ?_, .inl rfl, nofun, nofun, nofun, nofun⟩
  simp [Log.start, Sys.start, Writer.start, skipOverlapObjects, parseWalObjects]

/-- Every step of the log keeps the invariant, with a new start after a restart. -/
theorem LogInv.step (h : LogInv start listed log) {a : LogAction} {log' : Log}
    (hstep : log.step a = some log') :
  ∃ start' listed', LogInv start' listed' log'
  := by
  cases a with
  | act a =>
    obtain ⟨sys, hsys, rfl⟩ := Option.map_eq_some_iff.mp hstep
    exact ⟨start, listed, h.act hsys⟩
  | restart config objects =>
    obtain ⟨⟨hepoch, hperm⟩, hstep⟩ := Option.ite_none_right_eq_some.mp hstep
    cases hstep
    exact ⟨_, objects, h.restart hepoch (isPerm_iff.mp hperm)⟩

theorem logInv_run {actions : List LogAction} (hrun : (Log.start config).run actions = some log) :
  ∃ start listed, LogInv start listed log
  := by
  apply foldlM_some_induction (I := fun log => ∃ start listed, LogInv start listed log) _
    ⟨0, [], logInv_start config⟩ hrun
  rintro log a log' - ⟨start, listed, h⟩ hstep
  exact h.step hstep

/-! ### Trimming is safe -/

/-- After any run with trims, resets and restarts: objects on a delete list hold only records that
the trim covers; the newest object carries every trim of its epoch that has begun to delete, and no
trim of a later epoch has begun; once an object was written there is one; and a writer that is
restarted starts after every object that was acknowledged. -/
theorem trim_keeps_log {config : ObjectWalConfig} {actions : List LogAction}
    (hrun : (Log.start config).run actions = some log) :
  (∀ offset key, (offset, key) ∈ log.sys.writer.deletes →
      (∃ t ∈ log.sys.writer.trims, t.offset = offset ∧ t.stage = .deleting) ∧
      ∀ object, log.sys.store[key]? = some object →
        ∀ f ∈ object.frames, (f.offset : Int) ≤ offset) ∧
    (∀ key object, log.sys.store[key]? = some object → Newest log.sys.store key →
      ∀ e ∈ log.begun ++ log.sys.writer.begun,
        e.1 ≤ key.1 ∧ (key.1 = e.1 → e.2 ≤ object.header.trimOffset.toInt)) ∧
    (log.sys.written = true → ∃ key, key ∈ log.sys.store) ∧
    ∀ config' objects, log.sys.writer.config.epoch < config'.epoch →
      objects.Perm log.sys.store.list →
      ∀ key ∈ log.sys.acknowledged, key.2.2 ≤ (Writer.start config' objects).nextOffset
  := by
  obtain ⟨start, listed, h⟩ := logInv_run hrun
  refine ⟨fun offset key hdelete => h.deletes hdelete, ?_, h.written, ?_⟩
  · exact fun key object hobject hnewest => h.newest_begun hobject hnewest
  · exact fun config' objects hepoch hperm => h.restart_offset hepoch hperm

/-- The upload of a bulk and the acknowledgement of its records. -/
def uploadRun (seq : Nat) : List LogAction :=
  [.act .upload, .act (.build seq), .act (.putDone seq true), .act .collect, .act (.verify true),
    .act .decide, .act .complete, .act .complete]

/-- A record is uploaded and trimmed, and its object is deleted. The writer is restarted, resets the
log and fixes the object of the trim for deletion. -/
def trimmedRun : List LogAction :=
  [.act (.submit ⟨1, 0, 0, 1, []⟩)] ++ uploadRun 1 ++ [.act (.trim 0), .act (.trimAppend 0 true)] ++
    uploadRun 2 ++ [.act (.trimDelete 0), .act (.delete (2, 0, dataFileAlignSize)),
      .restart { eachRecordConfig with epoch := 3 }
        [⟨2, dataFileAlignSize, 2 * dataFileAlignSize, 105⟩],
      .act .reset, .act (.trimAppend 0 true)] ++ uploadRun 1 ++
    [.act (.submit ⟨1, 0, 1, 1, []⟩)] ++ uploadRun 2 ++ [.act (.trimDelete 0)]

theorem trim_keeps_log_trimmedRun :
  ∃ log, (Log.start eachRecordConfig).run trimmedRun = some log ∧
    log.begun = [(2, 0)] ∧ log.sys.writer.begun = [(3, 134217727)] ∧
    log.sys.acknowledged.length = 4 ∧ (log.sys.written = true → ∃ key, key ∈ log.sys.store)
  := by
  obtain ⟨log, hrun, hbegun, hwriter, hacknowledged⟩ : ∃ log,
      (Log.start eachRecordConfig).run trimmedRun = some log ∧ log.begun = [(2, 0)] ∧
      log.sys.writer.begun = [(3, 134217727)] ∧ log.sys.acknowledged.length = 4 := by
    decide +kernel
  exact ⟨log, hrun, hbegun, hwriter, hacknowledged, (trim_keeps_log hrun).2.2.1⟩

/-- The writer that is restarted stores a record and does not reset the log. -/
def unresetRun : List LogAction :=
  trimmedRun.takeWhile (· ≠ .act .reset) ++ [.act (.submit ⟨1, 0, 1, 1, []⟩)] ++ uploadRun 1

/-- The newest object does not carry the trim of the writer before. -/
theorem trim_lost_unresetRun :
  ∃ log key object, (Log.start eachRecordConfig).run unresetRun = some log ∧
    log.sys.store[key]? = some object ∧ Newest log.sys.store key ∧
    ∃ e ∈ log.begun ++ log.sys.writer.begun, object.header.trimOffset.toInt < e.2
  := by
  obtain ⟨log, hrun, hkeys, ⟨object, hobject, hheader⟩, hbegun⟩ : ∃ log,
      (Log.start eachRecordConfig).run unresetRun = some log ∧
      log.sys.store.keys = [(2, 67108864, 134217728), (3, 134217728, 201326592)] ∧
      (∃ object ∈ log.sys.store[(3, 134217728, 201326592)]?,
        object.header.trimOffset.toInt = -1) ∧
      log.begun ++ log.sys.writer.begun = [(2, 0)] := by
    decide +kernel
  have hmem (key : ObjectKey) : key ∈ log.sys.store ↔ key ∈ log.sys.store.keys :=
    Std.ExtTreeMap.mem_keys.symm
  refine ⟨log, _, object, hrun, hobject, ⟨?_, ?_⟩, (2, 0), ?_, ?_⟩
  · simp [hmem, hkeys]
  · simp [hmem, hkeys]
  · simp [hbegun]
  · rw [hheader]
    decide

/-! ### Recovery over restarts -/

/-- At every point of a run with trims, resets, crashes and restarts, recovery over any listing
returns without an error, in the order of their offsets, exactly the records above the trim offset
of the newest object in the run of objects that starts with the first one ending beyond it. -/
theorem recovery_restarts {config : ObjectWalConfig} {actions : List LogAction}
    (hrun : (Log.start config).run actions = some log) (crc32 : List UInt8 → UInt32)
    (hperm : objects.Perm log.sys.store.list) {maxReadaheadDataSize : Nat}
    (hpos : 0 < maxReadaheadDataSize) :
  ∃ trimOffset recovered,
    (∀ key object, log.sys.store[key]? = some object → Newest log.sys.store key →
      trimOffset = object.header.trimOffset.toInt) ∧
    recoverStream crc32 (log.sys.store.read crc32) (discoverWalObjects objects)
      maxReadaheadDataSize = some (recovered, none) ∧
    (recovered.map RecoverResult.offset).Pairwise (· < ·) ∧
    ∀ r, r ∈ recovered ↔ ∃ o object f epoch, Stored log.sys.store o object ∧
      InRun log.sys.store.list trimOffset o ∧ f ∈ object.frames ∧ trimOffset < f.offset ∧
      ¬ f.record.IsTrim ∧ epochAt (epochIndex (parseWalObjects objects)) f.offset = some epoch ∧
      r = f.result epoch
  := by
  obtain ⟨start, listed, h⟩ := logInv_run hrun
  rw [h.ordered.discover hperm]
  refine ⟨_, _, ?_, h.ordered.recoverStream hperm (fun _ _ => id) crc32 hpos,
    h.ordered.recoveredRecords_pairwise hperm, fun r => h.ordered.mem_recoveredRecords hperm⟩
  intro key object hobject hnewest
  apply h.ordered.trimOf_newest hperm hobject hnewest

theorem recovery_restarts_trimmedRun :
  ∃ log recovered, (Log.start eachRecordConfig).run trimmedRun = some log ∧ log.begun = [(2, 0)] ∧
    recoverStream (fun _ => 0) (log.sys.store.read fun _ => 0)
      (discoverWalObjects log.sys.store.list) 1 = some (recovered, none)
  := by
  obtain ⟨log, hrun, hbegun⟩ : ∃ log,
      (Log.start eachRecordConfig).run trimmedRun = some log ∧ log.begun = [(2, 0)] := by
    decide +kernel
  obtain ⟨-, recovered, -, hrecovered, -⟩ :=
    recovery_restarts hrun (fun _ => 0) (Perm.refl log.sys.store.list) Nat.one_pos
  exact ⟨log, recovered, hrun, hbegun, hrecovered⟩

end Wal
