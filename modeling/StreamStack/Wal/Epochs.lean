import StreamStack.Wal.Exact

/-!
# Recovery over epochs

A node that restarts, or that is declared dead too early, has writers of several epochs on one log.
The reservation keeps the older ones from acknowledging, but not from storing objects beyond the
start of a newer writer. Recovery drops such a late object when it comes first in the listing and
overlaps an object of another epoch. When a late object is stored only in the first place, and every
writer resets the log before it builds its objects, recovery yields all that the newest writer has
acknowledged above the trim offset, and nothing that overlaps an object of a newer epoch.

Neither condition holds by itself. Recovery drops no other object than the first, so an object that
an older writer stores late in another place takes the place of those of the newest writer, which
are then not read.
-/

namespace Wal

open OrdMap Run List

/-! ### Writers of several epochs -/

/-- A writer and the offset at which it has started. -/
structure Member where
  writer : Writer
  start : Nat

/-- A writer that has just started. -/
def Writer.member (w : Writer) : Member := ⟨w, w.nextOffset⟩

/-- The storage, the epoch that holds the reservation, and the writers that have started, by their
epochs. Writers of older epochs go on. -/
structure Cluster where
  store : Store := ∅
  reserved : Nat := 0
  members : OrdMap Nat Member := ∅

inductive ClusterAction where
  | acquire (epoch : Nat)
  | start (config : ObjectWalConfig) (listed : List WalObject)
  | act (epoch : Nat) (a : Action)
deriving DecidableEq, Repr

namespace Cluster

/-- A writer acquires the reservation before it starts. From then on the check of the reservation
fails for the writers of older epochs. -/
def step (c : Cluster) : ClusterAction → Option Cluster
  | .acquire epoch => if c.reserved < epoch then some { c with reserved := epoch } else none
  | .start config listed =>
    if config.epoch = c.reserved ∧ (∀ e ∈ c.members.keys, e < config.epoch) ∧
        listed.isPerm c.store.list then
      some { c with members := c.members.insert config.epoch (Writer.start config listed).member }
    else none
  | .act epoch a => do
      let m ← c.members[epoch]?
      if a = .verify true → epoch = c.reserved then
        let sys ← Wal.step { store := c.store, writer := m.writer } a
        some { c with
          store := sys.store
          members := c.members.insert epoch { m with writer := sys.writer } }
      else none

def run (c : Cluster) (actions : List ClusterAction) : Option Cluster := actions.foldlM step c

end Cluster

/-- The action builds an object. -/
def Action.isBuild : Action → Bool
  | .build _ => true
  | _ => false

/-- The object ends beyond the start of a writer of a newer epoch. -/
def Cluster.Late (c : Cluster) (key : ObjectKey) : Prop :=
  ∃ e ∈ c.members.toList, key.1 < e.1 ∧ e.2.start < key.2.2

instance decidableLate (c : Cluster) : DecidablePred c.Late :=
  fun key => inferInstanceAs (Decidable (∃ e ∈ c.members.toList, key.1 < e.1 ∧ e.2.start < key.2.2))

/-- A late object that is stored comes first in the order of recovery, and objects are built only
after the log was reset. -/
def EpochSafe (c : Cluster) : ClusterAction → Prop
  | .act epoch a => ∀ m ∈ c.members[epoch]?,
      (∀ sys ∈ Wal.step { store := c.store, writer := m.writer } a, ∀ key ∈ sys.store.keys,
        c.Late key → ∀ key' ∈ sys.store.keys,
          key.1 < key'.1 ∨ key.1 = key'.1 ∧ key.2.1 ≤ key'.2.1) ∧
      (a.isBuild → (m.start : Int) ≤ m.writer.trimOffset + 1)
  | _ => True

instance decidableEpochSafe (c : Cluster) : DecidablePred (EpochSafe c) :=
  fun a => by cases a <;> dsimp only [EpochSafe] <;> infer_instance

theorem Cluster.late_iff {c : Cluster} {key : ObjectKey} :
  c.Late key ↔ ∃ (epoch : Nat) (m : Member), c.members[epoch]? = some m ∧ key.1 < epoch ∧
    m.start < key.2.2
  := by
  simp only [Late, Prod.exists, Std.ExtTreeMap.mem_toList_iff_getElem?_eq_some]

/-! ### The invariant -/

/-- The objects that are not late. -/
def Cluster.inTime (c : Cluster) : Store := c.store.filter fun key _ => ¬ c.Late key

theorem lookup_inTime {c : Cluster} {key : ObjectKey} {object : ObjectData} :
  c.inTime[key]? = some object ↔ c.store[key]? = some object ∧ ¬ c.Late key
  := by
  rw [Cluster.inTime, Std.ExtTreeMap.getElem?_filter', Option.filter_eq_some_iff, decide_eq_true_eq]

theorem mem_inTime {c : Cluster} {key : ObjectKey} :
  key ∈ c.inTime ↔ key ∈ c.store ∧ ¬ c.Late key
  := by
  simp only [mem_iff_lookup, lookup_inTime, exists_and_right]

/-- The trim offset in the header of an object covers all offsets before another. -/
def ObjectData.Resets (object : ObjectData) (start : Nat) : Prop :=
  (start : Int) ≤ object.header.trimOffset.toInt + 1

/-- There is no writer of a newer epoch. -/
def Cluster.IsNewest (c : Cluster) (epoch : Nat) (m : Member) : Prop :=
  c.members[epoch]? = some m ∧ ∀ epoch' ∈ c.members, epoch' ≤ epoch

/-- Each object is one of a bulk of its writer, built after that writer has reset the log. What a
writer drops is late, late objects come first, and what the newest writer has flushed is kept. -/
structure ClusterInv (c : Cluster) : Prop where
  members : ∀ (epoch : Nat) (m : Member), c.members[epoch]? = some m →
    m.writer.config.epoch = epoch ∧ dataFileAlignSize ∣ m.start ∧
    ∃ listed, WriterInv m.start listed m.writer
  resets : ∀ (epoch : Nat) (m : Member), c.members[epoch]? = some m →
    ∀ u ∈ m.writer.uploading, ∀ object, u.upload = .putting object → object.Resets m.start
  overlaps : ∀ (epoch : Nat) (m : Member), c.members[epoch]? = some m →
    ∀ key ∈ m.writer.overlaps, c.Late key
  objects : ∀ (key : ObjectKey) (object : ObjectData), c.store[key]? = some object →
    ∃ m : Member, c.members[key.1]? = some m ∧ object.Resets m.start ∧
    ∃ b ∈ m.writer.sealed, key = b.key m.writer.config ∧ m.writer.Built b object
  first : ∀ key ∈ c.store, c.Late key → ∀ key' ∈ c.store,
    key.1 < key'.1 ∨ key.1 = key'.1 ∧ key.2.1 ≤ key'.2.1
  kept : ∀ epoch m, c.IsNewest epoch m → ∀ b, m.writer.Flushed b →
    b.key m.writer.config ∈ c.inTime ∨ (∃ d, m.writer.Flushed d ∧ b.seq < d.seq) ∧
      ∃ t ∈ m.writer.trims, t.stage = .deleting ∧ (b.lastRecordOffset : Int) ≤ t.offset

/-- What recovery sees of a listing: the objects, but for a late one that comes first and overlaps
another. -/
structure Cluster.View (c : Cluster) (listed : List WalObject) (view : Store)
    (seen : List WalObject) : Prop where
  ordered : Ordered view
  stored : ∀ (key : ObjectKey) (object : ObjectData), view[key]? = some object →
    c.store[key]? = some object
  inTime : ∀ (key : ObjectKey) (object : ObjectData), c.inTime[key]? = some object →
    view[key]? = some object
  perm : seen.Perm view.list
  discover : discoverWalObjects listed = parseWalObjects seen
  overlaps : ∀ o ∈ (skipOverlapObjects (parseWalObjects listed)).2, c.Late o.key
  dropped : ∀ key ∈ c.store, key ∈ view ∨ c.Late key ∧ (∃ key' ∈ c.store, key.1 < key'.1) ∧
    ∀ key' ∈ c.store, key.1 ≤ key'.1

section

variable {c c' : Cluster} {epoch : Nat} {m : Member}

namespace ClusterInv

section

variable (h : ClusterInv c) {key key' : ObjectKey}

include h

/-- An object and the bulk that it is built from. -/
theorem bulk (hkey : key ∈ c.store) :
  ∃ m listed, c.members[key.1]? = some m ∧ WriterInv m.start listed m.writer ∧
    ∃ b ∈ m.writer.sealed, key = (m.writer.config.epoch, b.baseOffset, b.endOffsetAligned)
  := by
  obtain ⟨object, hobject⟩ := (mem_iff_lookup _ _).mp hkey
  obtain ⟨m, hm, -, b, hb, hbkey, -⟩ := h.objects key object hobject
  obtain ⟨-, -, listed, hwriter⟩ := h.members _ _ hm
  exact ⟨m, listed, hm, hwriter, b, hb, hbkey.trans (hwriter.windows.key_window hb).1⟩

/-- Each object of a writer lies at or above the start of that writer. -/
theorem start_le (hkey : key ∈ c.store) (hm : c.members[key.1]? = some m) :
  m.start ≤ key.2.1
  := by
  obtain ⟨m', listed, hm', hwriter, b, hb, hbkey⟩ := h.bulk hkey
  cases hm.symm.trans hm'
  rw [hbkey]
  exact (hwriter.windows.key_window hb).2.1

/-- The windows of one writer are apart. -/
theorem apart (hkey : key ∈ c.store) (hkey' : key' ∈ c.store) (heq : key.1 = key'.1) :
  (key.2.1 < key'.2.1 → key.2.2 ≤ key'.2.1) ∧ (key.2.1 = key'.2.1 → key = key')
  := by
  obtain ⟨m, listed, hm, hwriter, b, hb, hbkey⟩ := h.bulk hkey
  obtain ⟨m', listed', hm', -, d, hd, hdkey⟩ := h.bulk hkey'
  rw [heq] at hm
  cases hm.symm.trans hm'
  rw [hbkey, hdkey]
  refine ⟨fun hlt => hwriter.windows.window_le_of_base_lt hb hd hlt, fun hbase => ?_⟩
  rw [hwriter.windows.eq_of_base hb hd hbase]

/-- Objects are ordered when those of older epochs end before those of newer ones start. -/
theorem ordered {store : Store} (hsub : ∀ (key : ObjectKey) (object : ObjectData),
      store[key]? = some object → c.store[key]? = some object)
    (hepochs : ∀ key ∈ store, ∀ key' ∈ store, key.1 < key'.1 → key.2.2 ≤ key'.2.1) :
  Ordered store
  := by
  have hmem {key : ObjectKey} (hkey : key ∈ store) : key ∈ c.store := by
    obtain ⟨object, hobject⟩ := (mem_iff_lookup _ _).mp hkey
    exact (mem_iff_lookup _ _).mpr ⟨object, hsub key object hobject⟩
  refine ⟨?_, ?_, ?_, ?_⟩
  · intro key hkey
    obtain ⟨m, listed, -, hwriter, b, hb, hbkey⟩ := h.bulk (hmem hkey)
    rw [hbkey]
    exact (hwriter.windows.key_window hb).2.2
  · intro key object hobject
    obtain ⟨m, hm, -, b, hb, hbkey, hbuilt⟩ := h.objects key object (hsub key object hobject)
    obtain ⟨-, -, listed, hwriter⟩ := h.members _ _ hm
    rw [hbkey, (hwriter.windows.key_window hb).1]
    exact hbuilt.readable hwriter.windows hb
  · rintro key hkey key' hkey' (hlt | ⟨heq, hlt⟩)
    · exact hepochs key hkey key' hkey' hlt
    · exact (h.apart (hmem hkey) (hmem hkey') heq).1 hlt
  · exact fun key hkey key' hkey' heq => (h.apart (hmem hkey) (hmem hkey') heq).2

theorem ordered_inTime :
  Ordered c.inTime
  := by
  apply h.ordered fun key object hobject => (lookup_inTime.mp hobject).1
  intro key hkey key' hkey' hlt
  obtain ⟨m', -, hm', -⟩ := h.bulk (mem_inTime.mp hkey').1
  have hstart := h.start_le (mem_inTime.mp hkey').1 hm'
  by_contra hgt
  apply (mem_inTime.mp hkey).2
  exact Cluster.late_iff.mpr ⟨key'.1, m', hm', hlt, by omega⟩

theorem oldest (hkey : key ∈ c.store) (hlate : c.Late key) :
  Oldest c.store key
  := by
  refine ⟨hkey, fun key' hkey' hne => ?_⟩
  have hunique := fun heq => (h.apart hkey hkey' heq).2
  rcases h.first key hkey hlate key' hkey' with hlt | ⟨heq, hle⟩
  · exact .inl hlt
  · exact .inr ⟨heq, lt_of_le_of_ne hle fun hstart => hne (hunique heq hstart).symm⟩

/-- Recovery sees an ordered log. -/
theorem view {listed : List WalObject} (hperm : listed.Perm c.store.list) :
  ∃ view seen, c.View listed view seen
  := by
  by_cases hdrop : ∃ key ∈ c.store, c.Late key ∧
      ∃ key' ∈ c.store, key.1 ≠ key'.1 ∧ key'.2.1 < key.2.2
  · obtain ⟨key, hkey, hlate, hoverlap⟩ := hdrop
    have holdest := h.oldest hkey hlate
    -- there is one late object
    have hself : c.store.erase key = c.inTime := by
      apply Std.ExtTreeMap.ext_getElem?
      intro key'
      ext object
      rw [lookup_erase_iff, lookup_inTime, and_comm]
      refine and_congr_right fun hobject => ?_
      have hkey' := (mem_iff_lookup _ _).mpr ⟨object, hobject⟩
      constructor
      · intro hne hlate'
        have hlater := holdest.2 key' hkey' (Ne.symm hne)
        have hearlier := (h.oldest hkey' hlate').2 key hkey hne
        omega
      · rintro hnot rfl
        exact hnot hlate
    obtain ⟨seen, hseen, hdiscover, hoverlaps⟩ := discover_of_overlapped hperm holdest hoverlap
    rw [hself] at hseen
    refine ⟨c.inTime, seen, h.ordered_inTime, fun _ _ h => (lookup_inTime.mp h).1, fun _ _ => id,
      hseen, hdiscover, fun o ho => hoverlaps o ho ▸ hlate, ?_⟩
    intro key' hkey'
    by_cases hlate' : c.Late key'
    · right
      obtain rfl : key = key' := by
        by_contra hne
        have hmem : key' ∈ c.store.erase key := (mem_erase_iff _ _ _).mpr ⟨hne, hkey'⟩
        rw [hself] at hmem
        exact (mem_inTime.mp hmem).2 hlate'
      have hfirst {other : ObjectKey} (hother : other ∈ c.store) : key.1 ≤ other.1 := by
        have hle := h.first key hkey hlate other hother
        omega
      obtain ⟨other, hother, hne, -⟩ := hoverlap
      exact ⟨hlate, ⟨other, hother, lt_of_le_of_ne (hfirst hother) hne⟩, fun _ => hfirst⟩
    · exact .inl (mem_inTime.mpr ⟨hkey', hlate'⟩)
  · have hordered : Ordered c.store := by
      apply h.ordered fun _ _ => id
      intro key hkey key' hkey' hlt
      by_cases hlate : c.Late key
      · by_contra hgt
        exact hdrop ⟨key, hkey, hlate, key', hkey', by omega, by omega⟩
      · obtain ⟨m', -, hm', -⟩ := h.bulk hkey'
        have hstart := h.start_le hkey' hm'
        by_contra hgt
        exact hlate (Cluster.late_iff.mpr ⟨key'.1, m', hm', hlt, by omega⟩)
    refine ⟨c.store, listed, hordered, fun _ _ => id, fun _ _ h => (lookup_inTime.mp h).1, hperm,
      hordered.discover hperm, ?_, fun _ => .inl⟩
    rw [hordered.skipOverlap hperm]
    exact fun _ => nofun

/-- What the newest writer has made of the storage. -/
theorem storeInv (hm : c.IsNewest epoch m) :
  ∃ listed, StoreInv m.start listed m.writer c.inTime
  := by
  obtain ⟨hepoch, -, listed, hwriter⟩ := h.members epoch m hm.1
  refine ⟨listed, hwriter, h.ordered_inTime, ?_, h.kept epoch m hm⟩
  intro key object hobject
  obtain ⟨hobject, hnot⟩ := lookup_inTime.mp hobject
  obtain ⟨m', hm', -, hown⟩ := h.objects key object hobject
  have hle := hm.2 _ ((mem_iff_lookup _ _).mpr ⟨m', hm'⟩)
  rcases lt_or_eq_of_le hle with hlt | heq
  · right
    rw [hepoch]
    refine ⟨hlt, ?_⟩
    by_contra hgt
    exact hnot (Cluster.late_iff.mpr ⟨epoch, m, hm.1, hlt, by omega⟩)
  · left
    rw [heq, hm.1] at hm'
    cases hm'
    exact hown

end

variable (h : ClusterInv c)

include h

theorem acquire (reserved : Nat) :
  ClusterInv { c with reserved }
  := ⟨h.members, h.resets, h.overlaps, h.objects, h.first, h.kept⟩

/-- A writer starts that is newer than all others. -/
theorem start {config : ObjectWalConfig} {listed : List WalObject}
    (hnewest : ∀ e ∈ c.members, e < config.epoch) (hperm : listed.Perm c.store.list) :
  ClusterInv { c with members := c.members.insert config.epoch (Writer.start config listed).member }
  := by
  obtain ⟨view, seen, hview⟩ := h.view hperm
  have hlisted : ∀ o ∈ listed, o.epoch < config.epoch ∧ o.endOffset < 2 ^ 63 := by
    intro o ho
    obtain ⟨object, hobject, -⟩ := mem_list.mp (hperm.mem_iff.mp ho)
    have hkey := (mem_iff_lookup _ _).mpr ⟨object, hobject⟩
    obtain ⟨m, _, hm, hwriter, b, hb, hbkey⟩ := h.bulk hkey
    refine ⟨hnewest _ ((mem_iff_lookup _ _).mpr ⟨m, hm⟩), ?_⟩
    change o.key.2.2 < 2 ^ 63
    rw [hbkey]
    exact (hwriter.windows.key_window hb).2.2.2.2
  obtain ⟨hwriter, hconfig, hnone⟩ := writerInv_start hlisted
  obtain ⟨hends, hbase⟩ := start_offset hview.ordered (fun o ho => (hlisted o ho).1.le) hview.perm
    hview.discover
  have haligned : dataFileAlignSize ∣ (Writer.start config listed).nextOffset := by
    rcases hbase with hzero | ⟨key, hkey, heq⟩
    · exact hzero ▸ dvd_zero _
    · exact heq ▸ (hview.ordered.window key hkey).2.1
  have hlookup {epoch : Nat} {m : Member} (hm : (c.members.insert config.epoch
      (Writer.start config listed).member)[epoch]? = some m) :
      (epoch = config.epoch ∧ m = (Writer.start config listed).member) ∨
      c.members[epoch]? = some m := by
    rw [lookup_insert] at hm
    split at hm
    next heq => exact .inl ⟨heq.symm, (Option.some.inj hm).symm⟩
    next => exact .inr hm
  have hold {epoch : Nat} {m : Member} (hm : c.members[epoch]? = some m) : (c.members.insert
      config.epoch (Writer.start config listed).member)[epoch]? = some m := by
    have hlt := hnewest _ ((mem_iff_lookup _ _).mpr ⟨m, hm⟩)
    rw [lookup_insert, if_neg (by omega)]
    exact hm
  -- no other object is late for the new writer
  have hlate {key : ObjectKey} (hlate : c.Late key) : Cluster.Late { c with
      members := c.members.insert config.epoch (Writer.start config listed).member } key := by
    obtain ⟨epoch, m, hm, hlt⟩ := Cluster.late_iff.mp hlate
    exact Cluster.late_iff.mpr ⟨epoch, m, hold hm, hlt⟩
  refine ⟨?_, ?_, ?_, ?_, ?_, ?_⟩
  · intro epoch m hm
    rcases hlookup hm with ⟨rfl, rfl⟩ | hm
    · exact ⟨congrArg ObjectWalConfig.epoch hconfig, haligned, listed, hwriter⟩
    · exact h.members epoch m hm
  · intro epoch m hm
    rcases hlookup hm with ⟨rfl, rfl⟩ | hm
    · intro u hu
      change u ∈ (Writer.start config listed).uploading at hu
      rw [start_spec config fun o ho => (hlisted o ho).1.le] at hu
      cases hu
    · exact h.resets epoch m hm
  · intro epoch m hm key hkey
    apply hlate
    rcases hlookup hm with ⟨rfl, rfl⟩ | hm
    · change key ∈ (Writer.start config listed).overlaps at hkey
      rw [start_spec config fun o ho => (hlisted o ho).1.le] at hkey
      obtain ⟨o, ho, rfl⟩ := mem_map.mp hkey
      exact hview.overlaps o ho
    · exact h.overlaps epoch m hm key hkey
  · intro key object hobject
    obtain ⟨m, hm, hown⟩ := h.objects key object hobject
    exact ⟨m, hold hm, hown⟩
  · intro key hkey hlate'
    apply h.first key hkey
    obtain ⟨epoch, m, hm, hlt, hstart⟩ := Cluster.late_iff.mp hlate'
    rcases hlookup hm with ⟨rfl, rfl⟩ | hm
    · rcases hview.dropped key hkey with hseen | hdropped
      · exact absurd hstart (not_lt.mpr (hends key hseen))
      · exact hdropped.1
    · exact Cluster.late_iff.mpr ⟨epoch, m, hm, hlt, hstart⟩
  · -- the newest writer is the one that has just started
    intro epoch m hm b hb
    have hle := hm.2 config.epoch ((OrdMap.mem_insert_iff _ _ _ _).mpr (.inl rfl))
    rcases hlookup hm.1 with ⟨rfl, rfl⟩ | hmember
    · exact absurd hb (hnone b)
    · have hlt := hnewest _ ((mem_iff_lookup _ _).mpr ⟨m, hmember⟩)
      omega

variable {object : ObjectData}

/-- A writer stores an object, and late objects still come first. -/
theorem insert (hm : c.members[epoch]? = some m) {u : UploadingBulk} (hu : u ∈ m.writer.uploading)
    (hputting : u.upload = .putting object)
    (hfirst : ∀ key ∈ c.store.insert (u.bulk.key m.writer.config) object, c.Late key →
      ∀ key' ∈ c.store.insert (u.bulk.key m.writer.config) object,
        key.1 < key'.1 ∨ key.1 = key'.1 ∧ key.2.1 ≤ key'.2.1) :
  ClusterInv { c with store := c.store.insert (u.bulk.key m.writer.config) object }
  := by
  obtain ⟨hepoch, -, listed, hwriter⟩ := h.members epoch m hm
  obtain ⟨n, hack⟩ := hwriter.acks
  have hsealed : u.bulk ∈ m.writer.sealed := hack.mem_sealed (mem_append_right _ hu)
  have hbuilt := hwriter.trims.built u hu object hputting
  have hkey : (u.bulk.key m.writer.config).1 = epoch := by
    rw [(hwriter.windows.key_window hsealed).1, hepoch]
  refine ⟨h.members, h.resets, h.overlaps, ?_, hfirst, ?_⟩
  · intro key object' hobject
    rcases lookup_insert_cases hobject with ⟨heq, rfl⟩ | ⟨-, hobject⟩
    · rw [← heq, hkey]
      exact ⟨m, hm, h.resets epoch m hm u hu object hputting, u.bulk, hsealed, rfl, hbuilt⟩
    · exact h.objects key object' hobject
  · intro e m' hnewest b hb
    refine (h.kept e m' hnewest b hb).imp_left fun hmem => mem_inTime.mpr ?_
    obtain ⟨hmem, hnot⟩ := mem_inTime.mp hmem
    exact ⟨(OrdMap.mem_insert_iff _ _ _ _).mpr (.inr hmem), hnot⟩

/-- An object is deleted that is late, or by one of the trims of a writer, of its own epoch or an
older one. -/
theorem erase (hm : c.members[epoch]? = some m) {key : ObjectKey}
    (hkey : key ∈ m.writer.deletes.map Prod.snd ∨ c.Late key) :
  ClusterInv { c with store := c.store.erase key }
  := by
  obtain ⟨hepoch, -, listed, hwriter⟩ := h.members epoch m hm
  have hmem {key' : ObjectKey} (hmem : key' ∈ c.store.erase key) : key' ∈ c.store :=
    ((mem_erase_iff _ _ _).mp hmem).2
  refine ⟨h.members, h.resets, h.overlaps, ?_, ?_, ?_⟩
  · intro key' object hobject
    obtain ⟨-, hobject⟩ := lookup_erase_iff.mp hobject
    exact h.objects key' object hobject
  · exact fun key hkey hlate key' hkey' => h.first key (hmem hkey) hlate key' (hmem hkey')
  · intro e m' hnewest b hb
    obtain ⟨listed', hstore⟩ := h.storeInv hnewest
    have herased : key ∈ m'.writer.deletes.map Prod.snd ∨ key.1 < m'.writer.config.epoch := by
      rw [(h.members e m' hnewest.1).1]
      rcases hkey with hkey | hlate
      · have hold := hnewest.2 epoch ((mem_iff_lookup _ _).mpr ⟨m, hm⟩)
        rcases lt_or_eq_of_le hold with hlt | rfl
        · right
          obtain ⟨d, hd, rfl⟩ := mem_map.mp hkey
          rcases hwriter.flushes.deletes d hd with ⟨b, -, hb, -, -, hbkey, -⟩ | ⟨o, ho, hokey, -⟩
          · rwa [hbkey, (hwriter.windows.key_window hb.1).1, hepoch]
          · rw [hokey]
            exact lt_of_lt_of_le (hepoch ▸ hwriter.listed o ho) hold
        · cases hm.symm.trans hnewest.1
          exact .inl hkey
      · obtain ⟨e', m', hm', hlt, -⟩ := Cluster.late_iff.mp hlate
        exact .inr (lt_of_lt_of_le hlt (hnewest.2 e' ((mem_iff_lookup _ _).mpr ⟨m', hm'⟩)))
    refine ((hstore.erase herased).kept b hb).imp_left fun hkept => mem_inTime.mpr ?_
    obtain ⟨hne, hkept⟩ := (mem_erase_iff _ _ _).mp hkept
    obtain ⟨hkept, hnot⟩ := mem_inTime.mp hkept
    exact ⟨(mem_erase_iff _ _ _).mpr ⟨hne, hkept⟩, hnot⟩

/-- A writer goes on without a change to the storage. -/
theorem setWriter (hm : c.members[epoch]? = some m) {w : Writer}
    (hconfig : w.config = m.writer.config) (hoverlaps : w.overlaps = m.writer.overlaps)
    (hwriter : ∃ listed, WriterInv m.start listed w)
    (hresets : ∀ u ∈ w.uploading, ∀ object, u.upload = .putting object → object.Resets m.start)
    (hbuilt : ∀ b ∈ m.writer.sealed, ∀ object, m.writer.Built b object →
      b ∈ w.sealed ∧ w.Built b object)
    (hstore : c.IsNewest epoch m → ∀ listed, StoreInv m.start listed m.writer c.inTime →
      StoreInv m.start listed w c.inTime) :
  ClusterInv { c with members := c.members.insert epoch { m with writer := w } }
  := by
  have hlookup {e : Nat} {m' : Member}
      (hm' : (c.members.insert epoch { m with writer := w })[e]? = some m') :
      (e = epoch ∧ m' = { m with writer := w }) ∨ c.members[e]? = some m' := by
    rw [lookup_insert] at hm'
    split at hm'
    next heq => exact .inl ⟨heq.symm, (Option.some.inj hm').symm⟩
    next => exact .inr hm'
  -- the start of the writer is the same
  have hlate : Cluster.Late { c with members := c.members.insert epoch { m with writer := w } }
      = c.Late := by
    funext key
    rw [eq_iff_iff, Cluster.late_iff, Cluster.late_iff]
    constructor
    · rintro ⟨e, m', hm', hlt⟩
      rcases hlookup hm' with ⟨rfl, rfl⟩ | hm'
      · exact ⟨_, m, hm, hlt⟩
      · exact ⟨e, m', hm', hlt⟩
    · rintro ⟨e, m', hm', hlt⟩
      by_cases heq : epoch = e
      · subst heq
        cases hm.symm.trans hm'
        exact ⟨epoch, { m with writer := w }, by rw [lookup_insert, if_pos rfl], hlt⟩
      · exact ⟨e, m', by rw [lookup_insert, if_neg heq]; exact hm', hlt⟩
  have hinTime : Cluster.inTime { c with members := c.members.insert epoch { m with writer := w } }
      = c.inTime := by
    apply Std.ExtTreeMap.ext_getElem?
    intro key
    ext object
    rw [lookup_inTime, lookup_inTime, hlate]
  refine ⟨?_, ?_, ?_, ?_, ?_, ?_⟩
  · intro e m' hm'
    rcases hlookup hm' with ⟨rfl, rfl⟩ | hm'
    · obtain ⟨hepoch, haligned, -⟩ := h.members _ m hm
      exact ⟨(congrArg ObjectWalConfig.epoch hconfig).trans hepoch, haligned, hwriter⟩
    · exact h.members e m' hm'
  · intro e m' hm'
    rcases hlookup hm' with ⟨rfl, rfl⟩ | hm'
    · exact hresets
    · exact h.resets e m' hm'
  · rw [hlate]
    intro e m' hm' key hkey
    rcases hlookup hm' with ⟨rfl, rfl⟩ | hm'
    · exact h.overlaps _ m hm key (hoverlaps ▸ hkey)
    · exact h.overlaps e m' hm' key hkey
  · intro key object hobject
    obtain ⟨m', hm', hreset, b, hb, hkey, hown⟩ := h.objects key object hobject
    by_cases heq : epoch = key.1
    · rw [← heq, hm] at hm'
      cases hm'
      obtain ⟨hsealed, hnow⟩ := hbuilt b hb object hown
      refine ⟨{ m with writer := w }, ?_, hreset, b, hsealed, ?_, hnow⟩
      · rw [lookup_insert, if_pos heq]
      · change key = b.key w.config
        rw [hconfig]
        exact hkey
    · refine ⟨m', ?_, hreset, b, hb, hkey, hown⟩
      rw [lookup_insert, if_neg heq]
      exact hm'
  · rw [hlate]
    exact h.first
  · rw [hinTime]
    intro e m' hnewest
    have hother : ∀ e' ∈ c.members, e' ≤ e :=
      fun e' he' => hnewest.2 e' ((OrdMap.mem_insert_iff _ _ _ _).mpr (.inr he'))
    rcases hlookup hnewest.1 with ⟨rfl, rfl⟩ | hm'
    · obtain ⟨listed, hs⟩ := h.storeInv ⟨hm, hother⟩
      exact (hstore ⟨hm, hother⟩ listed hs).kept
    · exact h.kept e m' ⟨hm', hother⟩

/-- A writer acts, and the conditions are met. -/
theorem act (hm : c.members[epoch]? = some m) {a : Action} {sys : Sys}
    (hsafe : EpochSafe c (.act epoch a))
    (hstep : Wal.step { store := c.store, writer := m.writer } a = some sys) :
  ClusterInv { c with
    store := sys.store
    members := c.members.insert epoch { m with writer := sys.writer } }
  := by
  obtain ⟨hfirst, hbuild⟩ := hsafe m hm
  obtain ⟨hepoch, -, listed, hwriter⟩ := h.members epoch m hm
  obtain ⟨n, hack⟩ := hwriter.acks
  have hbound := hwriter.trims.range
  have hresets : ∀ u ∈ sys.writer.uploading, ∀ object, u.upload = .putting object →
      object.Resets m.start := by
    intro u hu object hputting
    rcases step_putting hstep u hu object hputting with ⟨v, hv, hputting⟩ | ⟨seq, b, rfl, rfl⟩
    · exact h.resets epoch m hm v hv object hputting
    · change (m.start : Int) ≤ (Int64.ofInt m.writer.trimOffset).toInt + 1
      rw [Int64.toInt_ofInt_of_le (by omega) (by omega)]
      exact hbuild rfl
  have hinsert {u : UploadingBulk} {object : ObjectData} (hu : u ∈ m.writer.uploading)
      (hputting : u.upload = .putting object)
      (hstored : sys.store = c.store.insert (u.bulk.key m.writer.config) object) :
      ClusterInv { c with store := c.store.insert (u.bulk.key m.writer.config) object } := by
    apply h.insert hm hu hputting
    have hall := hfirst sys hstep
    simp only [Std.ExtTreeMap.mem_keys, hstored] at hall
    exact hall
  have hself : c.members.insert epoch m = c.members := by
    apply Std.ExtTreeMap.ext_getElem?
    intro e
    rw [lookup_insert]
    split
    next heq => rw [← heq, hm]
    next => rfl
  have hafter := hwriter.step hstep
  cases step_effect hack (hwriter.windows.bound hwriter.bound) hstep with
  | writer hchange hacknowledged =>
    apply h.setWriter hm hchange.config hchange.overlaps ⟨listed, hafter⟩ hresets
    · intro b hb object hbuilt
      exact ⟨hchange.sealed.subset hb, hbuilt.change (hwriter.windows.seq_le hb) hchange⟩
    · exact fun _ listed' hs => hs.change (hs.toWriterInv.step hstep) hchange
  | land hu hputting =>
    have hc := hinsert hu hputting rfl
    change ClusterInv { c with members := c.members.insert epoch m, store := _ }
    rw [hself]
    exact hc
  | @put u object hu hputting =>
    apply (hinsert hu hputting rfl).setWriter (w := m.writer.putOk u object) hm rfl rfl
      ⟨listed, hafter⟩ hresets
    · exact fun b hb object hbuilt => ⟨hb, hbuilt⟩
    · -- no writer is newer, so that the object is not late
      intro hnewest listed' hs
      apply hs.putOk (hs.toWriterInv.step hstep) hu
      refine mem_inTime.mpr ⟨(OrdMap.mem_insert_iff _ _ _ _).mpr (.inl rfl), fun hlate => ?_⟩
      obtain ⟨e, m', hm', hlt, -⟩ := Cluster.late_iff.mp hlate
      have hle := hnewest.2 e ((mem_iff_lookup _ _).mpr ⟨m', hm'⟩)
      rw [(hwriter.windows.key_window (hack.mem_sealed (mem_append_right _ hu))).1, hepoch] at hlt
      omega
  | delete hkey =>
    have hc := h.erase hm (hkey.imp_right (h.overlaps epoch m hm _))
    change ClusterInv { c with members := c.members.insert epoch m, store := _ }
    rw [hself]
    exact hc

/-- Every step that meets the conditions keeps the invariant. -/
theorem step {a : ClusterAction} (hsafe : EpochSafe c a) (hstep : c.step a = some c') :
  ClusterInv c'
  := by
  cases a with
  | acquire reserved =>
    obtain ⟨-, hc⟩ := Option.ite_none_right_eq_some.mp hstep
    cases hc
    exact h.acquire reserved
  | start config listed =>
    obtain ⟨⟨-, hnewest, hperm⟩, hc⟩ := Option.ite_none_right_eq_some.mp hstep
    cases hc
    apply h.start _ (isPerm_iff.mp hperm)
    exact fun e he => hnewest e (Std.ExtTreeMap.mem_keys.mpr he)
  | act epoch a =>
    obtain ⟨m, hm, hc⟩ := Option.bind_eq_some_iff.mp hstep
    obtain ⟨-, hc⟩ := Option.ite_none_right_eq_some.mp hc
    obtain ⟨sys, hsys, hc⟩ := Option.bind_eq_some_iff.mp hc
    cases hc
    exact h.act hm hsafe hsys

end ClusterInv

end

/-! ### Recovery -/

theorem clusterInv_empty :
  ClusterInv {}
  := by
  have hnone {α : Type} {β : Type} [Ord α] [Std.TransOrd α] [Std.LawfulEqOrd α]
      [DecidableEq α] {k : α} {v : β}
      (h : (∅ : OrdMap α β)[k]? = some v) : False := by
    rw [lookup_empty] at h
    cases h
  refine ⟨?_, ?_, ?_, ?_, ?_, ?_⟩
  · exact fun _ _ hm => (hnone hm).elim
  · exact fun _ _ hm => (hnone hm).elim
  · exact fun _ _ hm => (hnone hm).elim
  · exact fun _ _ hobject => (hnone hobject).elim
  · exact fun _ hkey => absurd hkey Std.ExtTreeMap.not_mem_empty
  · exact fun _ _ hm => (hnone hm.1).elim

/-- At every point of a run over epochs in which an object that an older writer stores beyond the
start of a newer one comes first in the order of recovery, and every writer resets the log before it
builds its objects, recovery over any listing returns without an error. It yields every record that
the newest writer has acknowledged above the trim offset, other than those of trimming, and each
record that it yields ends at or before the start of each object of a newer epoch than its own. -/
theorem recovery_across_epochs {actions : List ClusterAction} {c : Cluster}
    (hsafe : Along Cluster.step EpochSafe actions {}) (hrun : Cluster.run {} actions = some c)
    {epoch : Nat} {m : Member} (hm : c.IsNewest epoch m) (crc32 : List UInt8 → UInt32)
    {listed : List WalObject} (hperm : listed.Perm c.store.list) {maxReadaheadDataSize : Nat}
    (hpos : 0 < maxReadaheadDataSize) :
  ∃ (n : Nat) (trimOffset : Int) (recovered : List RecoverResult),
    m.writer.acked = (m.writer.sealed.take n).flatMap Bulk.sorted ∧
    (∀ key object, c.store[key]? = some object → Newest c.store key →
      trimOffset = object.header.trimOffset.toInt) ∧
    recoverStream crc32 (c.store.read crc32) (discoverWalObjects listed) maxReadaheadDataSize
      = some (recovered, none) ∧
    (∀ b ∈ m.writer.sealed.take n, ∀ f ∈ b.frames, trimOffset < f.offset → ¬ f.record.IsTrim →
      ∃ epoch, f.result epoch ∈ recovered) ∧
    ∀ r ∈ recovered, ∃ o object f epoch, Stored c.store o object ∧ f ∈ object.frames ∧
      r = f.result epoch ∧ ∀ key ∈ c.store, o.epoch < key.1 → f.offset + f.size ≤ key.2.1
  := by
  have hinv : ClusterInv c :=
    hsafe.induction (fun c a c' hsafe h hstep => h.step hsafe hstep) clusterInv_empty hrun
  obtain ⟨view, seen, hview⟩ := hinv.view hperm
  obtain ⟨objects, h⟩ := hinv.storeInv hm
  obtain ⟨n, hack⟩ := h.acks
  have hstored {key : ObjectKey} (hkey : key ∈ view) : key ∈ c.store := by
    obtain ⟨object, hobject⟩ := (mem_iff_lookup _ _).mp hkey
    exact (mem_iff_lookup _ _).mpr ⟨object, hview.stored key object hobject⟩
  refine ⟨n, trimOf view.data (parseWalObjects seen), recoveredRecords view (parseWalObjects seen),
    hack.acked, ?_, ?_, ?_, ?_⟩
  · intro key object hobject hnewest
    -- what is dropped is not the newest object
    have hkey : key ∈ view := by
      refine (hview.dropped key hnewest.1).resolve_right ?_
      rintro ⟨-, ⟨key', hkey', hlt⟩, -⟩
      have hle := hnewest.2 key' hkey'
      omega
    obtain ⟨object', hobject'⟩ := (mem_iff_lookup _ _).mp hkey
    cases (hview.stored key object' hobject').symm.trans hobject
    exact hview.ordered.trimOf_newest hview.perm hobject'
      ⟨hkey, fun key' hkey' => hnewest.2 key' (hstored hkey')⟩
  · rw [hview.discover]
    exact hview.ordered.recoverStream hview.perm hview.stored crc32 hpos
  · intro b hb f hf hlt hnot
    obtain ⟨d, hd, -, hmem⟩ := exists_kept h.windows h.kept (hack.flushed hb)
    obtain ⟨key, newest, hlookup, hnewest⟩ := h.ordered.exists_newest hmem
    have hnewest' : Newest view key := by
      refine ⟨(mem_iff_lookup _ _).mpr ⟨newest, hview.inTime key newest hlookup⟩, ?_⟩
      intro key' hkey'
      by_cases hlate : c.Late key'
      · have hle := hinv.first key' (hstored hkey') hlate key (mem_inTime.mp hnewest.1).1
        omega
      · exact hnewest.2 key' (mem_inTime.mpr ⟨hstored hkey', hlate⟩)
    have htrim := hview.ordered.trimOf_newest hview.perm (hview.inTime key newest hlookup) hnewest'
    -- the newest object is one of the newest writer, built after the log was reset
    obtain ⟨e, he, hkey, -⟩ := h.newest hlookup hnewest hd.1 hmem
    obtain ⟨m', hm', hreset, -⟩ := hinv.objects key newest (lookup_inTime.mp hlookup).1
    obtain ⟨hepoch, haligned, -⟩ := hinv.members epoch m hm.1
    rw [hkey, (h.windows.key_window he).1, hepoch, hm.1] at hm'
    cases hm'
    have holder : ∀ key ∈ view, key ∈ c.inTime ∨ key.1 < m.writer.config.epoch := by
      intro key hkey
      by_cases hlate : c.Late key
      · obtain ⟨e, m', hm', hlt, -⟩ := Cluster.late_iff.mp hlate
        have hle := hm.2 e ((mem_iff_lookup _ _).mpr ⟨m', hm'⟩)
        omega
      · exact .inl (mem_inTime.mpr ⟨hstored hkey, hlate⟩)
    obtain ⟨o, trimOffset, hin, hinrun⟩ := h.acked_inRun haligned hview.ordered hview.inTime holder
      hlookup hnewest hreset hack hb hf (htrim ▸ hlt)
    obtain ⟨p, -, -, hat⟩ := hview.ordered.epochAt hview.perm hin hf
    refine ⟨p.epoch, (hview.ordered.mem_recoveredRecords hview.perm).mpr ?_⟩
    exact ⟨o, _, f, p.epoch, hin, htrim ▸ hinrun, hf, hlt, hnot, hat, rfl⟩
  · intro r hr
    obtain ⟨o, object, f, epoch', hin, -, hf, -, -, -, rfl⟩ :=
      (hview.ordered.mem_recoveredRecords hview.perm).mp hr
    refine ⟨o, object, f, epoch', ⟨hview.stored _ _ hin.lookup, hin.listed⟩, hf, rfl, ?_⟩
    intro key hkey hlt
    have homem := (mem_iff_lookup _ _).mpr ⟨object, hin.lookup⟩
    rcases hview.dropped key hkey with hseen | ⟨-, -, hfirst⟩
    · have hwindow := ((hview.ordered.objects _ object hin.lookup).2.2 f hf).2
      exact hwindow.trans (hview.ordered.next o.key homem key hseen (.inl hlt))
    · exact absurd (hfirst _ (hstored homem)) (not_le.mpr hlt)

/-- A writer stores and acknowledges a record. -/
def writeRun (epoch seq : Nat) (record : StreamRecordBatch) : List ClusterAction :=
  [.act epoch (.submit record), .act epoch .upload, .act epoch (.build seq),
    .act epoch (.putDone seq true), .act epoch .collect, .act epoch (.verify true),
    .act epoch .decide, .act epoch .complete, .act epoch .complete]

/-- A writer acknowledges a record and has an upload of a second one under way. A writer of the next
epoch starts, resets the log and acknowledges a record. -/
def startedRun : List ClusterAction :=
  [.acquire 1, .start { eachRecordConfig with epoch := 1 } []] ++ writeRun 1 1 ⟨1, 0, 0, 1, []⟩ ++
    [.act 1 (.submit ⟨1, 0, 1, 1, []⟩), .act 1 .upload, .act 1 (.build 2), .acquire 2,
      .start { eachRecordConfig with epoch := 2 } [⟨1, 0, dataFileAlignSize, 105⟩], .act 2 .reset,
      .act 2 (.trimAppend 0 true), .act 2 .upload, .act 2 (.build 1), .act 2 (.putDone 1 true),
      .act 2 .collect, .act 2 (.verify true), .act 2 .decide, .act 2 .complete, .act 2 .complete] ++
    writeRun 2 2 ⟨1, 1, 2, 1, []⟩

/-- Of two epochs the second one is the newest. -/
theorem isNewest_of_keys {c : Cluster} {m : Member} (hkeys : c.members.keys = [1, 2])
    (hm : c.members[2]? = some m) :
  c.IsNewest 2 m
  := by
  refine ⟨hm, ?_⟩
  intro epoch hepoch
  rw [← Std.ExtTreeMap.mem_keys, hkeys] at hepoch
  simp only [mem_cons, not_mem_nil, or_false] at hepoch
  omega

/-- A writer has an upload under way. A writer of the next epoch starts at the same offset and
acknowledges a record, and then the upload takes effect. -/
def droppedRun : List ClusterAction :=
  [.acquire 1, .start { eachRecordConfig with epoch := 1 } [], .act 1 (.submit ⟨1, 0, 0, 1, []⟩),
    .act 1 .upload, .act 1 (.build 1), .acquire 2, .start { eachRecordConfig with epoch := 2 } []] ++
    writeRun 2 1 ⟨1, 1, 2, 1, []⟩ ++ [.act 1 (.land 1)]

/-- Both objects are stored at the same offsets, and recovery yields the record of the newer one. -/
theorem recovery_across_epochs_droppedRun :
  ∃ c m recovered, Cluster.run {} droppedRun = some c ∧ c.IsNewest 2 m ∧
    c.store.keys = [(1, 0, dataFileAlignSize), (2, 0, dataFileAlignSize)] ∧
    m.writer.acked.map PendingRecord.record = [⟨1, 1, 2, 1, []⟩] ∧
    recoverStream (fun _ => 0) (c.store.read fun _ => 0) (discoverWalObjects c.store.list) 1
      = some (recovered, none) ∧
    ∀ r ∈ recovered, ∃ o object f epoch, Stored c.store o object ∧ f ∈ object.frames ∧
      r = f.result epoch ∧ ∀ key ∈ c.store, o.epoch < key.1 → f.offset + f.size ≤ key.2.1
  := by
  obtain ⟨c, hrun, hkeys, hstored, m, hm, hacked⟩ : ∃ c, Cluster.run {} droppedRun = some c ∧
      c.members.keys = [1, 2] ∧
      c.store.keys = [(1, 0, dataFileAlignSize), (2, 0, dataFileAlignSize)] ∧
      ∃ m, c.members[2]? = some m ∧
        m.writer.acked.map PendingRecord.record = [⟨1, 1, 2, 1, []⟩] := by
    decide +kernel
  have hsafe : Along Cluster.step EpochSafe droppedRun {} := by decide +kernel
  have hnewest := isNewest_of_keys hkeys hm
  obtain ⟨n, trimOffset, recovered, -, -, hrecover, -, hyields⟩ :=
    recovery_across_epochs hsafe hrun hnewest (fun _ => 0) (List.Perm.refl _) Nat.one_pos
  exact ⟨c, m, recovered, hrun, hnewest, hstored, hacked, hrecover, hyields⟩

/-- The upload of the older writer takes effect after the newer one has started. -/
def lateRun : List ClusterAction := startedRun ++ [.act 1 (.land 2)]

/-- The objects after the run. -/
def lateObjects : List WalObject :=
  [⟨1, 0, dataFileAlignSize, 105⟩, ⟨1, dataFileAlignSize, 2 * dataFileAlignSize, 105⟩,
    ⟨2, dataFileAlignSize, 2 * dataFileAlignSize, 105⟩,
    ⟨2, 2 * dataFileAlignSize, 3 * dataFileAlignSize, 105⟩]

theorem discoverWalObjects_lateObjects :
  discoverWalObjects lateObjects = lateObjects
  := by
  have hsorted : parseWalObjects lateObjects = lateObjects := by
    apply mergeSort_of_pairwise
    decide
  rw [discoverWalObjects, hsorted]
  decide

/-- The record that the newer writer has acknowledged is not recovered, although no trim covers it.
The record of the older writer is, although it was not acknowledged and lies where the newer one has
stored an object. -/
theorem recovery_across_epochs_lateRun :
  ∃ c m older, Cluster.run {} lateRun = some c ∧ c.IsNewest 2 m ∧
    (∃ b ∈ m.writer.sealed, b.frames = [⟨2 * dataFileAlignSize, ⟨1, 1, 2, 1, []⟩⟩] ∧
      ∀ r ∈ b.records, r ∈ m.writer.acked) ∧
    trimOf c.store.data lateObjects < 2 * dataFileAlignSize ∧
    recoverStream (fun _ => 0) (c.store.read fun _ => 0) (discoverWalObjects c.store.list) 1
      = some ([⟨⟨1, 0, 1, 1, []⟩, 2, dataFileAlignSize, 57⟩], none) ∧
    c.members[1]? = some older ∧ (∀ r ∈ older.writer.acked, r.record ≠ ⟨1, 0, 1, 1, []⟩) ∧
    (2, dataFileAlignSize, 2 * dataFileAlignSize) ∈ c.store
  := by
  obtain ⟨c, hrun, ⟨hkeys, ⟨m, hm, hacked⟩, older, holder, hnot⟩,
      ⟨hlist, htrim, hmem, hrecovered⟩, hobjects⟩ : ∃ c, Cluster.run {} lateRun = some c ∧
      (c.members.keys = [1, 2] ∧
        (∃ m, c.members[2]? = some m ∧ ∃ b ∈ m.writer.sealed,
          b.frames = [⟨2 * dataFileAlignSize, ⟨1, 1, 2, 1, []⟩⟩] ∧
            ∀ r ∈ b.records, r ∈ m.writer.acked) ∧
        ∃ m, c.members[1]? = some m ∧ ∀ r ∈ m.writer.acked, r.record ≠ ⟨1, 0, 1, 1, []⟩) ∧
      (c.store.list = lateObjects ∧ trimOf c.store.data lateObjects < 2 * dataFileAlignSize ∧
        (2, dataFileAlignSize, 2 * dataFileAlignSize) ∈ c.store ∧
        recoveredRecords c.store lateObjects = [⟨⟨1, 0, 1, 1, []⟩, 2, dataFileAlignSize, 57⟩]) ∧
      ∀ o ∈ lateObjects, c.store[o.key]? = some (c.store.data o) ∧
        o = listing (o.key, c.store.data o) ∧
        (c.store.data o).header.magic = walHeaderMagicV1 ∧ (c.store.data o).frames ≠ [] ∧
        ∀ f ∈ (c.store.data o).frames, f.record.encoded.length < 2 ^ 31 ∧
          f.offset + walRecordHeaderSize < 2 ^ 64 := by
    decide +kernel
  refine ⟨c, m, older, hrun, isNewest_of_keys hkeys hm, hacked, htrim, ?_, holder, hnot, hmem⟩
  rw [hlist, discoverWalObjects_lateObjects, ← hrecovered]
  apply recoverStream_stored Nat.one_pos
  · intro o ho
    obtain ⟨hlookup, hlisted, hmagic, hne, hframes⟩ := hobjects o ho
    exact ⟨_, ⟨hlookup, hlisted⟩, hmagic, hne, fun f hf => (hframes f hf).1,
      fun f hf => (hframes f hf).2⟩
  · intro first hfirst o _ f _
    obtain rfl : _ = first := Option.some.inj hfirst
    exact Nat.zero_le _

end Wal
