import StreamStack.Object.Find

/-!
# Object round trip

An object that was written and closed parses, its index is in order and covers the data, and all
of its blocks together decode to the records that were written. A lookup for a range inside
consecutive records of a stream, followed by reading and decoding the blocks it has found, returns
consecutive records from the first offset on.
-/

namespace Object

open Wire Run Spans List
open Wal (StreamRecordBatch)

/-! ### Reading records -/

/-- Read and decode the blocks of entries, one after the other. -/
def ObjectReader.records (data : List UInt8) (entries : List DataBlockIndex) :
    Except ObjectError (List StreamRecordBatch) := do
  let blocks ← entries.mapM fun e => decodeDataBlock (readBlock data e)
  return blocks.flatten

/-- The records of blocks. -/
def recordsIn (groups : List Group) : List StreamRecordBatch := groups.flatMap fun g => g.2.1

/-- The records that were written for a stream. -/
def recordsOf (calls : List Call) (streamId : UInt64) : List StreamRecordBatch :=
  ((calls.flatMap Call.tagged).filter fun c => c.1 = streamId).map Prod.snd

section Blocks

variable {object : List UInt8} {entries : List DataBlockIndex} {groups : List Group}
  {e : DataBlockIndex}

theorem exists_group (h : List.Forall₂ (Describes object) entries groups) (he : e ∈ entries) :
  ∃ g ∈ groups, Describes object e g
  := by
  induction h with
  | nil => cases he
  | cons hd _ ih =>
    rcases mem_cons.mp he with rfl | he
    · exact ⟨_, mem_cons_self, hd⟩
    · obtain ⟨g, hg, hd'⟩ := ih he
      exact ⟨g, mem_cons_of_mem _ hg, hd'⟩

variable {g : Group}

theorem exists_entry (h : List.Forall₂ (Describes object) entries groups) (hg : g ∈ groups) :
  ∃ e ∈ entries, Describes object e g
  := by
  induction h with
  | nil => cases hg
  | cons hd _ ih =>
    rcases mem_cons.mp hg with rfl | hg
    · exact ⟨_, mem_cons_self, hd⟩
    · obtain ⟨e, he, hd'⟩ := ih hg
      exact ⟨e, mem_cons_of_mem _ he, hd'⟩

/-- Part of the entries describes a part of the blocks. -/
theorem describes_part {p q t : List DataBlockIndex}
    (h : List.Forall₂ (Describes object) (p ++ q ++ t) groups) :
  ∃ gp gq gt, groups = gp ++ gq ++ gt ∧ List.Forall₂ (Describes object) q gq
  := by
  refine ⟨(groups.take (p.length + q.length)).take p.length,
    (groups.take (p.length + q.length)).drop p.length, groups.drop (p.length + q.length), ?_, ?_⟩
  · rw [take_append_drop, take_append_drop]
  · have htake := List.forall₂_take (p.length + q.length) h
    rw [← length_append, take_left] at htake
    have hdrop := List.forall₂_drop p.length htake
    rw [drop_left, length_append] at hdrop
    exact hdrop

theorem records_describes (h : List.Forall₂ (Describes object) entries groups) :
  ObjectReader.records object entries = .ok (recordsIn groups)
  := by
  have hmapM : entries.mapM (fun e => decodeDataBlock (ObjectReader.readBlock object e)) =
      .ok (groups.map fun g => g.2.1) := by
    induction h with
    | nil => rfl
    | cons hd _ ih =>
      rw [mapM_cons, hd.decoded, ih]
      rfl
  rw [ObjectReader.records, hmapM, recordsIn, flatMap_def]
  rfl

/-- The records of a block lie from the start of its entry to the end. -/
theorem Describes.laid (h : Describes object e g) (hvalid : g.call.Valid) :
  Laid StreamRecordBatch.lo StreamRecordBatch.hi e.lo g.2.1 ∧
    reach StreamRecordBatch.hi e.lo g.2.1 = e.hi
  := by
  obtain ⟨a, hlaid⟩ := hvalid.laid
  have hstart : (g.2.1.head g.2.2).lo = a := by
    obtain ⟨r, rs, hrs⟩ := exists_cons_of_ne_nil g.2.2
    rw [Group.call, hrs] at hlaid
    simp only [hrs, head_cons]
    exact hlaid.1
  rw [DataBlockIndex.lo, h.startOffset, hstart]
  refine ⟨hlaid, ?_⟩
  rw [reach, getLast?_eq_some_getLast g.2.2]
  exact h.endOffset.symm

theorem Describes.lo_lt_hi (h : Describes object e g) (hvalid : g.call.Valid) :
  e.lo < e.hi
  := by
  obtain ⟨hlaid, hreach⟩ := h.laid hvalid
  have hhead := head_mem g.2.2
  have hstart := (hlaid.pairwise hvalid.lo_le_hi).2 _ hhead
  have hend := (hlaid.le_reach hvalid.lo_le_hi).2 _ hhead
  have hpos := (hvalid.records _ hhead).lo_lt_hi
  omega

theorem Describes.before {e' : DataBlockIndex} {g' : Group} (h : Describes object e g)
    (h' : Describes object e' g') (hbefore : g.Before g') :
  e.Before e'
  := by
  rcases hbefore with hlt | ⟨heq, hends⟩
  · left
    rw [h.streamId, h'.streamId]
    exact hlt
  · right
    refine ⟨by rw [h.streamId, h'.streamId, heq], ?_⟩
    rw [DataBlockIndex.hi, DataBlockIndex.lo, h.endOffset, h'.startOffset]
    exact hends _ (getLast_mem g.2.2) _ (head_mem g'.2.2)

variable (h : List.Forall₂ (Describes object) entries groups)

include h

/-- The entries of blocks in order are in order. -/
theorem ordered_of_describes (hvalid : ∀ g ∈ groups, g.call.Valid)
    (hsorted : groups.Pairwise Group.Before) :
  Ordered entries
  := by
  constructor
  · induction h with
    | nil => exact List.Pairwise.nil
    | cons hd htail ih =>
      obtain ⟨hfirst, hsorted⟩ := pairwise_cons.mp hsorted
      apply pairwise_cons.mpr
      refine ⟨fun e' he' => ?_, ih (forall_mem_cons.mp hvalid).2 hsorted⟩
      obtain ⟨g', hg', hd'⟩ := exists_group htail he'
      exact hd.before hd' (hfirst g' hg')
  · intro e he
    obtain ⟨g, hg, hd⟩ := exists_group h he
    exact hd.lo_lt_hi (hvalid g hg)

/-- The records of blocks that follow one another follow one another. -/
theorem laid_recordsIn (hvalid : ∀ g ∈ groups, g.call.Valid) {a : Nat}
    (hlaid : Laid DataBlockIndex.lo DataBlockIndex.hi a entries) :
  Laid StreamRecordBatch.lo StreamRecordBatch.hi a (recordsIn groups) ∧
    reach StreamRecordBatch.hi a (recordsIn groups) = reach DataBlockIndex.hi a entries
  := by
  induction h generalizing a with
  | nil => exact ⟨trivial, rfl⟩
  | cons hd _ ih =>
    obtain ⟨hvalid, hrest⟩ := forall_mem_cons.mp hvalid
    obtain ⟨rfl, hlaid⟩ := hlaid
    obtain ⟨hhead, hreach⟩ := hd.laid hvalid
    rw [recordsIn, flatMap_cons, laid_append, reach_append, reach_cons, hreach]
    obtain ⟨htail, hreach'⟩ := ih hrest hlaid
    exact ⟨⟨hhead, htail⟩, hreach'⟩

theorem payloadSize_le :
  payloadSize entries ≤ dataSize (groups.map Group.block)
  := by
  induction h with
  | nil => exact Nat.le_refl _
  | cons hd _ ih =>
    rw [payloadSize, dataSize, map_cons, map_cons, map_cons, sum_cons,
      sum_cons]
    apply Nat.add_le_add _ ih
    rw [← hd.size, recordPayloadSize]
    omega

end Blocks

/-! ### The records of a stream -/

theorem map_snd_tagged (calls : List Call) :
  (calls.flatMap Call.tagged).map Prod.snd = calls.flatMap Prod.snd
  := by
  rw [map_flatMap]
  congr 1
  funext c
  rw [Call.tagged, map_map]
  exact map_id _

namespace ObjectWriter

variable {calls : List Call} {groups : List Group} {w : ObjectWriter}

theorem Written.recordsIn_eq (h : Written calls groups w) :
  recordsIn groups = calls.flatMap Prod.snd
  := by
  rw [← map_snd_tagged, ← h.records, map_snd_tagged, flatMap_map]
  rfl

variable {k : UInt64} {r : StreamRecordBatch}

theorem mem_taggedIn :
  (k, r) ∈ (groups.map Group.call).flatMap Call.tagged ↔ ∃ g ∈ groups, g.1 = k ∧ r ∈ g.2.1
  := by
  simp only [mem_flatMap, mem_map, Call.tagged, exists_exists_and_eq_and, Prod.mk.injEq,
    Group.call]
  constructor
  · rintro ⟨g, hg, r', hr', rfl, rfl⟩
    exact ⟨g, hg, rfl, hr'⟩
  · rintro ⟨g, hg, rfl, hr⟩
    exact ⟨g, hg, r, hr, rfl, rfl⟩

/-- The records of a stream are in its blocks. -/
theorem Written.mem_recordsOf (h : Written calls groups w) :
  r ∈ recordsOf calls k ↔ ∃ g ∈ groups, g.1 = k ∧ r ∈ g.2.1
  := by
  rw [← mem_taggedIn, h.records, recordsOf]
  simp only [mem_map, mem_filter, decide_eq_true_eq, Prod.exists]
  constructor
  · rintro ⟨k', r', ⟨hmem, rfl⟩, rfl⟩
    exact hmem
  · exact fun hmem => ⟨k, r, ⟨hmem, rfl⟩, rfl⟩

/-- The records of a stream come one after the other. -/
theorem Written.recordsOf_pairwise (h : Written calls groups w) (k : UInt64) :
  (recordsOf calls k).Pairwise fun r r' => r.hi ≤ r'.lo
  := by
  have htagged : (calls.flatMap Call.tagged).Pairwise
      fun c c' => c.1 = c'.1 → c.2.hi ≤ c'.2.lo := by
    rw [← h.records, flatMap_map, pairwise_flatMap]
    constructor
    · intro g hg
      obtain ⟨a, hlaid⟩ := (h.valid g hg).laid
      rw [Call.tagged, pairwise_map]
      apply (hlaid.pairwise (h.valid g hg).lo_le_hi).1.imp
      exact fun hle _ => hle
    · apply h.sorted.imp
      intro g g' hbefore c hc c' hc' heq
      obtain ⟨r, hr, rfl⟩ := mem_map.mp hc
      obtain ⟨r', hr', rfl⟩ := mem_map.mp hc'
      rcases hbefore with hlt | ⟨-, hends⟩
      · rw [show g.1 = g'.1 from heq] at hlt
        exact absurd hlt (UInt64.lt_irrefl _)
      · exact hends r hr r' hr'
  rw [recordsOf, pairwise_map]
  apply (htagged.filter _).imp_of_mem
  intro c c' hc hc' hle
  have hk := of_decide_eq_true (mem_filter.mp hc).2
  have hk' := of_decide_eq_true (mem_filter.mp hc').2
  exact hle (hk.trans hk'.symm)

/-- The records in consecutive blocks of a stream are consecutive records of it. -/
theorem Written.recordsIn_isInfix {gp gq gt : List Group} (h : Written calls (gp ++ gq ++ gt) w)
    (hstream : ∀ g ∈ gq, g.1 = k) :
  recordsIn gq <:+: recordsOf calls k
  := by
  have hall : ((gq.map Group.call).flatMap Call.tagged).filter (fun c => c.1 = k) =
      (gq.map Group.call).flatMap Call.tagged := by
    apply filter_eq_self.mpr
    rintro ⟨k', r⟩ hc
    obtain ⟨g, hg, rfl, -⟩ := mem_taggedIn.mp hc
    exact decide_eq_true (hstream g hg)
  have hrecords : ((gq.map Group.call).flatMap Call.tagged).map Prod.snd = recordsIn gq := by
    rw [map_snd_tagged, flatMap_map]
    rfl
  rw [recordsOf, ← h.records, map_append, map_append, flatMap_append,
    flatMap_append, filter_append, filter_append, hall, map_append,
    map_append, hrecords]
  exact ⟨_, _, rfl⟩

/-- Where there is a record of a stream there is an entry. -/
theorem Written.exists_contains (h : Written calls groups w) {object : List UInt8}
    {entries : List DataBlockIndex} (hentries : List.Forall₂ (Describes object) entries groups)
    (hr : r ∈ recordsOf calls k) {x : Nat} (hx : r.lo ≤ x ∧ x < r.hi) :
  ∃ e ∈ entries, Contains k x e
  := by
  obtain ⟨g, hg, rfl, hmem⟩ := h.mem_recordsOf.mp hr
  obtain ⟨e, he, hd⟩ := exists_entry hentries hg
  have hvalid := h.valid g hg
  obtain ⟨hlaid, hreach⟩ := hd.laid hvalid
  have hstart := (hlaid.pairwise hvalid.lo_le_hi).2 r hmem
  have hend := (hlaid.le_reach hvalid.lo_le_hi).2 r hmem
  refine ⟨e, he, hd.streamId, ?_, ?_⟩
  · omega
  · omega

/-! ### Round trip -/

/-- The largest limit on bytes. -/
def unlimited : Nat := 2 ^ 64 - 1

/-- What a lookup, the reads and the decoding return for a range of a stream: consecutive records
of `run` that start at or before the range and contain its first offset. They reach its end when
there is no limit on bytes. -/
def Returns (run : List StreamRecordBatch) (startOffset endOffset : UInt64) (maxBytes : Nat)
    (rs : List StreamRecordBatch) : Prop :=
  rs <:+: run ∧ (∃ r ∈ rs.head?, r.lo ≤ startOffset.toNat) ∧
    (∃ r ∈ rs, r.lo ≤ startOffset.toNat ∧ startOffset.toNat < r.hi) ∧
    (maxBytes = unlimited → ∃ r ∈ rs.getLast?, endOffset.toNat ≤ r.hi)

theorem Written.find_returns (h : Written calls groups w) {object : List UInt8}
    {entries : List DataBlockIndex} (hentries : List.Forall₂ (Describes object) entries groups)
    (hsize : payloadSize entries < unlimited) {run : List StreamRecordBatch}
    (hrun : Longest StreamRecordBatch.lo StreamRecordBatch.hi (recordsOf calls k) run)
    {start : Nat} (hlaid : Laid StreamRecordBatch.lo StreamRecordBatch.hi start run)
    {startOffset endOffset : UInt64} (hstart : start ≤ startOffset.toNat)
    (hlt : startOffset < endOffset)
    (hend : endOffset.toNat ≤ reach StreamRecordBatch.hi start run) (maxBytes : Nat) :
  ∃ rs, ObjectReader.records object
      (find entries k startOffset endOffset maxBytes).blocks = .ok rs ∧
    Returns run startOffset endOffset maxBytes rs
  := by
  have hpart : run <:+: recordsOf calls k := by
    obtain ⟨u, v, heq, -⟩ := hrun.part
    exact ⟨u, v, heq.symm⟩
  have hcovered : ∀ x, startOffset.toNat ≤ x → x < endOffset.toNat →
      ∃ r ∈ run, r.lo ≤ x ∧ x < r.hi := by
    intro x hx hx'
    exact hlaid.covers (hstart.trans hx) (hx'.trans_le hend)
  have hcontains : ∀ x, startOffset.toNat ≤ x → x < endOffset.toNat →
      ∃ e ∈ entries, Contains k x e := by
    intro x hx hx'
    obtain ⟨r, hr, hrx⟩ := hcovered x hx hx'
    exact h.exists_contains hentries (hpart.subset hr) hrx
  have hlt' := UInt64.lt_iff_toNat_lt.mp hlt
  have hordered := ordered_of_describes hentries h.valid h.sorted
  obtain ⟨p, e, q, t, rfl, hblocks, he, hcontinues, hreach⟩ := find_spec hordered maxBytes
    (hcontains _ (Nat.le_refl _) hlt')
  rw [hblocks]
  obtain ⟨gp, gq, gt, rfl, hfound⟩ := describes_part hentries
  have hvalid : ∀ g ∈ gq, g.call.Valid := fun g hg =>
    h.valid g (mem_append_left _ (mem_append_right _ hg))
  obtain ⟨hrecords, hends⟩ := laid_recordsIn hfound hvalid hcontinues.laid
  have hstream : ∀ g ∈ gq, g.1 = k := by
    intro g hg
    obtain ⟨e', he', hd⟩ := exists_entry hfound hg
    exact hd.streamId.symm.trans (hcontinues.stream e' he')
  have hpart' := h.recordsIn_isInfix hstream
  -- the record at the first offset is in the run and in what was read
  obtain ⟨r, hr, hrx⟩ := hcovered _ (Nat.le_refl _) hlt'
  obtain ⟨r', hr', hrx'⟩ : ∃ r' ∈ recordsIn gq,
      r'.lo ≤ startOffset.toNat ∧ startOffset.toNat < r'.hi := by
    apply hrecords.covers he.2.1
    rw [hends]
    apply Nat.lt_of_lt_of_le he.2.2
    apply (hcontinues.laid.le_reach fun e' he' => ?_).2 e mem_cons_self
    exact (hordered.nonempty e' (mem_append_left _ (mem_append_right _ he'))).le
  obtain rfl : r = r' := eq_of_covers (h.recordsOf_pairwise k) (hpart.subset hr)
    (hpart'.subset hr') hrx hrx'
  have hnodup := nodup_of_pairwise (h.recordsOf_pairwise k) fun x hx => by
    obtain ⟨g, hg, -, hmem⟩ := h.mem_recordsOf.mp hx
    exact ((h.valid g hg).records x hmem).lo_lt_hi
  refine ⟨recordsIn gq, records_describes hfound,
    hrun.isInfix hnodup hpart' ⟨_, hrecords⟩ hr hr', ?_, ⟨r, hr', hrx⟩, fun hmax => ?_⟩
  · obtain ⟨first, rest, hfirst⟩ := exists_cons_of_ne_nil (ne_nil_of_mem hr')
    rw [hfirst] at hrecords ⊢
    refine ⟨first, rfl, ?_⟩
    rw [hrecords.1]
    exact he.2.1
  · have hlast := getLast?_eq_some_getLast (ne_nil_of_mem hr')
    refine ⟨_, hlast, ?_⟩
    have hall := hreach (hmax ▸ hsize) hcontains
    rw [← hends, reach, hlast] at hall
    exact hall

/-- Write records, close the object and read it back. -/
theorem object_roundTrip (blockSizeThreshold partSizeThreshold : Nat) {calls : List Call}
    (hcalls : ∀ c ∈ calls, c.Valid) {w : ObjectWriter}
    (hok : (openWriter blockSizeThreshold partSizeThreshold).writeAll calls = .ok w)
    (hfits : w.Fits) :
  w.close.object.length = w.close.objectSize.toNat ∧
    ∃ info, ObjectReader.basicObjectInfo w.close.object w.close.objectSize = .ok info ∧
      info.indexBlock.Pairwise (fun e e' => e.streamId < e'.streamId ∨
        e.streamId = e'.streamId ∧ e.startOffset < e'.startOffset) ∧
      Laid (fun e : DataBlockIndex => e.startPosition.toNat) (fun e => e.endPosition.toNat) 0
        info.indexBlock ∧
      reach (fun e : DataBlockIndex => e.endPosition.toNat) 0 info.indexBlock =
        info.dataBlockSize.toNat ∧
      ObjectReader.records w.close.object info.indexBlock = .ok (calls.flatMap Prod.snd) ∧
      ∀ k run start, Longest StreamRecordBatch.lo StreamRecordBatch.hi (recordsOf calls k) run →
        Laid StreamRecordBatch.lo StreamRecordBatch.hi start run →
        ∀ startOffset endOffset : UInt64, start ≤ startOffset.toNat → startOffset < endOffset →
          endOffset.toNat ≤ reach StreamRecordBatch.hi start run → ∀ maxBytes,
          ∃ rs, ObjectReader.records w.close.object
              (find info.indexBlock k startOffset endOffset maxBytes).blocks = .ok rs ∧
            Returns run startOffset endOffset maxBytes rs
  := by
  obtain ⟨groups, h⟩ := (written_open blockSizeThreshold partSizeThreshold).writeAll hcalls hok
  rw [nil_append] at h
  obtain ⟨hlength, info, hinfo, hlaid, hreach, hentries⟩ := h.close hfits
  have hordered := ordered_of_describes hentries h.valid h.sorted
  have hsize : payloadSize info.indexBlock < unlimited := by
    have hle := payloadSize_le hentries
    rw [← h.blocks] at hle
    have hlt := hfits.dataSize_lt
    have hmax : unlimited = 2 ^ 64 - 1 := rfl
    omega
  refine ⟨hlength, info, hinfo, ?_, hlaid, hreach, ?_, ?_⟩
  · apply hordered.sorted.imp_of_mem
    rintro e e' he - (hlt | ⟨heq, hends⟩)
    · exact .inl hlt
    · refine .inr ⟨heq, UInt64.lt_iff_toNat_lt.mpr ?_⟩
      exact Nat.lt_of_lt_of_le (hordered.nonempty e he) hends
  · rw [← h.recordsIn_eq]
    exact records_describes hentries
  · intro k run start hrun hlaid startOffset endOffset hstart hlt hend maxBytes
    exact h.find_returns hentries hsize hrun hlaid hstart hlt hend maxBytes

/-- A record of a stream. -/
def sampleRecord (streamId baseOffset : UInt64) (count : Int32) : StreamRecordBatch where
  streamId
  epoch := 0
  baseOffset
  count
  payload := [1, 2, 3]

/-- Two streams. The second call of stream 1 continues the first one. -/
def sampleCalls : List Call :=
  [(1, [sampleRecord 1 0 2, sampleRecord 1 2 1]), (1, [sampleRecord 1 3 4]),
    (7, [sampleRecord 7 10 1])]

theorem sampleCalls_valid :
  ∀ c ∈ sampleCalls, c.Valid
  := by
  simp only [sampleCalls, forall_mem_cons]
  exact ⟨⟨by decide, 0, by decide⟩, ⟨by decide, 3, by decide⟩, ⟨by decide, 10, by decide⟩, nofun⟩

theorem sampleCalls_longest :
  Longest StreamRecordBatch.lo StreamRecordBatch.hi (recordsOf sampleCalls 1)
    [sampleRecord 1 0 2, sampleRecord 1 2 1, sampleRecord 1 3 4]
  := ⟨⟨0, by decide⟩, [], [], by decide, nofun, nofun⟩

/-- With a block for each record, a range that starts in the first one. -/
theorem object_roundTrip_sampleCalls :
  ∃ w, (openWriter 1 0).writeAll sampleCalls = .ok w ∧ w.Fits ∧
    ∃ info, ObjectReader.basicObjectInfo w.close.object w.close.objectSize = .ok info ∧
      ∃ rs, ObjectReader.records w.close.object
          (find info.indexBlock 1 1 5 unlimited).blocks = .ok rs ∧
        Returns [sampleRecord 1 0 2, sampleRecord 1 2 1, sampleRecord 1 3 4] 1 5 unlimited rs
  := by
  obtain ⟨w, hw, hfits⟩ : ∃ w, ((openWriter 1 0).writeAll sampleCalls).toOption = some w ∧
      w.Fits := by
    decide +kernel
  have hok := ok_of_toOption hw
  obtain ⟨-, info, hinfo, -, -, -, -, hfind⟩ := object_roundTrip 1 0 sampleCalls_valid hok hfits
  exact ⟨w, hok, hfits, info, hinfo, hfind 1 _ 0 sampleCalls_longest (by decide) 1 5 (by decide)
    (by decide) (by decide) unlimited⟩

end ObjectWriter

end Object
