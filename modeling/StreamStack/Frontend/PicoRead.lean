import StreamStack.Service.Read

/-!
# The size of answers to reads

A client tells how many bytes it wants, and the frontend bounds this number before it asks the
service. Both loops of the service keep within the bound, a record that is larger on its own apart.
But the service takes zero for no bound, so a client that asks for no bytes gets all of them.
-/

namespace Frontend

open Service Budget List

def maxReadBytes : ℕ := 4 * 1024 * 1024

structure PicoFrontend where
  maxChunkSize : ℕ
  pos : 0 < maxChunkSize

namespace PicoFrontend

def withTuning (maxChunkSize : ℕ) : PicoFrontend :=
  if h : maxChunkSize > 0 then ⟨maxChunkSize, h⟩ else ⟨64 * 1024, by decide⟩

def cap (frontend : PicoFrontend) : ℕ := max frontend.maxChunkSize maxReadBytes

/-- The byte limit that the service is asked with. -/
def maxBytes (frontend : PicoFrontend) (bytes : Option ℕ) : ℕ :=
  match bytes with
  | none => frontend.maxChunkSize
  | some bytes => min bytes frontend.cap

/-- A read of an open stream, with the parameters as they were parsed. -/
def read (frontend : PicoFrontend) (bytes count : Option ℕ) (entry : RegistryEntry)
    (tail : TailCache) (fetch : ℕ → ℕ → ℕ → Except String (List FetchedBatch))
    (start confirmOffset : ℕ) : Except ServiceError ReadResult :=
  readFrom entry tail fetch start confirmOffset (frontend.maxBytes bytes) (count.getD 0)

end PicoFrontend

/-! ### What the loops return -/

def payloadBytes (records : List StreamRecord) : ℕ := (records.map fun r => r.payload.length).sum

/-- The payloads have at most `limit` bytes, or all of them are those of one record. -/
def Bounded (limit : ℕ) (records : List StreamRecord) : Prop :=
  payloadBytes records ≤ limit ∨ ∃ r ∈ records, payloadBytes records = r.payload.length

theorem Bounded.mono {limit limit' : ℕ} {records : List StreamRecord} (h : Bounded limit records)
    (hle : limit ≤ limit') :
  Bounded limit' records
  := h.imp_left fun h => h.trans hle

variable {maxBytes maxRecords : ℕ} {reading : Reading}

/-- A step of the loops offers one record. -/
theorem offer_of_collect {record : StreamRecord} {next : ℕ} {reading' : Reading} {done : Bool}
    (heq : collect maxBytes maxRecords reading record next = (reading', done)) :
  offer (fun r => r.payload.length) maxBytes maxRecords reading.taken record
    = (reading'.taken, done)
  := by
  unfold collect at heq
  unfold offer
  split at heq
  next hover =>
    cases heq
    exact if_pos hover
  next hroom =>
    cases heq
    exact if_neg hroom

theorem takenOf_collectCached (stop : ℕ) (cached : List StreamRecord) (reading : Reading) :
  ∃ records, (takenOf maxBytes maxRecords reading.taken records).1 =
    (collectCached stop maxBytes maxRecords cached reading).taken
  := by
  fun_induction collectCached stop maxBytes maxRecords cached reading with
  | case1 => exact ⟨[], rfl⟩
  | case2 => exact ⟨[], rfl⟩
  | case3 record _ _ _ _ heq => exact ⟨[record], by rw [takenOf, offerAll, offer_of_collect heq]⟩
  | case4 record _ _ _ _ heq ih =>
    obtain ⟨records, hrecords⟩ := ih
    refine ⟨record :: records, ?_⟩
    rw [takenOf, offerAll, offer_of_collect heq]
    exact hrecords

theorem takenOf_collectFrames {start offset : ℕ} {frames : List Bytes} {reading' : Reading}
    {done : Bool}
    (heq : collectFrames start maxBytes maxRecords offset frames reading = (reading', done)) :
  ∃ records, takenOf maxBytes maxRecords reading.taken records = (reading'.taken, done)
  := by
  fun_induction collectFrames start maxBytes maxRecords offset frames reading with
  | case1 =>
    cases heq
    exact ⟨[], rfl⟩
  | case2 _ _ _ _ _ ih => exact ih heq
  | case3 offset frame _ _ _ _ hnext =>
    cases heq
    exact ⟨[⟨offset, frame⟩], by rw [takenOf, offerAll, offer_of_collect hnext]⟩
  | case4 offset frame _ _ _ _ hnext ih =>
    obtain ⟨records, hrecords⟩ := ih heq
    refine ⟨⟨offset, frame⟩ :: records, ?_⟩
    rw [takenOf, offerAll, offer_of_collect hnext]
    exact hrecords

theorem takenOf_collectBatches {start : ℕ} {fetched : List FetchedBatch} {result : Reading}
    (hok : collectBatches start maxBytes maxRecords fetched reading = .ok result) :
  ∃ records, (takenOf maxBytes maxRecords reading.taken records).1 = result.taken
  := by
  fun_induction collectBatches start maxBytes maxRecords fetched reading with
  | case1 =>
    cases hok
    exact ⟨[], rfl⟩
  | case2 => cases hok
  | case3 _ _ _ _ _ _ _ heq =>
    cases hok
    obtain ⟨records, hrecords⟩ := takenOf_collectFrames heq
    exact ⟨records, by rw [hrecords]⟩
  | case4 _ _ _ _ _ _ _ heq ih =>
    obtain ⟨records, hrecords⟩ := takenOf_collectFrames heq
    obtain ⟨rest, hrest⟩ := ih hok
    refine ⟨records ++ rest, ?_⟩
    rw [takenOf_append, hrecords]
    exact hrest
  | case5 fetched _ _ _ _ heq =>
    cases hok
    refine ⟨[⟨fetched.baseOffset, fetched.batch.payload⟩], ?_⟩
    rw [takenOf, offerAll, offer_of_collect heq]
  | case6 fetched _ _ _ _ heq ih =>
    obtain ⟨records, hrecords⟩ := ih hok
    refine ⟨⟨fetched.baseOffset, fetched.batch.payload⟩ :: records, ?_⟩
    rw [takenOf, offerAll, offer_of_collect heq]
    exact hrecords

/-- What a read returns is what its limits allow to take of some records. -/
theorem takenOf_readFrom {entry : RegistryEntry} {tail : TailCache}
    {fetch : ℕ → ℕ → ℕ → Except String (List FetchedBatch)} {start confirmOffset : ℕ}
    {result : ReadResult}
    (h : readFrom entry tail fetch start confirmOffset maxBytes maxRecords = .ok result) :
  ∃ records, (takenOf (limitOf maxBytes) (limitOf maxRecords) .nothing records).1.items
    = result.records
  := by
  unfold readFrom at h
  split at h
  · cases h
  split at h
  · cases h
    exact ⟨[], rfl⟩
  split at h
  next cached _ =>
    cases h
    obtain ⟨records, hrecords⟩ := takenOf_collectCached confirmOffset cached
      ⟨.nothing, (cached.head?.map fun r => r.offset).getD confirmOffset⟩
    exact ⟨records, congrArg Taken.items hrecords⟩
  split at h
  · cases h
  next fetched _ =>
    unfold fetchRecords at h
    cases hreading : collectBatches start (limitOf maxBytes) (limitOf maxRecords) fetched
        ⟨.nothing, start⟩ with
    | error e =>
      rw [hreading] at h
      cases h
    | ok reading =>
      rw [hreading] at h
      cases h
      obtain ⟨records, hrecords⟩ := takenOf_collectBatches hreading
      exact ⟨records, congrArg Taken.items hrecords⟩

/-- A read keeps its limits: of the bytes, a record apart that is larger alone, and of the
records. -/
theorem readFrom_limits {entry : RegistryEntry} {tail : TailCache}
    {fetch : ℕ → ℕ → ℕ → Except String (List FetchedBatch)} {start confirmOffset : ℕ}
    {result : ReadResult}
    (h : readFrom entry tail fetch start confirmOffset maxBytes maxRecords = .ok result) :
  Bounded (limitOf maxBytes) result.records ∧ result.records.length ≤ limitOf maxRecords
  := by
  obtain ⟨records, hrecords⟩ := takenOf_readFrom h
  obtain ⟨_, rfl, -, -, hlength, hsum, hwithin⟩ :=
    takenOf_nothing (limitOf_pos maxBytes) (limitOf_pos maxRecords) records
  rw [hrecords] at hlength hsum
  refine ⟨?_, hlength⟩
  rcases hwithin with hle | ⟨empty, last, hitems, hempty, -⟩
  · exact .inl (hsum.symm.le.trans hle)
  · rw [hrecords] at hitems
    refine .inr ⟨last, by rw [hitems]; exact mem_append_right _ mem_cons_self, ?_⟩
    have hzero : (empty.map fun r => r.payload.length).sum = 0 := by
      rw [sum_eq_zero_iff]
      intro n hn
      obtain ⟨r, hr, rfl⟩ := mem_map.mp hn
      exact hempty r hr
    rw [payloadBytes, hitems, map_append, sum_append, hzero]
    simp

/-! ### Requests -/

theorem PicoFrontend.cap_pos (frontend : PicoFrontend) :
  0 < frontend.cap
  := lt_of_lt_of_le frontend.pos (le_max_left _ _)

theorem limitOf_le_cap (frontend : PicoFrontend) {bytes : Option ℕ} (h : bytes ≠ some 0) :
  limitOf (frontend.maxBytes bytes) ≤ frontend.cap
  := by
  have hpos := frontend.pos
  have hcap := frontend.cap_pos
  cases bytes with
  | none =>
    rw [PicoFrontend.maxBytes, limitOf, if_pos hpos]
    apply le_max_left
  | some bytes =>
    have hbytes : 0 < bytes := Nat.pos_of_ne_zero fun h0 => h (congrArg some h0)
    rw [PicoFrontend.maxBytes, limitOf, if_pos (lt_min hbytes hcap)]
    apply min_le_right

/-- A stream of one record of `n` bytes and a small one. -/
def largeStream (n : ℕ) : List FetchedBatch :=
  [⟨0, 1, ⟨1, replicate n 0⟩⟩, ⟨1, 2, ⟨1, [0]⟩⟩]

/-- Asked for no bytes, the service returns more than the bound in two records. -/
theorem unbounded_of_zero (frontend : PicoFrontend) (h : frontend.cap < usizeMax)
    {count : Option ℕ} (hcount : count ≠ some 1) (entry : RegistryEntry) :
  ∃ result, frontend.read (some 0) count entry .empty
      (fun _ _ _ => .ok (largeStream frontend.cap)) 0 2 = .ok result ∧
    ¬ Bounded frontend.cap result.records
  := by
  have hpos := frontend.cap_pos
  have hcap : ¬ usizeMax ≤ frontend.cap := not_le.mpr h
  have htwo : ¬ limitOf (count.getD 0) ≤ 1 := by
    unfold limitOf
    split
    next hsome =>
      cases count with
      | none => cases hsome
      | some n =>
        have hn : n ≠ 1 := fun hn => hcount (congrArg some hn)
        simp only [Option.getD_some] at hsome ⊢
        omega
    next => decide
  have hzero : limitOf 0 = usizeMax := rfl
  have hnone : (⟨[], 0⟩ : TailCache).tailRecords 0 = none := rfl
  refine ⟨⟨[⟨0, replicate frontend.cap 0⟩, ⟨1, [0]⟩], entry.contentType, 2, true, entry.closed⟩,
    ?_, ?_⟩
  · unfold PicoFrontend.read readFrom
    generalize limitOf (count.getD 0) = maxRecords at htwo
    simp [PicoFrontend.maxBytes, TailCache.empty, hnone, hzero, fetchRecords, largeStream,
      collectBatches, collect, Taken.nothing, Taken.add, Taken.full, hcap, htwo, Reading.result,
      Except.map]
    cases decide (usizeMax ≤ frontend.cap + 1) || decide (maxRecords ≤ 2) with
    | true => rfl
    | false => rfl
  · simp [Bounded, payloadBytes]
    omega

/-- Answers are bounded for all contents of the stream exactly if the client does not ask for zero
bytes, which the service takes for no bound, or asks for one record. -/
theorem reads_bounded_iff (frontend : PicoFrontend) (bytes count : Option ℕ) :
  (∀ entry tail fetch start confirmOffset result,
      frontend.read bytes count entry tail fetch start confirmOffset = .ok result →
        Bounded frontend.cap result.records) ↔
    bytes ≠ some 0 ∨ count = some 1 ∨ usizeMax ≤ frontend.cap
  := by
  constructor
  · intro hall
    by_contra hno
    obtain ⟨rfl, hcount, hcap⟩ : bytes = some 0 ∧ count ≠ some 1 ∧ frontend.cap < usizeMax := by
      simpa [not_or] using hno
    obtain ⟨result, hread, hlarge⟩ := unbounded_of_zero frontend hcap hcount
      ⟨0, "", none, none, false, 0, none, ∅, none⟩
    exact hlarge (hall _ _ _ _ _ _ hread)
  · intro h entry tail fetch start confirmOffset result hread
    obtain ⟨hbounded, hlength⟩ := readFrom_limits hread
    rcases h with hbytes | rfl | hcap
    · exact hbounded.mono (limitOf_le_cap frontend hbytes)
    · match result.records, hlength with
      | [], _ => exact .inl (Nat.zero_le _)
      | [r], _ => exact .inr ⟨r, mem_cons_self, by simp [payloadBytes]⟩
    · apply hbounded.mono
      have hmax : frontend.maxBytes bytes ≤ frontend.cap := by
        cases bytes with
        | none => apply le_max_left
        | some bytes => apply min_le_right
      unfold limitOf
      split
      · exact hmax
      · exact hcap

/-- Asked for zero bytes with the default chunk size, the service returns one byte more than the
bound of four megabytes. -/
theorem zero_bytes_unbounded :
  ∃ result, (PicoFrontend.withTuning 0).read (some 0) none
      ⟨0, "", none, none, false, 0, none, ∅, none⟩ .empty
      (fun _ _ _ => .ok (largeStream (PicoFrontend.withTuning 0).cap)) 0 2 = .ok result ∧
    ¬ Bounded (PicoFrontend.withTuning 0).cap result.records
  := unbounded_of_zero _ (by decide) (by decide) _

end Frontend
