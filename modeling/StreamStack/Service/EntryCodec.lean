import StreamStack.Service.Registry

/-!
# The bytes of registry entries

An entry is stored under its name as a version byte and the fields one after the other, with flags
for what may be absent and the producers at the end behind their number. An entry is read back if
its strings and its producers are not more than their fields can tell, and no part of it is read as
an entry.
-/

namespace Service
namespace RegistryEntry

open Wire ServiceError OrdMap List

/-! ### Encoding -/

def putStr (s : String) : Bytes :=
  putBeI32 (UInt32.ofNat (utf8 s).length).toInt32 ++ utf8 s

def putFlag (b : Bool) : Bytes := putU8 (if b then 1 else 0)

/-- A producer's name with two numbers. -/
def putNamed (id : String) (x y : UInt64) : Bytes :=
  putStr id ++ (putBeI64 x.toInt64 ++ putBeI64 y.toInt64)

def putClosedBy (o : Option ClosedBy) : Bytes :=
  putFlag o.isSome ++ o.elim [] fun c => putNamed c.producerId c.epoch c.seq

def putProducer (e : String × ProducerState) : Bytes := putNamed e.1 e.2.epoch e.2.lastSeq

/-- The fields before the producers, and the number of producers. -/
def putHead (entry : RegistryEntry) : Bytes :=
  putBeI64 entry.streamId.toInt64 ++ (putStr entry.contentType ++
    (putFlag entry.ttlSeconds.isSome ++ (putBeI64 (entry.ttlSeconds.getD 0).toInt64 ++
      (putFlag entry.expiresAtMs.isSome ++ (putBeI64 (entry.expiresAtMs.getD 0) ++
        (putFlag entry.closed ++ (putBeI64 entry.deadlineMs ++ (putStr (entry.lastSeq.getD "") ++
          (putClosedBy entry.closedBy ++
            putBeI32 (UInt32.ofNat entry.producers.size).toInt32)))))))))

def encode (entry : RegistryEntry) : Bytes :=
  putU8 1 ++ (entry.putHead ++ entry.producers.toList.flatMap putProducer)

/-! ### Decoding -/

def truncated : ServiceError := corrupt "registry entry truncated"

def getStr : Get ServiceError String := do
  let len ← getBeI32 truncated
  if len < 0 then fail (corrupt "negative length")
  else do
    let bytes ← take len.toInt.toNat truncated
    (ofUtf8 bytes).elim (fail (corrupt "invalid UTF-8")) pure

def getFlag : Get ServiceError Bool := do
  let b ← getU8 truncated
  return b = 1

def getNumber : Get ServiceError UInt64 := do
  let x ← getBeI64 truncated
  return x.toUInt64

def getClosedBy : Get ServiceError (Option ClosedBy) := do
  let flag ← getFlag
  if flag then do
    let producerId ← getStr
    let epoch ← getNumber
    let seq ← getNumber
    return some { producerId, epoch, seq }
  else return none

def getProducer (producers : OrdMap String ProducerState) :
    Get ServiceError (OrdMap String ProducerState) := do
  let id ← getStr
  let epoch ← getNumber
  let lastSeq ← getNumber
  return producers.insert id { epoch, lastSeq }

/-- The fields of an entry. A negative number of producers is none. -/
def getFields : Get ServiceError RegistryEntry := do
  let streamId ← getNumber
  let contentType ← getStr
  let ttlFlag ← getFlag
  let ttl ← getNumber
  let expiresFlag ← getFlag
  let expires ← getBeI64 truncated
  let closed ← getFlag
  let deadlineMs ← getBeI64 truncated
  let lastSeq ← getStr
  let closedBy ← getClosedBy
  let count ← getBeI32 truncated
  let producers ← iterate count.toInt.toNat getProducer ∅
  return {
    streamId, contentType, closed, deadlineMs, producers, closedBy
    ttlSeconds := if ttlFlag then some ttl else none
    expiresAtMs := if expiresFlag then some expires else none
    lastSeq := if lastSeq.isEmpty then none else some lastSeq }

def getEntry : Get ServiceError RegistryEntry := do
  let version ← getU8 truncated
  if version ≠ 1 then fail (corrupt s!"unknown registry entry version {version}")
  else getFields

/-- What follows an entry is not looked at. -/
def decode (bytes : Bytes) : Except ServiceError RegistryEntry :=
  (getEntry bytes).map Prod.fst

/-! ### Reading back -/

/-- All names have fewer than `n` bytes. -/
def NamesBelow (n : ℕ) (producers : OrdMap String ProducerState) : Prop :=
  ∀ (id : String) (state : ProducerState), producers[id]? = some state → id.utf8ByteSize < n

/-- The strings are not longer than their length field can tell, and no sequence number is empty. -/
structure Encodable (entry : RegistryEntry) : Prop where
  contentType : entry.contentType.utf8ByteSize < 2 ^ 31
  lastSeq : (entry.lastSeq.getD "").utf8ByteSize < 2 ^ 31
  notEmpty : entry.lastSeq ≠ some ""
  closedBy : ∀ c ∈ entry.closedBy, c.producerId.utf8ByteSize < 2 ^ 31
  producers : NamesBelow (2 ^ 31) entry.producers

theorem reads_getStr {s : String} (h : s.utf8ByteSize < 2 ^ 31) :
  Reads getStr (putStr s) s
  := by
  have hlen : (UInt32.ofNat (utf8 s).length).toInt32.toInt = (utf8 s).length :=
    Wal.StreamRecordBatch.toInt_payloadLen h
  have hnonneg : ¬ (UInt32.ofNat (utf8 s).length).toInt32 < 0 := by
    rw [Int32.lt_iff_toInt_lt, hlen]
    simp
  apply (Reads.getBeI32 _ truncated).bind
  rw [if_neg hnonneg, hlen, Int.toNat_natCast]
  apply (Reads.take _ truncated).bind_nil
  rw [ofUtf8_utf8]
  apply Reads.pure

theorem reads_getFlag (b : Bool) :
  Reads getFlag (putFlag b) b
  := by
  have := (Reads.getU8 (if b then 1 else 0) truncated).bind_pure (f := fun x => decide (x = 1))
  cases b with
  | false => exact this
  | true => exact this

theorem reads_getNumber (x : UInt64) :
  Reads getNumber (putBeI64 x.toInt64) x
  := (Reads.getBeI64 x.toInt64 truncated).bind_pure (f := Int64.toUInt64)

theorem reads_getClosedBy {o : Option ClosedBy}
    (h : ∀ c ∈ o, c.producerId.utf8ByteSize < 2 ^ 31) :
  Reads getClosedBy (putClosedBy o) o
  := by
  apply (reads_getFlag o.isSome).bind
  cases o with
  | none => apply Reads.pure
  | some c =>
    apply (reads_getStr (h c rfl)).bind
    apply (reads_getNumber c.epoch).bind
    apply (reads_getNumber c.seq).bind_pure

theorem reads_getProducer (producers : OrdMap String ProducerState) {e : String × ProducerState}
    (h : e.1.utf8ByteSize < 2 ^ 31) :
  Reads (getProducer producers) (putProducer e) (producers.insert e.1 e.2)
  := by
  apply (reads_getStr h).bind
  apply (reads_getNumber e.2.epoch).bind
  apply (reads_getNumber e.2.lastSeq).bind_pure (f := fun seq => producers.insert e.1 ⟨_, seq⟩)

theorem ite_isSome {α : Type} (o : Option α) (d : α) :
  (if o.isSome then some (o.getD d) else none) = o
  := by
  cases o with
  | none => rfl
  | some a => rfl

theorem ite_isEmpty {o : Option String} (h : o ≠ some "") :
  (if (o.getD "").isEmpty then none else some (o.getD "")) = o
  := by
  cases o with
  | none => rfl
  | some s => simpa using h

/-- After its head an entry is read with the producers that are read from what follows, as many as
the head says. -/
theorem reads_getEntry {entry : RegistryEntry} (h : entry.Encodable) {bs : Bytes} {n : ℕ}
    {producers : OrdMap String ProducerState}
    (hn : (UInt32.ofNat entry.producers.size).toInt32.toInt.toNat = n)
    (hbs : Reads (iterate n getProducer ∅) bs producers) :
  Reads getEntry (putU8 1 ++ (entry.putHead ++ bs)) { entry with producers }
  := by
  simp only [putHead, append_assoc]
  apply (Reads.getU8 1 truncated).bind
  rw [if_neg (not_not.mpr rfl)]
  apply (reads_getNumber entry.streamId).bind
  apply (reads_getStr h.contentType).bind
  apply (reads_getFlag entry.ttlSeconds.isSome).bind
  apply (reads_getNumber (entry.ttlSeconds.getD 0)).bind
  apply (reads_getFlag entry.expiresAtMs.isSome).bind
  apply (Reads.getBeI64 (entry.expiresAtMs.getD 0) truncated).bind
  apply (reads_getFlag entry.closed).bind
  apply (Reads.getBeI64 entry.deadlineMs truncated).bind
  apply (reads_getStr h.lastSeq).bind
  apply (reads_getClosedBy h.closedBy).bind
  apply (Reads.getBeI32 _ truncated).bind
  rw [hn]
  apply hbs.bind_nil
  rw [ite_isSome, ite_isSome, ite_isEmpty h.notEmpty]
  apply Reads.pure

/-- The producers that the encoding puts are read back, if their number is told right. -/
theorem reads_encode {entry : RegistryEntry} (h : entry.Encodable)
    (hsize : entry.producers.size < 2 ^ 31) :
  Reads getEntry entry.encode entry
  := by
  apply reads_getEntry h rfl
  have hlen : entry.producers.toList.length = entry.producers.size := Std.ExtTreeMap.length_toList
  have hread := Reads.iterate entry.producers.toList
    (fun s e he => reads_getProducer s (h.producers e.1 e.2
      (Std.ExtTreeMap.mem_toList_iff_getElem?_eq_some.mp he))) ∅
  rw [Wal.StreamRecordBatch.toInt_payloadLen hsize, Int.toNat_natCast, ← hlen]
  rwa [← ofEntries, ofEntries_toList] at hread

theorem decode_encode {entry : RegistryEntry} (h : entry.Encodable)
    (hsize : entry.producers.size < 2 ^ 31) :
  decode entry.encode = .ok entry
  := by
  have hread := reads_encode h hsize []
  rw [append_nil] at hread
  rw [decode, hread]
  rfl

/-! ### What is cut off -/

instance stable_getStr : Stable getStr := by
  have (bytes : Bytes) : Stable ((ofUtf8 bytes).elim (fail (corrupt "invalid UTF-8")) pure) := by
    cases ofUtf8 bytes with
    | none => apply Stable.fail
    | some s => apply Stable.pure
  unfold getStr
  infer_instance

instance stable_getFlag : Stable getFlag := by
  unfold getFlag
  infer_instance

instance stable_getNumber : Stable getNumber := by
  unfold getNumber
  infer_instance

instance stable_getClosedBy : Stable getClosedBy := by
  unfold getClosedBy
  infer_instance

instance stable_getProducer (producers : OrdMap String ProducerState) :
    Stable (getProducer producers) := by
  unfold getProducer
  infer_instance

instance stable_getFields : Stable getFields := by
  unfold getFields
  infer_instance

instance stable_getEntry : Stable getEntry := by
  unfold getEntry
  infer_instance

/-- An entry whose strings and producers fit their fields is read back, and no strict part of its
bytes is read as an entry. -/
theorem decode_encode_of_fits {entry : RegistryEntry} (h : entry.Encodable)
    (hsize : entry.producers.size < 2 ^ 31) :
  decode entry.encode = .ok entry ∧
    ∀ bytes more, more ≠ [] → entry.encode = bytes ++ more → ∃ e, decode bytes = .error e
  := by
  refine ⟨decode_encode h hsize, ?_⟩
  intro bytes more hmore heq
  cases hpart : getEntry bytes with
  | error e => exact ⟨e, congrArg (Except.map Prod.fst) hpart⟩
  | ok r =>
    -- the bytes read so far would be read from the whole encoding, with `more` left over
    have hread := reads_encode h hsize []
    obtain ⟨bs, rfl, hbs⟩ := Stable.exact bytes r.1 r.2 hpart
    rw [append_nil, heq, append_assoc, hbs] at hread
    have hrest := (Prod.mk.inj (Except.ok.inj hread)).2
    exact absurd (append_eq_nil_iff.mp hrest).2 hmore

/-- There are as many names as one likes, shorter than their number. -/
theorem exists_producers (n : ℕ) :
  ∃ m : OrdMap String ProducerState, m.size = n ∧ NamesBelow n m
  := by
  have hname (n : ℕ) : ∃ s : String, s.utf8ByteSize = n := by
    induction n with
    | zero => exact ⟨"", rfl⟩
    | succ n ih =>
      obtain ⟨s, rfl⟩ := ih
      exact ⟨s.push 'a', String.utf8ByteSize_push⟩
  induction n with
  | zero => exact ⟨∅, rfl, by simp [NamesBelow]⟩
  | succ n ih =>
    obtain ⟨m, hsize, hm⟩ := ih
    obtain ⟨s, hs⟩ := hname n
    -- the new name is longer than all before it
    have hnew : ¬ m.contains s = true := by
      intro hmem
      obtain ⟨state, hstate⟩ := (mem_iff_lookup m s).mp hmem
      exact absurd (hm s state hstate) (by omega)
    refine ⟨m.insert s ⟨0, 0⟩, ?_, forall_insert (by omega) fun id state hid => ?_⟩
    · rw [Std.ExtTreeMap.size_insert, if_neg hnew, hsize]
    · exact (hm id state hid).trans (Nat.lt_succ_self n)

/-- A closed entry with a lifetime. -/
def closedEntry (producers : OrdMap String ProducerState) : RegistryEntry where
  streamId := 7
  contentType := "text/plain"
  ttlSeconds := some 60
  expiresAtMs := none
  closed := true
  deadlineMs := 60000
  lastSeq := some "b"
  closedBy := some ⟨"p", 1, 2⟩
  producers

theorem encodable_closedEntry {producers : OrdMap String ProducerState}
    (h : NamesBelow (2 ^ 31) producers) :
  (closedEntry producers).Encodable
  where
  contentType := by change "text/plain".utf8ByteSize < _; decide
  lastSeq := by change "b".utf8ByteSize < _; decide
  notEmpty := by simp [closedEntry]
  closedBy := by rintro c ⟨⟩; decide
  producers := h

theorem decode_encode_closedEntry :
  decode (closedEntry (ofEntries [("p", ⟨1, 2⟩)])).encode =
    .ok (closedEntry (ofEntries [("p", ⟨1, 2⟩)]))
  := by
  have hnames : NamesBelow (2 ^ 31) (ofEntries [("p", ⟨1, 2⟩)]) := by
    intro id state hid
    rcases lookup_insert_cases hid with ⟨rfl, -⟩ | ⟨-, hid⟩
    · decide
    · simp at hid
  exact (decode_encode_of_fits (encodable_closedEntry hnames) (by decide)).1

/-- As many producers as their number cannot tell are dropped. -/
theorem encode_drops_producers :
  ∃ entry : RegistryEntry, entry.Encodable ∧ entry.producers.size = 2 ^ 31 ∧
    decode entry.encode = .ok { entry with producers := ∅ }
  := by
  obtain ⟨m, hsize, hm⟩ := exists_producers (2 ^ 31)
  have hfits := encodable_closedEntry hm
  have hn : (UInt32.ofNat (closedEntry m).producers.size).toInt32.toInt.toNat = 0 := by
    rw [show (closedEntry m).producers.size = 2 ^ 31 from hsize]
    decide
  have hread := reads_getEntry hfits hn (Reads.pure ∅) (m.toList.flatMap putProducer)
  rw [append_nil, append_assoc] at hread
  refine ⟨closedEntry m, hfits, hsize, ?_⟩
  apply congrArg (Except.map Prod.fst) hread

end RegistryEntry
end Service
