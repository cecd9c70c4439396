import StreamStack.Lib.OrdMap
import StreamStack.Lib.Spans
import StreamStack.Wal.Codec

/-!
# Recovery of the log

Recovery lists the objects of the log, orders them by epoch and start offset, drops the first one
when it overlaps an object of another epoch, and takes the trim offset from the header of the last
one. It then reads the run of objects that starts with the first object ending beyond the trim
offset and goes on as long as each object starts where the one before it ends, and yields the
records of the run above the trim offset. The records that trimming appends for its own use are
skipped. Objects are read ahead of the record that is decoded.
-/

namespace Wal

open OrdMap Spans List WalObjectHeader

/-- The stream id and the epoch of the records that trimming appends. -/
def trimRecordSentinel : UInt64 := 0xFFFFFFFFFFFFFFFF

/-! ### Listings -/

/-- A log object as a listing shows it. -/
structure WalObject where
  epoch : Nat
  startOffset : Nat
  endOffset : Nat
  size : Nat
deriving DecidableEq, Repr

/-- The order of objects: by epoch, then by start offset. -/
def WalObject.le (a b : WalObject) : Bool :=
  a.epoch < b.epoch ∨ (a.epoch = b.epoch ∧ a.startOffset ≤ b.startOffset)

def parseWalObjects (listed : List WalObject) : List WalObject := listed.mergeSort WalObject.le

/-- The objects without those that overlap an object of another epoch, and those. Only the first
object is ever considered for removal, once for each object that it overlaps. -/
def skipOverlapObjects (objects : List WalObject) : List WalObject × List WalObject :=
  match objects with
  | [] => ([], [])
  | last :: rest =>
    let overlap := rest.filterMap fun object =>
      if last.epoch ≠ object.epoch ∧ last.endOffset > object.startOffset then some last else none
    (overlap.foldl List.erase objects, overlap)

def discoverWalObjects (listed : List WalObject) : List WalObject :=
  (skipOverlapObjects (parseWalObjects listed)).1

/-- The objects that are kept are listed ones, in the order of the listing. -/
theorem discoverWalObjects_sublist (listed : List WalObject) :
  (discoverWalObjects listed).Sublist (parseWalObjects listed)
  := by
  have herase (overlap objects : List WalObject) :
      (overlap.foldl List.erase objects).Sublist objects := by
    induction overlap generalizing objects with
    | nil => exact List.Sublist.refl _
    | cons o overlap ih => exact (ih _).trans erase_sublist
  unfold discoverWalObjects skipOverlapObjects
  split
  next hnil => exact nil_sublist _
  next last rest hcons => apply herase

variable {o : WalObject}

theorem mem_of_mem_overlaps {listed : List WalObject}
    (h : o ∈ (skipOverlapObjects (parseWalObjects listed)).2) :
  o ∈ listed
  := by
  apply (mergeSort_perm listed WalObject.le).mem_iff.mp
  change o ∈ parseWalObjects listed
  revert h
  unfold skipOverlapObjects
  split
  next => exact fun h => absurd h not_mem_nil
  next last rest hcons =>
    intro h
    obtain ⟨other, -, heq⟩ := mem_filterMap.mp h
    rw [← Option.some.inj (Option.ite_none_right_eq_some.mp heq).2, hcons]
    exact mem_cons_self

theorem mem_of_mem_discoverWalObjects {listed : List WalObject} (h : o ∈ discoverWalObjects listed) :
  o ∈ listed
  := (mergeSort_perm listed WalObject.le).mem_iff.mp ((discoverWalObjects_sublist listed).subset h)

/-! ### The run of objects -/

/-- The objects up to the first that does not start where the one before it ends. -/
def takeContinuous : List WalObject → List WalObject
  | [] => []
  | [o] => [o]
  | o :: p :: rest =>
    if p.startOffset ≠ o.endOffset then [o] else o :: takeContinuous (p :: rest)

def getContinuousFromTrimOffset (objects : List WalObject) (trimOffset : Int) : List WalObject :=
  takeContinuous (objects.dropWhile fun o => (o.endOffset : Int) ≤ trimOffset)

/-! ### Reading -/

section

variable (crc32 : List UInt8 → UInt32) (storage : WalObject → List UInt8)

/-- The bytes of an object up to an offset. -/
def rangeRead (o : WalObject) (limit : Nat) : List UInt8 := (storage o).take limit

def getTrimOffset (objects : List WalObject) : Except WalError Int :=
  match objects.getLast? with
  | none => .ok trimOffsetNone
  | some o =>
    (unmarshal (rangeRead storage o (min maxWalHeaderSize o.size))).map
      fun header => header.trimOffset.toInt

/-- A record with its position: the epoch that wrote it, its offset and its size. -/
structure RecoverResult where
  record : StreamRecordBatch
  epoch : Nat
  offset : Nat
  size : Nat
deriving DecidableEq, Repr

/-- The recovery cursor: the objects still to be read, what is read ahead of them, and the rest of
the object that is being decoded. -/
structure RecoverIterator where
  maxReadaheadDataSize : Nat
  trimOffset : Int
  objects : List WalObject
  readahead : List (List UInt8)
  readaheadDataSize : Nat
  data : List UInt8
  startOffsetToEpoch : OrdMap Nat Nat

/-- The start offset of the first object of each epoch, over all objects. -/
def epochIndex (allObjects : List WalObject) : OrdMap Nat Nat :=
  (allObjects.foldl
    (fun (acc : OrdMap Nat Nat × Option Nat) o =>
      if acc.2 = some o.epoch then acc else (acc.1.insert o.startOffset o.epoch, some o.epoch))
    (∅, none)).1

/-- The epoch of the last start offset that is not above an offset. -/
def epochAt (index : OrdMap Nat Nat) (offset : Nat) : Option Nat :=
  ((index.toList.filter fun e => e.1 ≤ offset).getLast?).map Prod.snd

namespace RecoverIterator

def hasNext0 (it : RecoverIterator) : Bool :=
  !it.data.isEmpty || !it.readahead.isEmpty || !it.objects.isEmpty

def loadNextBuffer (it : RecoverIterator) : Except WalError RecoverIterator :=
  match it.readahead with
  | [] => .error (.recovery "no prefetched buffer")
  | buffer :: readahead => do
      let header ← unmarshal buffer
      return { it with
        readahead
        readaheadDataSize := it.readaheadDataSize - buffer.length
        data := buffer.drop header.size }

/-- Read objects as long as less than the limit is read ahead. -/
def readAheadLoop (limit : Nat) (readahead : List (List UInt8)) (size : Nat) :
    List WalObject → List (List UInt8) × Nat × List WalObject
  | [] => (readahead, size, [])
  | o :: rest =>
    if size < limit then
      readAheadLoop limit (readahead ++ [rangeRead storage o o.size]) (size + o.size) rest
    else (readahead, size, o :: rest)

def tryReadAhead (it : RecoverIterator) : RecoverIterator :=
  let (readahead, readaheadDataSize, objects) :=
    readAheadLoop storage it.maxReadaheadDataSize it.readahead it.readaheadDataSize it.objects
  { it with readahead, readaheadDataSize, objects }

/-- The body of a record may go on in the next object. -/
def takeBody (it : RecoverIterator) (length : Nat) :
    Except WalError (List UInt8 × RecoverIterator) :=
  if it.data.length < length then do
    let partMissing : WalError :=
      .recovery "[Bug] There is a record part but no more data to read."
    if it.readahead.isEmpty ∧ it.objects.isEmpty then .error partMissing
    else
      let next ← it.loadNextBuffer
      let need := length - it.data.length
      if next.data.length < need then .error partMissing
      else return (it.data ++ next.data.take need, { next with data := next.data.drop need })
  else .ok (it.data.take length, { it with data := it.data.drop length })

/-- Decode the record at the front of the data. -/
def readRecord (it : RecoverIterator) : Except WalError (RecoverResult × RecoverIterator) :=
  if it.data.length < walRecordHeaderSize then .error (.recovery "record header truncated")
  else do
    let header ← (WalRecordHeader.unmarshal crc32 (it.data.take walRecordHeaderSize)).mapError
      WalError.codec
    if header.magic ≠ recordDataMagic then
      .error (.recovery "Invalid magic code in record header.")
    else
      let length := header.bodyLength.toNat
      let (body, it) ← { it with data := it.data.drop walRecordHeaderSize }.takeBody length
      if header.bodyCrc ≠ walCrc32 crc32 body then
        .error (.recovery "Record body crc check failed.")
      else
        let offset := header.bodyOffset.toNat - walRecordHeaderSize
        let (record, _) ← (StreamRecordBatch.parse body).mapError WalError.codec
        match epochAt it.startOffsetToEpoch offset with
        | none => .error (.recovery "[BUG] Cannot find any epoch for offset")
        | some epoch => return (⟨record, epoch, offset, length + walRecordHeaderSize⟩, it)

/-- The next object is loaded when the data is used up, and objects are read ahead. -/
def fetch (it : RecoverIterator) : Except WalError RecoverIterator := do
  let it ← if it.data.isEmpty then it.loadNextBuffer else .ok it
  return it.tryReadAhead storage

def next0 (it : RecoverIterator) : Except WalError (RecoverResult × RecoverIterator) := do
  let it ← it.fetch storage
  it.readRecord crc32

/-- Records at or below the trim offset and those of trimming are not yielded. -/
def yields (trimOffset : Int) (r : RecoverResult) : Bool :=
  !(decide ((r.offset : Int) ≤ trimOffset) ||
    (r.record.streamId = trimRecordSentinel && r.record.epoch = trimRecordSentinel))

/-- All records that are yielded, and the error that ends the recovery. -/
def collect : Nat → RecoverIterator → Option (List RecoverResult × Option WalError)
  | 0, _ => none
  | fuel + 1, it =>
    if it.hasNext0 then
      match it.next0 crc32 storage with
      | .error e => some ([], some e)
      | .ok (r, next) =>
        (collect fuel next).map fun (rs, e) =>
          (if yields it.trimOffset r then r :: rs else rs, e)
    else some ([], none)

def new (allObjects : List WalObject) (maxReadaheadDataSize : Nat) :
    Except WalError RecoverIterator := do
  let trimOffset ← getTrimOffset storage allObjects
  let it : RecoverIterator := {
    maxReadaheadDataSize
    trimOffset
    objects := getContinuousFromTrimOffset allObjects trimOffset
    readahead := []
    readaheadDataSize := 0
    data := []
    startOffsetToEpoch := epochIndex allObjects }
  return it.tryReadAhead storage

end RecoverIterator

/-- The whole recovery. There is at most one record for each byte. -/
def recoverStream (objects : List WalObject) (maxReadaheadDataSize : Nat) :
    Option (List RecoverResult × Option WalError) :=
  match RecoverIterator.new storage objects maxReadaheadDataSize with
  | .error e => some ([], some e)
  | .ok it => it.collect crc32 storage ((objects.map WalObject.size).sum + 1)

/-! ### What recovery yields -/

/-- What the writer puts into an object: a header of the current version and at least one record,
each of a size and at an offset that fit the fields of its frame. -/
structure ObjectData.Valid (o : ObjectData) : Prop where
  magic : o.header.magic = walHeaderMagicV1
  nonempty : o.frames ≠ []
  size : ∀ f ∈ o.frames, f.record.encoded.length < 2 ^ 31
  offset : ∀ f ∈ o.frames, f.offset + walRecordHeaderSize < 2 ^ 64

/-- An object of a listing holds the data. -/
structure Holds (data : WalObject → ObjectData) (o : WalObject) : Prop where
  bytes : storage o = (data o).bytes crc32
  size : o.size = (storage o).length
  valid : (data o).Valid

/-- A frame as it is recovered. -/
def Frame.result (epoch : Nat) (f : Frame) : RecoverResult := ⟨f.record, epoch, f.offset, f.size⟩

/-- The results of frames, each with the epoch of its offset. -/
def results (index : OrdMap Nat Nat) (frames : List Frame) : List RecoverResult :=
  frames.filterMap fun f => (epochAt index f.offset).map f.result

/-- The cursor stands before some frames of an object and some objects. -/
structure Before (it : RecoverIterator) (frames : List Frame) (objects : List WalObject) : Prop where
  data : it.data = frames.flatMap (Frame.bytes crc32)
  ahead : ∃ read rest, objects = read ++ rest ∧
    it.readahead = read.map (fun o => rangeRead storage o o.size) ∧ it.objects = rest ∧
    it.readaheadDataSize = (read.map WalObject.size).sum ∧ (read = [] → rest = [])

variable {crc32 storage} {data : WalObject → ObjectData}

theorem Holds.read (h : Holds crc32 storage data o) :
  rangeRead storage o o.size = (data o).bytes crc32
  := by
  rw [rangeRead, h.size, take_length, h.bytes]

namespace RecoverIterator

variable {it : RecoverIterator} {frames : List Frame} {objects : List WalObject} {f : Frame}

variable (storage) in
theorem readAheadLoop_spec (limit : Nat) (read rest : List WalObject) :
  ∃ read' rest', read ++ rest = read' ++ rest' ∧
    readAheadLoop storage limit (read.map fun o => rangeRead storage o o.size)
      (read.map WalObject.size).sum rest
      = (read'.map (fun o => rangeRead storage o o.size), (read'.map WalObject.size).sum, rest') ∧
    (0 < limit → read' = [] → rest' = [])
  := by
  induction rest generalizing read with
  | nil => exact ⟨read, [], rfl, rfl, fun _ _ => rfl⟩
  | cons o rest ih =>
    by_cases hlimit : (read.map WalObject.size).sum < limit
    · obtain ⟨read', rest', hsplit, hloop, hlast⟩ := ih (read ++ [o])
      refine ⟨read', rest', ?_, ?_, hlast⟩
      · rw [← hsplit, append_assoc]
        rfl
      · rw [readAheadLoop, if_pos hlimit, ← hloop]
        simp
    · refine ⟨read, o :: rest, rfl, ?_, ?_⟩
      · rw [readAheadLoop, if_neg hlimit]
      · rintro hpos rfl
        exact absurd hpos hlimit

theorem before_tryReadAhead (hpos : 0 < it.maxReadaheadDataSize)
    (hdata : it.data = frames.flatMap (Frame.bytes crc32)) {read rest : List WalObject}
    (hread : it.readahead = read.map (fun o => rangeRead storage o o.size))
    (hrest : it.objects = rest) (hsize : it.readaheadDataSize = (read.map WalObject.size).sum) :
  Before crc32 storage (it.tryReadAhead storage) frames (read ++ rest)
  := by
  obtain ⟨read', rest', hsplit, hloop, hlast⟩ :=
    readAheadLoop_spec storage it.maxReadaheadDataSize read rest
  constructor
  · exact hdata
  · refine ⟨read', rest', hsplit, ?_⟩
    rw [tryReadAhead, hread, hrest, hsize, hloop]
    exact ⟨rfl, rfl, rfl, hlast hpos⟩

/-- The next object is loaded. -/
theorem loadNextBuffer_spec (ho : Holds crc32 storage data o) {readahead : List (List UInt8)}
    (hread : it.readahead = rangeRead storage o o.size :: readahead) :
  it.loadNextBuffer = .ok { it with
    readahead
    readaheadDataSize := it.readaheadDataSize - o.size
    data := (data o).frames.flatMap (Frame.bytes crc32) }
  := by
  have hlen : (rangeRead storage o o.size).length = o.size := by
    rw [rangeRead, ho.size, take_length]
  have hdrop : ((data o).bytes crc32).drop (data o).header.size
      = (data o).frames.flatMap (Frame.bytes crc32) := by
    rw [WalObjectHeader.size, if_pos ho.valid.magic,
      ← length_marshal ho.valid.magic, ObjectData.bytes, drop_left]
  simp only [loadNextBuffer, hread]
  rw [hlen, ho.read, ObjectData.bytes, unmarshal_marshal ho.valid.magic]
  simp only [bind, Except.bind, pure, Except.pure]
  rw [← ObjectData.bytes, hdrop]

/-- After the next object is loaded, if need be, the cursor stands before the same frames, and there
is one at the front of the data. -/
theorem fetch_spec (hpos : 0 < it.maxReadaheadDataSize)
    (hobjects : ∀ o ∈ objects, Holds crc32 storage data o)
    (h : Before crc32 storage it frames objects) (hmore : frames ≠ [] ∨ objects ≠ []) :
  ∃ next f rest objects', it.fetch storage = .ok next ∧
    Before crc32 storage next (f :: rest) objects' ∧ objects' ⊆ objects ∧
    f :: rest ++ objects'.flatMap (fun o => (data o).frames)
      = frames ++ objects.flatMap (fun o => (data o).frames) ∧
    next.maxReadaheadDataSize = it.maxReadaheadDataSize ∧ next.trimOffset = it.trimOffset ∧
    next.startOffsetToEpoch = it.startOffsetToEpoch
  := by
  obtain ⟨hdata, read, rest, hsplit, hread, hrest, hsize, hlast⟩ := h
  cases frames with
  | cons f tail =>
    have hdata' : it.data.isEmpty = false := by
      have hlong : 0 < it.data.length := by
        rw [hdata, flatMap_cons, length_append, Frame.length_bytes, Frame.size,
          walRecordHeaderSize]
        omega
      rw [isEmpty_eq_false_iff_exists_mem]
      exact exists_mem_of_length_pos hlong
    refine ⟨it.tryReadAhead storage, f, tail, objects, ?_, ?_, List.Subset.refl _, rfl, rfl, rfl,
      rfl⟩
    · simp [fetch, hdata', bind, Except.bind, pure, Except.pure]
    · rw [hsplit]
      exact before_tryReadAhead hpos hdata hread hrest hsize
  | nil =>
    -- something is read ahead: the first of the objects
    have hne : objects ≠ [] := hmore.resolve_left (fun hnil => hnil rfl)
    cases read with
    | nil =>
      rw [hlast rfl] at hsplit
      exact absurd hsplit hne
    | cons o read =>
      have ho : Holds crc32 storage data o := by
        apply hobjects
        rw [hsplit]
        exact mem_cons_self
      obtain ⟨f, tail, hframes⟩ := exists_cons_of_ne_nil ho.valid.nonempty
      have hempty : it.data.isEmpty = true := by
        rw [hdata]
        rfl
      have hload := loadNextBuffer_spec ho hread
      refine ⟨tryReadAhead storage { it with
        readahead := read.map fun o => rangeRead storage o o.size
        readaheadDataSize := it.readaheadDataSize - o.size
        data := (data o).frames.flatMap (Frame.bytes crc32) }, f, tail, read ++ rest, ?_, ?_, ?_,
        ?_, rfl, rfl, rfl⟩
      · rw [fetch, if_pos hempty, hload]
        rfl
      · apply before_tryReadAhead
        · exact hpos
        · rw [← hframes]
        · rfl
        · exact hrest
        · rw [hsize, map_cons, sum_cons]
          exact Nat.add_sub_cancel_left _ _
      · rw [hsplit]
        exact subset_cons_self _ _
      · rw [hsplit, ← hframes]
        rfl

/-- A body that is whole in the data is taken from it. -/
theorem takeBody_spec {body rest : List UInt8} (h : it.data = body ++ rest) :
  it.takeBody body.length = .ok (body, { it with data := rest })
  := by
  have hbody : ¬ it.data.length < body.length := by
    rw [h, length_append]
    omega
  rw [takeBody, if_neg hbody, h, take_left, drop_left]

/-- The frame at the front of the data is decoded. -/
theorem readRecord_spec {epoch : Nat} (h : Before crc32 storage it (f :: frames) objects)
    (hlen : f.record.encoded.length < 2 ^ 31) (hoffset : f.offset + walRecordHeaderSize < 2 ^ 64)
    (hepoch : epochAt it.startOffsetToEpoch f.offset = some epoch) :
  ∃ next, it.readRecord crc32 = .ok (f.result epoch, next) ∧
    Before crc32 storage next frames objects ∧
    next.maxReadaheadDataSize = it.maxReadaheadDataSize ∧ next.trimOffset = it.trimOffset ∧
    next.startOffsetToEpoch = it.startOffsetToEpoch
  := by
  refine ⟨{ it with data := frames.flatMap (Frame.bytes crc32) }, ?_, ⟨rfl, h.ahead⟩, rfl, rfl, rfl⟩
  have hdata : it.data = (f.header crc32).marshal crc32 ++
      (f.record.encoded ++ frames.flatMap (Frame.bytes crc32)) := by
    rw [h.data, flatMap_cons, Frame.bytes, append_assoc]
  have hheader : ((f.header crc32).marshal crc32).length = walRecordHeaderSize :=
    WalRecordHeader.length_marshal crc32 _
  have hlong : ¬ it.data.length < walRecordHeaderSize := by
    rw [hdata, length_append, hheader]
    omega
  have htake : it.data.take walRecordHeaderSize = (f.header crc32).marshal crc32 := by
    rw [hdata, ← hheader, take_left]
  have hdrop : it.data.drop walRecordHeaderSize
      = f.record.encoded ++ frames.flatMap (Frame.bytes crc32) := by
    rw [hdata, ← hheader, drop_left]
  have hunmarshal := WalRecordHeader.unmarshal_marshal crc32 (h := f.header crc32) rfl []
  rw [append_nil] at hunmarshal
  have hbodyOffset : (f.header crc32).bodyOffset.toNat = f.offset + walRecordHeaderSize := by
    simp [Frame.header, WalRecordHeader.data]
    omega
  have hbody : takeBody { it with data := it.data.drop walRecordHeaderSize } f.record.encoded.length
      = .ok (f.record.encoded, { it with data := frames.flatMap (Frame.bytes crc32) }) :=
    takeBody_spec hdrop
  have hmagic : ¬ (f.header crc32).magic ≠ recordDataMagic := fun hne => hne rfl
  have hcrc : ¬ (f.header crc32).bodyCrc ≠ walCrc32 crc32 f.record.encoded := fun hne => hne rfl
  simp only [readRecord, if_neg hlong, htake, hunmarshal, Except.mapError, bind, Except.bind,
    if_neg hmagic, Frame.toNat_bodyLength crc32 hlen, hbody, if_neg hcrc, Frame.parse_body hlen,
    hbodyOffset, Nat.add_sub_cancel, hepoch]
  rfl

/-- There is a next record exactly as long as frames or objects are left. -/
theorem hasNext0_iff (h : Before crc32 storage it frames objects) :
  it.hasNext0 = true ↔ frames ≠ [] ∨ objects ≠ []
  := by
  obtain ⟨hdata, read, rest, hsplit, hread, hrest, -, -⟩ := h
  have hframes : it.data = [] ↔ frames = [] := by
    rw [hdata]
    cases frames with
    | nil => simp
    | cons f tail =>
      have hlong : (f.bytes crc32).length ≠ 0 := by
        rw [Frame.length_bytes, Frame.size, walRecordHeaderSize]
        omega
      have hne : f.bytes crc32 ≠ [] := fun hnil => hlong (by rw [hnil]; rfl)
      simp [hne]
  have hobjects : objects = [] ↔ it.readahead = [] ∧ it.objects = [] := by
    rw [hsplit, hread, hrest]
    simp
  simp only [hasNext0, Bool.or_eq_true, Bool.not_eq_true', isEmpty_eq_false_iff, ne_eq,
    hframes, hobjects]
  tauto

/-- All frames that are left are decoded, in their order. -/
theorem collect_spec {fuel : Nat} (hpos : 0 < it.maxReadaheadDataSize)
    (hobjects : ∀ o ∈ objects, Holds crc32 storage data o)
    (h : Before crc32 storage it frames objects)
    (hsize : ∀ f ∈ frames, f.record.encoded.length < 2 ^ 31)
    (hoffset : ∀ f ∈ frames, f.offset + walRecordHeaderSize < 2 ^ 64)
    (hepoch : ∀ f ∈ frames ++ objects.flatMap (fun o => (data o).frames),
      ∃ epoch, epochAt it.startOffsetToEpoch f.offset = some epoch)
    (hfuel : (frames ++ objects.flatMap (fun o => (data o).frames)).length < fuel) :
  it.collect crc32 storage fuel = some
    ((results it.startOffsetToEpoch (frames ++ objects.flatMap fun o => (data o).frames)).filter
      (yields it.trimOffset), none)
  := by
  induction fuel generalizing it frames objects with
  | zero => exact absurd hfuel (Nat.not_lt_zero _)
  | succ fuel ih =>
    by_cases hmore : frames ≠ [] ∨ objects ≠ []
    · rw [collect, if_pos ((hasNext0_iff h).mpr hmore)]
      obtain ⟨next, f, rest, objects', hfetch, hbefore, hsub, hsame, hmax, htrim, hindex⟩ :=
        fetch_spec hpos hobjects h hmore
      -- the frames at the front are of the data before, or of the object that was loaded
      have hfront : ∀ g ∈ f :: rest, g.record.encoded.length < 2 ^ 31 ∧
          g.offset + walRecordHeaderSize < 2 ^ 64 := by
        intro g hg
        have hmem : g ∈ frames ++ objects.flatMap (fun o => (data o).frames) := by
          rw [← hsame]
          exact mem_append_left _ hg
        rcases mem_append.mp hmem with hmem | hmem
        · exact ⟨hsize g hmem, hoffset g hmem⟩
        · obtain ⟨o, ho, hgo⟩ := mem_flatMap.mp hmem
          exact ⟨(hobjects o ho).valid.size g hgo, (hobjects o ho).valid.offset g hgo⟩
      rw [← hsame] at hepoch hfuel ⊢
      obtain ⟨epoch, hf⟩ := hepoch f (mem_append_left _ mem_cons_self)
      obtain ⟨hlen, hoff⟩ := hfront f mem_cons_self
      obtain ⟨last, hrecord, hafter, hmax', htrim', hindex'⟩ :=
        readRecord_spec hbefore hlen hoff (hindex ▸ hf)
      have hrest := ih (by rw [hmax', hmax]; exact hpos) (fun o ho => hobjects o (hsub ho)) hafter
        (fun g hg => (hfront g (mem_cons_of_mem f hg)).1)
        (fun g hg => (hfront g (mem_cons_of_mem f hg)).2)
        (by
          intro g hg
          rw [hindex', hindex]
          exact hepoch g (mem_cons_of_mem f hg))
        (by
          rw [cons_append, length_cons] at hfuel
          omega)
      simp only [next0, hfetch, bind, Except.bind, hrecord, hrest, Option.map_some, htrim', htrim,
        hindex', hindex]
      have hcons : results it.startOffsetToEpoch (f :: (rest ++ objects'.flatMap fun o =>
          (data o).frames)) = f.result epoch :: results it.startOffsetToEpoch
            (rest ++ objects'.flatMap fun o => (data o).frames) := by
        rw [results, filterMap_cons, hf]
        rfl
      rw [cons_append, hcons, filter_cons]
    · rw [collect, if_neg (fun hnext => hmore ((hasNext0_iff h).mp hnext))]
      obtain ⟨rfl, rfl⟩ : frames = [] ∧ objects = [] := by
        simpa using hmore
      rfl

end RecoverIterator

/-- The trim offset in the header of the last object. -/
def trimOf (data : WalObject → ObjectData) (objects : List WalObject) : Int :=
  (objects.getLast?).elim trimOffsetNone fun o => (data o).header.trimOffset.toInt

theorem getTrimOffset_spec {objects : List WalObject}
    (hobjects : ∀ o ∈ objects, Holds crc32 storage data o) :
  getTrimOffset storage objects = .ok (trimOf data objects)
  := by
  unfold getTrimOffset trimOf
  cases hlast : objects.getLast? with
  | none => rfl
  | some o =>
    have ho := hobjects o (mem_of_getLast? hlast)
    have hheader : ((data o).header.marshal).length = walHeaderSizeV1 :=
      length_marshal ho.valid.magic
    have hmin : min maxWalHeaderSize o.size = ((data o).header.marshal).length := by
      rw [ho.size, ho.bytes, ObjectData.bytes, length_append, hheader]
      exact Nat.min_eq_left (Nat.le_add_right _ _)
    have hread : rangeRead storage o (min maxWalHeaderSize o.size) = (data o).header.marshal := by
      rw [rangeRead, hmin, ho.bytes, ObjectData.bytes, take_left]
    have hunmarshal := unmarshal_marshal ho.valid.magic []
    rw [append_nil] at hunmarshal
    simp only [hread, hunmarshal]
    rfl

theorem takeContinuous_sublist (objects : List WalObject) :
  (takeContinuous objects).Sublist objects
  := by
  induction objects with
  | nil => exact List.Sublist.refl _
  | cons o rest ih =>
    cases rest with
    | nil => exact List.Sublist.refl _
    | cons p rest =>
      rw [takeContinuous]
      split
      next => exact (nil_sublist _).cons_cons o
      next => exact ih.cons_cons o

theorem getContinuousFromTrimOffset_sublist (objects : List WalObject) (trimOffset : Int) :
  (getContinuousFromTrimOffset objects trimOffset).Sublist objects
  := (takeContinuous_sublist _).trans (dropWhile_sublist _)

/-- An object has at least as many bytes as records. -/
theorem Holds.length_frames_le (h : Holds crc32 storage data o) :
  (data o).frames.length ≤ o.size
  := by
  have hframes (frames : List Frame) :
      frames.length ≤ (frames.flatMap (Frame.bytes crc32)).length := by
    induction frames with
    | nil => exact Nat.le_refl _
    | cons f frames ih =>
      rw [flatMap_cons, length_append, Frame.length_bytes, Frame.size,
        walRecordHeaderSize, length_cons]
      omega
  rw [h.size, h.bytes, ObjectData.bytes, length_append]
  exact (hframes _).trans (Nat.le_add_left _ _)

/-- Recovery yields the records of the run of objects above the trim offset, without an error. -/
theorem recoverStream_spec {objects : List WalObject} {maxReadaheadDataSize : Nat}
    (hpos : 0 < maxReadaheadDataSize) (hobjects : ∀ o ∈ objects, Holds crc32 storage data o)
    (hepoch : ∀ o ∈ objects, ∀ f ∈ (data o).frames,
      ∃ epoch, epochAt (epochIndex objects) f.offset = some epoch) :
  recoverStream crc32 storage objects maxReadaheadDataSize = some
    ((results (epochIndex objects)
      ((getContinuousFromTrimOffset objects (trimOf data objects)).flatMap
        fun o => (data o).frames)).filter
      (RecoverIterator.yields (trimOf data objects)), none)
  := by
  have hsub := getContinuousFromTrimOffset_sublist objects (trimOf data objects)
  have hrun : ∀ o ∈ getContinuousFromTrimOffset objects (trimOf data objects),
      Holds crc32 storage data o := fun o ho => hobjects o (hsub.subset ho)
  have hbefore : Before crc32 storage
      (RecoverIterator.tryReadAhead storage {
        maxReadaheadDataSize
        trimOffset := trimOf data objects
        objects := getContinuousFromTrimOffset objects (trimOf data objects)
        readahead := []
        readaheadDataSize := 0
        data := []
        startOffsetToEpoch := epochIndex objects })
      [] (getContinuousFromTrimOffset objects (trimOf data objects)) := by
    rw [← nil_append (getContinuousFromTrimOffset objects (trimOf data objects))]
    exact RecoverIterator.before_tryReadAhead hpos rfl rfl rfl rfl
  have hfuel : ((getContinuousFromTrimOffset objects (trimOf data objects)).flatMap
      fun o => (data o).frames).length < (objects.map WalObject.size).sum + 1 := by
    rw [length_flatMap]
    apply Nat.lt_succ_of_le
    calc ((getContinuousFromTrimOffset objects (trimOf data objects)).map
          fun o => (data o).frames.length).sum
        ≤ ((getContinuousFromTrimOffset objects (trimOf data objects)).map WalObject.size).sum := by
          apply sum_le_sum
          exact fun o ho => (hrun o ho).length_frames_le
      _ ≤ (objects.map WalObject.size).sum :=
          (hsub.map WalObject.size).sum_le_sum fun _ _ => Nat.zero_le _
  have hcollect := RecoverIterator.collect_spec hpos hrun hbefore nofun nofun (by
    intro f hf
    obtain ⟨o, ho, hfo⟩ := mem_flatMap.mp hf
    exact hepoch o (hsub.subset ho) f hfo) hfuel
  simp only [recoverStream, RecoverIterator.new, getTrimOffset_spec hobjects, bind, Except.bind,
    pure, Except.pure]
  exact hcollect

end

end Wal
