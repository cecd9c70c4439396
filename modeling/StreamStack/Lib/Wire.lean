import Mathlib

/-!
# Byte strings and readers

Writers are functions into byte strings, readers consume bytes from the front of a buffer
and may fail. `Reads p bs a` states that the reader `p` consumes exactly the bytes `bs` and
returns `a`, whatever follows them. It composes along the sequencing of readers, so a round
trip is proved by following the reader through the bytes the writer puts.

`Exact p W` is the converse: whenever `p` returns a value, the bytes it has consumed are related to
the value by `W`. A reader that is exact for what the writer puts accepts nothing else.
-/

namespace Wire

open List

variable {ε α β σ : Type}

/-! ### Little-endian integers -/

/-- The `w` little-endian bytes of `n`. -/
def leBytes : ℕ → ℕ → List UInt8
  | 0, _ => []
  | w + 1, n => UInt8.ofNat n :: leBytes w (n / 256)

/-- The number with the little-endian bytes `bs`. -/
def ofLeBytes : List UInt8 → ℕ
  | [] => 0
  | b :: bs => b.toNat + 256 * ofLeBytes bs

@[simp]
theorem length_leBytes (w n : ℕ) :
  (leBytes w n).length = w
  := by
  induction w generalizing n with
  | zero => rfl
  | succ w ih => simp [leBytes, ih]

variable {w n : ℕ}

/-- A number is read back from its bytes if it fits. -/
theorem ofLeBytes_leBytes (h : n < 256 ^ w) :
  ofLeBytes (leBytes w n) = n
  := by
  induction w generalizing n with
  | zero =>
    simp only [pow_zero, Nat.lt_one_iff] at h
    simp [leBytes, ofLeBytes, h]
  | succ w ih =>
    have hdiv : n / 256 < 256 ^ w := by
      rw [pow_succ] at h
      apply Nat.div_lt_of_lt_mul
      omega
    simp only [leBytes, ofLeBytes, ih hdiv, UInt8.toNat_ofNat']
    omega

theorem ofLeBytes_lt (bs : List UInt8) :
  ofLeBytes bs < 256 ^ bs.length
  := by
  induction bs with
  | nil => exact Nat.one_pos
  | cons b bs ih =>
    have hb := b.toNat_lt
    rw [ofLeBytes, length_cons, pow_succ]
    omega

/-- Bytes are written back as they were read. -/
theorem leBytes_ofLeBytes (bs : List UInt8) :
  leBytes bs.length (ofLeBytes bs) = bs
  := by
  induction bs with
  | nil => rfl
  | cons b bs ih =>
    have hb := b.toNat_lt
    have hhead : UInt8.ofNat (b.toNat + 256 * ofLeBytes bs) = b := by
      apply UInt8.toNat_inj.mp
      rw [UInt8.toNat_ofNat']
      omega
    have htail : (b.toNat + 256 * ofLeBytes bs) / 256 = ofLeBytes bs := by omega
    rw [length_cons, leBytes, ofLeBytes, hhead, htail, ih]

def putU8 (x : UInt8) : List UInt8 := leBytes 1 x.toNat

def putU32 (x : UInt32) : List UInt8 := leBytes 4 x.toNat

def putU64 (x : UInt64) : List UInt8 := leBytes 8 x.toNat

def putI32 (x : Int32) : List UInt8 := putU32 x.toUInt32

def putI64 (x : Int64) : List UInt8 := putU64 x.toUInt64

/-! ### Readers -/

/-- Readers failing with `ε`. -/
abbrev Get (ε : Type) : Type → Type := StateT (List UInt8) (Except ε)

/-- Fail with `e`. -/
def fail (e : ε) : Get ε α := fun _ => .error e

/-- The next `n` bytes, or failure `short` when fewer remain. -/
def take (n : ℕ) (short : ε) : Get ε (List UInt8) := fun buf =>
  if buf.length < n then .error short else .ok (buf.take n, buf.drop n)

/-- The next `w` bytes as a little-endian number. -/
def getLe (w : ℕ) (short : ε) : Get ε ℕ := do
  let bs ← take w short
  return ofLeBytes bs

def getU8 (short : ε) : Get ε UInt8 := do
  let n ← getLe 1 short
  return UInt8.ofNat n

def getU32 (short : ε) : Get ε UInt32 := do
  let n ← getLe 4 short
  return UInt32.ofNat n

def getU64 (short : ε) : Get ε UInt64 := do
  let n ← getLe 8 short
  return UInt64.ofNat n

def getI32 (short : ε) : Get ε Int32 := do
  let x ← getU32 short
  return x.toInt32

def getI64 (short : ε) : Get ε Int64 := do
  let x ← getU64 short
  return x.toInt64

/-- Run `step` on an accumulator `n` times. -/
def iterate : ℕ → (σ → Get ε σ) → σ → Get ε σ
  | 0, _, s => pure s
  | n + 1, step, s => do
      let s ← step s
      iterate n step s

/-- `n` items read one after the other. -/
def getMany : ℕ → Get ε α → Get ε (List α)
  | 0, _ => pure []
  | n + 1, item => do
      let x ← item
      let xs ← getMany n item
      return x :: xs

/-- Run a reader on a whole buffer, which it must consume; `trailing n` is the failure when
`n` bytes remain. -/
def runAll (trailing : ℕ → ε) (p : Get ε α) (bs : List UInt8) : Except ε α :=
  match p bs with
  | .error e => .error e
  | .ok (a, []) => .ok a
  | .ok (_, rest) => .error (trailing rest.length)

/-! ### What a reader reads -/

/-- The reader `p` consumes exactly `bs` and returns `a`. -/
def Reads (p : Get ε α) (bs : List UInt8) (a : α) : Prop :=
  ∀ rest, p (bs ++ rest) = .ok (a, rest)

theorem Reads.pure (a : α) :
  Reads (Pure.pure a : Get ε α) [] a
  := fun _ => rfl

variable {bs : List UInt8} {p : Get ε α} {a : α} {f : α → Get ε β}

/-- A reader of two fields reads the two encodings, one after the other. -/
theorem Reads.bind {bs' : List UInt8} {b : β} (hp : Reads p bs a) (hf : Reads (f a) bs' b) :
  Reads (p >>= f) (bs ++ bs') b
  := by
  intro rest
  change (p (bs ++ bs' ++ rest) >>= fun x => f x.1 x.2) = _
  rw [append_assoc, hp]
  apply hf

/-- What follows a reader may consume nothing. -/
theorem Reads.bind_nil {b : β} (hp : Reads p bs a) (hf : Reads (f a) [] b) :
  Reads (p >>= f) bs b
  := by
  rw [← append_nil bs]
  apply hp.bind hf

/-- What precedes a reader may consume nothing. -/
theorem Reads.nil_bind {b : β} (hp : Reads p [] a) (hf : Reads (f a) bs b) :
  Reads (p >>= f) bs b
  := hp.bind hf

/-- A reader that returns its last value reads the bytes of what precedes it. -/
theorem Reads.bind_pure {f : α → β} (hp : Reads p bs a) :
  Reads (p >>= fun x => Pure.pure (f x)) bs (f a)
  := hp.bind_nil (Reads.pure (f a))

theorem Reads.take (bs : List UInt8) (short : ε) :
  Reads (take bs.length short) bs bs
  := by
  intro rest
  simp [Wire.take]

theorem Reads.getLe (h : n < 256 ^ w) (short : ε) :
  Reads (getLe w short) (leBytes w n) n
  := by
  have htake : Reads (Wire.take w short) (leBytes w n) (leBytes w n) := by
    simpa using Reads.take (leBytes w n) short
  have := htake.bind_pure (f := ofLeBytes)
  rwa [ofLeBytes_leBytes h] at this

theorem Reads.getU8 (x : UInt8) (short : ε) :
  Reads (getU8 short) (putU8 x) x
  := by
  have := (Reads.getLe (w := 1) x.toNat_lt short).bind_pure (f := UInt8.ofNat)
  rwa [UInt8.ofNat_toNat] at this

theorem Reads.getU32 (x : UInt32) (short : ε) :
  Reads (getU32 short) (putU32 x) x
  := by
  have := (Reads.getLe (w := 4) x.toNat_lt short).bind_pure (f := UInt32.ofNat)
  rwa [UInt32.ofNat_toNat] at this

theorem Reads.getU64 (x : UInt64) (short : ε) :
  Reads (getU64 short) (putU64 x) x
  := by
  have := (Reads.getLe (w := 8) x.toNat_lt short).bind_pure (f := UInt64.ofNat)
  rwa [UInt64.ofNat_toNat] at this

theorem Reads.getI32 (x : Int32) (short : ε) :
  Reads (getI32 short) (putI32 x) x
  := (Reads.getU32 x.toUInt32 short).bind_pure (f := UInt32.toInt32)

theorem Reads.getI64 (x : Int64) (short : ε) :
  Reads (getI64 short) (putI64 x) x
  := (Reads.getU64 x.toUInt64 short).bind_pure (f := UInt64.toInt64)

/-! ### Big-endian integers -/

/-- The `w` big-endian bytes of `n`. -/
def beBytes (w n : ℕ) : List UInt8 := (leBytes w n).reverse

/-- The number with the big-endian bytes `bs`. -/
def ofBeBytes (bs : List UInt8) : ℕ := ofLeBytes bs.reverse

@[simp]
theorem length_beBytes (w n : ℕ) :
  (beBytes w n).length = w
  := by
  simp [beBytes]

theorem ofBeBytes_beBytes (h : n < 256 ^ w) :
  ofBeBytes (beBytes w n) = n
  := by
  rw [ofBeBytes, beBytes, reverse_reverse, ofLeBytes_leBytes h]

def putBeU32 (x : UInt32) : List UInt8 := beBytes 4 x.toNat

def putBeU64 (x : UInt64) : List UInt8 := beBytes 8 x.toNat

def putBeI32 (x : Int32) : List UInt8 := putBeU32 x.toUInt32

def putBeI64 (x : Int64) : List UInt8 := putBeU64 x.toUInt64

@[simp]
theorem length_putBeU32 (x : UInt32) :
  (putBeU32 x).length = 4
  := length_beBytes 4 x.toNat

@[simp]
theorem length_putBeU64 (x : UInt64) :
  (putBeU64 x).length = 8
  := length_beBytes 8 x.toNat

@[simp]
theorem length_putBeI32 (x : Int32) :
  (putBeI32 x).length = 4
  := length_putBeU32 x.toUInt32

@[simp]
theorem length_putBeI64 (x : Int64) :
  (putBeI64 x).length = 8
  := length_putBeU64 x.toUInt64

/-- The next `w` bytes as a big-endian number. -/
def getBe (w : ℕ) (short : ε) : Get ε ℕ := do
  let bs ← take w short
  return ofBeBytes bs

def getBeU32 (short : ε) : Get ε UInt32 := do
  let n ← getBe 4 short
  return UInt32.ofNat n

def getBeU64 (short : ε) : Get ε UInt64 := do
  let n ← getBe 8 short
  return UInt64.ofNat n

def getBeI32 (short : ε) : Get ε Int32 := do
  let x ← getBeU32 short
  return x.toInt32

def getBeI64 (short : ε) : Get ε Int64 := do
  let x ← getBeU64 short
  return x.toInt64

theorem Reads.getBe (h : n < 256 ^ w) (short : ε) :
  Reads (getBe w short) (beBytes w n) n
  := by
  have htake : Reads (Wire.take w short) (beBytes w n) (beBytes w n) := by
    simpa using Reads.take (beBytes w n) short
  have := htake.bind_pure (f := ofBeBytes)
  rwa [ofBeBytes_beBytes h] at this

theorem Reads.getBeU32 (x : UInt32) (short : ε) :
  Reads (getBeU32 short) (putBeU32 x) x
  := by
  have := (Reads.getBe (w := 4) x.toNat_lt short).bind_pure (f := UInt32.ofNat)
  rwa [UInt32.ofNat_toNat] at this

theorem Reads.getBeU64 (x : UInt64) (short : ε) :
  Reads (getBeU64 short) (putBeU64 x) x
  := by
  have := (Reads.getBe (w := 8) x.toNat_lt short).bind_pure (f := UInt64.ofNat)
  rwa [UInt64.ofNat_toNat] at this

theorem Reads.getBeI32 (x : Int32) (short : ε) :
  Reads (getBeI32 short) (putBeI32 x) x
  := (Reads.getBeU32 x.toUInt32 short).bind_pure (f := UInt32.toInt32)

theorem Reads.getBeI64 (x : Int64) (short : ε) :
  Reads (getBeI64 short) (putBeI64 x) x
  := (Reads.getBeU64 x.toUInt64 short).bind_pure (f := UInt64.toInt64)

/-! ### Many items -/

variable {enc : α → List UInt8}

/-- Reading the concatenated encodings of a list of items with an accumulator folds the
items into the accumulator. -/
theorem Reads.iterate {step : σ → Get ε σ} {upd : σ → α → σ} (xs : List α)
    (h : ∀ s, ∀ x ∈ xs, Reads (step s) (enc x) (upd s x)) (s : σ) :
  Reads (iterate xs.length step s) (xs.flatMap enc) (xs.foldl upd s)
  := by
  induction xs generalizing s with
  | nil => apply Reads.pure
  | cons x xs ih =>
    apply (h s x mem_cons_self).bind
    apply ih
    intro s y hy
    apply h s y (mem_cons_of_mem x hy)

/-- Reading the concatenated encodings of a list of items returns the items. -/
theorem Reads.getMany {item : Get ε α} (xs : List α) (h : ∀ x ∈ xs, Reads item (enc x) x) :
  Reads (getMany xs.length item) (xs.flatMap enc) xs
  := by
  induction xs with
  | nil => apply Reads.pure
  | cons x xs ih =>
    apply (h x mem_cons_self).bind
    apply Reads.bind_pure (f := fun ys => x :: ys)
    apply ih
    intro y hy
    apply h y (mem_cons_of_mem x hy)

/-- Nothing is left over when a reader gets just its encoding. -/
theorem Reads.runAll (trailing : ℕ → ε) (hp : Reads p bs a) :
  runAll trailing p bs = .ok a
  := by
  have := hp []
  rw [append_nil] at this
  rw [Wire.runAll, this]

/-! ### What a reader accepts -/

/-- When `p` returns a value, `W` relates it to the bytes that were consumed. -/
def Exact (p : Get ε α) (W : α → List UInt8 → Prop) : Prop :=
  ∀ buf a rest, p buf = .ok (a, rest) → ∃ bs, buf = bs ++ rest ∧ W a bs

variable {W : α → List UInt8 → Prop}

theorem Exact.pure (h : W a []) :
  Exact (Pure.pure a : Get ε α) W
  := by
  intro buf a' rest hok
  cases hok
  exact ⟨[], rfl, h⟩

theorem Exact.fail (e : ε) (W : α → List UInt8 → Prop) :
  Exact (fail e : Get ε α) W
  := nofun

variable {V : α → List UInt8 → Prop}

/-- What two readers took is what the first took, then what the second took. -/
theorem Exact.bind {W : β → List UInt8 → Prop} (hp : Exact p V)
    (hf : ∀ a bs, V a bs → Exact (f a) fun b bs' => W b (bs ++ bs')) :
  Exact (p >>= f) W
  := by
  intro buf b rest hok
  change (p buf >>= fun x => f x.1 x.2) = _ at hok
  cases hread : p buf with
  | error e =>
    rw [hread] at hok
    cases hok
  | ok x =>
    obtain ⟨a, mid⟩ := x
    rw [hread] at hok
    obtain ⟨bs, rfl, hbs⟩ := hp buf a mid hread
    obtain ⟨bs', rfl, hbs'⟩ := hf a bs hbs mid b rest hok
    exact ⟨bs ++ bs', (append_assoc bs bs' rest).symm, hbs'⟩

/-- A reader may forget a part of what it knows. -/
theorem Exact.weaken (hp : Exact p V) (h : ∀ a bs, V a bs → W a bs) :
  Exact p W
  := by
  intro buf a rest hok
  obtain ⟨bs, hbuf, hbs⟩ := hp buf a rest hok
  exact ⟨bs, hbuf, h a bs hbs⟩

/-- A value that is made from the last one read. -/
theorem Exact.last {g : α → β} {W : β → List UInt8 → Prop} (hp : Exact p V)
    (h : ∀ a bs, V a bs → W (g a) bs) :
  Exact (p >>= fun x => Pure.pure (g x)) W
  := by
  apply hp.bind
  intro a bs hbs
  apply Exact.pure
  rw [append_nil]
  exact h a bs hbs

theorem Exact.take (n : ℕ) (short : ε) :
  Exact (take n short) fun a bs => bs = a ∧ a.length = n
  := by
  intro buf a rest hok
  unfold Wire.take at hok
  split at hok
  · cases hok
  next hlen =>
    cases hok
    refine ⟨buf.take n, (take_append_drop n buf).symm, rfl, ?_⟩
    rw [length_take]
    omega

theorem Exact.getLe (w : ℕ) (short : ε) :
  Exact (getLe w short) fun n bs => bs = leBytes w n ∧ n < 256 ^ w
  := by
  apply (Exact.take w short).last
  rintro a bs ⟨rfl, rfl⟩
  exact ⟨(leBytes_ofLeBytes bs).symm, ofLeBytes_lt bs⟩

theorem Exact.getU8 (short : ε) :
  Exact (getU8 short) fun x bs => bs = putU8 x
  := by
  apply (Exact.getLe 1 short).last
  rintro n bs ⟨rfl, hn⟩
  rw [putU8, UInt8.toNat_ofNat_of_lt' hn]

theorem Exact.getU32 (short : ε) :
  Exact (getU32 short) fun x bs => bs = putU32 x
  := by
  apply (Exact.getLe 4 short).last
  rintro n bs ⟨rfl, hn⟩
  rw [putU32, UInt32.toNat_ofNat_of_lt' hn]

theorem Exact.getU64 (short : ε) :
  Exact (getU64 short) fun x bs => bs = putU64 x
  := by
  apply (Exact.getLe 8 short).last
  rintro n bs ⟨rfl, hn⟩
  rw [putU64, UInt64.toNat_ofNat_of_lt' hn]

theorem Exact.getI32 (short : ε) :
  Exact (getI32 short) fun x bs => bs = putI32 x
  := by
  apply (Exact.getU32 short).last
  rintro x bs rfl
  rw [putI32, UInt32.toUInt32_toInt32]

theorem Exact.getI64 (short : ε) :
  Exact (getI64 short) fun x bs => bs = putI64 x
  := by
  apply (Exact.getU64 short).last
  rintro x bs rfl
  rw [putI64, UInt64.toUInt64_toInt64]

/-- The items of a list were read from their encodings, one after the other. -/
theorem Exact.getMany {item : Get ε α} {put : α → List UInt8} {P : α → Prop}
    (h : Exact item fun x bs => bs = put x ∧ P x) (n : ℕ) :
  Exact (getMany n item) fun xs bs => bs = xs.flatMap put ∧ xs.length = n ∧ ∀ x ∈ xs, P x
  := by
  induction n with
  | zero => exact Exact.pure ⟨rfl, rfl, nofun⟩
  | succ n ih =>
    apply h.bind
    rintro x _ ⟨rfl, hx⟩
    apply ih.last
    rintro xs _ ⟨rfl, rfl, hxs⟩
    exact ⟨rfl, rfl, forall_mem_cons.mpr ⟨hx, hxs⟩⟩

/-- Bytes that a reader accepts as a whole are an encoding of the value. -/
theorem Exact.runAll (hp : Exact p W) {trailing : ℕ → ε} (h : runAll trailing p bs = .ok a) :
  W a bs
  := by
  unfold Wire.runAll at h
  split at h
  · cases h
  next a' hread =>
    obtain rfl := Except.ok.inj h
    obtain ⟨bs', rfl, hbs⟩ := hp bs a' [] hread
    rw [append_nil]
    exact hbs
  · cases h

/-- A whole buffer is not read again with something after it. -/
theorem Reads.runAll_append (trailing : ℕ → ε) (hp : Reads p bs a) {rest : List UInt8}
    (hrest : rest ≠ []) :
  Wire.runAll trailing p (bs ++ rest) = .error (trailing rest.length)
  := by
  rw [Wire.runAll, hp rest]
  cases rest with
  | nil => exact absurd rfl hrest
  | cons b rest => rfl

/-! ### Readers that do not look ahead -/

/-- The reader takes the bytes it takes whatever follows them. -/
class Stable (p : Get ε α) : Prop where
  exact : Exact p fun a bs => Reads p bs a

instance Stable.pure (a : α) : Stable (Pure.pure a : Get ε α) where
  exact := Exact.pure (Reads.pure a)

instance Stable.fail (e : ε) : Stable (fail e : Get ε α) where
  exact := Exact.fail e _

instance Stable.take (n : ℕ) (short : ε) : Stable (take n short) where
  exact := by
    apply (Exact.take n short).weaken
    rintro a _ ⟨rfl, rfl⟩
    apply Reads.take

instance Stable.bind (p : Get ε α) (f : α → Get ε β) [hp : Stable p] [hf : ∀ a, Stable (f a)] :
    Stable (p >>= f) where
  exact := by
    apply hp.exact.bind
    intro a bs ha
    apply (hf a).exact.weaken
    intro b bs' hb
    exact ha.bind hb

instance Stable.ite (c : Prop) [Decidable c] (p q : Get ε α) [hp : Stable p] [hq : Stable q] :
    Stable (if c then p else q) := by
  split
  · exact hp
  · exact hq

instance Stable.getU8 (short : ε) : Stable (getU8 short) := by
  unfold Wire.getU8 getLe
  infer_instance

instance Stable.getU32 (short : ε) : Stable (getU32 short) := by
  unfold Wire.getU32 getLe
  infer_instance

instance Stable.getU64 (short : ε) : Stable (getU64 short) := by
  unfold Wire.getU64 getLe
  infer_instance

instance Stable.getI32 (short : ε) : Stable (getI32 short) := by
  unfold Wire.getI32
  infer_instance

instance Stable.getI64 (short : ε) : Stable (getI64 short) := by
  unfold Wire.getI64
  infer_instance

instance Stable.getBeI32 (short : ε) : Stable (getBeI32 short) := by
  unfold Wire.getBeI32 getBeU32 getBe
  infer_instance

instance Stable.getBeI64 (short : ε) : Stable (getBeI64 short) := by
  unfold Wire.getBeI64 getBeU64 getBe
  infer_instance

instance Stable.iterate (step : σ → Get ε σ) [∀ s, Stable (step s)] (n : ℕ) (s : σ) :
    Stable (iterate n step s) := by
  induction n generalizing s with
  | zero => apply Stable.pure
  | succ n ih => apply Stable.bind

instance Stable.getMany (item : Get ε α) [Stable item] (n : ℕ) : Stable (getMany n item) := by
  induction n with
  | zero => apply Stable.pure
  | succ n ih => apply Stable.bind

/-- A buffer that would be read whole is not read when its end is missing. -/
theorem Reads.runAll_of_append [hp : Stable p] {more : List UInt8} (h : Reads p (bs ++ more) a)
    (hmore : more ≠ []) (trailing : ℕ → ε) :
  ∃ e, Wire.runAll trailing p bs = .error e
  := by
  cases hread : Wire.runAll trailing p bs with
  | error e => exact ⟨e, rfl⟩
  | ok b =>
    have hb := hp.exact.runAll hread more
    have ha := h []
    rw [append_nil, hb] at ha
    exact absurd (Prod.mk.inj (Except.ok.inj ha)).2 hmore

/-! ### Canonical codecs -/

/-- A codec that reads back what it writes of the values in `P` and accepts nothing but this: what
is longer or shorter than an encoding is rejected. -/
structure Canonical (encode : α → List UInt8) (decode : List UInt8 → Except ε α)
    (P : α → Prop) : Prop where
  decode_encode : ∀ x, P x → decode (encode x) = .ok x
  encode_decode : ∀ bytes x, decode bytes = .ok x → P x ∧ encode x = bytes
  extension : ∀ x, P x → ∀ more, more ≠ [] → ∃ e, decode (encode x ++ more) = .error e
  strictPrefix : ∀ x, P x → ∀ bytes more, more ≠ [] → encode x = bytes ++ more →
    ∃ e, decode bytes = .error e

/-- A codec is canonical if its reader reads every encoding and accepts nothing else. -/
theorem canonical_of_reader {encode : α → List UInt8} {decode : List UInt8 → Except ε α}
    {trailing : ℕ → ε} {P : α → Prop} (hdecode : ∀ bytes, decode bytes = runAll trailing p bytes)
    (hreads : ∀ x, P x → Reads p (encode x) x) (hexact : Exact p fun x bs => bs = encode x ∧ P x) :
  Canonical encode decode P
  := by
  obtain rfl : decode = runAll trailing p := funext hdecode
  have hextension : ∀ x, P x → ∀ more, more ≠ [] →
      ∃ e, runAll trailing p (encode x ++ more) = .error e :=
    fun x hx more hmore => ⟨_, (hreads x hx).runAll_append trailing hmore⟩
  refine ⟨fun x hx => (hreads x hx).runAll trailing, fun bytes x hok => ?_, hextension, ?_⟩
  · obtain ⟨hbytes, hx⟩ := hexact.runAll hok
    exact ⟨hx, hbytes.symm⟩
  · intro x hx bytes more hmore heq
    cases hread : runAll trailing p bytes with
    | error e => exact ⟨e, rfl⟩
    | ok y =>
      -- the whole encoding extends that of `y`
      obtain ⟨rfl, hy⟩ := hexact.runAll hread
      obtain ⟨e, he⟩ := hextension y hy more hmore
      rw [← heq, (hreads x hx).runAll trailing] at he
      cases he

/-! ### Strings -/

/-- The UTF-8 bytes of a string. -/
def utf8 (s : String) : List UInt8 := s.toUTF8.data.toList

/-- The string with the given UTF-8 bytes, if they are valid. -/
def ofUtf8 (bs : List UInt8) : Option String := String.fromUTF8? ⟨bs.toArray⟩

theorem length_utf8 (s : String) :
  (utf8 s).length = s.utf8ByteSize
  := rfl

theorem ofUtf8_utf8 (s : String) :
  ofUtf8 (utf8 s) = some s
  := by
  have hvalid : ByteArray.IsValidUTF8 ⟨s.toUTF8.data⟩ := s.isValidUTF8
  rw [ofUtf8, utf8, Array.toArray_toList, String.fromUTF8?, dif_pos hvalid]
  rfl

/-- Only the encoding of a string is decoded to it. -/
theorem utf8_of_ofUtf8 {s : String} (h : ofUtf8 bs = some s) :
  utf8 s = bs
  := by
  rw [ofUtf8, String.fromUTF8?] at h
  split at h
  · cases h
    rfl
  · cases h

end Wire
