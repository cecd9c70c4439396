import StreamStack.Lib.Run
import StreamStack.Lib.Spans
import StreamStack.Stream.Admission

/-!
# The confirm offset has no holes

The confirm offset of a stream is the end of the last record that was acknowledged. Every offset
below it belongs to a record that the log has confirmed as long as the log takes the records of a
stream one after the other: the records of the stream in the log, those in the backoff queue and
the one under the append lock are then laid end to end up to the next offset, and what the log has
confirmed is a first part of that.

A record that the log refuses, or that a shutdown takes out of the queue, breaks the row. The stream
is fenced only when the error arrives, and appends that were submitted in the meantime are confirmed
above the hole.
-/

namespace Stream

open OrdMap Run Spans List

/-- Every offset of a stream between its start and its confirm offset is from before the stream was
opened or belongs to a record of the stream that the log has confirmed. -/
def NoHoles (sys : Sys) : Prop :=
  ∀ (streamId : Nat) (stream : S3Stream), sys.streams[streamId]? = some stream →
    ∀ o, stream.startOffset ≤ o → o < stream.confirmOffset → o < stream.openedAt ∨
      ∃ r ∈ sys.wal.take sys.walConfirmed, r.streamId = streamId ∧ r.offset ≤ o ∧ o < r.lastOffset

/-! ### The invariant -/

/-- The record that the holder of the lock has not handed on yet. -/
def AppendLock.request : AppendLock → List WalWriteRequest
  | .free => []
  | .reserved r | .parking r | .placing r => [r]

/-- The requests of a stream. -/
def ofStream (streamId : Nat) (l : List WalWriteRequest) : List WalWriteRequest :=
  l.filter fun r => r.streamId = streamId

@[simp]
theorem ofStream_append (streamId : Nat) (l l' : List WalWriteRequest) :
  ofStream streamId (l ++ l') = ofStream streamId l ++ ofStream streamId l'
  := by
  rw [ofStream, filter_append]
  rfl

theorem ofStream_self {streamId : Nat} {r : WalWriteRequest} (h : r.streamId = streamId) :
  ofStream streamId [r] = [r]
  := by
  simp [ofStream, h]

theorem ofStream_other {streamId : Nat} {r : WalWriteRequest} (h : r.streamId ≠ streamId) :
  ofStream streamId [r] = []
  := by
  simp [ofStream, h]

variable {l : List WalWriteRequest}

theorem ofStream_eq_nil {streamId : Nat} :
  ofStream streamId l = [] ↔ ∀ r ∈ l, r.streamId ≠ streamId
  := by
  simp [ofStream]

/-- Requests one after the other, from an offset on. -/
abbrev Contiguous (offset : Nat) (l : List WalWriteRequest) : Prop :=
  Laid WalWriteRequest.offset WalWriteRequest.lastOffset offset l

/-- Where requests one after the other end. -/
abbrev endOf (offset : Nat) (l : List WalWriteRequest) : Nat :=
  reach WalWriteRequest.lastOffset offset l

/-- The records that the log has not been given yet. The head of the queue has been while the drain
task holds its position. -/
def Sys.waiting (sys : Sys) : List WalWriteRequest :=
  match sys.drain with
  | .submitted (some _) => sys.backoff.tail
  | _ => sys.backoff

/-- No request of the stream was answered with an error before the log took it. -/
def Unrefused (sys : Sys) (streamId : Nat) : Prop := ∀ r ∈ sys.refused, r.streamId ≠ streamId

/-- The records of a stream, in the log, in the queue and under the lock. -/
def Sys.records (sys : Sys) (streamId : Nat) (stream : S3Stream) : List WalWriteRequest :=
  ofStream streamId sys.wal ++ ofStream streamId sys.waiting ++ stream.lock.request

/-- What a stream has been given offsets for lies somewhere, without gaps. -/
structure StreamInv (sys : Sys) (streamId : Nat) (stream : S3Stream) : Prop where
  placed : Contiguous stream.openedAt (ofStream streamId sys.wal)
  whole : Unrefused sys streamId → Contiguous stream.openedAt (sys.records streamId stream) ∧
    endOf stream.openedAt (sys.records streamId stream) = stream.nextOffset
  own : ∀ r ∈ stream.lock.request, r.streamId = streamId
  placing : ∀ r, stream.lock = .placing r → ofStream streamId sys.backoff = []
  confirm : stream.confirmOffset ≤ stream.openedAt ∨
    ∃ i r, i < sys.walConfirmed ∧ sys.wal[i]? = some r ∧ r.streamId = streamId ∧
      stream.confirmOffset ≤ r.lastOffset

/-- The invariant of the node: that of its streams, and nothing comes from elsewhere. -/
structure ConfirmInv (sys : Sys) : Prop where
  streams : ∀ (streamId : Nat) (stream : S3Stream), sys.streams[streamId]? = some stream →
    StreamInv sys streamId stream
  known : ∀ r ∈ sys.wal ++ sys.backoff, ∃ stream, sys.streams[r.streamId]? = some stream
  acks : ∀ e ∈ sys.acks, sys.wal[e.1]? = some e.2
  head : ∀ position, sys.drain = .submitted (some position) →
    ∃ r, sys.backoff.head? = some r ∧ sys.wal[position]? = some r

/-- Records laid end to end leave no hole below the end of one of them. -/
theorem StreamInv.covered {sys : Sys} {streamId : Nat} {stream : S3Stream}
    (h : StreamInv sys streamId stream) {o : Nat} (hlow : stream.openedAt ≤ o)
    (hhigh : o < stream.confirmOffset) :
  ∃ r ∈ sys.wal.take sys.walConfirmed, r.streamId = streamId ∧ r.offset ≤ o ∧ o < r.lastOffset
  := by
  rcases h.confirm with hle | ⟨i, r, hi, hr, hstream, hle⟩
  · omega
  · obtain ⟨hlt, hget⟩ := List.getElem?_eq_some_iff.mp hr
    have htake : sys.wal.take (i + 1) = sys.wal.take i ++ [r] := by
      rw [take_add_one, hr]
      rfl
    -- what the log has taken up to the record is the first part of what it has taken
    have hlaid := h.placed
    rw [← take_append_drop (i + 1) sys.wal, ofStream_append, Contiguous, laid_append] at hlaid
    have hend : endOf stream.openedAt (ofStream streamId (sys.wal.take (i + 1))) = r.lastOffset := by
      rw [htake, ofStream_append, ofStream_self hstream, endOf, reach_append]
      rfl
    have hbelow : o < endOf stream.openedAt (ofStream streamId (sys.wal.take (i + 1))) := by
      rw [hend]
      exact lt_of_lt_of_le hhigh hle
    obtain ⟨x, hx, hspan⟩ := hlaid.1.covers hlow hbelow
    obtain ⟨hmem, hxstream⟩ := mem_filter.mp hx
    refine ⟨x, ?_, by simpa using hxstream, hspan⟩
    apply take_subset_take_left sys.wal hi hmem

/-- What is confirmed has no holes. -/
theorem ConfirmInv.noHoles {sys : Sys} (h : ConfirmInv sys) :
  NoHoles sys
  := by
  intro streamId stream hstream o _ hhigh
  rcases lt_or_ge o stream.openedAt with hlow | hlow
  · exact .inl hlow
  · exact .inr ((h.streams streamId stream hstream).covered hlow hhigh)

/-! ### Steps -/

section

variable {sys sys' : Sys} {streamId : Nat} {stream : S3Stream} {r : WalWriteRequest}

/-- What happens to other streams does not matter to a stream. -/
theorem StreamInv.next (h : StreamInv sys streamId stream)
    (hwal : ofStream streamId sys'.wal = ofStream streamId sys.wal)
    (hwaiting : Unrefused sys' streamId → Unrefused sys streamId ∧
      ofStream streamId sys'.waiting = ofStream streamId sys.waiting)
    (hbackoff : ofStream streamId sys.backoff = [] → ofStream streamId sys'.backoff = [])
    (hconfirmed : ∀ (i : Nat) (r : WalWriteRequest), i < sys.walConfirmed →
      sys.wal[i]? = some r → i < sys'.walConfirmed ∧ sys'.wal[i]? = some r) :
  StreamInv sys' streamId stream
  := by
  constructor
  · rw [hwal]
    exact h.placed
  · intro hunrefused
    obtain ⟨hunrefused, hsame⟩ := hwaiting hunrefused
    rw [Sys.records, hwal, hsame]
    exact h.whole hunrefused
  · exact h.own
  · intro r hr
    apply hbackoff
    exact h.placing r hr
  · rcases h.confirm with hle | ⟨i, r, hi, hr, hstream, hle⟩
    · exact .inl hle
    · obtain ⟨hi', hr'⟩ := hconfirmed i r hi hr
      exact .inr ⟨i, r, hi', hr', hstream, hle⟩

theorem ConfirmInv.setStream (h : ConfirmInv sys) (hinv : StreamInv sys streamId stream) :
  ConfirmInv (sys.setStream streamId stream)
  := by
  refine { h with streams := ?_, known := ?_ }
  · intro k found hfound
    rw [Sys.setStream] at hfound
    rcases lookup_insert_cases hfound with ⟨rfl, rfl⟩ | ⟨-, hfound⟩
    · exact { hinv with }
    · exact { h.streams k found hfound with }
  · intro r hr
    rw [Sys.setStream, lookup_insert]
    split
    next => exact ⟨stream, rfl⟩
    next => exact h.known r hr

theorem ConfirmInv.openStream (h : ConfirmInv sys) {startOffset nextOffset : Nat}
    (hstep : sys.openStream streamId startOffset nextOffset = some sys') :
  ConfirmInv sys'
  := by
  unfold Sys.openStream at hstep
  split at hstep
  next => cases hstep
  next hnone =>
    split at hstep
    next =>
      cases hstep
      have hunknown (l : List WalWriteRequest) (hl : l ⊆ sys.wal ++ sys.backoff) :
          ofStream streamId l = [] := by
        apply ofStream_eq_nil.mpr
        intro r hr heq
        obtain ⟨stream, hstream⟩ := h.known r (hl hr)
        rw [heq, hnone] at hstream
        cases hstream
      have hwal := hunknown sys.wal (subset_append_left _ _)
      have hwaiting : ofStream streamId sys.waiting = [] := by
        apply hunknown
        apply List.Subset.trans _ (subset_append_right _ _)
        unfold Sys.waiting
        split
        next => exact tail_subset _
        next => exact List.Subset.refl _
      apply h.setStream
      refine ⟨?_, ?_, nofun, nofun, .inl (le_refl _)⟩
      · rw [hwal]
        trivial
      · intro _
        rw [Sys.records, hwal, hwaiting]
        exact ⟨trivial, rfl⟩
    next => cases hstep

/-- A reservation is at the end of the stream. -/
theorem ConfirmInv.reserve (h : ConfirmInv sys) {count : Nat}
    (hstep : sys.reserve streamId count = some sys') :
  ConfirmInv sys'
  := by
  obtain ⟨stream, hstream, hstep⟩ := Option.bind_eq_some_iff.mp hstep
  split at hstep
  next hadmit =>
    obtain ⟨-, hfree, -⟩ := hadmit
    cases hstep
    have hinv := h.streams streamId stream hstream
    apply h.setStream
    refine { hinv with whole := ?_, own := ?_, placing := nofun }
    · intro hunrefused
      have hwhole := hinv.whole hunrefused
      simp only [Sys.records, hfree, AppendLock.request, append_nil] at hwhole
      simp only [Sys.records, AppendLock.request]
      obtain ⟨hlaid, hend⟩ := hwhole
      constructor
      · exact laid_append.mpr ⟨hlaid, hend.symm, trivial⟩
      · rw [endOf, reach_append]
        rfl
    · intro r hr
      obtain rfl := mem_singleton.mp hr
      rfl
  next => cases hstep

/-- The holder of the lock goes on with the same record. -/
theorem StreamInv.setLock (h : StreamInv sys streamId stream) {lock : AppendLock}
    (hrequest : lock.request = stream.lock.request)
    (hplacing : ∀ r, lock = .placing r → ofStream streamId sys.backoff = []) :
  StreamInv sys streamId { stream with lock }
  := by
  refine { h with whole := ?_, own := ?_, placing := hplacing }
  · intro hunrefused
    rw [Sys.records, hrequest]
    exact h.whole hunrefused
  · rw [hrequest]
    exact h.own

theorem ConfirmInv.look (h : ConfirmInv sys) (hstep : sys.look streamId = some sys') :
  ConfirmInv sys'
  := by
  obtain ⟨stream, hstream, hstep⟩ := Option.bind_eq_some_iff.mp hstep
  split at hstep
  next r hlock =>
    split at hstep
    next => cases hstep
    next =>
      cases hstep
      apply h.setStream
      apply (h.streams streamId stream hstream).setLock
      · rw [hlock]
        split <;> rfl
      · intro r' hr'
        split at hr'
        next hempty =>
          rw [List.isEmpty_iff.mp hempty]
          rfl
        next => cases hr'
  next => cases hstep

theorem ConfirmInv.noPermit (h : ConfirmInv sys) (hstep : sys.noPermit streamId = some sys') :
  ConfirmInv sys'
  := by
  obtain ⟨stream, hstream, hstep⟩ := Option.bind_eq_some_iff.mp hstep
  split at hstep
  next r hlock =>
    cases hstep
    apply h.setStream
    apply (h.streams streamId stream hstream).setLock
    · rw [hlock]
      rfl
    · nofun
  next => cases hstep

variable {i : Nat}

/-- Positions of the log stay when it takes one more record. -/
theorem lookup_append (h : l[i]? = some r) (l' : List _) :
  (l ++ l')[i]? = some r
  := by
  obtain ⟨hlt, -⟩ := List.getElem?_eq_some_iff.mp h
  rw [getElem?_append_left hlt]
  exact h

section

variable (h : ConfirmInv sys)

include h

/-- The log takes the record of the append under the lock. -/
theorem ConfirmInv.accept (hstream : sys.streams[streamId]? = some stream)
    (hlock : stream.lock = .placing r) (hunrefused : Unrefused sys streamId) :
  ConfirmInv ((sys.accept r).setStream streamId { stream with lock := .free })
  := by
  have hinv := h.streams streamId stream hstream
  have hown : r.streamId = streamId := by
    apply hinv.own
    rw [hlock]
    exact mem_singleton_self r
  have hwaiting : ofStream streamId sys.waiting = [] := by
    apply ofStream_eq_nil.mpr
    intro r' hr'
    apply ofStream_eq_nil.mp (hinv.placing r hlock)
    unfold Sys.waiting at hr'
    split at hr'
    next => exact mem_of_mem_tail hr'
    next => exact hr'
  have hwhole := hinv.whole hunrefused
  simp only [Sys.records, hwaiting, hlock, AppendLock.request, append_nil] at hwhole
  have hwal : ofStream streamId (sys.wal ++ [r]) = ofStream streamId sys.wal ++ [r] := by
    rw [ofStream_append, ofStream_self hown]
  refine ⟨?_, ?_, ?_, ?_⟩
  · intro k found hfound
    rw [Sys.setStream] at hfound
    rcases lookup_insert_cases hfound with ⟨rfl, rfl⟩ | ⟨hne, hfound⟩
    · refine ⟨?_, ?_, nofun, nofun, ?_⟩
      · rw [← hwal] at hwhole
        exact hwhole.1
      · intro _
        have hrecords : Sys.records ((sys.accept r).setStream streamId
            { stream with lock := .free }) streamId { stream with lock := .free }
            = ofStream streamId sys.wal ++ [r] := by
          rw [← hwal]
          change _ ++ ofStream streamId sys.waiting ++ [] = _
          rw [hwaiting, append_nil, append_nil]
          rfl
        rw [hrecords]
        exact hwhole
      · rcases hinv.confirm with hle | ⟨i, r', hi, hr', hstream', hle⟩
        · exact .inl hle
        · exact .inr ⟨i, r', hi, lookup_append hr' [r], hstream', hle⟩
    · apply (h.streams k found hfound).next
      · have hother : r.streamId ≠ k := hown ▸ hne
        change ofStream k (sys.wal ++ [r]) = _
        rw [ofStream_append, ofStream_other hother, append_nil]
      · exact fun hunrefused => ⟨hunrefused, rfl⟩
      · exact fun hempty => hempty
      · exact fun i r' hi hr' => ⟨hi, lookup_append hr' [r]⟩
  · intro r' hr'
    rw [Sys.setStream, lookup_insert]
    split
    next => exact ⟨_, rfl⟩
    next hne =>
      apply h.known
      change r' ∈ sys.wal ++ [r] ++ sys.backoff at hr'
      simp only [mem_append, mem_singleton] at hr' ⊢
      rcases hr' with (hr' | rfl) | hr'
      · exact .inl hr'
      · exact absurd hown.symm hne
      · exact .inr hr'
  · intro e he
    rcases mem_append.mp he with he | he
    · exact lookup_append (h.acks e he) [r]
    · obtain rfl := mem_singleton.mp he
      exact getElem?_concat_length
  · intro position hposition
    obtain ⟨r', hhead, hr'⟩ := h.head position hposition
    exact ⟨r', hhead, lookup_append hr' [r]⟩

/-- A record that is answered with an error leaves the row of its stream. -/
theorem ConfirmInv.refuse (hstream : sys.streams[streamId]? = some stream)
    (hlock : stream.lock = .placing r) :
  ConfirmInv ((sys.refuse [r]).setStream streamId { stream with lock := .free })
  := by
  have hinv := h.streams streamId stream hstream
  have hown : r.streamId = streamId := by
    apply hinv.own
    rw [hlock]
    exact mem_singleton_self r
  have hrefused : ConfirmInv (sys.refuse [r]) := by
    refine { h with streams := ?_ }
    intro k found hfound
    apply (h.streams k found hfound).next
    · rfl
    · intro hunrefused
      exact ⟨fun r' hr' => hunrefused r' (mem_append_left _ hr'), rfl⟩
    · exact fun hempty => hempty
    · exact fun i r' hi hr' => ⟨hi, hr'⟩
  apply hrefused.setStream
  refine { hrefused.streams streamId stream hstream with
    whole := ?_, own := nofun, placing := nofun }
  intro hunrefused
  exact absurd hown (hunrefused r (mem_append_right _ (mem_singleton_self r)))

theorem waiting_park (r : WalWriteRequest) :
  Sys.waiting { sys with backoff := sys.backoff ++ [r] } = sys.waiting ++ [r]
  := by
  unfold Sys.waiting
  cases hdrain : sys.drain with
  | submitted position =>
    cases position with
    | none => rfl
    | some position =>
      obtain ⟨head, hhead, -⟩ := h.head position hdrain
      apply tail_append_of_ne_nil
      intro hnil
      rw [hnil] at hhead
      cases hhead
  | _ => rfl

/-- A request without a permit waits behind those of its stream. -/
theorem ConfirmInv.park (hstep : sys.park streamId = some sys') :
  ConfirmInv sys'
  := by
  obtain ⟨stream, hstream, hstep⟩ := Option.bind_eq_some_iff.mp hstep
  split at hstep
  next r hlock =>
    split at hstep
    next => cases hstep
    next =>
      cases hstep
      have hinv := h.streams streamId stream hstream
      have hown : r.streamId = streamId := by
        apply hinv.own
        rw [hlock]
        exact mem_singleton_self r
      have hwaiting := waiting_park h r
      refine ⟨?_, ?_, h.acks, ?_⟩
      · intro k found hfound
        rw [Sys.setStream] at hfound
        rcases lookup_insert_cases hfound with ⟨rfl, rfl⟩ | ⟨hne, hfound⟩
        · refine { hinv with whole := ?_, own := nofun, placing := nofun }
          intro hunrefused
          have hwhole := hinv.whole hunrefused
          simp only [Sys.records, hlock, AppendLock.request] at hwhole
          change Contiguous _ (_ ++ ofStream streamId (Sys.waiting { sys with
            backoff := sys.backoff ++ [r] }) ++ []) ∧ endOf _ (_ ++ ofStream streamId
              (Sys.waiting { sys with backoff := sys.backoff ++ [r] }) ++ []) = _
          rw [hwaiting, ofStream_append, ofStream_self hown, append_nil,
            ← append_assoc]
          exact hwhole
        · have hother : ofStream k [r] = [] := ofStream_other (hown ▸ hne)
          apply (h.streams k found hfound).next
          · rfl
          · intro hunrefused
            refine ⟨hunrefused, ?_⟩
            change ofStream k (Sys.waiting { sys with backoff := sys.backoff ++ [r] }) = _
            rw [hwaiting, ofStream_append, hother, append_nil]
          · intro hempty
            change ofStream k (sys.backoff ++ [r]) = []
            rw [ofStream_append, hempty, hother]
            rfl
          · exact fun i r' hi hr' => ⟨hi, hr'⟩
      · intro r' hr'
        rw [Sys.setStream, lookup_insert]
        split
        next => exact ⟨_, rfl⟩
        next hne =>
          apply h.known
          change r' ∈ sys.wal ++ (sys.backoff ++ [r]) at hr'
          rw [← append_assoc] at hr'
          rcases mem_append.mp hr' with hr' | hr'
          · exact hr'
          · obtain rfl := mem_singleton.mp hr'
            exact absurd hown.symm hne
      · intro position hposition
        obtain ⟨head, hhead, hposition⟩ := h.head position hposition
        refine ⟨head, ?_, hposition⟩
        change (sys.backoff ++ [r]).head? = some head
        rw [head?_append, hhead]
        rfl
  next => cases hstep

/-- The log takes the head of the queue. -/
theorem ConfirmInv.drainAccept {rest : List WalWriteRequest} (hdrain : sys.drain = .idle)
    (hbackoff : sys.backoff = r :: rest) (hunrefused : Unrefused sys r.streamId) :
  ConfirmInv { sys with
    wal := sys.wal ++ [r]
    drain := .submitted (some sys.wal.length) }
  := by
  have hwaiting : sys.waiting = r :: rest := by
    rw [Sys.waiting, hdrain]
    exact hbackoff
  have hwaiting' : Sys.waiting { sys with
      wal := sys.wal ++ [r]
      drain := .submitted (some sys.wal.length) } = rest := by
    rw [Sys.waiting, hbackoff]
    rfl
  have hsame (k : Nat) : ofStream k (sys.wal ++ [r]) ++ ofStream k rest
      = ofStream k sys.wal ++ ofStream k sys.waiting := by
    rw [← ofStream_append, ← ofStream_append, hwaiting, append_assoc]
    rfl
  refine ⟨?_, ?_, ?_, ?_⟩
  · intro k found hfound
    have hinv := h.streams k found hfound
    refine ⟨?_, ?_, hinv.own, hinv.placing, ?_⟩
    · by_cases hk : r.streamId = k
      · subst hk
        obtain ⟨hlaid, -⟩ := hinv.whole hunrefused
        rw [Sys.records, ← hsame, append_assoc] at hlaid
        exact (laid_append.mp hlaid).1
      · change Contiguous _ (ofStream k (sys.wal ++ [r]))
        rw [ofStream_append, ofStream_other hk, append_nil]
        exact hinv.placed
    · intro hk
      rw [Sys.records, hwaiting', hsame]
      exact hinv.whole hk
    · rcases hinv.confirm with hle | ⟨i, r', hi, hr', hstream', hle⟩
      · exact .inl hle
      · exact .inr ⟨i, r', hi, lookup_append hr' [r], hstream', hle⟩
  · intro r' hr'
    apply h.known
    simp only [mem_append, mem_singleton] at hr' ⊢
    rcases hr' with (hr' | rfl) | hr'
    · exact .inl hr'
    · exact .inr (hbackoff ▸ mem_cons_self)
    · exact .inr hr'
  · intro e he
    exact lookup_append (h.acks e he) [r]
  · intro position hposition
    cases hposition
    exact ⟨r, by rw [hbackoff]; rfl, getElem?_concat_length⟩

/-- The drain takes the oldest request. -/
theorem ConfirmInv.drainPop (hstep : sys.drainPop = some sys') :
  ConfirmInv sys'
  := by
  unfold Sys.drainPop at hstep
  split at hstep
  next position r rest hdrain hbackoff =>
    cases hstep
    obtain ⟨r', hhead, hposition⟩ := h.head position hdrain
    obtain rfl : r = r' := by
      rw [hbackoff] at hhead
      exact Option.some.inj hhead
    have hwaiting : sys.waiting = rest := by
      rw [Sys.waiting, hdrain, hbackoff]
      rfl
    refine ⟨?_, ?_, ?_, nofun⟩
    · intro k found hfound
      apply (h.streams k found hfound).next
      · rfl
      · exact fun hunrefused => ⟨hunrefused, by rw [hwaiting]; rfl⟩
      · intro hempty
        rw [hbackoff] at hempty
        apply ofStream_eq_nil.mpr
        exact fun r' hr' => ofStream_eq_nil.mp hempty r' (mem_cons_of_mem r hr')
      · exact fun i r' hi hr' => ⟨hi, hr'⟩
    · intro r' hr'
      apply h.known
      rw [hbackoff]
      rcases mem_append.mp hr' with hr' | hr'
      · exact mem_append_left _ hr'
      · exact mem_append_right _ (mem_cons_of_mem r hr')
    · intro e he
      rcases mem_append.mp he with he | he
      · exact h.acks e he
      · obtain rfl := mem_singleton.mp he
        exact hposition
  next r rest hdrain hbackoff =>
    cases hstep
    have hwaiting : sys.waiting = r :: rest := by
      rw [Sys.waiting, hdrain]
      exact hbackoff
    refine ⟨?_, ?_, h.acks, nofun⟩
    · intro k found hfound
      apply (h.streams k found hfound).next
      · rfl
      · intro hunrefused
        have hother : r.streamId ≠ k :=
          hunrefused r (mem_append_right _ (mem_singleton_self r))
        have hrest : ofStream k (r :: rest) = ofStream k rest := by
          rw [← singleton_append, ofStream_append, ofStream_other hother]
          rfl
        refine ⟨fun r' hr' => hunrefused r' (mem_append_left _ hr'), ?_⟩
        rw [hwaiting, hrest]
        rfl
      · intro hempty
        rw [hbackoff] at hempty
        apply ofStream_eq_nil.mpr
        exact fun r' hr' => ofStream_eq_nil.mp hempty r' (mem_cons_of_mem r hr')
      · exact fun i r' hi hr' => ⟨hi, hr'⟩
    · intro r' hr'
      apply h.known
      rw [hbackoff]
      rcases mem_append.mp hr' with hr' | hr'
      · exact mem_append_left _ hr'
      · exact mem_append_right _ (mem_cons_of_mem r hr')
  next position hdrain hbackoff =>
    cases hstep
    have hwaiting : sys.waiting = [] := by
      rw [Sys.waiting, hbackoff]
      split <;> rfl
    refine ⟨?_, h.known, h.acks, nofun⟩
    intro k found hfound
    apply (h.streams k found hfound).next
    · rfl
    · intro hunrefused
      refine ⟨hunrefused, ?_⟩
      rw [hwaiting]
      change ofStream k sys.backoff = _
      rw [hbackoff]
    · exact fun hempty => hempty
    · exact fun i r' hi hr' => ⟨hi, hr'⟩
  next => cases hstep

/-- A shutdown finds the drain task between two heads. -/
theorem ConfirmInv.shutdown (hdrain : sys.drain = .idle) (hstep : sys.shutdown = some sys') :
  ConfirmInv sys'
  := by
  unfold Sys.shutdown at hstep
  rw [if_neg (by rw [hdrain]; nofun)] at hstep
  cases hstep
  have hwaiting : sys.waiting = sys.backoff := by
    rw [Sys.waiting, hdrain]
  refine ⟨?_, ?_, h.acks, ?_⟩
  · intro k found hfound
    apply (h.streams k found hfound).next
    · rfl
    · intro hunrefused
      refine ⟨fun r hr => hunrefused r (mem_append_left _ hr), ?_⟩
      have hempty : ofStream k sys.backoff = [] := by
        apply ofStream_eq_nil.mpr
        exact fun r hr => hunrefused r (mem_append_right _ hr)
      rw [hwaiting, hempty]
      change ofStream k (Sys.waiting { sys.refuse sys.backoff with backoff := [] }) = []
      rw [Sys.waiting]
      split <;> rfl
    · exact fun _ => rfl
    · exact fun i r hi hr => ⟨hi, hr⟩
  · intro r hr
    apply h.known
    change r ∈ sys.wal ++ [] at hr
    rw [append_nil] at hr
    exact mem_append_left _ hr
  · intro position hposition
    cases hdrain.symm.trans hposition

/-- An acknowledged record is one that the log has confirmed. -/
theorem ConfirmInv.completeAppend {ok : Bool}
    (hok : ok = true → ∃ i, i < sys.walConfirmed ∧ sys.wal[i]? = some r) :
  ConfirmInv (sys.completeAppend r ok)
  := by
  unfold Sys.completeAppend
  split
  next => exact h
  next stream hstream =>
    have hinv := h.streams r.streamId stream hstream
    split
    next htrue =>
      obtain ⟨i, hi, hr⟩ := hok htrue
      apply h.setStream
      refine { hinv with confirm := ?_ }
      rcases le_total stream.confirmOffset r.lastOffset with hle | hle
      · exact .inr ⟨i, r, hi, hr, rfl, (max_eq_right hle).le⟩
      · rw [max_eq_left hle]
        exact hinv.confirm
    next =>
      apply h.setStream
      exact { hinv with }

/-- An acknowledgement moves the confirm offset over what is durable. -/
theorem ConfirmInv.ack (hstep : sys.ack i = some sys') :
  ConfirmInv sys'
  := by
  obtain ⟨⟨position, r⟩, hentry, hstep⟩ := Option.bind_eq_some_iff.mp hstep
  have hposition := h.acks _ (mem_of_getElem? hentry)
  have htaken : ConfirmInv { sys with acks := sys.acks.eraseIdx i } := by
    refine { h with streams := ?_, acks := ?_ }
    · exact fun k found hfound => { h.streams k found hfound with }
    · exact fun e he => h.acks e (mem_of_mem_eraseIdx he)
  dsimp only at hstep
  split at hstep
  next hconfirmed =>
    cases hstep
    apply htaken.completeAppend
    exact fun _ => ⟨position, hconfirmed, hposition⟩
  next =>
    split at hstep
    next =>
      cases hstep
      apply htaken.completeAppend
      nofun
    next => cases hstep

theorem ConfirmInv.fail (hstep : sys.fail i = some sys') :
  ConfirmInv sys'
  := by
  obtain ⟨r, -, hstep⟩ := Option.bind_eq_some_iff.mp hstep
  cases hstep
  have htaken : ConfirmInv { sys with failing := sys.failing.eraseIdx i } := by
    refine { h with streams := ?_ }
    exact fun k found hfound => { h.streams k found hfound with }
  apply htaken.completeAppend
  nofun

end

/-- The condition on a step: the log takes a record only when no request of its stream was answered
with an error before, and a shutdown finds the drain task between two heads. -/
def ConfirmSafe (sys : Sys) : Action → Prop
  | .submit streamId .accepted => Unrefused sys streamId
  | .drainSubmit .accepted => ∀ r ∈ sys.backoff.head?, Unrefused sys r.streamId
  | .shutdown => sys.drain = .idle
  | _ => True

theorem ConfirmInv.drainSubmit (h : ConfirmInv sys) {outcome : Outcome}
    (hsafe : ConfirmSafe sys (.drainSubmit outcome)) (hstep : sys.drainSubmit outcome = some sys') :
  ConfirmInv sys'
  := by
  unfold Sys.drainSubmit at hstep
  split at hstep
  next r rest hdrain hbackoff =>
    cases outcome with
    | accepted =>
      cases hstep
      apply h.drainAccept hdrain hbackoff
      apply hsafe
      rw [hbackoff]
      rfl
    | overCapacity =>
      cases hstep
      exact h
    | error =>
      cases hstep
      refine ⟨?_, h.known, h.acks, nofun⟩
      intro k found hfound
      apply (h.streams k found hfound).next
      · rfl
      · exact fun hunrefused => ⟨hunrefused, by rw [Sys.waiting, Sys.waiting, hdrain]⟩
      · exact fun hempty => hempty
      · exact fun i r' hi hr' => ⟨hi, hr'⟩
  next => cases hstep

theorem ConfirmInv.walConfirm (h : ConfirmInv sys) (hstep : sys.walConfirm = some sys') :
  ConfirmInv sys'
  := by
  unfold Sys.walConfirm at hstep
  split at hstep
  next =>
    cases hstep
    refine { h with streams := ?_ }
    intro k found hfound
    apply (h.streams k found hfound).next
    · rfl
    · exact fun hunrefused => ⟨hunrefused, rfl⟩
    · exact fun hempty => hempty
    · exact fun i r' hi hr' => ⟨Nat.lt_succ_of_lt hi, hr'⟩
  next => cases hstep

/-- The invariant holds after every safe step. -/
theorem ConfirmInv.step (h : ConfirmInv sys) {a : Action} (ha : ConfirmSafe sys a)
    (hstep : step sys a = some sys') :
  ConfirmInv sys'
  := by
  cases a with
  | openStream streamId startOffset nextOffset => exact h.openStream hstep
  | startAppend streamId =>
    obtain ⟨stream, hstream, hstep⟩ := Option.bind_eq_some_iff.mp hstep
    split at hstep
    next =>
      cases hstep
      apply h.setStream
      exact { h.streams streamId stream hstream with }
    next => cases hstep
  | reserve streamId count => exact h.reserve hstep
  | look streamId => exact h.look hstep
  | noPermit streamId => exact h.noPermit hstep
  | submit streamId outcome =>
    obtain ⟨stream, hstream, hstep⟩ := Option.bind_eq_some_iff.mp hstep
    split at hstep
    next r hlock =>
      cases outcome with
      | accepted =>
        cases hstep
        exact h.accept hstream hlock ha
      | overCapacity =>
        cases hstep
        apply h.setStream
        apply (h.streams streamId stream hstream).setLock
        · rw [hlock]
          rfl
        · nofun
      | error =>
        cases hstep
        exact h.refuse hstream hlock
    next => cases hstep
  | park streamId => exact h.park hstep
  | drainSubmit outcome => exact h.drainSubmit ha hstep
  | drainPop => exact h.drainPop hstep
  | walConfirm => exact h.walConfirm hstep
  | walFail =>
    cases hstep
    refine { h with streams := ?_ }
    exact fun k found hfound => { h.streams k found hfound with }
  | ack i => exact h.ack hstep
  | fail i => exact h.fail hstep
  | shutdown => exact h.shutdown ha hstep
  | trim streamId newStartOffset =>
    obtain ⟨stream, hstream, hstep⟩ := Option.bind_eq_some_iff.mp hstep
    split at hstep
    next =>
      cases hstep
      exact h
    next =>
      cases hstep
      apply h.setStream
      exact { h.streams streamId stream hstream with }
  | close streamId =>
    obtain ⟨stream, hstream, hstep⟩ := Option.bind_eq_some_iff.mp hstep
    cases hstep
    apply h.setStream
    exact { h.streams streamId stream hstream with }
  | destroy streamId =>
    obtain ⟨stream, hstream, hstep⟩ := Option.bind_eq_some_iff.mp hstep
    split at hstep
    next =>
      cases hstep
      apply h.setStream
      exact { h.streams streamId stream hstream with }
    next => cases hstep

end

/-! ### Runs -/

instance decidableUnrefused (sys : Sys) (streamId : Nat) : Decidable (Unrefused sys streamId) :=
  inferInstanceAs (Decidable (∀ r ∈ sys.refused, r.streamId ≠ streamId))

instance decidableConfirmSafe (sys : Sys) : DecidablePred (ConfirmSafe sys) :=
  fun a => by unfold ConfirmSafe; split <;> infer_instance

/-- In a run whose steps meet the condition, no confirm offset has a hole below it. -/
theorem confirmOffset_noHoles {actions : List Action} {sys : Sys}
    (hsafe : Along step ConfirmSafe actions {}) (hrun : run {} actions = some sys) :
  NoHoles sys
  := by
  have hinv : ConfirmInv sys := by
    apply Along.induction (I := ConfirmInv) _ hsafe _ hrun
    · intro sys a sys' ha h hstep
      exact h.step ha hstep
    · refine ⟨?_, nofun, nofun, nofun⟩
      intro streamId stream hstream
      simp at hstream
  exact hinv.noHoles

/-- An append of a stream up to the point where it has looked at the queue. -/
def admitRun (streamId count : Nat) : List Action :=
  [.startAppend streamId, .reserve streamId count, .look streamId]

/-- The first record is parked, the second one queues behind it, and both are drained, confirmed and
acknowledged in the reverse order. -/
def drainedRun : List Action :=
  [.openStream 1 0 5] ++ admitRun 1 2 ++ [.noPermit 1, .park 1] ++ admitRun 1 3 ++ [.park 1] ++
    [.drainSubmit .accepted, .drainPop, .drainSubmit .accepted, .drainPop, .walConfirm,
      .walConfirm, .ack 1, .ack 0]

theorem confirmOffset_noHoles_drainedRun :
  ∃ sys, run {} drainedRun = some sys ∧
    (sys.streams[1]?).map S3Stream.confirmOffset = some 10 ∧ NoHoles sys
  := by
  have hsafe : Along step ConfirmSafe drainedRun {} := by decide +kernel
  obtain ⟨sys, hrun, hconfirm⟩ : ∃ sys, run {} drainedRun = some sys ∧
      (sys.streams[1]?).map S3Stream.confirmOffset = some 10 := by
    decide +kernel
  exact ⟨sys, hrun, hconfirm, confirmOffset_noHoles hsafe hrun⟩

/-- The log refuses the first of two pipelined records, say because it is too large, and confirms
the second. -/
def tooLargeRun : List Action :=
  [.openStream 1 0 5] ++ admitRun 1 2 ++ [.submit 1 .error] ++ admitRun 1 3 ++
    [.submit 1 .accepted, .walConfirm, .ack 0]

/-- The confirm offset passes the offsets of the refused record. -/
theorem confirmOffset_hole_tooLargeRun :
  ∃ sys, run {} tooLargeRun = some sys ∧ ¬ NoHoles sys
  := by
  obtain ⟨sys, hrun, ⟨stream, hstream, hopened, hstart, hconfirm⟩, hwal⟩ : ∃ sys,
      run {} tooLargeRun = some sys ∧
      (∃ stream, sys.streams[1]? = some stream ∧
        stream.openedAt = 5 ∧ stream.startOffset = 0 ∧ stream.confirmOffset = 10) ∧
      sys.wal.take sys.walConfirmed = [⟨1, 7, 3⟩] := by
    decide +kernel
  refine ⟨sys, hrun, ?_⟩
  intro hholes
  rcases hholes 1 stream hstream 5 (by omega) (by omega) with hlt | ⟨r, hr, -, hle, -⟩
  · omega
  · rw [hwal] at hr
    obtain rfl := mem_singleton.mp hr
    exact absurd hle (by decide)

/-- A shutdown answers a parked record with an error while the stream goes on. -/
def shutdownRun : List Action :=
  [.openStream 1 0 5] ++ admitRun 1 2 ++ [.noPermit 1, .park 1, .shutdown] ++ admitRun 1 3 ++
    [.submit 1 .accepted, .walConfirm, .ack 0]

-- The same happens when a record fails at a shutdown.
example : (run {} shutdownRun).any fun sys =>
    (sys.streams[1]?).map S3Stream.confirmOffset = some 10 ∧
      sys.wal.take sys.walConfirmed = [⟨1, 7, 3⟩] := by
  decide +kernel

end Stream
