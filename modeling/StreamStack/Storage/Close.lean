import StreamStack.Storage.Placed

/-!
# Closing a stream

A stream is closed in the metadata after its pending appends have completed, the active block has
been sealed if it holds the stream, and every task in flight that holds the stream has succeeded.
Recovery skips closed streams, so every acknowledged record has to be committed by then.

A record that is not committed is in the active block, in a sealed block that is not submitted yet,
or in a task that has not succeeded. The closing does not see all of these: not the blocks that
somebody else has sealed and not submitted yet, and not the tasks that have failed.
-/

namespace Storage

open OrdMap Run List

variable {sys sys' : Sys}

/-! ### How far a closing got -/

/-- The closing has sealed the active block if it held the stream. -/
def Closing.Sealed : Closing → Prop
  | .no | .draining | .sealing => False
  | .submitting | .collecting | .waiting _ | .finishing | .returned _ => True

variable {closing : Closing}

theorem Closing.Sealed.drained (h : closing.Sealed) :
  closing.Drained
  := by
  cases closing with
  | no | draining | sealing => cases h
  | submitting | collecting | waiting | finishing | returned => trivial

/-- Every confirmed record of a stream is committed, or else satisfies `P`. -/
def Covered (sys : Sys) (streamId : Nat) (P : StreamRecordBatch → Prop) : Prop :=
  ∀ e ∈ sys.confirmed, e.2.streamId = streamId → Committed sys.rows e.2 ∨ P e.2

/-- No record of the stream is in the active block only. -/
def AllSealed (sys : Sys) (streamId : Nat) : Prop :=
  Covered sys streamId fun r => Unsubmitted sys r ∨ InTask sys r

/-- The record is in one of the tasks. -/
def InTasks (sys : Sys) (ids : List Nat) (r : StreamRecordBatch) : Prop :=
  ∃ id ∈ ids, ∃ task, sys.tasks[id]? = some task ∧ task.block.Has r

/-- What a closing knows of the records of its stream. -/
structure Stage (sys : Sys) (streamId : Nat) (closing : Closing) : Prop where
  sealed : closing.Sealed → AllSealed sys streamId
  waiting : ∀ ids, closing = .waiting ids → Covered sys streamId (InTasks sys ids)
  finished : closing = .finishing ∨ closing = .returned true →
    Covered sys streamId fun _ => False

/-- Every closing knows what its stage says, and one that has a block to submit has sealed it. -/
structure CloseInv (sys : Sys) : Prop where
  stage : ∀ (streamId : Nat) (stream : S3Stream), sys.streams[streamId]? = some stream →
    Stage sys streamId stream.closing
  owner : ∀ (streamId : Nat) (b : LogCacheBlock), (Owner.close streamId, b) ∈ sys.unsubmitted →
    ∃ stream, sys.streams[streamId]? = some stream ∧ stream.closing.Sealed

variable {streamId : Nat}

/-- Records of a stream with nothing in the log stay covered. -/
theorem Covered.advance {P P' : StreamRecordBatch → Prop} (h : Covered sys streamId P)
    (hadvances : Advances sys sys') (hwal : ∀ r ∈ sys.wal, r.streamId ≠ streamId)
    (hP : ∀ r, P r → Committed sys'.rows r ∨ P' r) :
  Covered sys' streamId P'
  := by
  intro e he hstream
  rcases hadvances.confirmed e he with he | hr
  · rcases h e he hstream with hcommitted | hp
    · exact .inl (hcommitted.mono hadvances.rows)
    · exact hP e.2 hp
  · exact absurd hstream (hwal e.2 hr)

variable {r : StreamRecordBatch}

theorem InTasks.advance {ids : List Nat} (h : InTasks sys ids r) (hadvances : Advances sys sys') :
  InTasks sys' ids r
  := by
  obtain ⟨id, hid, task, htask, hhas⟩ := h
  obtain ⟨task', htask', hblock⟩ := hadvances.tasks id task htask
  exact ⟨id, hid, task', htask', hblock ▸ hhas⟩

/-- A close keeps what it has reached while others advance. -/
theorem Stage.advance (h : Stage sys streamId closing) (hadvances : Advances sys sys')
    (hwal : closing.Sealed → ∀ r ∈ sys.wal, r.streamId ≠ streamId) :
  Stage sys' streamId closing
  := by
  constructor
  · intro hsealed
    exact (h.sealed hsealed).advance hadvances (hwal hsealed) hadvances.waiting
  · rintro ids rfl
    exact (h.waiting ids rfl).advance hadvances (hwal trivial) fun r hr =>
      .inr (hr.advance hadvances)
  · intro hfinished
    have hsealed : closing.Sealed := by
      rcases hfinished with rfl | rfl <;> trivial
    exact (h.finished hfinished).advance hadvances (hwal hsealed) fun r hr => .inr hr

theorem stage_of_not_sealed (sys : Sys) (streamId : Nat) (h : ¬ closing.Sealed) :
  Stage sys streamId closing
  := by
  constructor
  · intro hsealed
    exact absurd hsealed h
  · rintro ids rfl
    exact absurd trivial h
  · rintro (rfl | rfl)
    · exact absurd trivial h
    · exact absurd trivial h

section

variable (h : CloseInv sys) (happend : AppendInv sys) (hadvances : Advances sys sys')

include h happend hadvances

/-- Closings stay as they are or reach a stage, sealed ones stay sealed, and only they submit. -/
theorem CloseInv.next (hstage : ∀ (k : Nat) (stream' : S3Stream), sys'.streams[k]? = some stream'
      → Stage sys' k stream'.closing ∨ ∃ stream, sys.streams[k]? = some stream ∧ stream.closing =
      stream'.closing) (hsealed : ∀ (k : Nat) (stream : S3Stream), sys.streams[k]? = some stream →
      stream.closing.Sealed → ∃ stream', sys'.streams[k]? = some stream' ∧ stream'.closing.Sealed)
    (howner : ∀ (k : Nat) (b : LogCacheBlock), (Owner.close k, b) ∈ sys'.unsubmitted →
      (Owner.close k, b) ∈ sys.unsubmitted ∨ ∃ stream', sys'.streams[k]? = some stream' ∧
      stream'.closing.Sealed) :
  CloseInv sys'
  := by
  constructor
  · intro k stream' hstream'
    rcases hstage k stream' hstream' with hstage | ⟨stream, hstream, hclosing⟩
    · exact hstage
    · rw [← hclosing]
      apply (h.stage k stream hstream).advance hadvances
      intro hsealed r hr
      exact happend.streams.not_mem hstream hsealed.drained (mem_append_left _ hr)
  · intro k b hb
    rcases howner k b hb with hb | hstream'
    · obtain ⟨stream, hstream, hs⟩ := h.owner k b hb
      exact hsealed k stream hstream hs
    · exact hstream'

theorem CloseInv.keep (hstreams : sys'.streams = sys.streams) (howner : ∀ (k : Nat) (b :
      LogCacheBlock), (Owner.close k, b) ∈ sys'.unsubmitted → (Owner.close k, b) ∈
      sys.unsubmitted) :
  CloseInv sys'
  := by
  apply h.next happend hadvances
  · intro k stream' hstream'
    exact .inr ⟨stream', hstreams ▸ hstream', rfl⟩
  · intro k stream hstream hsealed
    exact ⟨stream, hstreams ▸ hstream, hsealed⟩
  · intro k b hb
    exact .inl (howner k b hb)

theorem CloseInv.insert {stream stream' : S3Stream} (hstream : sys.streams[streamId]? = some stream)
    (hstreams : sys'.streams = sys.streams.insert streamId stream') (hclosing : stream'.closing =
      stream.closing ∨ (Stage sys' streamId stream'.closing ∧ (stream.closing.Sealed →
      stream'.closing.Sealed))) (howner : ∀ (k : Nat) (b : LogCacheBlock), (Owner.close k, b) ∈
      sys'.unsubmitted → (Owner.close k, b) ∈ sys.unsubmitted ∨ (k = streamId ∧
      stream'.closing.Sealed)) :
  CloseInv sys'
  := by
  have hself : sys'.streams[streamId]? = some stream' := by
    rw [hstreams, lookup_insert, if_pos rfl]
  apply h.next happend hadvances
  · intro k found hfound
    rw [hstreams] at hfound
    rcases lookup_insert_cases hfound with ⟨rfl, rfl⟩ | ⟨-, hfound⟩
    · rcases hclosing with hsame | ⟨hstage, -⟩
      · exact .inr ⟨stream, hstream, hsame.symm⟩
      · exact .inl hstage
    · exact .inr ⟨found, hfound, rfl⟩
  · intro k found hfound hsealed
    by_cases heq : streamId = k
    · subst heq
      cases hstream.symm.trans hfound
      refine ⟨stream', hself, ?_⟩
      rcases hclosing with hsame | ⟨-, hkeeps⟩
      · rw [hsame]
        exact hsealed
      · exact hkeeps hsealed
    · refine ⟨found, ?_, hsealed⟩
      rw [hstreams, lookup_insert, if_neg heq, hfound]
  · intro k b hb
    rcases howner k b hb with hb | ⟨rfl, hsealed⟩
    · exact .inl hb
    · exact .inr ⟨stream', hself, hsealed⟩

end

/-! ### The condition -/

/-- No record of the stream is left in a block that somebody else has sealed and not submitted yet,
or in a task that has failed, unless it is committed. -/
def Settled (sys : Sys) (streamId : Nat) : Prop :=
  (∀ e ∈ sys.unsubmitted, ∀ r ∈ e.2.recordsOf streamId, Committed sys.rows r) ∧
    ∀ e ∈ sys.tasks.toList, e.2.cf = some false →
      ∀ r ∈ e.2.block.recordsOf streamId, Committed sys.rows r

/-- The condition on a step: records fit into blocks, and a closing that looks for tasks in flight
finds its stream settled otherwise. -/
def CloseSafe (sys : Sys) : Action → Prop
  | .append _ count _ => count ≤ i32Max
  | .collect streamId => Settled sys streamId
  | _ => True

instance decidableSettled (sys : Sys) (streamId : Nat) : Decidable (Settled sys streamId) :=
  inferInstanceAs (Decidable (_ ∧ _))

instance decidableCloseSafe (sys : Sys) : DecidablePred (CloseSafe sys) :=
  fun a => by cases a <;> dsimp only [CloseSafe] <;> infer_instance

variable {a : Action}

theorem CloseSafe.small (h : CloseSafe sys a) :
  Small a
  := by
  cases a with
  | append => exact h
  | _ => trivial

variable {archived : Option LogCacheBlock}

/-- After an attempt to seal on behalf of a stream, the active block has none of its records. -/
theorem not_has_of_archive {c c' : LogCache} (hvalid : c.active.Valid)
    (harchive : c.archiveCurrentBlockIfContains streamId = (archived, c'))
    (hr : r.streamId = streamId) :
  ¬ c'.active.Has r
  := by
  rw [LogCacheBlock.Has, hr]
  rcases LogCache.archive_cases harchive with ⟨-, rfl, hall, hone⟩ | ⟨-, -, rfl⟩
  · by_cases heq : streamId = matchAllStreams
    · rw [hvalid.size.mp (hall heq)]
      exact not_mem_nil
    · simp [LogCacheBlock.recordsOf, hone heq]
  · rw [LogCache.recordsOf_freshBlock]
    exact not_mem_nil

/-! ### Steps of a closing -/

theorem stage_of_sealed (hwaiting : ∀ ids, closing ≠ .waiting ids)
    (hfinished : closing ≠ .finishing ∧ closing ≠ .returned true)
    (hcovered : AllSealed sys streamId) :
  Stage sys streamId closing
  := by
  refine ⟨fun _ => hcovered, ?_, ?_⟩
  · intro ids hids
    exact absurd hids (hwaiting ids)
  · rintro (heq | heq)
    · exact absurd heq hfinished.1
    · exact absurd heq hfinished.2

theorem containsStream_of_has {b : LogCacheBlock} (h : b.Has r) :
  b.containsStream r.streamId = true
  := by
  cases hc : b.map[r.streamId]? with
  | none => simp [LogCacheBlock.Has, LogCacheBlock.recordsOf, hc] at h
  | some c =>
    have hmem : r.streamId ∈ b.map := (mem_iff_lookup _ _).mpr ⟨c, hc⟩
    simp [LogCacheBlock.containsStream, hmem]

/-- The tasks that a settled closing collects hold all records that are not committed. -/
theorem covered_collect (hplaced : PlacedInv sys) (hsettled : Settled sys streamId)
    (hcovered : AllSealed sys streamId) :
  Covered sys streamId (InTasks sys (sys.waits streamId))
  := by
  rintro ⟨offset, r⟩ he rfl
  rcases hcovered _ he rfl with hcommitted | ⟨e', he', hhas⟩ | ⟨id, task, htask, hcf, hhas⟩
  · exact .inl hcommitted
  · exact .inl (hsettled.1 e' he' r hhas)
  · cases hresult : task.cf with
    | none =>
      right
      refine ⟨id, ?_, task, htask, hhas⟩
      apply mem_filter.mpr
      refine ⟨hplaced.inflight id task htask hresult, ?_⟩
      simp [htask, containsStream_of_has hhas]
    | some ok =>
      cases ok with
      | true => exact absurd hresult hcf
      | false =>
        have hmem := Std.ExtTreeMap.mem_toList_iff_getElem?_eq_some.mpr htask
        exact .inl (hsettled.2 (id, task) hmem hresult r hhas)

/-- A task that has succeeded need not be waited for any more. -/
theorem covered_awaited (hplaced : PlacedInv sys) {id : Nat} {rest : List Nat}
    {task : TaskContext} (htask : sys.tasks[id]? = some task) (hcf : task.cf = some true)
    (hcovered : Covered sys streamId (InTasks sys (id :: rest))) :
  Covered sys streamId (InTasks sys rest)
  := by
  intro e he hstream
  rcases hcovered e he hstream with hcommitted | ⟨k, hk, t, ht, hhas⟩
  · exact .inl hcommitted
  · rcases mem_cons.mp hk with rfl | hk
    · cases htask.symm.trans ht
      exact .inl (hplaced.done k task htask hcf e.2 hhas)
    · exact .inr ⟨k, hk, t, ht, hhas⟩

section

variable (h : CloseInv sys) (happend : AppendInv sys)

include h happend

theorem CloseInv.closeSeal (hnode : NodeInv sys) (hkept : KeptInv sys sys')
    (hstep : sys.closeSeal streamId = some sys') :
  CloseInv sys'
  := by
  obtain ⟨stream, archived, cache, hstream, hsealing, harchive, rfl⟩ := closeSeal_cases hstep
  have hcovered : AllSealed ((sys.archive (Owner.close streamId) archived cache).setStream streamId
      { stream with closing := if archived.isSome then .submitting else .collecting })
      streamId := by
    intro e he hr
    rcases hkept.placed.placed e he with hcommitted | hhas | hwaiting
    · exact .inl hcommitted
    · exact absurd hhas (not_has_of_archive hnode.active.valid harchive hr)
    · exact .inr hwaiting
  refine h.insert happend hkept.advances hstream rfl (.inr ⟨?_, ?_⟩) ?_
  · apply stage_of_sealed _ _ hcovered
    · intro ids
      cases archived <;> nofun
    · cases archived <;> exact ⟨nofun, nofun⟩
  · intro hsealed
    rw [hsealing] at hsealed
    cases hsealed
  · intro k b hb
    rcases mem_append.mp hb with hb | hb
    · exact .inl hb
    · right
      cases archived with
      | none => cases hb
      | some block =>
        cases mem_singleton.mp hb
        exact ⟨rfl, trivial⟩

theorem CloseInv.moved (hkept : KeptInv sys sys') {stream : S3Stream} {operable : Bool}
    (hmoved : Moved sys streamId stream operable closing sys') (hstage : Stage sys streamId closing)
    (hsealed : stream.closing.Sealed → closing.Sealed) :
  CloseInv sys'
  := by
  obtain ⟨hstream, rfl⟩ := hmoved
  refine h.insert happend hkept.advances hstream rfl (.inr ⟨{ hstage with }, hsealed⟩) ?_
  intro k b hb
  exact .inl hb

/-- A block is submitted, and the closing that has submitted it collects the tasks. -/
theorem CloseInv.submit (hkept : KeptInv sys sys') {i : Nat} (hstep : sys.submit i = some sys') :
  CloseInv sys'
  := by
  obtain ⟨owner, block, hentry, rfl⟩ := submit_cases hstep
  have hadvances := hkept.advances
  have hmem : ∀ {e : Owner × LogCacheBlock}, e ∈ (sys.enqueue i block).unsubmitted →
      e ∈ sys.unsubmitted := mem_of_mem_eraseIdx
  rcases submitted_cases (sys.enqueue i block) owner with
    heq | ⟨streamId, stream, rfl, hstream, heq⟩ | ⟨_, _, _, -, -, heq⟩
  · rw [heq] at hadvances ⊢
    exact h.keep happend hadvances rfl fun k b hb => hmem hb
  · rw [heq] at hadvances ⊢
    obtain ⟨stream', hstream', hsealed⟩ := h.owner streamId block (mem_of_getElem? hentry)
    cases hstream.symm.trans hstream'
    have hstage := (h.stage streamId stream hstream).advance hadvances fun hsealed r hr =>
      happend.streams.not_mem hstream hsealed.drained (mem_append_left _ hr)
    refine h.insert happend hadvances hstream rfl (.inr ⟨?_, fun _ => trivial⟩)
      fun k b hb => .inl (hmem hb)
    exact stage_of_sealed nofun ⟨nofun, nofun⟩ (hstage.sealed hsealed)
  · rw [heq] at hadvances ⊢
    exact h.keep happend hadvances rfl fun k b hb => hmem hb

theorem CloseInv.completeAppend {sys₁ : Sys} {ok : Bool}
    (hkept : KeptInv sys (sys₁.completeAppend streamId ok)) (hstreams : sys₁.streams = sys.streams)
    (hunsubmitted : sys₁.unsubmitted = sys.unsubmitted) :
  CloseInv (sys₁.completeAppend streamId ok)
  := by
  have hadvances := hkept.advances
  rcases completeAppend_cases sys₁ streamId ok with ⟨-, heq⟩ | ⟨stream, hstream, heq⟩
  · rw [heq] at hadvances ⊢
    exact h.keep happend hadvances hstreams fun k b hb => hunsubmitted ▸ hb
  · rw [heq] at hadvances ⊢
    have hset := congrArg (fun m => m.insert streamId { stream with
      pending := stream.pending - 1
      operable := stream.operable && ok }) hstreams
    have hold : sys.streams[streamId]? = some stream := hstreams ▸ hstream
    exact h.insert happend hadvances hold hset (.inl rfl) fun k b hb => .inl (hunsubmitted ▸ hb)

theorem CloseInv.completeTask {sys₁ : Sys} {id : Nat} {ok : Bool}
    (hkept : KeptInv sys (sys₁.completeTask id ok)) (hstreams : sys₁.streams = sys.streams)
    (hunsubmitted : sys₁.unsubmitted = sys.unsubmitted) :
  CloseInv (sys₁.completeTask id ok)
  := by
  apply h.keep happend hkept.advances
  · exact (sameAppends_completeTask sys₁ id ok).streams.trans hstreams
  · intro k b hb
    rw [unsubmitted_completeTask, hunsubmitted] at hb
    exact hb

end

/-- Sealing on behalf of someone who is not a closing leaves nothing for a closing to submit. -/
theorem mem_archive (owner : Owner) (howner : ∀ k, owner ≠ .close k) {k : Nat} {b : LogCacheBlock}
    (hb : (Owner.close k, b) ∈ sys.unsubmitted ++ (archived.map fun b => (owner, b)).toList) :
  (Owner.close k, b) ∈ sys.unsubmitted
  := by
  rcases mem_append.mp hb with hb | hb
  · exact hb
  · cases archived with
    | none => cases hb
    | some block =>
      cases mem_singleton.mp hb
      exact absurd rfl (howner k)

section

variable (h : CloseInv sys) (happend : AppendInv sys)

include h happend

/-- The tasks that are waited for hold every record that is not committed. -/
theorem CloseInv.collect (hplaced : PlacedInv sys) (hkept : KeptInv sys sys')
    (hsettled : Settled sys streamId) (hstep : sys.collect streamId = some sys') :
  CloseInv sys'
  := by
  obtain ⟨stream, hmoved, hcollecting⟩ := collect_moved hstep
  have hcovered := (h.stage streamId stream hmoved.1).sealed (by rw [hcollecting]; trivial)
  refine h.moved happend hkept hmoved ⟨fun _ => hcovered, ?_, ?_⟩ fun _ => trivial
  · intro ids hids
    obtain rfl := Closing.waiting.inj hids
    exact covered_collect hplaced hsettled hcovered
  · rintro (heq | heq) <;> cases heq

/-- A task that is through has committed its records. -/
theorem CloseInv.awaitTask (hplaced : PlacedInv sys) (hkept : KeptInv sys sys')
    (hstep : sys.awaitTask streamId = some sys') :
  CloseInv sys'
  := by
  obtain ⟨stream, ids, closing, hmoved, hwaiting, hcases⟩ := awaitTask_moved hstep
  have hold := h.stage streamId stream hmoved.1
  have hsealed := hold.sealed (by rw [hwaiting]; trivial)
  have hcovered := hold.waiting ids hwaiting
  rcases hcases with ⟨rfl, rfl⟩ | ⟨id, rest, task, rfl, htask, hcf, rfl⟩ | rfl
  · refine h.moved happend hkept hmoved ⟨fun _ => hsealed, nofun, ?_⟩ fun _ => trivial
    intro _ e he hstream
    refine (hcovered e he hstream).imp_right ?_
    rintro ⟨k, hk, -⟩
    cases hk
  · refine h.moved happend hkept hmoved ⟨fun _ => hsealed, ?_, ?_⟩ fun _ => trivial
    · intro ids hids
      obtain rfl := Closing.waiting.inj hids
      exact covered_awaited hplaced htask hcf hcovered
    · rintro (heq | heq) <;> cases heq
  · refine h.moved happend hkept hmoved ?_ fun _ => trivial
    exact stage_of_sealed nofun ⟨nofun, nofun⟩ hsealed

/-- The row is closed when nothing is left to commit. -/
theorem CloseInv.closeStream (hkept : KeptInv sys sys') {reply : Reply}
    (hstep : sys.closeStream streamId reply = some sys') :
  CloseInv sys'
  := by
  obtain ⟨rows, ok, stream, hle, ⟨hstream, rfl⟩, hfinishing⟩ := closeStream_cases hstep
  have hstage := (h.stage streamId stream hstream).advance hkept.advances fun hsealed r hr =>
    happend.streams.not_mem hstream hsealed.drained (mem_append_left _ hr)
  refine h.insert happend hkept.advances hstream rfl (.inr ⟨?_, fun _ => trivial⟩)
    fun k b hb => .inl hb
  refine ⟨fun _ => hstage.sealed (by rw [hfinishing]; trivial), nofun, ?_⟩
  intro _
  exact hstage.finished (.inl hfinishing)

theorem CloseInv.step (hnode : NodeInv sys) (hplaced : PlacedInv sys) (hkept : KeptInv sys sys')
    (ha : CloseSafe sys a) (hstep : step sys a = some sys') :
  CloseInv sys'
  := by
  cases a with
  | openStream streamId =>
    obtain ⟨hrow, rfl⟩ := openStream_cases hstep
    have hnone : ∀ stream, sys.streams[streamId]? ≠ some stream := by
      intro stream hstream
      obtain ⟨row, hrow'⟩ := hnode.order.hasRow streamId stream hstream
      cases hrow.symm.trans hrow'
    apply h.next happend hkept.advances
    · intro k stream' hstream'
      rcases lookup_insert_cases hstream' with ⟨-, rfl⟩ | ⟨-, hstream'⟩
      · exact .inl (stage_of_not_sealed _ _ nofun)
      · exact .inr ⟨stream', hstream', rfl⟩
    · intro k stream hstream hsealed
      refine ⟨stream, ?_, hsealed⟩
      rw [lookup_insert, if_neg, hstream]
      rintro rfl
      exact hnone stream hstream
    · intro k b hb
      exact .inl hb
  | startAppend streamId =>
    obtain ⟨stream, hstream, -, rfl⟩ := startAppend_cases hstep
    exact h.insert happend hkept.advances hstream rfl (.inl rfl) fun k b hb => .inl hb
  | append streamId count payload =>
    obtain ⟨stream, hstream, -, -, rfl⟩ := append_cases hstep
    exact h.insert happend hkept.advances hstream rfl (.inl rfl) fun k b hb => .inl hb
  | walFail i =>
    obtain ⟨r, -, rfl⟩ := walFail_cases hstep
    exact h.completeAppend happend hkept rfl rfl
  | confirm =>
    obtain ⟨r, wal, cache, archived, added, hook, durable, -, -, -, -, rfl⟩ := confirm_cases hstep
    exact h.keep happend hkept.advances rfl fun k b hb => mem_archive Owner.hook nofun hb
  | hookRetry =>
    obtain ⟨r, archived, cache, hook, durable, -, -, -, rfl⟩ := hookRetry_cases hstep
    exact h.keep happend hkept.advances rfl fun k b hb => mem_archive Owner.hook nofun hb
  | ack i =>
    obtain ⟨r, -, rfl⟩ := ack_cases hstep
    exact h.completeAppend happend hkept rfl rfl
  | upload streamId =>
    obtain ⟨archived, cache, -, rfl⟩ := upload_cases hstep
    exact h.keep happend hkept.advances rfl fun k b hb => mem_archive Owner.upload nofun hb
  | submit i => exact h.submit happend hkept hstep
  | prepare ok =>
    obtain ⟨id, queue, -, ⟨-, rfl⟩ | ⟨-, rfl⟩⟩ := prepare_cases hstep
    · exact h.keep happend hkept.advances rfl fun k b hb => hb
    · exact h.completeTask happend hkept rfl rfl
  | uploaded id ok =>
    obtain ⟨task, -, rfl⟩ := uploaded_cases hstep
    exact h.keep happend hkept.advances rfl fun k b hb => hb
  | removeInflight id =>
    obtain ⟨task, -, -, rfl⟩ := removeInflight_cases hstep
    exact h.keep happend hkept.advances rfl fun k b hb => hb
  | commit reply =>
    obtain ⟨id, queue, task, -, -, -, hcases⟩ := commit_cases hstep
    rcases hcases with ⟨-, rfl⟩ | ⟨-, rows, -, rfl⟩ | ⟨-, rows, -, rfl⟩
    · exact h.completeTask happend hkept rfl rfl
    · exact h.keep happend hkept.advances rfl fun k b hb => hb
    · exact h.keep happend hkept.advances rfl fun k b hb => hb
  | commitDone =>
    obtain ⟨id, ok, task, -, -, ⟨-, rfl⟩ | ⟨-, rfl⟩⟩ := commitDone_cases hstep
    · exact h.completeTask happend hkept rfl rfl
    · exact h.completeTask happend hkept rfl rfl
  | trim i =>
    obtain ⟨offset, -, rfl⟩ := trim_cases hstep
    exact h.keep happend hkept.advances rfl fun k b hb => hb
  | close streamId =>
    obtain ⟨stream, hmoved, hno⟩ := close_moved hstep
    refine h.moved happend hkept hmoved (stage_of_not_sealed _ _ nofun) ?_
    rw [hno]
    exact id
  | drained streamId =>
    obtain ⟨stream, hmoved, hdraining, -⟩ := drained_moved hstep
    refine h.moved happend hkept hmoved (stage_of_not_sealed _ _ nofun) ?_
    rw [hdraining]
    exact id
  | closeSeal streamId => exact h.closeSeal happend hnode hkept hstep
  | collect streamId => exact h.collect happend hplaced hkept ha hstep
  | awaitTask streamId => exact h.awaitTask happend hplaced hkept hstep
  | closeStream streamId reply => exact h.closeStream happend hkept hstep

end

/-! ### Runs -/

/-- The invariant of runs whose steps meet the condition. -/
structure DurableInv (sys : Sys) : Prop where
  node : NodeInv sys
  appends : AppendInv sys
  placed : PlacedInv sys
  fits : FitsInv sys
  close : CloseInv sys

theorem DurableInv.step (h : DurableInv sys) (ha : CloseSafe sys a)
    (hstep : step sys a = some sys') :
  DurableInv sys'
  := by
  have hkept := KeptInv.step h.placed h.fits h.node ha.small hstep
  refine ⟨h.node.step hstep, ?_, hkept.placed, hkept.fits,
    h.close.step h.appends h.node h.placed hkept ha hstep⟩
  apply h.appends.step h.node _ hstep
  intro streamId b stream hb hstream
  obtain ⟨found, hfound, hsealed⟩ := h.close.owner streamId b hb
  cases hstream.symm.trans hfound
  exact hsealed.drained

theorem durableInv_start (capacity cacheBlockMaxSize : Nat) {maxCacheBlockStreamCount : Nat}
    (hcount : 0 < maxCacheBlockStreamCount) :
  DurableInv (Sys.start capacity cacheBlockMaxSize maxCacheBlockStreamCount)
  := by
  have hnone : ∀ (streamId : Nat) (stream : S3Stream),
      (Sys.start capacity cacheBlockMaxSize maxCacheBlockStreamCount).streams[streamId]?
        ≠ some stream := by
    intro streamId stream
    simp [Sys.start]
  refine ⟨nodeInv_start _ _ _, ⟨⟨?_, ?_, ?_⟩, ?_⟩, ⟨?_, ?_, ?_, ?_⟩, ⟨?_, ?_, hcount⟩, ⟨?_, ?_⟩⟩
  · intro streamId stream hstream
    exact absurd hstream (hnone streamId stream)
  · intro streamId stream hstream
    exact absurd hstream (hnone streamId stream)
  · intro streamId stream hstream
    exact absurd hstream (hnone streamId stream)
  · rintro r (hr | hr | hr) <;> cases hr
  · intro e he
    cases he
  · intro id task htask
    simp [Sys.start] at htask
  · intro id hid
    cases hid
  · intro id task htask
    simp [Sys.start] at htask
  · intro r hr
    cases hr
  · exact not_stuck_freshBlock (c := { LogCache.new capacity (max cacheBlockMaxSize 1)
      maxCacheBlockStreamCount with nextBlockId := 0 }) hcount
  · intro streamId stream hstream
    exact absurd hstream (hnone streamId stream)
  · intro streamId b hb
    cases hb

/-- In a run whose steps meet the condition, the acknowledged records of a stream whose closing has
returned without an error are committed. -/
theorem closed_committed {capacity cacheBlockMaxSize maxCacheBlockStreamCount : Nat}
    {actions : List Action} (hcount : 0 < maxCacheBlockStreamCount)
    (hsafe : Along step CloseSafe actions
      (Sys.start capacity cacheBlockMaxSize maxCacheBlockStreamCount))
    (hrun : run (Sys.start capacity cacheBlockMaxSize maxCacheBlockStreamCount) actions = some sys)
    {streamId : Nat} {stream : S3Stream} (hstream : sys.streams[streamId]? = some stream)
    (hclosed : stream.closing = .returned true) :
  ∀ r ∈ sys.acked, r.streamId = streamId → Committed sys.rows r
  := by
  have hinv : DurableInv sys := by
    apply Along.induction (I := DurableInv) _ hsafe _ hrun
    · intro sys a sys' ha h hstep
      exact h.step ha hstep
    · exact durableInv_start capacity cacheBlockMaxSize hcount
  intro r hr heq
  obtain ⟨e, he, rfl⟩ := mem_map.mp (hinv.appends.confirmed r (.inr (.inr hr)))
  have hfinished := (hinv.close.stage streamId stream hstream).finished (.inr hclosed)
  exact (hfinished e he heq).resolve_right id

/-- A stream is closed up to the point where the closing looks for tasks in flight. -/
def drainRun (streamId : Nat) : List Action :=
  [.close streamId, .drained streamId, .closeSeal streamId]

/-- The closing seals, submits and waits for the block of its stream. -/
def closeRun : List Action :=
  [.openStream 1] ++ appendRun 1 ++ drainRun 1 ++
    [.submit 0, .collect 1, .prepare true, .uploaded 0 true, .commit .answered, .commitDone,
      .awaitTask 1, .awaitTask 1, .closeStream 1 .answered]

theorem closed_committed_closeRun :
  ∃ sys stream, run (Sys.start 1000000 1000 100) closeRun = some sys ∧
    sys.streams[1]? = some stream ∧ stream.closing = .returned true ∧
    sys.acked = [⟨1, 0, 1, [7]⟩] ∧ ∀ r ∈ sys.acked, r.streamId = 1 → Committed sys.rows r
  := by
  have hsafe : Along step CloseSafe closeRun (Sys.start 1000000 1000 100) := by
    decide +kernel
  obtain ⟨sys, hrun, hstream, hacked⟩ : ∃ sys,
      run (Sys.start 1000000 1000 100) closeRun = some sys ∧
      sys.streams[1]? = some ⟨1, false, 0, 0, .returned true⟩ ∧
      sys.acked = [⟨1, 0, 1, [7]⟩] := by
    decide +kernel
  exact ⟨sys, _, hrun, hstream, rfl, hacked,
    closed_committed (by decide) hsafe hrun hstream rfl⟩

/-- A forced upload has sealed the block of the stream and has not submitted it yet when the closing
looks for tasks in flight. -/
def sealedElsewhereRun : List Action :=
  [.openStream 1] ++ appendRun 1 ++ [.upload matchAllStreams] ++ drainRun 1 ++
    [.collect 1, .awaitTask 1, .closeStream 1 .answered]

/-- The closing returns without an error and the row is closed, but the acknowledged batch is not
committed. -/
theorem closed_uncommitted_sealedElsewhereRun :
  ∃ sys stream, run (Sys.start 1000000 1000 100) sealedElsewhereRun = some sys ∧
    sys.streams[1]? = some stream ∧ stream.closing = .returned true ∧
    sys.rows[1]? = some ⟨0, false⟩ ∧ ⟨1, 0, 1, [7]⟩ ∈ sys.acked ∧
    ¬ Committed sys.rows ⟨1, 0, 1, [7]⟩
  := by
  obtain ⟨sys, hrun, hstream, hrest⟩ : ∃ sys,
      run (Sys.start 1000000 1000 100) sealedElsewhereRun = some sys ∧
      sys.streams[1]? = some ⟨1, false, 0, 0, .returned true⟩ ∧
      sys.rows[1]? = some ⟨0, false⟩ ∧ ⟨1, 0, 1, [7]⟩ ∈ sys.acked ∧
      ¬ Committed sys.rows ⟨1, 0, 1, [7]⟩ := by
    decide +kernel
  exact ⟨sys, _, hrun, hstream, rfl, hrest⟩

/-- The task of the block has failed and left the set of those in flight. -/
def failedTaskRun : List Action :=
  [.openStream 1] ++ appendRun 1 ++
    [.upload matchAllStreams, .submit 0, .prepare false, .removeInflight 0] ++ drainRun 1 ++
    [.collect 1, .awaitTask 1, .closeStream 1 .answered]

-- The same happens after a failure of the task.
example : (run (Sys.start 1000000 1000 100) failedTaskRun).any fun sys =>
    (sys.streams[1]?).any (fun stream => stream.closing = .returned true) ∧
      ⟨1, 0, 1, [7]⟩ ∈ sys.acked ∧ ¬ Committed sys.rows ⟨1, 0, 1, [7]⟩ := by
  decide +kernel

/-- In every run, whatever fails, a confirmed record is in one of these places, and the records of a
task that has succeeded are committed. -/
theorem confirmed_held {capacity cacheBlockMaxSize maxCacheBlockStreamCount : Nat}
    {actions : List Action} (hcount : 0 < maxCacheBlockStreamCount)
    (hsmall : ∀ a ∈ actions, Small a)
    (hrun : run (Sys.start capacity cacheBlockMaxSize maxCacheBlockStreamCount) actions
      = some sys) :
  (∀ e ∈ sys.confirmed, Committed sys.rows e.2 ∨ sys.cache.active.Has e.2 ∨
      Unsubmitted sys e.2 ∨ InTask sys e.2) ∧
    ∀ (id : Nat) (task : TaskContext), sys.tasks[id]? = some task → task.cf = some true →
      ∀ r, task.block.Has r → Committed sys.rows r
  := by
  have hinv : NodeInv sys ∧ PlacedInv sys ∧ FitsInv sys := by
    have hstart := durableInv_start capacity cacheBlockMaxSize hcount
    apply foldlM_some_induction (I := fun sys => NodeInv sys ∧ PlacedInv sys ∧ FitsInv sys) _
      ⟨hstart.node, hstart.placed, hstart.fits⟩ hrun
    rintro sys a sys' ha ⟨hnode, hplaced, hfits⟩ hstep
    have hkept := KeptInv.step hplaced hfits hnode (hsmall a ha) hstep
    exact ⟨hnode.step hstep, hkept.placed, hkept.fits⟩
  exact ⟨hinv.2.1.placed, hinv.2.1.done⟩

theorem confirmed_held_failedTaskRun :
  ∃ sys, run (Sys.start 1000000 1000 100) failedTaskRun = some sys ∧
    sys.confirmed.length = 1 ∧ ∀ e ∈ sys.confirmed, Committed sys.rows e.2 ∨
      sys.cache.active.Has e.2 ∨ Unsubmitted sys e.2 ∨ InTask sys e.2
  := by
  have hsmall : ∀ a ∈ failedTaskRun, Small a := by
    simp [failedTaskRun, appendRun, drainRun, Small, i32Max]
  obtain ⟨sys, hrun, hconfirmed⟩ : ∃ sys,
      run (Sys.start 1000000 1000 100) failedTaskRun = some sys ∧ sys.confirmed.length = 1 := by
    decide +kernel
  exact ⟨sys, hrun, hconfirmed, (confirmed_held (by decide) hsmall hrun).1⟩

end Storage
