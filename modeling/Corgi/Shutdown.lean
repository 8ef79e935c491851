import Corgi.GroupCommit
import Corgi.Runs

/-!
# Stopping the processor

The processor of a lun, the calls of `submitRequest` that race with it, and `RemoveBatch` with
the calls of `stop`. A call sends its request to `dataProc` or sees that `stopCh` is closed, and
a select with both to choose from takes either.

No request is answered twice. Once `stop` has returned and no call of `dispatch` is in progress,
every request is answered exactly when each was sent while the processor was still there
(`answered_iff_sent_in_time`). `sent_after_drain` is a run that sends later.
-/

set_option linter.unusedSectionVars false

namespace Corgi

/-! ## The model -/

/-- What a request may be answered. -/
inductive Answer
  | noProcessor
  /-- By `dispatch`. -/
  | isStopped
  /-- By `drainOnStop`. -/
  | stopped
  /-- By `flush`, with the outcome of the batch. -/
  | flushed (err : Option BatchError)
  deriving DecidableEq, Repr

/-- The text of the error, if the answer is one. -/
def Answer.message (lun : Bytes) : Answer → Option String
  | noProcessor => some s!"BatchPebble: no processor registered for lun {strconvQuote lun}"
  | isStopped => some s!"BatchPebble for lun {strconvQuote lun} is stopped"
  | stopped => some s!"BatchPebble for lun {strconvQuote lun} stopped"
  | flushed err => err.map BatchError.message

/-- Where the call of `submitRequest` is that made the request. -/
inductive SubmitPhase
  | new
  /-- At the select of `dispatch`. -/
  | dispatching
  | returned
  deriving DecidableEq, Repr

/-- Where `runProcessor` is. -/
inductive ProcessorPhase (ι : Type)
  /-- At the select for the first request. -/
  | waiting
  | draining (requests : List ι)
  /-- In the loop of `flush` that answers its requests. -/
  | notifying (answers : List (ι × Option BatchError))
  /-- At the select after a flush. -/
  | checking
  /-- In `drainOnStop`. -/
  | stopping
  | exited

/-- The requests that the processor has taken and not answered. -/
def ProcessorPhase.requests {ι : Type} : ProcessorPhase ι → List ι
  | draining requests => requests
  | notifying answers => answers.map Prod.fst
  | _ => []

/-- The processor of a lun, and the requests made for it. -/
structure BatchPebble (ι : Type) where
  /-- The lun is in `batchMap`. -/
  registered : Bool
  /-- The channel, oldest first. -/
  dataProc : List ι
  /-- `stopCh` is closed. -/
  stopCh : Bool
  processor : ProcessorPhase ι
  db : DB
  batch : List BatchOp
  phase : ι → SubmitPhase
  done : ι → Bool
  /-- Everything sent to the request's channel. -/
  result : ι → List Answer
  /-- Calls of `stop` that wait. -/
  stops : ℕ
  /-- A call of `stop` has returned. -/
  stopReturned : Bool

/-- The steps of the requests, of the processor and of `RemoveBatch`. -/
inductive BatchPebbleEvent (ι : Type)
  /-- `submitRequest` looks the lun up. -/
  | load (i : ι)
  /-- The select of `dispatch` sends. -/
  | send (i : ι)
  /-- The select of `dispatch` sees that `stopCh` is closed. -/
  | refuse (i : ι)
  /-- The processor takes the first request. -/
  | first
  /-- The processor takes one more. -/
  | take
  | flush (commit : Option BatchError)
  /-- `flush` answers one request, or is done. -/
  | notify
  /-- The processor sees that `stopCh` is closed, or that it is not. -/
  | check
  /-- `drainOnStop` answers one request, or is done. -/
  | drainOnStop
  | removeBatch
  | stop
  /-- A call of `stop` returns. -/
  | stopReturn

namespace BatchPebble

variable {ι α : Type} [DecidableEq ι]

/-- A processor that has just been started. -/
def newBatchPebble (db : DB) : BatchPebble ι where
  registered := true
  dataProc := []
  stopCh := false
  processor := .waiting
  db := db
  batch := []
  phase := fun _ => .new
  done := fun _ => false
  result := fun _ => []
  stops := 0
  stopReturned := false

/-- Mark a request as done and send its result. -/
def tell (s : BatchPebble ι) (i : ι) (a : Answer) : BatchPebble ι :=
  { s with
    done := Function.update s.done i true
    result := Function.update s.result i (s.result i ++ [a]) }

/-- Answer a request that is not done. -/
def answer (s : BatchPebble ι) (i : ι) (a : Answer) : BatchPebble ι :=
  if s.done i then s else s.tell i a

/-- The call that made the request moves on. -/
def goto (s : BatchPebble ι) (i : ι) (phase : SubmitPhase) : BatchPebble ι :=
  { s with phase := Function.update s.phase i phase }

variable (json : JSONDeleteMark) (request : ι → BatchRequest α)

/-- The batch of the requests is run, and its outcome is to be told to each. -/
def flushRequests (s : BatchPebble ι) (requests : List ι) (commit : Option BatchError) :
    BatchPebble ι :=
  let o := Corgi.flush json s.db s.batch (requests.map request) commit
  { s with db := o.after, batch := o.batch, processor := .notifying (requests.zip o.answers) }

/-- One step. -/
def Step (s : BatchPebble ι) : BatchPebbleEvent ι → BatchPebble ι → Prop
  | .load i, t => s.phase i = .new ∧
    t = if s.registered then s.goto i .dispatching else (s.tell i .noProcessor).goto i .returned
  | .send i, t => s.phase i = .dispatching ∧ s.dataProc.length < 10000 ∧
    t = { s with dataProc := s.dataProc ++ [i] }.goto i .returned
  | .refuse i, t => s.phase i = .dispatching ∧ s.stopCh = true ∧
    t = (s.answer i .isStopped).goto i .returned
  | .first, t => ∃ i rest, s.processor = .waiting ∧ s.dataProc = i :: rest ∧
    t = { s with dataProc := rest, processor := .draining [i] }
  | .take, t => ∃ i rest requests, s.processor = .draining requests ∧ requests.length < 1000 ∧
    s.dataProc = i :: rest ∧
    t = { s with dataProc := rest, processor := .draining (requests ++ [i]) }
  | .flush commit, t => ∃ requests, s.processor = .draining requests ∧
    (1000 ≤ requests.length ∨ s.dataProc = []) ∧ t = s.flushRequests json request requests commit
  | .notify, t =>
    (s.processor = .notifying [] ∧ t = { s with processor := .checking }) ∨
    ∃ i err rest, s.processor = .notifying ((i, err) :: rest) ∧
      t = { s with processor := .notifying rest }.answer i (.flushed err)
  | .check, t =>
    ((s.processor = .waiting ∨ s.processor = .checking) ∧ s.stopCh = true ∧
      t = { s with processor := .stopping }) ∨
    (s.processor = .checking ∧ s.stopCh = false ∧ t = { s with processor := .waiting })
  | .drainOnStop, t => s.processor = .stopping ∧
    ((s.dataProc = [] ∧ t = { s with processor := .exited }) ∨
    ∃ i rest, s.dataProc = i :: rest ∧ t = { s with dataProc := rest }.answer i .stopped)
  | .removeBatch, t => t = { s with registered := false }
  | .stop, t => t = { s with stopCh := true, stops := s.stops + 1 }
  | .stopReturn, t => 0 < s.stops ∧ s.processor = .exited ∧
    t = { s with stops := s.stops - 1, stopReturned := true }

/-- A request is sent while the processor is there. -/
def InTime (s : BatchPebble ι) : BatchPebbleEvent ι → Prop
  | .send _ => s.processor ≠ .exited
  | _ => True

/-! ## Requests in flight -/

/-- The requests `flight` were sent and are not answered, every other request whose call has
returned is answered, and nothing is answered twice. -/
structure Tracks (s : BatchPebble ι) (flight : List ι) : Prop where
  nodup : flight.Nodup
  sent : ∀ i ∈ flight, s.phase i = .returned ∧ s.done i = false
  answered : ∀ i, s.phase i = .returned → i ∉ flight → s.done i = true
  fresh : ∀ i, s.phase i ≠ .returned → s.done i = false
  result : ∀ i, (s.result i).length = if s.done i then 1 else 0

variable {json request} {s t : BatchPebble ι} {flight flight' : List ι} {i : ι}

theorem Tracks.perm (h : s.Tracks flight) (hp : flight.Perm flight') : s.Tracks flight' :=
  ⟨hp.nodup_iff.mp h.nodup, fun i hi => h.sent i (hp.mem_iff.mpr hi),
    fun i hi hmem => h.answered i hi (mt hp.mem_iff.mp hmem), h.fresh, h.result⟩

/-- Only the requests matter. -/
theorem Tracks.congr (h : s.Tracks flight) (h₁ : t.phase = s.phase) (h₂ : t.done = s.done)
    (h₃ : t.result = s.result) : t.Tracks flight :=
  ⟨h.nodup, by rw [h₁, h₂]; exact h.sent, by rw [h₁, h₂]; exact h.answered,
    by rw [h₁, h₂]; exact h.fresh, by rw [h₂, h₃]; exact h.result⟩

theorem Tracks.tell (h : s.Tracks (i :: flight)) (a : Answer) : (s.tell i a).Tracks flight := by
  obtain ⟨hi, hnodup⟩ := List.nodup_cons.mp h.nodup
  obtain ⟨hphase, hdone⟩ := h.sent i List.mem_cons_self
  refine ⟨hnodup, fun j hj => ?_, fun j hj hmem => ?_, fun j hj => ?_, fun j => ?_⟩
  all_goals by_cases hji : j = i
  · exact absurd (hji ▸ hj) hi
  · refine ⟨(h.sent j (List.mem_cons_of_mem _ hj)).1, ?_⟩
    exact (Function.update_of_ne hji _ _).trans (h.sent j (List.mem_cons_of_mem _ hj)).2
  · subst hji
    exact Function.update_self _ _ _
  · refine (Function.update_of_ne hji _ _).trans (h.answered j hj ?_)
    exact List.not_mem_cons_of_ne_of_not_mem hji hmem
  · exact absurd (hji ▸ hphase) hj
  · exact (Function.update_of_ne hji _ _).trans (h.fresh j hj)
  · subst hji
    have hres := h.result j
    rw [hdone] at hres
    simp only [BatchPebble.tell, Function.update_self, List.length_append, hres]
    rfl
  · simp only [BatchPebble.tell, Function.update_of_ne hji]
    exact h.result j

/-- Answered with or without the check, a request that is not done. -/
theorem Tracks.answer (h : s.Tracks (i :: flight)) (a : Answer) : (s.answer i a).Tracks flight := by
  rw [BatchPebble.answer, (h.sent i List.mem_cons_self).2]
  exact h.tell a

theorem phase_goto_self (s : BatchPebble ι) (i : ι) (phase : SubmitPhase) :
    (s.goto i phase).phase i = phase :=
  Function.update_self _ _ _

theorem phase_goto_of_ne (s : BatchPebble ι) {i j : ι} (h : j ≠ i) {phase : SubmitPhase} :
    (s.goto i phase).phase j = s.phase j :=
  Function.update_of_ne h _ _

theorem goto_answer (s : BatchPebble ι) (i : ι) (a : Answer) (phase : SubmitPhase) :
    (s.answer i a).goto i phase = (s.goto i phase).answer i a := by
  rw [answer, answer]
  change (if s.done i then s else s.tell i a).goto i phase =
    if s.done i then s.goto i phase else (s.goto i phase).tell i a
  split_ifs <;> rfl

/-- A call returns. -/
theorem Tracks.goto_returned (h : s.Tracks flight) (hi : s.phase i ≠ .returned) :
    (s.goto i .returned).Tracks (i :: flight) := by
  have hmem : i ∉ flight := fun hmem => hi (h.sent i hmem).1
  refine ⟨List.nodup_cons.mpr ⟨hmem, h.nodup⟩, fun j hj => ?_, fun j hj hne => ?_, fun j hj => ?_,
    h.result⟩
  · rcases List.mem_cons.mp hj with rfl | hj
    · exact ⟨s.phase_goto_self j _, h.fresh j hi⟩
    · have hji : j ≠ i := fun heq => hmem (heq ▸ hj)
      rw [s.phase_goto_of_ne hji]
      exact h.sent j hj
  · obtain ⟨hji, hne⟩ := not_or.mp (mt List.mem_cons.mpr hne)
    rw [s.phase_goto_of_ne hji] at hj
    exact h.answered j hj hne
  · by_cases hji : j = i
    · exact absurd (hji ▸ s.phase_goto_self i .returned) hj
    · rw [s.phase_goto_of_ne hji] at hj
      exact h.fresh j hj

theorem Tracks.goto_dispatching (h : s.Tracks flight) (hi : s.phase i ≠ .returned) :
    (s.goto i .dispatching).Tracks flight := by
  have hphase : ∀ j, (s.goto i .dispatching).phase j = .returned ↔ s.phase j = .returned := by
    intro j
    by_cases hji : j = i
    · subst hji
      rw [phase_goto_self]
      exact iff_of_false (by decide) hi
    · rw [s.phase_goto_of_ne hji]
  exact ⟨h.nodup, fun j hj => ⟨(hphase j).mpr (h.sent j hj).1, (h.sent j hj).2⟩,
    fun j hj => h.answered j ((hphase j).mp hj), fun j hj => h.fresh j (mt (hphase j).mpr hj),
    h.result⟩

/-! ## Every run -/

/-- What holds in every state. -/
structure Sound (s : BatchPebble ι) : Prop where
  tracks : s.Tracks (s.dataProc ++ s.processor.requests)
  exited : s.stopReturned = true → s.processor = .exited

theorem sound_newBatchPebble (db : DB) : (newBatchPebble db : BatchPebble ι).Sound :=
  ⟨⟨List.nodup_nil, nofun, nofun, fun _ _ => rfl, fun _ => rfl⟩, nofun⟩

theorem fst_zip_answers (db : DB) (batch : List BatchOp) (requests : List ι)
    (commit : Option BatchError) :
    (requests.zip (flush json db batch (requests.map request) commit).answers).map Prod.fst =
      requests := by
  refine List.map_fst_zip (le_of_eq ?_)
  rw [flush, List.length_map, List.length_map]

theorem answer_processor (s : BatchPebble ι) (i : ι) (a : Answer) :
    (s.answer i a).processor = s.processor ∧ (s.answer i a).dataProc = s.dataProc ∧
      (s.answer i a).stopReturned = s.stopReturned := by
  rw [answer]
  split_ifs <;> exact ⟨rfl, rfl, rfl⟩

theorem Sound.step (h : s.Sound) {e : BatchPebbleEvent ι} (hstep : Step json request s e t) :
    t.Sound := by
  obtain ⟨htracks, hexited⟩ := h
  have hrunning : s.processor ≠ .exited → ¬s.stopReturned = true := mt hexited
  cases e with
  | load i =>
    obtain ⟨hi, rfl⟩ := hstep
    have hne : s.phase i ≠ .returned := by rw [hi]; decide
    split_ifs
    · exact ⟨htracks.goto_dispatching hne, hexited⟩
    · exact ⟨(htracks.goto_returned hne).tell .noProcessor, hexited⟩
  | send i =>
    obtain ⟨hi, -, rfl⟩ := hstep
    have hne : s.phase i ≠ .returned := by rw [hi]; decide
    refine ⟨(htracks.goto_returned hne).perm ?_ |>.congr rfl rfl rfl, hexited⟩
    change (i :: (s.dataProc ++ s.processor.requests)).Perm
      ((s.dataProc ++ [i]) ++ s.processor.requests)
    rw [List.append_assoc]
    exact List.perm_middle.symm
  | refuse i =>
    obtain ⟨hi, -, rfl⟩ := hstep
    have hne : s.phase i ≠ .returned := by rw [hi]; decide
    rw [goto_answer]
    obtain ⟨hp, hd, hr⟩ := (s.goto i .returned).answer_processor i .isStopped
    refine ⟨?_, by rw [hp, hr]; exact hexited⟩
    rw [hp, hd]
    exact (htracks.goto_returned hne).answer .isStopped
  | first =>
    obtain ⟨i, rest, hp, hd, rfl⟩ := hstep
    refine ⟨?_, fun hr => absurd hr (hrunning (by rw [hp]; nofun))⟩
    rw [hp, hd] at htracks
    refine (htracks.perm ?_).congr rfl rfl rfl
    change (i :: (rest ++ [])).Perm (rest ++ [i])
    rw [List.append_nil]
    exact (List.perm_append_singleton i rest).symm
  | take =>
    obtain ⟨i, rest, requests, hp, -, hd, rfl⟩ := hstep
    refine ⟨?_, fun hr => absurd hr (hrunning (by rw [hp]; nofun))⟩
    rw [hp, hd] at htracks
    refine (htracks.perm ?_).congr rfl rfl rfl
    change (i :: (rest ++ requests)).Perm (rest ++ (requests ++ [i]))
    rw [← List.append_assoc]
    exact (List.perm_append_singleton i _).symm
  | flush commit =>
    obtain ⟨requests, hp, -, rfl⟩ := hstep
    refine ⟨?_, fun hr => absurd hr (hrunning (by rw [hp]; nofun))⟩
    rw [hp] at htracks
    refine Tracks.congr (s := s) ?_ rfl rfl rfl
    rw [flushRequests, ProcessorPhase.requests, fst_zip_answers]
    exact htracks
  | notify =>
    rcases hstep with ⟨hp, rfl⟩ | ⟨i, err, rest, hp, rfl⟩
    · refine ⟨?_, fun hr => absurd hr (hrunning (by rw [hp]; nofun))⟩
      rw [hp] at htracks
      exact htracks.congr rfl rfl rfl
    · obtain ⟨hp', hd, hr⟩ :=
        BatchPebble.answer_processor { s with processor := .notifying rest } i (.flushed err)
      refine ⟨?_, fun h => absurd (hr ▸ h) (hrunning (by rw [hp]; nofun))⟩
      rw [hp', hd]
      rw [hp] at htracks
      have hmid : (s.dataProc ++ i :: rest.map Prod.fst).Perm
          (i :: (s.dataProc ++ rest.map Prod.fst)) := List.perm_middle
      refine Tracks.answer ?_ (.flushed err)
      exact (htracks.perm hmid).congr rfl rfl rfl
  | check =>
    rcases hstep with ⟨hp, -, rfl⟩ | ⟨hp, -, rfl⟩
    · refine ⟨?_, fun hr => absurd hr (hrunning (by rcases hp with hp | hp <;> rw [hp] <;> nofun))⟩
      have hnil : s.processor.requests = [] := by rcases hp with hp | hp <;> rw [hp] <;> rfl
      rw [hnil] at htracks
      exact htracks.congr rfl rfl rfl
    · refine ⟨?_, fun hr => absurd hr (hrunning (by rw [hp]; nofun))⟩
      rw [hp] at htracks
      exact htracks.congr rfl rfl rfl
  | drainOnStop =>
    obtain ⟨hp, ⟨hd, rfl⟩ | ⟨i, rest, hd, rfl⟩⟩ := hstep
    · refine ⟨?_, fun _ => rfl⟩
      rw [hp] at htracks
      exact htracks.congr rfl rfl rfl
    · obtain ⟨hp', hd', hr⟩ := BatchPebble.answer_processor { s with dataProc := rest } i .stopped
      refine ⟨?_, by rw [hp', hr]; exact hexited⟩
      rw [hp', hd']
      rw [hd] at htracks
      refine Tracks.answer ?_ .stopped
      exact htracks.congr rfl rfl rfl
  | removeBatch =>
    obtain rfl := hstep
    exact ⟨htracks.congr rfl rfl rfl, hexited⟩
  | stop =>
    obtain rfl := hstep
    exact ⟨htracks.congr rfl rfl rfl, hexited⟩
  | stopReturn =>
    obtain ⟨-, hp, rfl⟩ := hstep
    exact ⟨htracks.congr rfl rfl rfl, fun _ => hp⟩

/-- A processor that has exited stays so, and nothing leaves the channel any more. -/
theorem Step.of_exited {e : BatchPebbleEvent ι} (hstep : Step json request s e t)
    (h : s.processor = .exited) :
    t.processor = .exited ∧ (t.dataProc = s.dataProc ∨ ∃ i, e = .send i ∧
      t.dataProc = s.dataProc ++ [i]) := by
  cases e with
  | load i =>
    obtain ⟨-, rfl⟩ := hstep
    split_ifs <;> exact ⟨h, Or.inl rfl⟩
  | send i =>
    obtain ⟨-, -, rfl⟩ := hstep
    exact ⟨h, Or.inr ⟨i, rfl, rfl⟩⟩
  | refuse i =>
    obtain ⟨-, -, rfl⟩ := hstep
    obtain ⟨hp, hd, -⟩ := s.answer_processor i .isStopped
    exact ⟨hp.trans h, Or.inl hd⟩
  | first =>
    obtain ⟨i, rest, hp, -⟩ := hstep
    exact absurd (h.symm.trans hp) nofun
  | take =>
    obtain ⟨i, rest, requests, hp, -⟩ := hstep
    exact absurd (h.symm.trans hp) nofun
  | flush commit =>
    obtain ⟨requests, hp, -⟩ := hstep
    exact absurd (h.symm.trans hp) nofun
  | notify =>
    rcases hstep with ⟨hp, -⟩ | ⟨i, err, rest, hp, -⟩ <;> exact absurd (h.symm.trans hp) nofun
  | check =>
    rcases hstep with ⟨hp | hp, -⟩ | ⟨hp, -⟩ <;> exact absurd (h.symm.trans hp) nofun
  | drainOnStop => exact absurd (h.symm.trans hstep.1) nofun
  | removeBatch =>
    obtain rfl := hstep
    exact ⟨h, Or.inl rfl⟩
  | stop =>
    obtain rfl := hstep
    exact ⟨h, Or.inl rfl⟩
  | stopReturn =>
    obtain ⟨-, -, rfl⟩ := hstep
    exact ⟨h, Or.inl rfl⟩

/-- The processor exits when it has found the channel empty. -/
theorem Step.exits {e : BatchPebbleEvent ι} (hstep : Step json request s e t)
    (h : t.processor = .exited) : s.processor = .exited ∨ t.dataProc = [] := by
  cases e with
  | load i =>
    obtain ⟨-, rfl⟩ := hstep
    split_ifs at h <;> exact Or.inl h
  | send i =>
    obtain ⟨-, -, rfl⟩ := hstep
    exact Or.inl h
  | refuse i =>
    obtain ⟨-, -, rfl⟩ := hstep
    exact Or.inl ((s.answer_processor i .isStopped).1.symm.trans h)
  | first =>
    obtain ⟨i, rest, -, -, rfl⟩ := hstep
    cases h
  | take =>
    obtain ⟨i, rest, requests, -, -, -, rfl⟩ := hstep
    cases h
  | flush commit =>
    obtain ⟨requests, -, -, rfl⟩ := hstep
    cases h
  | notify =>
    rcases hstep with ⟨-, rfl⟩ | ⟨i, err, rest, -, rfl⟩
    · cases h
    · cases (BatchPebble.answer_processor _ i (.flushed err)).1.symm.trans h
  | check => rcases hstep with ⟨-, -, rfl⟩ | ⟨-, -, rfl⟩ <;> cases h
  | drainOnStop =>
    obtain ⟨hp, ⟨hd, rfl⟩ | ⟨i, rest, hd, rfl⟩⟩ := hstep
    · exact Or.inr hd
    · rw [(BatchPebble.answer_processor _ i .stopped).1] at h
      exact absurd (hp.symm.trans h) nofun
  | removeBatch =>
    obtain rfl := hstep
    exact Or.inl h
  | stop =>
    obtain rfl := hstep
    exact Or.inl h
  | stopReturn => exact Or.inl hstep.2.1

/-- Sent in time, all requests are taken before the processor exits. -/
theorem dataProc_of_inTime {db : DB} {events : List (BatchPebbleEvent ι)}
    (hrun : Run (fun s e t => Step json request s e t ∧ s.InTime e) (newBatchPebble db) events s) :
    s.processor = .exited → s.dataProc = [] := by
  refine hrun.invariant (I := fun s => s.processor = .exited → s.dataProc = [])
    (fun s e t hs hstep ht => ?_) nofun
  rcases hstep.1.exits ht with hexited | hnil
  · rcases (hstep.1.of_exited hexited).2 with heq | ⟨i, rfl, -⟩
    · rw [heq, hs hexited]
    · exact absurd hexited hstep.2
  · exact hnil

/-- A request sent too late stays in the channel. -/
theorem inTime_or_stuck {db : DB} {events : List (BatchPebbleEvent ι)}
    (hrun : Run (Step json request) (newBatchPebble db) events s) :
    Run (fun s e t => Step json request s e t ∧ s.InTime e) (newBatchPebble db) events s ∨
      s.processor = .exited ∧ s.dataProc ≠ [] := by
  refine hrun.history (I := fun events s => Run (fun s e t => Step json request s e t ∧ s.InTime e)
    (newBatchPebble db) events s ∨ s.processor = .exited ∧ s.dataProc ≠ [])
    (fun events s e t hs hstep => ?_) (Or.inl .nil)
  rcases hs with hs | ⟨hexited, hne⟩
  · by_cases hin : s.InTime e
    · exact Or.inl (hs.snoc ⟨hstep, hin⟩)
    · obtain ⟨i, rfl, hexited⟩ : ∃ i, e = .send i ∧ s.processor = .exited := by
        cases e with
        | send i => exact ⟨i, rfl, not_not.mp hin⟩
        | _ => exact absurd trivial hin
      obtain ⟨-, -, rfl⟩ := hstep
      exact Or.inr ⟨hexited, List.append_ne_nil_of_right_ne_nil _ (List.cons_ne_nil _ _)⟩
  · obtain ⟨hexited', heq | ⟨i, -, heq⟩⟩ := hstep.of_exited hexited
    · exact Or.inr ⟨hexited', heq ▸ hne⟩
    · exact Or.inr ⟨hexited', heq ▸ List.append_ne_nil_of_left_ne_nil hne _⟩

/-- In every run a request has at most one result. When `stop` has returned and no call of
`dispatch` is in progress, every request has one exactly when no select sent its request after
the processor had exited. -/
theorem answered_iff_sent_in_time {db : DB} {events : List (BatchPebbleEvent ι)}
    (hrun : Run (Step json request) (newBatchPebble db) events s) :
    (∀ i, (s.result i).length ≤ 1) ∧
    (s.stopReturned = true → (∀ i, s.phase i ≠ .dispatching) →
      ((∀ i, s.phase i ≠ .new → (s.result i).length = 1) ↔
        Run (fun s e t => Step json request s e t ∧ s.InTime e) (newBatchPebble db) events s)) := by
  obtain ⟨htracks, hexited⟩ := hrun.invariant (fun _ _ _ hs hstep => hs.step hstep)
    (sound_newBatchPebble db)
  refine ⟨fun i => ?_, fun hstop hidle => ⟨fun hall => ?_, fun hin i hi => ?_⟩⟩
  · rw [htracks.result i]
    split_ifs <;> decide
  · refine (inTime_or_stuck hrun).resolve_right fun ⟨_, hne⟩ => ?_
    obtain ⟨i, hi⟩ := List.exists_mem_of_ne_nil _ hne
    obtain ⟨hphase, hdone⟩ := htracks.sent i (List.mem_append_left _ hi)
    have hres := htracks.result i
    rw [hall i (by rw [hphase]; decide), hdone] at hres
    cases hres
  · have hphase : s.phase i = .returned := by
      cases h : s.phase i with
      | new => exact absurd h hi
      | dispatching => exact absurd h (hidle i)
      | returned => rfl
    rw [htracks.result i, htracks.answered i hphase]
    · rfl
    · rw [dataProc_of_inTime hin (hexited hstop), hexited hstop]
      exact List.not_mem_nil

/-! ## A request sent too late -/

/-- A request that stages nothing. -/
def idleRequest (_ : Unit) : BatchRequest Unit :=
  { type := .customizeOperate, consumer := some (pure ()), keys := [], values := []
    lowPriority := false }

/-- `stop` returns while a call is at the select of `dispatch`. -/
theorem exists_drained : ∃ s : BatchPebble Unit,
    Run (fun s e t => Step (fun _ => none) idleRequest s e t ∧ s.InTime e)
      (newBatchPebble fun _ => [])
      [.load (), .removeBatch, .stop, .check, .drainOnStop, .stopReturn] s ∧
    s.stopReturned = true ∧ s.stopCh = true ∧ s.processor = .exited ∧ s.dataProc = [] ∧
    s.phase () = .dispatching ∧ s.result () = [] :=
  ⟨_, (((((Run.nil.snoc ⟨⟨rfl, rfl⟩, trivial⟩).snoc ⟨rfl, trivial⟩).snoc ⟨rfl, trivial⟩).snoc
    ⟨Or.inl ⟨Or.inl rfl, rfl, rfl⟩, trivial⟩).snoc ⟨⟨rfl, Or.inl ⟨rfl, rfl⟩⟩, trivial⟩).snoc
    ⟨⟨Nat.one_pos, rfl, rfl⟩, trivial⟩, rfl, rfl, rfl, rfl, rfl, rfl⟩

/-- The call sees that `stopCh` is closed. -/
theorem refused_once : ∃ s : BatchPebble Unit,
    Run (Step (fun _ => none) idleRequest) (newBatchPebble fun _ => [])
      [.load (), .removeBatch, .stop, .check, .drainOnStop, .stopReturn, .refuse ()] s ∧
    s.stopReturned = true ∧ (s.result ()).length = 1 := by
  obtain ⟨s, hrun, hreturned, hclosed, -, -, hphase, -⟩ := exists_drained
  have hstep : Step (fun _ => none) idleRequest s (.refuse ())
      ((s.answer () .isStopped).goto () .returned) := ⟨hphase, hclosed, rfl⟩
  have hin := hrun.snoc ⟨hstep, trivial⟩
  have hall := hin.mono fun _ _ _ h => h.1
  have hstop := (s.answer_processor () .isStopped).2.2.trans hreturned
  have hself : ∀ i : Unit, ((s.answer () .isStopped).goto () .returned).phase i = .returned :=
    fun _ => phase_goto_self _ () .returned
  refine ⟨_, hall, hstop, ((answered_iff_sent_in_time hall).2 hstop fun i => ?_).mpr hin () ?_⟩
  · rw [hself]
    decide
  · rw [hself]
    decide

/-- The select sends after the channel was drained : the call returns, and no processor is
left to answer the request. -/
theorem sent_after_drain : ∃ s : BatchPebble Unit,
    Run (Step (fun _ => none) idleRequest) (newBatchPebble fun _ => [])
      [.load (), .removeBatch, .stop, .check, .drainOnStop, .stopReturn, .send ()] s ∧
    s.stopReturned = true ∧ s.processor = .exited ∧ (∀ i, s.phase i = .returned) ∧
    s.result () = [] ∧ s.dataProc = [()] := by
  obtain ⟨s, hrun, hreturned, -, hexited, hnil, hphase, hresult⟩ := exists_drained
  have hstep : Step (fun _ => none) idleRequest s (.send ())
      ({ s with dataProc := s.dataProc ++ [()] }.goto () .returned) :=
    ⟨hphase, by rw [hnil]; decide, rfl⟩
  refine ⟨_, (hrun.mono fun _ _ _ h => h.1).snoc hstep, hreturned, hexited,
    fun _ => phase_goto_self _ () .returned, hresult, ?_⟩
  change s.dataProc ++ [()] = [()]
  rw [hnil]
  rfl

end BatchPebble

end Corgi
