import Corgi.Client
import Corgi.Stages

/-!
# The workers of the client

`runUploads` hands the uploads to workers. The first one that fails reports its error and cancels
the context of all. A goroutine that prints statistics runs until the context is done, and
`runUploads` waits for it too.

`Pool.returned_eq` : `runUploads` returns nil only when every upload was done exactly once and its
deadline has passed, and an error of an upload only if that upload has failed.

`Pool.progress` : nothing but the deadline, and calls of `Start` and `uploadOnce` that do not
return, keep it from returning. No deadline ends such a call.
-/

set_option linter.unusedSectionVars false

namespace Corgi

/-! ## The model -/

/-- What `ctx.Err` returns. -/
inductive ContextError
  | canceled
  | deadlineExceeded
  deriving DecidableEq

/-- Where a worker is. -/
inductive WorkerStage
  | connecting
  /-- It waits for a job. Its client is nil if it is not connected. -/
  | idle (connected : Bool)
  | uploading (connected : Bool) (id : ℕ)
  /-- `uploadOnce` has returned an error. -/
  | failing (id : ℕ) (err : UploadFailure)
  /-- It has sent the error and calls `cancel`. -/
  | cancelling
  | returned
  deriving DecidableEq

/-- What `runUploads` returns, if not nil. -/
inductive PoolError
  | upload (id : ℕ) (err : UploadFailure)
  | context (err : ContextError)
  deriving DecidableEq

/-- The workers with their jobs and what `runUploads` waits for. -/
structure Pool where
  /-- The next job. -/
  next : ℕ
  /-- `jobs` is not closed. -/
  sending : Bool
  ctxErr : Option ContextError
  errCh : Option (ℕ × UploadFailure)
  workers : List WorkerStage
  /-- The goroutine that prints statistics runs. -/
  ticking : Bool
  /-- The uploads that are counted as done. -/
  done : List ℕ
  /-- The uploads that have failed. -/
  failed : List (ℕ × UploadFailure)
  /-- What was returned, once it was. -/
  result : Option (Option PoolError)
  panicked : Bool

/-- The steps of the workers, of `runUploads`, of its statistics and of the clock. -/
inductive PoolEvent
  | connect (k : ℕ) (connected : Bool)
  | dispatch (k : ℕ)
  | closeJobs
  | uploaded (k : ℕ) (outcome : Option UploadFailure)
  /-- The client is nil. -/
  | nilClient (k : ℕ)
  | report (k : ℕ)
  | cancel (k : ℕ)
  | leave (k : ℕ)
  /-- The deadline passes. -/
  | expire
  | tickerStop
  | wait

namespace PoolEvent

/-- It is the deadline and no step of the program. -/
def clock : PoolEvent → Bool
  | .expire => true
  | _ => false

/-- The worker whose call of `Start` or `uploadOnce` returns or panics. -/
def caller : PoolEvent → Option ℕ
  | .connect k _ | .uploaded k _ | .nilClient k => some k
  | _ => none

/-- It is a step of `runUploads` itself. -/
def own (e : PoolEvent) : Bool :=
  !e.clock && e.caller.isNone

end PoolEvent

/-- The worker is inside `Start` or `uploadOnce`. -/
def WorkerStage.calls : WorkerStage → Bool
  | .connecting | .uploading _ _ => true
  | _ => false

namespace Pool

/-- All workers connect. -/
def new (cfg : ClientConfig) : Pool :=
  { next := 0, sending := true, ctxErr := none, errCh := none
    workers := List.replicate cfg.concurrency .connecting, ticking := true, done := [], failed := []
    result := none, panicked := false }

/-- The worker `k` moves on. -/
def setWorker (s : Pool) (k : ℕ) (w : WorkerStage) : Pool :=
  { s with workers := s.workers.set k w }

/-- What `runUploads` returns after `wg.Wait`. -/
def outcome (cfg : ClientConfig) (s : Pool) : Option PoolError :=
  match s.errCh, s.ctxErr with
  | some (id, err), _ => some (.upload id err)
  | none, some err => if s.done.length ≠ cfg.requests then some (.context err) else none
  | none, none => none

/-- All that `wg.Wait` waits for is done. -/
def Finished (s : Pool) : Prop :=
  s.sending = false ∧ (∀ w ∈ s.workers, w = .returned) ∧ s.ticking = false

/-- One step. There is a deadline if the timeout is not zero. -/
def Step (cfg : ClientConfig) (deadline : Bool) (s : Pool) (e : PoolEvent) (t : Pool) : Prop :=
  s.panicked = false ∧ match e with
  | .connect k connected => s.workers[k]? = some .connecting ∧
    t = s.setWorker k (.idle connected)
  | .dispatch k => s.sending = true ∧ s.next < cfg.requests ∧ ∃ connected,
    s.workers[k]? = some (.idle connected) ∧
    t = { s.setWorker k (.uploading connected s.next) with next := s.next + 1 }
  | .closeJobs => s.sending = true ∧ (s.next = cfg.requests ∨ s.ctxErr ≠ none) ∧
    t = { s with sending := false }
  | .uploaded k outcome => ∃ connected id, s.workers[k]? = some (.uploading connected id) ∧
    -- Without a client, `uploadOnce` gets no further than the request.
    (connected = true ∨ ∃ err, outcome = some (.start err)) ∧
    match outcome with
    | none => t = { s.setWorker k (.idle connected) with done := s.done ++ [id] }
    | some err => t = { s.setWorker k (.failing id err) with failed := s.failed ++ [(id, err)] }
  | .nilClient k => ∃ id, s.workers[k]? = some (.uploading false id) ∧
    t = { s with panicked := true }
  | .report k => ∃ id err, s.workers[k]? = some (.failing id err) ∧
    if s.errCh = none then t = { s.setWorker k .cancelling with errCh := some (id, err) }
    else t = s.setWorker k .returned
  | .cancel k => s.workers[k]? = some .cancelling ∧
    t = { s.setWorker k .returned with ctxErr := s.ctxErr.or (some .canceled) }
  | .leave k => s.sending = false ∧ ∃ connected, s.workers[k]? = some (.idle connected) ∧
    t = s.setWorker k .returned
  | .expire => deadline = true ∧ t = { s with ctxErr := s.ctxErr.or (some .deadlineExceeded) }
  | .tickerStop => s.ticking = true ∧ s.ctxErr ≠ none ∧ t = { s with ticking := false }
  | .wait => s.Finished ∧ s.result = none ∧ t = { s with result := some (s.outcome cfg) }

end Pool

/-! ## What holds in every state -/

/-- The upload that a worker is at. -/
def WorkerStage.job : WorkerStage → Option ℕ
  | .uploading _ id => some id
  | _ => none

namespace Pool

variable {cfg : ClientConfig} {deadline : Bool} {s t : Pool}

/-- Every job that was handed out is done, has failed or is worked at. -/
structure Counted (cfg : ClientConfig) (s : Pool) : Prop where
  ids : (s.done ++ s.failed.map Prod.fst ++ s.workers.filterMap WorkerStage.job).Perm
    (List.range s.next)
  next_le : s.next ≤ cfg.requests
  length : s.workers.length = cfg.concurrency

/-- What the goroutines know of each other. -/
structure Signals (cfg : ClientConfig) (s : Pool) : Prop where
  errCh : ∀ p, s.errCh = some p → p ∈ s.failed
  failing : ∀ id err, .failing id err ∈ s.workers → (id, err) ∈ s.failed
  failed : s.failed ≠ [] → s.errCh ≠ none ∨ ∃ id err, .failing id err ∈ s.workers
  cancelling : .cancelling ∈ s.workers → s.errCh ≠ none
  canceled : s.ctxErr = some .canceled → s.errCh ≠ none
  cancels : s.errCh ≠ none → s.ctxErr ≠ none ∨ .cancelling ∈ s.workers
  returned : .returned ∈ s.workers → s.sending = true → s.errCh ≠ none
  closed : s.sending = false → s.next = cfg.requests ∨ s.ctxErr ≠ none
  ticking : s.ticking = false → s.ctxErr ≠ none
  result : ∀ r, s.result = some r → s.Finished ∧ r = s.outcome cfg

theorem counted_new (cfg : ClientConfig) : (new cfg).Counted cfg := by
  constructor <;> simp [new, WorkerStage.job]

theorem signals_new (cfg : ClientConfig) : (new cfg).Signals cfg := by
  constructor <;> simp [new]

/-- A worker moves on, and nothing that is counted changes. -/
theorem Counted.move (h : s.Counted cfg) {k : ℕ} {w v : WorkerStage}
    (hk : s.workers[k]? = some w) (hjob : v.job = w.job) (hworkers : t.workers = s.workers.set k v)
    (hdone : t.done = s.done) (hfailed : t.failed = s.failed) (hnext : t.next = s.next) :
    t.Counted cfg := by
  have hperm := perm_filterMap_set WorkerStage.job hk v
  rw [hjob, List.perm_append_left_iff] at hperm
  refine ⟨?_, hnext ▸ h.next_le, ?_⟩
  · rw [hdone, hfailed, hworkers, hnext]
    exact (hperm.append_left _).trans h.ids
  · rw [hworkers, List.length_set]
    exact h.length

theorem Counted.dispatch (h : s.Counted cfg) (hlt : s.next < cfg.requests) {k : ℕ}
    {connected : Bool} (hk : s.workers[k]? = some (.idle connected)) :
    Counted cfg { s.setWorker k (.uploading connected s.next) with next := s.next + 1 } := by
  have hperm := perm_filterMap_set WorkerStage.job hk (.uploading connected s.next)
  refine ⟨?_, hlt, (List.length_set).trans h.length⟩
  rw [List.range_succ]
  refine (hperm.append_left _).trans ?_
  change (s.done ++ s.failed.map Prod.fst ++ ([s.next] ++ _)).Perm _
  exact (List.perm_append_comm_assoc _ _ _).trans
    (List.perm_append_comm.trans (h.ids.append_right _))

theorem Counted.uploaded (h : s.Counted cfg) {k id : ℕ} {connected : Bool} {v : WorkerStage}
    (hk : s.workers[k]? = some (.uploading connected id)) (hw : v.job = none)
    (hworkers : t.workers = s.workers.set k v)
    (hcounted : (t.done ++ t.failed.map Prod.fst).Perm (id :: (s.done ++ s.failed.map Prod.fst)))
    (hnext : t.next = s.next) : t.Counted cfg := by
  have hperm := perm_filterMap_set WorkerStage.job hk v
  rw [hw] at hperm
  refine ⟨?_, hnext ▸ h.next_le, ?_⟩
  · rw [hnext, hworkers]
    refine (hcounted.append_right _).trans (List.Perm.trans ?_ h.ids)
    rw [List.cons_append]
    exact List.perm_middle.symm.trans (hperm.append_left _)
  · rw [hworkers, List.length_set]
    exact h.length

/-- An upload that a worker is at is neither done nor has it failed. -/
theorem Counted.not_mem (h : s.Counted cfg) {k id : ℕ} {connected : Bool}
    (hk : s.workers[k]? = some (.uploading connected id)) :
    id ∉ s.done ++ s.failed.map Prod.fst := by
  intro hmem
  have hnodup := h.ids.nodup_iff.mpr List.nodup_range
  have hjob : id ∈ s.workers.filterMap WorkerStage.job :=
    List.mem_filterMap.mpr ⟨_, List.mem_of_getElem? hk, rfl⟩
  exact (List.nodup_append.mp hnodup).2.2 id hmem id hjob rfl

theorem Counted.step (h : s.Counted cfg) {e : PoolEvent} (hstep : Step cfg deadline s e t) :
    t.Counted cfg := by
  obtain ⟨-, hstep⟩ := hstep
  cases e with
  | connect k connected =>
    obtain ⟨hk, rfl⟩ := hstep
    exact h.move hk (v := .idle connected) rfl rfl rfl rfl rfl
  | dispatch k =>
    obtain ⟨-, hlt, connected, hk, rfl⟩ := hstep
    exact h.dispatch hlt hk
  | closeJobs =>
    obtain ⟨-, -, rfl⟩ := hstep
    exact ⟨h.ids, h.next_le, h.length⟩
  | uploaded k outcome =>
    obtain ⟨connected, id, hk, -, ht⟩ := hstep
    cases outcome with
    | none =>
      subst ht
      refine h.uploaded hk (v := .idle connected) rfl rfl ?_ rfl
      change (s.done ++ [id] ++ _).Perm _
      rw [List.append_assoc]
      exact List.perm_middle
    | some err =>
      subst ht
      refine h.uploaded hk (v := .failing id err) rfl rfl ?_ rfl
      change (s.done ++ (s.failed ++ [(id, err)]).map Prod.fst).Perm _
      rw [List.map_append, ← List.append_assoc]
      exact List.perm_append_singleton _ _
  | nilClient k =>
    obtain ⟨id, -, rfl⟩ := hstep
    exact ⟨h.ids, h.next_le, h.length⟩
  | report k =>
    obtain ⟨id, err, hk, ht⟩ := hstep
    split_ifs at ht <;> subst ht
    · exact h.move hk (v := .cancelling) rfl rfl rfl rfl rfl
    · exact h.move hk (v := .returned) rfl rfl rfl rfl rfl
  | cancel k =>
    obtain ⟨hk, rfl⟩ := hstep
    exact h.move hk (v := .returned) rfl rfl rfl rfl rfl
  | leave k =>
    obtain ⟨-, connected, hk, rfl⟩ := hstep
    exact h.move hk (v := .returned) rfl rfl rfl rfl rfl
  | expire =>
    obtain ⟨-, rfl⟩ := hstep
    exact ⟨h.ids, h.next_le, h.length⟩
  | tickerStop =>
    obtain ⟨-, -, rfl⟩ := hstep
    exact ⟨h.ids, h.next_le, h.length⟩
  | wait =>
    obtain ⟨-, -, rfl⟩ := hstep
    exact ⟨h.ids, h.next_le, h.length⟩

/-- A worker that has not returned keeps `runUploads` from returning. -/
theorem Signals.result_none (h : s.Signals cfg) {k : ℕ} {w : WorkerStage}
    (hk : s.workers[k]? = some w) (hw : w ≠ .returned) : s.result = none := by
  cases hr : s.result with
  | none => rfl
  | some r => exact absurd ((h.result r hr).1.2.1 w (List.mem_of_getElem? hk)) hw

/-- What a worker that moves on leaves in the list. -/
theorem mem_setWorker {k : ℕ} {w : WorkerStage} (hk : s.workers[k]? = some w) (v : WorkerStage) :
    (∀ u ∈ (s.setWorker k v).workers, u = v ∨ u ∈ s.workers) ∧
      v ∈ (s.setWorker k v).workers ∧ ∀ u ∈ s.workers, u = w ∨ u ∈ (s.setWorker k v).workers :=
  ⟨fun _ hu => (List.mem_or_eq_of_mem_set hu).symm, mem_set_or hk v⟩

/-- A worker moves on and tells nobody. -/
theorem Signals.quiet (h : s.Signals cfg) {k : ℕ} {w v : WorkerStage}
    (hk : s.workers[k]? = some w) (hw : w ≠ .returned ∧ w ≠ .cancelling)
    (herr : ∀ id err, w = .failing id err → s.errCh ≠ none)
    (hv : v ≠ .cancelling ∧ ∀ id err, v ≠ .failing id err)
    (hreturned : v = .returned → s.sending = true → s.errCh ≠ none) (next : ℕ) (done : List ℕ)
    (hnext : s.sending = true ∨ next = s.next) :
    Signals cfg { s.setWorker k v with next := next, done := done } := by
  obtain ⟨hnew, hmem, hold⟩ := mem_setWorker hk v
  have hnone := h.result_none hk hw.1
  refine ⟨h.errCh, fun id err hmem => ?_, fun hne => ?_, fun hmem => ?_, h.canceled, fun hne => ?_,
    fun hmem hsending => ?_, fun hsending => ?_, h.ticking, fun r hr => ?_⟩
  · exact h.failing id err ((hnew _ hmem).resolve_left (Ne.symm (hv.2 id err)))
  · rcases h.failed hne with hne | ⟨id, err, hfailing⟩
    · exact .inl hne
    · rcases hold _ hfailing with rfl | hmem
      · exact .inl (herr id err rfl)
      · exact .inr ⟨id, err, hmem⟩
  · exact h.cancelling ((hnew _ hmem).resolve_left (Ne.symm hv.1))
  · exact (h.cancels hne).imp_right fun hc => (hold _ hc).resolve_left (Ne.symm hw.2)
  · rcases hnew _ hmem with heq | hmem
    · exact hreturned heq.symm hsending
    · exact h.returned hmem hsending
  · rcases hnext with htrue | rfl
    · exact absurd (htrue.symm.trans hsending) (by simp)
    · exact h.closed hsending
  · exact absurd (hnone.symm.trans hr) (by simp)

theorem Signals.fail (h : s.Signals cfg) {k id : ℕ} {connected : Bool}
    (hk : s.workers[k]? = some (.uploading connected id)) (err : UploadFailure) :
    Signals cfg
      { s.setWorker k (.failing id err) with failed := s.failed ++ [(id, err)] } := by
  obtain ⟨hnew, hmem, hold⟩ := mem_setWorker hk (.failing id err)
  have hnone := h.result_none hk (by simp)
  obtain ⟨herr, hfailing, hfailed, hcancelling, hcanceled, hcancels, hreturned, hclosed, hticking,
    hresult⟩ := h
  refine ⟨?_, ?_, ?_, ?_, hcanceled, ?_, ?_, hclosed, hticking, ?_⟩ <;> grind [setWorker]

theorem Signals.report (h : s.Signals cfg) {k id : ℕ} {err : UploadFailure}
    (hk : s.workers[k]? = some (.failing id err)) :
    Signals cfg { s.setWorker k .cancelling with errCh := some (id, err) } := by
  obtain ⟨hnew, hmem, hold⟩ := mem_setWorker hk .cancelling
  have hnone := h.result_none hk (by simp)
  obtain ⟨herr, hfailing, hfailed, hcancelling, hcanceled, hcancels, hreturned, hclosed, hticking,
    hresult⟩ := h
  refine ⟨?_, ?_, ?_, ?_, ?_, ?_, ?_, hclosed, hticking, ?_⟩ <;> grind [setWorker]

theorem Signals.cancel (h : s.Signals cfg) {k : ℕ} (hk : s.workers[k]? = some .cancelling) :
    Signals cfg
      { s.setWorker k .returned with ctxErr := s.ctxErr.or (some .canceled) } := by
  obtain ⟨hnew, hmem, hold⟩ := mem_setWorker hk .returned
  have hnone := h.result_none hk (by simp)
  obtain ⟨herr, hfailing, hfailed, hcancelling, hcanceled, hcancels, hreturned, hclosed, hticking,
    hresult⟩ := h
  refine ⟨herr, ?_, ?_, ?_, ?_, ?_, ?_, ?_, ?_, ?_⟩ <;> grind [setWorker]

/-- The context is done at the latest now. -/
theorem Signals.expire (h : s.Signals cfg) :
    Signals cfg { s with ctxErr := s.ctxErr.or (some .deadlineExceeded) } := by
  cases hctx : s.ctxErr with
  | none =>
    refine ⟨h.errCh, h.failing, h.failed, h.cancelling, by simp, by simp, h.returned, by simp,
      by simp, fun r hr => ?_⟩
    exact absurd hctx (h.ticking (h.result r hr).1.2.2)
  | some err =>
    rw [Option.or_some, Option.getD_some, ← hctx]
    exact h

theorem Signals.step (h : s.Signals cfg) {e : PoolEvent} (hstep : Step cfg deadline s e t) :
    t.Signals cfg := by
  obtain ⟨-, hstep⟩ := hstep
  cases e with
  | connect k connected =>
    obtain ⟨hk, rfl⟩ := hstep
    exact h.quiet hk (by simp) (by simp) (by simp) (by simp) s.next s.done (.inr rfl)
  | dispatch k =>
    obtain ⟨hsending, -, connected, hk, rfl⟩ := hstep
    exact h.quiet hk (by simp) (by simp) (by simp) (by simp) _ s.done (.inl hsending)
  | closeJobs =>
    obtain ⟨hsending, hclose, rfl⟩ := hstep
    refine ⟨h.errCh, h.failing, h.failed, h.cancelling, h.canceled, h.cancels, by simp,
      fun _ => hclose, h.ticking, fun r hr => ?_⟩
    exact absurd (hsending.symm.trans (h.result r hr).1.1) (by simp)
  | uploaded k outcome =>
    obtain ⟨connected, id, hk, -, ht⟩ := hstep
    cases outcome with
    | none =>
      subst ht
      exact h.quiet hk (by simp) (by simp) (by simp) (by simp) s.next _ (.inr rfl)
    | some err =>
      subst ht
      exact h.fail hk err
  | nilClient k =>
    obtain ⟨id, -, rfl⟩ := hstep
    exact ⟨h.errCh, h.failing, h.failed, h.cancelling, h.canceled, h.cancels, h.returned, h.closed,
      h.ticking, h.result⟩
  | report k =>
    obtain ⟨id, err, hk, ht⟩ := hstep
    split_ifs at ht with herr <;> subst ht
    · exact h.report hk
    · exact h.quiet hk (by simp) (fun _ _ _ => herr) (by simp) (fun _ _ => herr) s.next s.done
        (.inr rfl)
  | cancel k =>
    obtain ⟨hk, rfl⟩ := hstep
    exact h.cancel hk
  | leave k =>
    obtain ⟨hsending, connected, hk, rfl⟩ := hstep
    exact h.quiet hk (by simp) (by simp) (by simp)
      (fun _ htrue => absurd (hsending.symm.trans htrue) (by simp)) s.next s.done (.inr rfl)
  | expire =>
    obtain ⟨-, rfl⟩ := hstep
    exact h.expire
  | tickerStop =>
    obtain ⟨hruns, hctx, rfl⟩ := hstep
    refine ⟨h.errCh, h.failing, h.failed, h.cancelling, h.canceled, h.cancels, h.returned, h.closed,
      fun _ => hctx, fun r hr => ?_⟩
    exact absurd (hruns.symm.trans (h.result r hr).1.2.2) (by simp)
  | wait =>
    obtain ⟨hfinished, -, rfl⟩ := hstep
    exact ⟨h.errCh, h.failing, h.failed, h.cancelling, h.canceled, h.cancels, h.returned, h.closed,
      h.ticking, fun r hr => ⟨hfinished, (Option.some.inj hr).symm⟩⟩

/-- Nothing is done and nothing fails but when `uploadOnce` returns. -/
theorem Step.frame {e : PoolEvent} (h : Step cfg deadline s e t)
    (hne : ∀ k outcome, e ≠ .uploaded k outcome) : t.done = s.done ∧ t.failed = s.failed := by
  obtain ⟨-, hstep⟩ := h
  cases e <;> grind [setWorker]

/-- When it returns, the upload is done or has failed. -/
theorem Step.uploaded {k id : ℕ} {connected : Bool} {outcome : Option UploadFailure}
    (h : Step cfg deadline s (.uploaded k outcome) t)
    (hk : s.workers[k]? = some (.uploading connected id)) :
    outcome = none ∧ t.done = s.done ++ [id] ∧ t.failed = s.failed ∨
      ∃ err, outcome = some err ∧ t.done = s.done ∧ t.failed = s.failed ++ [(id, err)] := by
  obtain ⟨-, connected', id', hk', -, ht⟩ := h
  obtain ⟨-, rfl⟩ := WorkerStage.uploading.inj (Option.some.inj (hk'.symm.trans hk))
  cases outcome <;> subst ht
  · exact Or.inl ⟨rfl, rfl, rfl⟩
  · exact Or.inr ⟨_, rfl, rfl, rfl⟩

/-! ## What it returns -/

theorem counted_of_run {events : List PoolEvent} (h : Run (Step cfg deadline) (new cfg) events s) :
    s.Counted cfg :=
  h.invariant (fun _ _ _ hs hstep => hs.step hstep) (counted_new cfg)

theorem signals_of_run {events : List PoolEvent} (h : Run (Step cfg deadline) (new cfg) events s) :
    s.Signals cfg :=
  h.invariant (fun _ _ _ hs hstep => hs.step hstep) (signals_new cfg)

/-- Workers that have returned are at no upload. -/
theorem jobs_eq_nil (h : ∀ w ∈ s.workers, w = .returned) :
    s.workers.filterMap WorkerStage.job = [] :=
  List.filterMap_eq_nil_iff.mpr fun w hw => by rw [h w hw]; rfl

/-- No upload has failed unless an error was reported or is about to be. -/
theorem Signals.failed_eq_nil (h : s.Signals cfg) (herr : s.errCh = none)
    (hworkers : ∀ w ∈ s.workers, w = .returned) : s.failed = [] := by
  by_contra hne
  rcases h.failed hne with herr' | ⟨id, err, hmem⟩
  · exact herr' herr
  · cases hworkers _ hmem

/-- When all workers have returned and none has reported an error, all jobs that were handed out
are done. -/
theorem done_perm (hcounted : s.Counted cfg) (hsignals : s.Signals cfg) (herr : s.errCh = none)
    (hworkers : ∀ w ∈ s.workers, w = .returned) : s.done.Perm (List.range s.next) := by
  have hids := hcounted.ids
  rwa [jobs_eq_nil hworkers, hsignals.failed_eq_nil herr hworkers, List.map_nil, List.append_nil,
    List.append_nil] at hids

/-- Nil is returned when no error was reported and all uploads are done. -/
theorem Signals.outcome_eq_none (h : s.Signals cfg) (hticking : s.ticking = false)
    (hout : s.outcome cfg = none) : s.errCh = none ∧ s.done.length = cfg.requests := by
  obtain ⟨err, hctx⟩ := Option.ne_none_iff_exists'.mp (h.ticking hticking)
  cases herr : s.errCh with
  | some p => simp [outcome, herr] at hout
  | none => exact ⟨rfl, by simpa [outcome, herr, hctx] using hout⟩

/-- What was done when nil is returned. -/
theorem done_perm_of_result (hcounted : s.Counted cfg) (hsignals : s.Signals cfg)
    (hr : s.result = some none) : s.done.Perm (List.range cfg.requests) := by
  obtain ⟨⟨-, hworkers, hticking⟩, hout⟩ := hsignals.result none hr
  obtain ⟨herr, hall⟩ := hsignals.outcome_eq_none hticking hout.symm
  have hperm := done_perm hcounted hsignals herr hworkers
  rwa [← hperm.length_eq.trans List.length_range, hall] at hperm

/-- The deadline passes only if there is one. -/
theorem deadline_of_run {events : List PoolEvent} (h : Run (Step cfg deadline) (new cfg) events s)
    (hctx : s.ctxErr = some .deadlineExceeded) : deadline = true := by
  refine h.invariant (I := fun s => s.ctxErr = some .deadlineExceeded → deadline = true) ?_
    (by simp [new]) hctx
  rintro s e t hs ⟨-, hstep⟩ ht
  cases e <;> grind [setWorker, Option.or_eq_some_iff]

/-- What a result of `runUploads` says. -/
def Explains (cfg : ClientConfig) (deadline : Bool) (s : Pool) : Option PoolError → Prop
  | none => s.done.Perm (List.range cfg.requests) ∧ deadline = true ∧
    s.ctxErr = some .deadlineExceeded
  | some (.upload id err) => (id, err) ∈ s.failed ∧ id < cfg.requests ∧ id ∉ s.done
  | some (.context err) => err = .deadlineExceeded ∧ s.failed = [] ∧
    s.done.length < cfg.requests

/-- `runUploads` returns nil only when each upload was done, each once, and its deadline has
passed, so never without a timeout. The error of an upload that it returns is that of an upload
that has failed, and the error of its context means that the deadline has passed before all
uploads were done, while none has failed. -/
theorem returned_eq {events : List PoolEvent} (h : Run (Step cfg deadline) (new cfg) events s)
    {r : Option PoolError} (hr : s.result = some r) : s.Explains cfg deadline r := by
  have hcounted := counted_of_run h
  have hsignals := signals_of_run h
  obtain ⟨⟨-, hworkers, hticking⟩, hout⟩ := hsignals.result r hr
  obtain ⟨err, hctx⟩ := Option.ne_none_iff_exists'.mp (hsignals.ticking hticking)
  -- Only a worker that has reported an error cancels.
  have hdeadline (herr : s.errCh = none) : err = .deadlineExceeded := by
    cases err with
    | deadlineExceeded => rfl
    | canceled => exact absurd herr (hsignals.canceled hctx)
  cases herr : s.errCh with
  | some p =>
    obtain ⟨id, err⟩ := p
    obtain rfl : r = some (.upload id err) := by simp [hout, outcome, herr]
    have hmem := hsignals.errCh _ herr
    have hid : id ∈ s.failed.map Prod.fst := List.mem_map_of_mem hmem
    have hids := hcounted.ids
    rw [jobs_eq_nil hworkers, List.append_nil] at hids
    have hlt := List.mem_range.mp (hids.subset (List.mem_append_right _ hid))
    have hnodup := hids.nodup_iff.mpr List.nodup_range
    exact ⟨hmem, hlt.trans_le hcounted.next_le,
      fun hdone => (List.nodup_append.mp hnodup).2.2 _ hdone _ hid rfl⟩
  | none =>
    obtain rfl := hdeadline herr
    by_cases hall : s.done.length = cfg.requests
    · obtain rfl : r = none := by simp [hout, outcome, herr, hctx, hall]
      exact ⟨done_perm_of_result hcounted hsignals hr, deadline_of_run h hctx, hctx⟩
    · obtain rfl : r = some (.context .deadlineExceeded) := by
        simp [hout, outcome, herr, hctx, hall]
      have hlen := (done_perm hcounted hsignals herr hworkers).length_eq.trans List.length_range
      exact ⟨rfl, hsignals.failed_eq_nil herr hworkers,
        lt_of_le_of_ne (hlen ▸ hcounted.next_le) hall⟩

/-- Two workers for two uploads. -/
def twoConfig : ClientConfig :=
  { Host.oneByteConfig with
    concurrency := 2, requests := 2, concurrency_pos := Nat.two_pos, requests_pos := Nat.two_pos }

/-- Both workers are at their uploads. -/
def dispatchedTwo : Pool :=
  { new twoConfig with next := 2, workers := [.uploading true 0, .uploading true 1] }

theorem run_dispatchedTwo : Run (Step twoConfig true) (new twoConfig)
    [.connect 1 true, .connect 0 true, .dispatch 0, .dispatch 1] dispatchedTwo :=
  .cons ⟨rfl, rfl, rfl⟩ <|
  .cons ⟨rfl, rfl, rfl⟩ <|
  .cons ⟨rfl, rfl, Nat.two_pos, true, rfl, rfl⟩ <|
  .cons ⟨rfl, rfl, Nat.one_lt_two, true, rfl, rfl⟩ .nil

/-- The two workers have done the uploads, the second one first. -/
def uploadedTwo : Pool :=
  { new twoConfig with
    next := 2, sending := false, workers := [.returned, .returned], done := [1, 0] }

theorem run_uploadedTwo : Run (Step twoConfig true) dispatchedTwo
    [.closeJobs, .uploaded 1 none, .leave 1, .uploaded 0 none, .leave 0] uploadedTwo :=
  .cons ⟨rfl, rfl, .inl rfl, rfl⟩ <|
  .cons ⟨rfl, true, 1, rfl, .inl rfl, rfl⟩ <|
  .cons ⟨rfl, rfl, true, rfl, rfl⟩ <|
  .cons ⟨rfl, true, 0, rfl, .inl rfl, rfl⟩ <|
  .cons ⟨rfl, rfl, true, rfl, rfl⟩ .nil

/-- Two uploads that are done, and nil once the deadline has passed. An upload that is done and one
that fails, and its error. -/
theorem returned_eq_two_uploads : (∃ (events : List PoolEvent) (s : Pool),
    Run (Step twoConfig true) (new twoConfig) events s ∧ s.done = [1, 0] ∧
    s.result = some none ∧ s.Explains twoConfig true none) ∧
    ∃ (events : List PoolEvent) (s : Pool),
      Run (Step twoConfig true) (new twoConfig) events s ∧ s.done = [0] ∧
      s.result = some (some (.upload 1 .missingMetadata)) ∧
      s.Explains twoConfig true (some (.upload 1 .missingMetadata)) := by
  constructor
  · have hreturned : Run (Step twoConfig true) uploadedTwo [.expire, .tickerStop, .wait]
        { uploadedTwo with
          ctxErr := some .deadlineExceeded, ticking := false, result := some none } :=
      .cons ⟨rfl, rfl, rfl⟩ <|
      .cons ⟨rfl, rfl, by simp [uploadedTwo, new], rfl⟩ <|
      .cons ⟨rfl, ⟨rfl, by simp [uploadedTwo], rfl⟩, rfl, rfl⟩ .nil
    have hrun := (run_dispatchedTwo.append run_uploadedTwo).append hreturned
    exact ⟨_, _, hrun, rfl, rfl, returned_eq hrun rfl⟩
  · have hreturned : Run (Step twoConfig true) dispatchedTwo
        [.uploaded 0 none, .uploaded 1 (some .missingMetadata), .report 1, .cancel 1, .closeJobs,
          .leave 0, .tickerStop, .wait]
        { uploadedTwo with
          ctxErr := some .canceled, errCh := some (1, .missingMetadata), ticking := false
          done := [0], failed := [(1, .missingMetadata)]
          result := some (some (.upload 1 .missingMetadata)) } :=
      .cons ⟨rfl, true, 0, rfl, .inl rfl, rfl⟩ <|
      .cons ⟨rfl, true, 1, rfl, .inl rfl, rfl⟩ <|
      .cons ⟨rfl, 1, .missingMetadata, rfl, rfl⟩ <|
      .cons ⟨rfl, rfl, rfl⟩ <|
      .cons ⟨rfl, rfl, .inl rfl, rfl⟩ <|
      .cons ⟨rfl, rfl, true, rfl, rfl⟩ <|
      .cons ⟨rfl, rfl, by simp [dispatchedTwo, new, setWorker], rfl⟩ <|
      .cons ⟨rfl, ⟨rfl, by simp [dispatchedTwo, setWorker], rfl⟩, rfl, rfl⟩ .nil
    have hrun := run_dispatchedTwo.append hreturned
    exact ⟨_, _, hrun, rfl, rfl, returned_eq hrun rfl⟩

/-! ## That it returns -/

/-- What its worker still costs a pool. -/
def weight : WorkerStage → ℕ
  | .connecting => 2
  | .idle _ => 1
  | .uploading _ _ => 3
  | .failing _ _ => 2
  | .cancelling => 1
  | .returned => 0

/-- A bound for the steps that are left. -/
def budget (cfg : ClientConfig) (s : Pool) : ℕ :=
  3 * (cfg.requests - s.next) + (s.workers.map weight).sum + s.sending.toNat + s.ticking.toNat +
    s.result.isNone.toNat + (!s.panicked).toNat

theorem budget_new (cfg : ClientConfig) :
    (new cfg).budget cfg = 3 * cfg.requests + 2 * cfg.concurrency + 4 := by
  simp only [budget, new, List.map_replicate, List.sum_replicate, weight, smul_eq_mul]
  simp
  omega

theorem budget_setWorker {k : ℕ} {w : WorkerStage} (hk : s.workers[k]? = some w) (v : WorkerStage)
    (hlt : weight v < weight w) : (s.setWorker k v).budget cfg + 1 ≤ s.budget cfg := by
  have hsum := sum_map_set weight hk v
  simp only [budget, setWorker]
  omega

/-- Every step but the deadline takes from the budget. -/
theorem budget_step {e : PoolEvent} (hstep : Step cfg deadline s e t) :
    t.budget cfg + (!e.clock).toNat ≤ s.budget cfg := by
  obtain ⟨hpanic, hstep⟩ := hstep
  cases e with
  | connect k connected =>
    obtain ⟨hk, rfl⟩ := hstep
    exact budget_setWorker hk (.idle connected) one_lt_two
  | dispatch k =>
    obtain ⟨-, hlt, connected, hk, rfl⟩ := hstep
    have hsum := sum_map_set weight hk (.uploading connected s.next)
    simp only [budget, setWorker, PoolEvent.clock, weight, Bool.not_false,
      Bool.toNat_true] at hsum ⊢
    omega
  | closeJobs =>
    obtain ⟨hsending, -, rfl⟩ := hstep
    simp only [budget, hsending, PoolEvent.clock, Bool.not_false, Bool.toNat_true, Bool.toNat_false]
    omega
  | uploaded k outcome =>
    obtain ⟨connected, id, hk, -, ht⟩ := hstep
    cases outcome with
    | none =>
      subst ht
      exact budget_setWorker hk (.idle connected) (show 1 < 3 by decide)
    | some err =>
      subst ht
      exact budget_setWorker hk (.failing id err) (Nat.lt_succ_self 2)
  | nilClient k =>
    obtain ⟨id, -, rfl⟩ := hstep
    simp [budget, hpanic, PoolEvent.clock]
  | report k =>
    obtain ⟨id, err, hk, ht⟩ := hstep
    split_ifs at ht <;> subst ht
    · exact budget_setWorker hk .cancelling one_lt_two
    · exact budget_setWorker hk .returned two_pos
  | cancel k =>
    obtain ⟨hk, rfl⟩ := hstep
    exact budget_setWorker hk .returned one_pos
  | leave k =>
    obtain ⟨-, connected, hk, rfl⟩ := hstep
    exact budget_setWorker hk .returned one_pos
  | expire =>
    obtain ⟨-, rfl⟩ := hstep
    exact le_rfl
  | tickerStop =>
    obtain ⟨hticking, -, rfl⟩ := hstep
    simp only [budget, hticking, PoolEvent.clock, Bool.not_false, Bool.toNat_true, Bool.toNat_false]
    omega
  | wait =>
    obtain ⟨-, hresult, rfl⟩ := hstep
    simp [budget, hresult, PoolEvent.clock]

/-- A worker that has not returned and is in no call has something to do, or the jobs are to be
closed. -/
theorem Counted.exists_step (h : s.Counted cfg) (hpanic : s.panicked = false) {k : ℕ}
    {w : WorkerStage} (hk : s.workers[k]? = some w) (hw : w ≠ .returned)
    (hcalls : w.calls = false) : ∃ e t, e.own = true ∧ Step cfg deadline s e t := by
  cases w with
  | connecting => cases hcalls
  | idle connected =>
    cases hsending : s.sending with
    | false => exact ⟨.leave k, _, rfl, hpanic, hsending, connected, hk, rfl⟩
    | true =>
      rcases h.next_le.lt_or_eq with hlt | heq
      · exact ⟨.dispatch k, _, rfl, hpanic, hsending, hlt, connected, hk, rfl⟩
      · exact ⟨.closeJobs, _, rfl, hpanic, hsending, .inl heq, rfl⟩
  | uploading connected id => cases hcalls
  | failing id err =>
    by_cases herr : s.errCh = none
    · exact ⟨.report k, _, rfl, hpanic, id, err, hk, by rw [if_pos herr]⟩
    · exact ⟨.report k, _, rfl, hpanic, id, err, hk, by rw [if_neg herr]⟩
  | cancelling => exact ⟨.cancel k, _, rfl, hpanic, hk, rfl⟩
  | returned => exact absurd rfl hw

/-- A worker in a call stays there until the call returns. -/
theorem Step.calls {e : PoolEvent} (h : Step cfg deadline s e t) {k : ℕ} {w : WorkerStage}
    (hk : s.workers[k]? = some w) (hw : w.calls = true) (he : e.caller ≠ some k) :
    t.workers[k]? = some w := by
  have hset : ∀ {j : ℕ} (v : WorkerStage), j ≠ k → (s.setWorker j v).workers[k]? = some w :=
    fun v hne => (List.getElem?_set_ne hne).trans hk
  have hne : ∀ {j : ℕ} {v : WorkerStage}, s.workers[j]? = some v → v.calls = false → j ≠ k := by
    rintro j v hj hv rfl
    rw [Option.some.inj (hk.symm.trans hj), hv] at hw
    cases hw
  obtain ⟨-, hstep⟩ := h
  cases e with
  | connect j connected =>
    obtain ⟨-, rfl⟩ := hstep
    exact hset _ fun heq => he (congrArg some heq)
  | dispatch j =>
    obtain ⟨-, -, connected, hj, rfl⟩ := hstep
    exact hset _ (hne hj rfl)
  | closeJobs =>
    obtain ⟨-, -, rfl⟩ := hstep
    exact hk
  | uploaded j outcome =>
    have hjk : j ≠ k := fun heq => he (congrArg some heq)
    obtain ⟨connected, id, -, -, ht⟩ := hstep
    cases outcome <;> subst ht <;> exact hset _ hjk
  | nilClient j =>
    obtain ⟨id, -, rfl⟩ := hstep
    exact hk
  | report j =>
    obtain ⟨id, err, hj, ht⟩ := hstep
    split_ifs at ht <;> subst ht <;> exact hset _ (hne hj rfl)
  | cancel j =>
    obtain ⟨hj, rfl⟩ := hstep
    exact hset _ (hne hj rfl)
  | leave j =>
    obtain ⟨-, connected, hj, rfl⟩ := hstep
    exact hset _ (hne hj rfl)
  | expire =>
    obtain ⟨-, rfl⟩ := hstep
    exact hk
  | tickerStop =>
    obtain ⟨-, -, rfl⟩ := hstep
    exact hk
  | wait =>
    obtain ⟨-, -, rfl⟩ := hstep
    exact hk

/-- A call that does not return keeps `runUploads` from returning. -/
theorem calls_of_run {events later : List PoolEvent}
    (h : Run (Step cfg deadline) (new cfg) events s) {k : ℕ} {w : WorkerStage}
    (hk : s.workers[k]? = some w) (hw : w.calls = true) (hlater : Run (Step cfg deadline) s later t)
    (hcaller : ∀ e ∈ later, e.caller ≠ some k) : t.workers[k]? = some w ∧ t.result = none := by
  have hstays : (∀ e ∈ later, e.caller ≠ some k) → t.workers[k]? = some w := by
    refine hlater.history (I := fun later t => (∀ e ∈ later, e.caller ≠ some k) →
      t.workers[k]? = some w) ?_ fun _ => hk
    intro later t e u ht hstep hcaller
    rw [List.forall_mem_append] at hcaller
    exact hstep.calls (ht hcaller.1) hw (hcaller.2 e (List.mem_singleton_self e))
  refine ⟨hstays hcaller, (signals_of_run (h.append hlater)).result_none (hstays hcaller) ?_⟩
  rintro rfl
  cases hw

/-- All uploads are done and `runUploads` does not return : only the deadline can move it. -/
def AwaitsDeadline (cfg : ClientConfig) (deadline : Bool) (s : Pool) : Prop :=
  s.done.Perm (List.range cfg.requests) ∧ ∀ e t, Step cfg deadline s e t → e = .expire

/-- A worker is in a call, and `runUploads` can do nothing but wait for one to return. -/
def AwaitsCall (cfg : ClientConfig) (deadline : Bool) (s : Pool) : Prop :=
  (∃ w ∈ s.workers, w.calls = true) ∧ ∀ e t, Step cfg deadline s e t → e.own = false

theorem awaitsDeadline_of_returned (hcounted : s.Counted cfg) (hsignals : s.Signals cfg)
    (hworkers : ∀ w ∈ s.workers, w = .returned) (hctx : s.ctxErr = none) :
    s.AwaitsDeadline cfg deadline := by
  have herr : s.errCh = none := by
    by_contra herr
    rcases hsignals.cancels herr with hctx' | hmem
    · exact hctx' hctx
    · cases hworkers _ hmem
  have hsome : .returned ∈ s.workers := by
    have hpos : 0 < s.workers.length := hcounted.length ▸ cfg.concurrency_pos
    exact hworkers _ (List.getElem_mem hpos) ▸ List.getElem_mem hpos
  have hsending : s.sending = false := by
    by_contra hne
    exact hsignals.returned hsome (Bool.eq_true_of_not_eq_false hne) herr
  have hnext : s.next = cfg.requests := (hsignals.closed hsending).resolve_right (· hctx)
  have hticking : s.ticking = true := by
    by_contra hne
    exact hsignals.ticking (Bool.eq_false_of_not_eq_true hne) hctx
  refine ⟨hnext ▸ done_perm hcounted hsignals herr hworkers, ?_⟩
  have hnot : ∀ (k : ℕ) (w : WorkerStage), s.workers[k]? = some w → w = .returned :=
    fun k w hk => hworkers w (List.mem_of_getElem? hk)
  rintro e t ⟨-, hstep⟩
  cases e <;> grind [Finished]

/-- However its goroutines are interleaved, `runUploads` makes a bounded number of steps. It stops
only when it has returned, when a worker without a client has panicked, when all uploads are done
and it waits for its deadline, or when it waits for a call of `Start` or `uploadOnce`. Such a call
keeps it from returning until it returns, deadline or not. -/
theorem progress {events : List PoolEvent} (h : Run (Step cfg deadline) (new cfg) events s) :
    events.countP (fun e => !e.clock) ≤ 3 * cfg.requests + 2 * cfg.concurrency + 4 ∧
    ((∃ e t, e.own = true ∧ Step cfg deadline s e t) ∨ s.result ≠ none ∨ s.panicked = true ∨
      s.AwaitsDeadline cfg deadline ∨ s.AwaitsCall cfg deadline) ∧
    ∀ k w, s.workers[k]? = some w → w.calls = true → ∀ later t,
      Run (Step cfg deadline) s later t → (∀ e ∈ later, e.caller ≠ some k) →
      t.workers[k]? = some w ∧ t.result = none := by
  have hcounted := counted_of_run h
  have hsignals := signals_of_run h
  refine ⟨?_, ?_, fun k w hk hw later t hlater => calls_of_run h hk hw hlater⟩
  · have hbound : events.countP (fun e => !e.clock) + s.budget cfg ≤ (new cfg).budget cfg :=
      h.countP_add_le fun _ _ _ hstep => budget_step hstep
    rw [budget_new] at hbound
    omega
  by_cases hown : ∃ e t, e.own = true ∧ Step cfg deadline s e t
  · exact .inl hown
  refine .inr ?_
  cases hpanic : s.panicked with
  | true => exact .inr (.inl rfl)
  | false =>
    by_cases hworkers : ∀ w ∈ s.workers, w = .returned
    · by_cases hctx : s.ctxErr = none
      · exact .inr (.inr (.inl (awaitsDeadline_of_returned hcounted hsignals hworkers hctx)))
      -- The context is done : the jobs are closed, then the statistics stop.
      cases hsending : s.sending with
      | true => exact absurd ⟨.closeJobs, _, rfl, hpanic, hsending, .inr hctx, rfl⟩ hown
      | false =>
        cases hticking : s.ticking with
        | true => exact absurd ⟨.tickerStop, _, rfl, hpanic, hticking, hctx, rfl⟩ hown
        | false =>
          refine .inl fun hresult => hown ⟨.wait, _, rfl, hpanic, ?_, hresult, rfl⟩
          exact ⟨hsending, hworkers, hticking⟩
    · push Not at hworkers
      obtain ⟨w, hmem, hw⟩ := hworkers
      obtain ⟨k, hk⟩ := List.getElem?_of_mem hmem
      cases hcalls : w.calls with
      | false => exact absurd (hcounted.exists_step hpanic hk hw hcalls) hown
      | true =>
        refine .inr (.inr (.inr ⟨⟨w, hmem, hcalls⟩, fun e t hstep => ?_⟩))
        exact Bool.eq_false_iff.mpr fun he => hown ⟨e, t, he, hstep⟩

/-- Workers that have returned or are in a call leave `runUploads` nothing to do, when the jobs are
closed and the statistics go on or have stopped. -/
theorem Step.own_eq_false {e : PoolEvent} (h : Step cfg deadline s e t)
    (hsending : s.sending = false) (hworkers : ∀ w ∈ s.workers, w = .returned ∨ w.calls = true)
    (hticks : s.ticking = false ∨ s.ctxErr = none) (hfinished : ¬s.Finished) : e.own = false := by
  have hnot : ∀ {k : ℕ} {w : WorkerStage}, s.workers[k]? = some w →
      w = .returned ∨ w.calls = true := fun hk => hworkers _ (List.mem_of_getElem? hk)
  obtain ⟨-, hstep⟩ := h
  cases e with
  | connect | uploaded | nilClient | expire => rfl
  | dispatch k => cases hsending.symm.trans hstep.1
  | closeJobs => cases hsending.symm.trans hstep.1
  | report k =>
    obtain ⟨id, err, hk, -⟩ := hstep
    rcases hnot hk with h | h <;> cases h
  | cancel k => rcases hnot hstep.1 with h | h <;> cases h
  | leave k =>
    obtain ⟨-, connected, hk, -⟩ := hstep
    rcases hnot hk with h | h <;> cases h
  | tickerStop =>
    rcases hticks with hticks | hticks
    · cases hticks.symm.trans hstep.1
    · exact absurd hticks hstep.2.1
  | wait => exact absurd hstep.1 hfinished

/-- One upload is done. The deadline has passed, and the other upload is not answered. -/
def unansweredTwo : Pool :=
  { new twoConfig with
    next := 2, sending := false, ctxErr := some .deadlineExceeded
    workers := [.returned, .uploading true 1], ticking := false, done := [0] }

theorem run_unansweredTwo : Run (Step twoConfig true) dispatchedTwo
    [.closeJobs, .uploaded 0 none, .leave 0, .expire, .tickerStop] unansweredTwo :=
  .cons ⟨rfl, rfl, .inl rfl, rfl⟩ <|
  .cons ⟨rfl, true, 0, rfl, .inl rfl, rfl⟩ <|
  .cons ⟨rfl, rfl, true, rfl, rfl⟩ <|
  .cons ⟨rfl, rfl, rfl⟩ <|
  .cons ⟨rfl, rfl, by simp [dispatchedTwo, new, setWorker], rfl⟩ .nil

/-- Two uploads that are done, and nothing left to do but to wait for the deadline. A server that
does not answer the second upload, and nothing left to do but to wait for it. -/
theorem progress_two_uploads : (∃ (events : List PoolEvent) (s : Pool),
    Run (Step twoConfig true) (new twoConfig) events s ∧ s.result = none ∧ s.panicked = false ∧
      s.AwaitsDeadline twoConfig true) ∧
    ∃ (events : List PoolEvent) (s : Pool),
      Run (Step twoConfig true) (new twoConfig) events s ∧ s.ctxErr = some .deadlineExceeded ∧
      s.AwaitsCall twoConfig true ∧ ∀ later t, Run (Step twoConfig true) s later t →
        (∀ e ∈ later, e.caller ≠ some 1) → t.result = none := by
  constructor
  · have hrun := run_dispatchedTwo.append run_uploadedTwo
    refine ⟨_, _, hrun, rfl, rfl, ?_⟩
    rcases (progress hrun).2.1 with ⟨e, t, hown, hstep⟩ | hresult | hpanic | hawaits | hawaits
    · -- The workers have returned, the jobs are closed and the context is not done.
      have hnot := hstep.own_eq_false rfl (by simp [uploadedTwo]) (.inr rfl) fun h => nomatch h.2.2
      cases hnot.symm.trans hown
    · exact absurd rfl hresult
    · exact absurd hpanic (by simp [uploadedTwo, new])
    · exact hawaits
    · obtain ⟨⟨w, hw, hcalls⟩, -⟩ := hawaits
      simp only [uploadedTwo, List.mem_cons, List.not_mem_nil, or_false, or_self] at hw
      subst hw
      cases hcalls
  · have hrun := run_dispatchedTwo.append run_unansweredTwo
    obtain ⟨-, hcases, hcalls⟩ := progress hrun
    refine ⟨_, _, hrun, rfl, ?_, fun later t hlater hcaller => ?_⟩
    · rcases hcases with ⟨e, t, hown, hstep⟩ | hresult | hpanic | ⟨hdone, -⟩ | hawaits
      · -- The only worker that has not returned is in a call.
        have hnot := hstep.own_eq_false rfl (by simp [unansweredTwo, WorkerStage.calls]) (.inl rfl)
          (by simp [Finished, unansweredTwo])
        cases hnot.symm.trans hown
      · exact absurd rfl hresult
      · exact absurd hpanic (by simp [unansweredTwo, new])
      · exact absurd hdone.length_eq (by decide)
      · exact hawaits
    · exact (hcalls 1 (.uploading true 1) rfl rfl later t hlater hcaller).2

end Pool

end Corgi
