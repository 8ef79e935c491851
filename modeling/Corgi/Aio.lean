import Corgi.ReadBack

/-!
# Writes in flight

The model of `runFlush`, `WriteAllocated` and `submitAndWait` step by step, for any number of
flushes on one device. Each runs to where it waits, and between two of its steps the others
run, the kernel completes writes in any order and the context of a final flush may be
cancelled. `submitAndWait` waits for the completion or for the context, and in the second case
it returns with the write still in flight, after which `runFlush` gives the blocks back.

A flush that is not cancelled does what `writeAllocated` does in one go
(`exists_run_writeAllocated`). Writes in flight only go to allocated blocks as long as the
second case is taken after the write has completed (`inFlight_allocated`). Otherwise one may go
to a free block.
-/

namespace Corgi

/-! ## The model -/

/-- `goaio.Completion`. -/
structure WriteCompletion where
  n : ℕ
  err : Option String

/-- A write that was submitted to the kernel. -/
structure Flight where
  id : ℕ
  segment : Segment

/-- The blocks that a segment is written to, one for each byte. -/
def Segment.blocks (segment : Segment) : List ℕ :=
  (List.range' segment.offset segment.data.length).map (· / 4096)

/-- Where `runFlush` stands. -/
inductive Job
  | idle
  | alloc (buf : Bytes)
  | build (buf : Bytes) (info : FlushBlockInfo)
  | submit (segments : List Segment) (writtenTotal need : ℕ) (info : FlushBlockInfo)
  /-- In the `select` of `submitAndWait`. -/
  | wait (id : ℕ) (resCh : Option WriteCompletion) (segment : Segment) (segments : List Segment)
    (writtenTotal need : ℕ) (info : FlushBlockInfo)
  | done (info : FlushBlockInfo)
  | failed (e : UploadError)

namespace Job

/-- The token that the flush is to give back when it fails. -/
def token : Job → List Result
  | build _ info | submit _ _ _ info | wait _ _ _ _ _ _ info | done info => info.token
  | _ => []

/-- The segments that are not known to be written. -/
def segments : Job → List Segment
  | submit segments _ _ _ => segments
  | wait _ _ segment segments _ _ _ => segment :: segments
  | _ => []

/-- The write whose completion was not received. -/
def awaits : Job → Option Flight
  | wait id none segment _ _ _ _ => some ⟨id, segment⟩
  | _ => none

/-- Send to the result channel of a request. -/
def deliver (id : ℕ) (completion : WriteCompletion) : Job → Job
  | wait id' none segment segments writtenTotal need info =>
    wait id' (if id' = id then some completion else none) segment segments writtenTotal need info
  | job => job

end Job

/-- The flushes `F` of one device. -/
structure Flushes (F : Type*) where
  device : BlockDevice
  disk : Disk
  jobs : F → Job
  cancelled : F → Bool
  /-- The writes submitted and not completed. -/
  flights : List Flight
  nextId : ℕ

/-- What happens to one flush, or to a write that the kernel has accepted. -/
inductive FlushEvent (F : Type*)
  | start (f : F) (buf : Bytes)
  | alloc (f : F)
  | build (f : F) (ctx : Context)
  | submit (f : F) (err : Option String)
  | complete (id : ℕ) (completion : WriteCompletion) (junk : Bytes)
  | receive (f : F)
  | ctxDone (f : F)
  | cancel (f : F)
  | rollbackCompleted (f : F)

namespace Flushes

variable {F : Type*} [DecidableEq F]

/-- No flush has started. -/
def new (F : Type*) (device : BlockDevice) (disk : Disk) : Flushes F :=
  { device, disk, jobs := fun _ => .idle, cancelled := fun _ => false, flights := [], nextId := 0 }

/-- Flush `f` goes on with `job`. -/
def setJob (s : Flushes F) (f : F) (job : Job) : Flushes F :=
  { s with jobs := Function.update s.jobs f job }

/-- `RollbackAlloc` and `failFlush`. -/
def fail (s : Flushes F) (f : F) (info : FlushBlockInfo) (e : UploadError) : Flushes F :=
  setJob { s with device := s.device.rollbackAlloc info.token } f (.failed e)

/-- `Alloc` for flush `f`, which then builds its segments or has failed. -/
def alloc (s : Flushes F) (f : F) (buf : Bytes) : Flushes F :=
  match s.device.alloc buf.length with
  | (device, .error e) => setJob { s with device } f (.failed (.alloc e))
  | (device, .ok (results, token)) => setJob { s with device } f (.build buf ⟨results, token⟩)

/-- `WriteAllocated` up to the loop that submits. -/
def build (s : Flushes F) (f : F) (ctx : Context) (buf : Bytes) (info : FlushBlockInfo) :
    Flushes F :=
  if buf = [] then s.setJob f (.submit [] 0 0 info)
  else if buf.length % 4096 ≠ 0 then s.fail f info (.write (.alignment "buffer" 0 buf.length))
  else match buildSegments buf info.results ctx 0 with
    | .error (_, e) => s.fail f info (.write e)
    | .ok (segments, cursor, _) =>
      if cursor ≠ buf.length then s.fail f info (.write .shortWrite)
      else s.setJob f (.submit segments 0 buf.length info)

/-- One turn of the loop, to where `submitAndWait` waits, or its end and the rest of
`runFlush`. `err` is what `WriteAtNotify` returns. -/
def submit (s : Flushes F) (f : F) (err : Option String) (writtenTotal need : ℕ)
    (info : FlushBlockInfo) : List Segment → Flushes F
  | [] =>
    if writtenTotal ≠ need then s.fail f info (.partialWrite need writtenTotal)
    else s.setJob f (.done info)
  | segment :: segments =>
    if s.cancelled f then s.fail f info (.write .context)
    else match err with
      | some text => s.fail f info (.write (.aio text))
      | none =>
        setJob { s with flights := s.flights ++ [⟨s.nextId, segment⟩], nextId := s.nextId + 1 } f
          (.wait s.nextId none segment segments writtenTotal need info)

/-- The kernel completes a write, and the completion loop sends the result. -/
def complete (s : Flushes F) (flight : Flight) (completion : WriteCompletion) (junk : Bytes) :
    Flushes F :=
  { s with
    disk := s.disk.write flight.segment.offset
      ((SubmitOutcome.completed completion.n completion.err junk).stored flight.segment.data)
    jobs := fun f => (s.jobs f).deliver flight.id completion
    flights := s.flights.filter (·.id ≠ flight.id) }

/-- `submitAndWait` returns a result. -/
def receive (s : Flushes F) (f : F) (completion : WriteCompletion) (segment : Segment)
    (segments : List Segment) (writtenTotal need : ℕ) (info : FlushBlockInfo) : Flushes F :=
  match completion.err with
  | some text => s.fail f info (.write (.aio text))
  | none =>
    if completion.n ≠ segment.data.length then s.fail f info (.write .shortWrite)
    else s.setJob f (.submit segments (writtenTotal + completion.n) need info)

/-- One step. Only the flushes that are `final` have a context that can be cancelled. -/
def Step (final : F → Bool) (s : Flushes F) : FlushEvent F → Flushes F → Prop
  | .start f buf, t => s.jobs f = .idle ∧ t = s.setJob f (.alloc buf)
  | .alloc f, t => ∃ buf, s.jobs f = .alloc buf ∧ t = s.alloc f buf
  | .build f ctx, t => ∃ buf info, s.jobs f = .build buf info ∧
    (ctx ≠ none → final f = true) ∧ (s.cancelled f = true → ctx = some 0) ∧
    t = s.build f ctx buf info
  | .submit f err, t => ∃ segments writtenTotal need info,
    s.jobs f = .submit segments writtenTotal need info ∧
    t = s.submit f err writtenTotal need info segments
  | .complete id completion junk, t => ∃ flight ∈ s.flights, flight.id = id ∧
    t = s.complete flight completion junk
  | .receive f, t => ∃ id completion segment segments writtenTotal need info,
    s.jobs f = .wait id (some completion) segment segments writtenTotal need info ∧
    t = s.receive f completion segment segments writtenTotal need info
  | .ctxDone f, t => ∃ id resCh segment segments writtenTotal need info,
    s.jobs f = .wait id resCh segment segments writtenTotal need info ∧ s.cancelled f = true ∧
    t = s.fail f info (.write .context)
  | .cancel f, t => final f = true ∧ t = { s with cancelled := Function.update s.cancelled f true }
  -- A flush that is complete is given back when another of its upload, or the upload, fails.
  | .rollbackCompleted f, t => ∃ info, s.jobs f = .done info ∧
    t = setJob { s with device := s.device.rollbackAlloc info.token } f
      (.done { info with token := [] })

end Flushes

/-! ## A flush without interruption -/

/-- How `runFlush` ends after `WriteAllocated`. -/
def Job.ofWrite (need : ℕ) (info : FlushBlockInfo) : ℕ × Option ChannelError → Job
  | (_, some e) => .failed (.write e)
  | (written, none) =>
    if written ≠ need then .failed (.partialWrite need written) else .done info

/-- The context is not noticed. -/
def SubmitOutcome.Waits : SubmitOutcome → Prop
  | contextDone _ => False
  | _ => True

namespace Flushes

variable {F : Type*} [DecidableEq F] {final : F → Bool} {f : F}

theorem jobs_setJob (s : Flushes F) (f : F) (job : Job) : (s.setJob f job).jobs f = job :=
  Function.update_self ..

/-- The loop of `WriteAllocated` does what `submitSegments` does. -/
theorem exists_run_submitSegments {outcome : Segment → SubmitOutcome}
    (hwaits : ∀ segment, (outcome segment).Waits) {need : ℕ} {info : FlushBlockInfo} :
    ∀ {segments : List Segment} {s : Flushes F} {writtenTotal : ℕ},
    s.jobs f = .submit segments writtenTotal need info → s.cancelled f = false →
    ∃ events t, Run (Step final) s events t ∧
      t.disk = (submitSegments outcome segments none s.disk writtenTotal).1 ∧
      t.jobs f = .ofWrite need info (submitSegments outcome segments none s.disk writtenTotal).2
  | [], s, writtenTotal, hjob, _ => by
    have hstep : Step final s (.submit f none) (s.submit f none writtenTotal need info []) :=
      ⟨_, _, _, _, hjob, rfl⟩
    refine ⟨_, _, .cons hstep .nil, ?_⟩
    rw [submitSegments, Flushes.submit]
    simp only [Job.ofWrite]
    split_ifs
    · exact ⟨rfl, jobs_setJob ..⟩
    · exact ⟨rfl, jobs_setJob ..⟩
  | segment :: segments, s, writtenTotal, hjob, hcancelled => by
    have hrunning : ¬s.cancelled f = true := by simp [hcancelled]
    have hwait := hwaits segment
    rw [submitSegments]
    simp only [Context.check]
    cases hout : outcome segment with
    | contextDone junk =>
      rw [hout] at hwait
      exact hwait.elim
    | submitError text =>
      have hstep : Step final s (.submit f (some text)) (s.fail f info (.write (.aio text))) :=
        ⟨_, _, _, _, hjob, by simp only [Flushes.submit, if_neg hrunning]⟩
      refine ⟨_, _, .cons hstep .nil, ?_, jobs_setJob ..⟩
      exact (Disk.write_nil s.disk segment.offset).symm
    | completed n err junk =>
      let flight : Flight := ⟨s.nextId, segment⟩
      let s₁ := setJob { s with flights := s.flights ++ [flight], nextId := s.nextId + 1 } f
        (.wait s.nextId none segment segments writtenTotal need info)
      let s₂ := s₁.complete flight ⟨n, err⟩ junk
      have hstep₁ : Step final s (.submit f none) s₁ :=
        ⟨_, _, _, _, hjob, by simp only [Flushes.submit, if_neg hrunning]; rfl⟩
      have hstep₂ : Step final s₁ (.complete s.nextId ⟨n, err⟩ junk) s₂ :=
        ⟨flight, List.mem_append_right _ (List.mem_singleton_self _), rfl, rfl⟩
      have hjob₂ : s₂.jobs f =
          .wait s.nextId (some ⟨n, err⟩) segment segments writtenTotal need info := by
        change (s₁.jobs f).deliver s.nextId ⟨n, err⟩ = _
        rw [show s₁.jobs f = _ from jobs_setJob .., Job.deliver, if_pos rfl]
      have hstep₃ : Step final s₂ (.receive f)
          (s₂.receive f ⟨n, err⟩ segment segments writtenTotal need info) :=
        ⟨_, _, _, _, _, _, _, hjob₂, rfl⟩
      have hrun := Run.cons hstep₁ (.cons hstep₂ (.cons hstep₃ .nil))
      cases err with
      | some text => exact ⟨_, _, hrun, rfl, jobs_setJob ..⟩
      | none =>
        simp only [Flushes.receive] at hrun ⊢
        split_ifs at hrun ⊢ with hn
        · exact ⟨_, _, hrun, rfl, jobs_setJob ..⟩
        · obtain ⟨events, t, ht, hdisk, hdone⟩ := exists_run_submitSegments hwaits
            (jobs_setJob s₂ f (.submit segments (writtenTotal + n) need info)) hcancelled
          exact ⟨_, t, hrun.append ht, hdisk, hdone⟩

/-- A flush that is not cancelled does what `writeAllocated` does. -/
theorem exists_run_writeAllocated {outcome : Segment → SubmitOutcome}
    (hwaits : ∀ segment, (outcome segment).Waits) {s : Flushes F} {buf : Bytes}
    {info : FlushBlockInfo} (hjob : s.jobs f = .build buf info)
    (hcancelled : s.cancelled f = false) :
    ∃ events t, Run (Step final) s events t ∧
      t.disk = (writeAllocated outcome none s.disk buf info.results).1 ∧
      t.jobs f = .ofWrite buf.length info
        (writeAllocated outcome none s.disk buf info.results).2 := by
  have hstep : Step final s (.build f none) (s.build f none buf info) :=
    ⟨_, _, hjob, by simp, by simp [hcancelled], rfl⟩
  rw [Flushes.build] at hstep
  rw [writeAllocated]
  by_cases hnil : buf = []
  · rw [if_pos hnil] at hstep ⊢
    obtain ⟨events, t, ht, hdisk, hdone⟩ :=
      exists_run_submitSegments hwaits (jobs_setJob s f (.submit [] 0 0 info)) hcancelled
    exact ⟨_, t, .cons hstep ht, hdisk, by rw [hnil]; exact hdone⟩
  rw [if_neg hnil] at hstep ⊢
  by_cases hlen : buf.length % 4096 ≠ 0
  · rw [if_pos hlen] at hstep ⊢
    exact ⟨_, _, .cons hstep .nil, rfl, jobs_setJob ..⟩
  rw [if_neg hlen] at hstep ⊢
  cases hbuild : buildSegments buf info.results none 0 with
  | error e =>
    rw [hbuild] at hstep
    exact ⟨_, _, .cons hstep .nil, rfl, jobs_setJob ..⟩
  | ok res =>
    obtain ⟨segments, cursor, ctx⟩ := res
    rw [hbuild] at hstep
    simp only at hstep ⊢
    split_ifs at hstep ⊢
    · exact ⟨_, _, .cons hstep .nil, rfl, jobs_setJob ..⟩
    · obtain ⟨events, t, ht, hdisk, hdone⟩ := exists_run_submitSegments hwaits
        (jobs_setJob s f (.submit segments 0 buf.length info)) hcancelled
      rw [(buildSegments_spec buf hbuild).1 rfl]
      exact ⟨_, t, .cons hstep ht, hdisk, hdone⟩

end Flushes

/-! ## What a flush holds -/

/-- A token that is allocated. -/
structure BlockDevice.Held (d : BlockDevice) (token : List Result) : Prop where
  pos : ∀ r ∈ token, 0 ≤ r.offset ∧ 0 < r.size
  nodup : (blocksOf token).Nodup
  allocated : ∀ b ∈ blocksOf token,
    b < d.allocator.total ∧ d.allocator.isFree b = false

namespace BlockDevice

variable {d d' : BlockDevice} {token : List Result}

theorem held_nil : d.Held [] :=
  ⟨by simp, List.nodup_nil, by simp⟩

theorem Held.congr (h : d.Held token) (htotal : d'.allocator.total = d.allocator.total)
    (hfree : ∀ b ∈ blocksOf token, d'.allocator.isFree b = false) : d'.Held token :=
  ⟨h.pos, h.nodup, fun b hb => ⟨htotal ▸ (h.allocated b hb).1, hfree b hb⟩⟩

/-- Giving back a token that is held frees its blocks and no others. -/
theorem Held.rollbackAlloc (h : d.Held token) (hinv : d.allocator.Inv)
    (hlt : d.allocator.total < 2 ^ 63) :
    (d.rollbackAlloc token).allocator.Inv ∧
      (d.rollbackAlloc token).allocator.total = d.allocator.total ∧
      ∀ b, (d.rollbackAlloc token).allocator.isFree b =
        (d.allocator.isFree b || decide (b ∈ blocksOf token)) := by
  have hkept := d.kept_rollbackAlloc hinv
    (Session.bounded_of_lt hlt h.pos fun b hb => (h.allocated b hb).1)
  refine ⟨hkept.toInv, hkept.total_eq, ?_⟩
  have hcontains : ∀ r ∈ token, d.allocator.Contains r := fun r hr =>
    ⟨(h.pos r hr).1, (h.pos r hr).2,
      add_size_le_of_lt h.pos (fun b hb => (h.allocated b hb).1) r hr⟩
  rw [BlockDevice.rollbackAlloc]
  split_ifs with hnil
  · subst hnil
    simp
  · exact (AllocatorV3.release_of_allocated hinv hlt hcontains
      (fun b hb => (h.allocated b hb).2) h.nodup).2.2.2

end BlockDevice

theorem Segment.mem_blocks {segment : Segment} {b : ℕ} : b ∈ segment.blocks ↔
    ∃ a, segment.offset ≤ a ∧ a < segment.offset + segment.data.length ∧ a / 4096 = b := by
  simp only [Segment.blocks, List.mem_map, List.mem_range'_1, and_assoc]

/-! ## The invariant -/

namespace Job

/-- What is left to write lies in the token's blocks. -/
structure Sound (job : Job) : Prop where
  within : ∀ segment ∈ job.segments, ∀ b ∈ segment.blocks, b ∈ blocksOf job.token
  proper : ∀ buf info, job = .build buf info → info.Proper

theorem sound_of_nil {job : Job} (h : job.segments = [])
    (hbuild : ∀ buf info, job ≠ .build buf info) : job.Sound :=
  ⟨by simp [h], fun buf info heq => absurd heq (hbuild buf info)⟩

@[simp]
theorem token_deliver (id : ℕ) (completion : WriteCompletion) (job : Job) :
    (job.deliver id completion).token = job.token := by
  cases job with
  | wait id' resCh => cases resCh <;> rfl
  | _ => rfl

@[simp]
theorem segments_deliver (id : ℕ) (completion : WriteCompletion) (job : Job) :
    (job.deliver id completion).segments = job.segments := by
  cases job with
  | wait id' resCh => cases resCh <;> rfl
  | _ => rfl

theorem deliver_eq_build {id : ℕ} {completion : WriteCompletion} {job : Job} {buf : Bytes}
    {info : FlushBlockInfo} (h : job.deliver id completion = .build buf info) :
    job = .build buf info := by
  cases job with
  | wait id' resCh =>
    cases resCh with
    | none => exact absurd h (by simp [deliver])
    | some _ => exact absurd h (by simp [deliver])
  | _ => exact h

/-- The other requests are still waited for. -/
theorem awaits_deliver {id : ℕ} (completion : WriteCompletion) {job : Job} {flight : Flight}
    (h : job.awaits = some flight) (hne : flight.id ≠ id) :
    (job.deliver id completion).awaits = some flight := by
  cases job with
  | wait id' resCh =>
    cases resCh with
    | none =>
      obtain rfl := Option.some.inj h
      rw [deliver, if_neg hne]
      rfl
    | some _ => exact absurd h (by simp [awaits])
  | _ => exact absurd h (by simp [awaits])

theorem mem_segments_of_awaits {job : Job} {flight : Flight} (h : job.awaits = some flight) :
    flight.segment ∈ job.segments := by
  cases job with
  | wait id' resCh =>
    cases resCh with
    | none =>
      obtain rfl := Option.some.inj h
      exact List.mem_cons_self
    | some _ => exact absurd h (by simp [awaits])
  | _ => exact absurd h (by simp [awaits])

end Job

namespace Flushes

variable {F : Type*} [DecidableEq F]

/-- The flushes hold disjoint sets of allocated blocks and write only to them, and every write
in flight is waited for. -/
structure Inv (s : Flushes F) : Prop where
  inv : s.device.allocator.Inv
  lt : s.device.allocator.total < 2 ^ 63
  held : ∀ f, s.device.Held (s.jobs f).token
  disjoint : ∀ f g, f ≠ g → ∀ b ∈ blocksOf (s.jobs f).token, b ∉ blocksOf (s.jobs g).token
  sound : ∀ f, (s.jobs f).Sound
  awaited : ∀ flight ∈ s.flights, ∃ f, (s.jobs f).awaits = some flight

variable {s : Flushes F} {f : F} {job : Job}

omit [DecidableEq F] in
theorem Inv.new {device : BlockDevice} (hinv : device.allocator.Inv)
    (hlt : device.allocator.total < 2 ^ 63) (disk : Disk) : (Flushes.new F device disk).Inv :=
  ⟨hinv, hlt, fun _ => BlockDevice.held_nil,
    fun _ _ _ b hb => absurd hb (by simp [Flushes.new, Job.token]),
    fun _ => Job.sound_of_nil rfl (by simp [Flushes.new]),
    fun _ h => absurd h (by simp [Flushes.new])⟩

/-- A flush that waits for nothing goes on with another token. -/
theorem Inv.update (h : s.Inv) {device : BlockDevice} (hinv : device.allocator.Inv)
    (htotal : device.allocator.total = s.device.allocator.total)
    (hawaits : (s.jobs f).awaits = none) (hsound : job.Sound) (hheld : device.Held job.token)
    (hothers : ∀ g, g ≠ f → ∀ b ∈ blocksOf (s.jobs g).token,
      device.allocator.isFree b = false ∧ b ∉ blocksOf job.token) :
    (setJob { s with device } f job).Inv := by
  refine ⟨hinv, htotal ▸ h.lt, fun g => ?_, fun g k hgk b hb hb' => ?_, fun g => ?_,
    fun flight hflight => ?_⟩
  · change device.Held (Function.update s.jobs f job g).token
    rw [Function.update_apply]
    split_ifs with hg
    · exact hheld
    · exact (h.held g).congr htotal fun b hb => (hothers g hg b hb).1
  · change b ∈ blocksOf (Function.update s.jobs f job g).token at hb
    change b ∈ blocksOf (Function.update s.jobs f job k).token at hb'
    rw [Function.update_apply] at hb hb'
    split_ifs at hb hb' with hg hk hk
    · exact hgk (hg.trans hk.symm)
    · exact (hothers k hk b hb').2 hb
    · exact (hothers g hg b hb).2 hb'
    · exact h.disjoint g k hgk b hb hb'
  · change (Function.update s.jobs f job g).Sound
    rw [Function.update_apply]
    split_ifs
    · exact hsound
    · exact h.sound g
  · obtain ⟨g, hg⟩ := h.awaited flight hflight
    refine ⟨g, ?_⟩
    change (Function.update s.jobs f job g).awaits = _
    rw [Function.update_of_ne]
    · exact hg
    · rintro rfl
      exact absurd (hawaits.symm.trans hg) (by simp)

/-- A flush that waits for nothing goes on with the same token. -/
theorem Inv.setJob (h : s.Inv) (hawaits : (s.jobs f).awaits = none)
    (htoken : job.token = (s.jobs f).token) (hsound : job.Sound) : (s.setJob f job).Inv :=
  h.update h.inv rfl hawaits hsound (htoken ▸ h.held f) fun g hg b hb =>
    ⟨((h.held g).allocated b hb).2, fun hb' => h.disjoint g f hg b hb (htoken ▸ hb')⟩

/-- A flush that waits for nothing gives its token back. -/
theorem Inv.rollback (h : s.Inv) {token : List Result} (hawaits : (s.jobs f).awaits = none)
    (htoken : (s.jobs f).token = token) (hnil : job.token = []) (hsound : job.Sound) :
    (Flushes.setJob { s with device := s.device.rollbackAlloc token } f job).Inv := by
  obtain ⟨hinv, htotal, hfree⟩ := (htoken ▸ h.held f).rollbackAlloc h.inv h.lt
  refine h.update hinv htotal hawaits hsound (hnil ▸ BlockDevice.held_nil) fun g hg b hb => ?_
  refine ⟨?_, by simp [hnil]⟩
  rw [hfree, ((h.held g).allocated b hb).2, Bool.false_or, decide_eq_false_iff_not, ← htoken]
  exact h.disjoint g f hg b hb

theorem Inv.fail (h : s.Inv) {info : FlushBlockInfo} (hawaits : (s.jobs f).awaits = none)
    (htoken : (s.jobs f).token = info.token) (e : UploadError) : (s.fail f info e).Inv :=
  h.rollback hawaits htoken rfl (Job.sound_of_nil rfl (by simp))

theorem Inv.alloc (h : s.Inv) {buf : Bytes} (hjob : s.jobs f = .alloc buf) :
    (s.alloc f buf).Inv := by
  have hawaits : (s.jobs f).awaits = none := by rw [hjob]; rfl
  have hold : ∀ g, ∀ b ∈ blocksOf (s.jobs g).token,
      b < s.device.allocator.total ∧ s.device.allocator.isFree b = false :=
    fun g => (h.held g).allocated
  rw [Flushes.alloc]
  rcases s.device.alloc_of_inv h.inv buf.length with
    ⟨d, results, token, hres, hproper, hinv, htotal, -, hnodup, hnew, hkept⟩ |
    ⟨d, e, hres, hinv, htotal, hkept⟩
  · rw [hres]
    refine h.update hinv htotal hawaits ⟨by simp [Job.segments], ?_⟩
      ⟨hproper.pos, hnodup, fun b hb => ⟨htotal ▸ (hnew b hb).1, (hnew b hb).2.2⟩⟩
      fun g hg b hb => ⟨hkept b (hold g b hb).1 (hold g b hb).2, fun hb' => ?_⟩
    · rintro _ _ heq
      obtain ⟨-, rfl⟩ := Job.build.inj heq
      exact hproper
    · have hfree := (hold g b hb).2
      rw [(hnew b hb').2.1] at hfree
      exact Bool.false_ne_true hfree.symm
  · rw [hres]
    exact h.update hinv htotal hawaits (Job.sound_of_nil rfl (by simp)) BlockDevice.held_nil
      fun g _ b hb => ⟨hkept b (hold g b hb).1 (hold g b hb).2, by simp [Job.token]⟩

/-- The segments of a token's extents are written to its blocks. -/
theorem blocks_of_buildSegments {info : FlushBlockInfo} (h : info.Proper) {buf : Bytes}
    {ctx ctx' : Context} {stop : ℕ} {segments : List Segment}
    (hbuild : buildSegments buf info.results ctx 0 = .ok (segments, stop, ctx')) :
    ∀ segment ∈ segments, ∀ b ∈ segment.blocks, b ∈ blocksOf info.token := by
  intro segment hsegment b hb
  obtain ⟨-, r, hr, hoffset, hlen⟩ := (buildSegments_spec buf hbuild).2 segment hsegment
  obtain ⟨a, ha1, ha2, rfl⟩ := Segment.mem_blocks.mp hb
  rw [h.results_eq] at hr
  obtain ⟨t, ht, rfl⟩ := List.mem_map.mp hr
  exact mem_blocksOf.mpr ⟨t, ht, (Result.hasByte_toBytes (h.pos t ht).1 a).mp
    ⟨by omega, by omega⟩⟩

theorem Inv.build (h : s.Inv) {buf : Bytes} {info : FlushBlockInfo}
    (hjob : s.jobs f = .build buf info) (ctx : Context) : (s.build f ctx buf info).Inv := by
  have hawaits : (s.jobs f).awaits = none := by rw [hjob]; rfl
  have htoken : (s.jobs f).token = info.token := by rw [hjob]; rfl
  rw [Flushes.build]
  split_ifs
  · exact h.setJob hawaits htoken.symm (Job.sound_of_nil rfl (by simp))
  · exact h.fail hawaits htoken _
  · split
    · exact h.fail hawaits htoken _
    · rename_i hbuild
      split_ifs
      · exact h.fail hawaits htoken _
      · exact h.setJob hawaits htoken.symm
          ⟨blocks_of_buildSegments ((h.sound f).proper buf info hjob) hbuild, by simp⟩

theorem Inv.submit (h : s.Inv) {segments : List Segment} {writtenTotal need : ℕ}
    {info : FlushBlockInfo} (hjob : s.jobs f = .submit segments writtenTotal need info)
    (err : Option String) : (s.submit f err writtenTotal need info segments).Inv := by
  have hawaits : (s.jobs f).awaits = none := by rw [hjob]; rfl
  have htoken : (s.jobs f).token = info.token := by rw [hjob]; rfl
  cases segments with
  | nil =>
    rw [Flushes.submit]
    split_ifs
    · exact h.fail hawaits htoken _
    · exact h.setJob hawaits htoken.symm (Job.sound_of_nil rfl (by simp))
  | cons segment segments =>
    have hwithin := (h.sound f).within
    rw [hjob] at hwithin
    simp only [Flushes.submit]
    split_ifs
    · exact h.fail hawaits htoken _
    · cases err with
      | some text => exact h.fail hawaits htoken _
      | none =>
        have hnext :
            (s.setJob f (.wait s.nextId none segment segments writtenTotal need info)).Inv :=
          h.setJob hawaits htoken.symm ⟨hwithin, by simp⟩
        refine ⟨hnext.inv, hnext.lt, hnext.held, hnext.disjoint, hnext.sound,
          fun flight hflight => ?_⟩
        rcases List.mem_append.mp hflight with hflight | hflight
        · exact hnext.awaited flight hflight
        · refine ⟨f, ?_⟩
          rw [List.mem_singleton.mp hflight]
          change (Function.update s.jobs f _ f).awaits = _
          rw [Function.update_self]
          rfl

omit [DecidableEq F] in
theorem Inv.complete (h : s.Inv) (flight : Flight) (completion : WriteCompletion) (junk : Bytes) :
    (s.complete flight completion junk).Inv := by
  refine ⟨h.inv, h.lt, fun f => ?_, fun f g hfg => ?_, fun f => ⟨?_, fun buf info heq => ?_⟩,
    fun flight' hflight => ?_⟩
  · simpa [Flushes.complete] using h.held f
  · simpa [Flushes.complete] using h.disjoint f g hfg
  · simpa [Flushes.complete] using (h.sound f).within
  · exact (h.sound f).proper buf info (Job.deliver_eq_build heq)
  · obtain ⟨hmem, hne⟩ := List.mem_filter.mp hflight
    obtain ⟨f, hf⟩ := h.awaited flight' hmem
    exact ⟨f, Job.awaits_deliver completion hf (by simpa using hne)⟩

theorem Inv.receive (h : s.Inv) {id : ℕ} {completion : WriteCompletion} {segment : Segment}
    {segments : List Segment} {writtenTotal need : ℕ} {info : FlushBlockInfo}
    (hjob : s.jobs f = .wait id (some completion) segment segments writtenTotal need info) :
    (s.receive f completion segment segments writtenTotal need info).Inv := by
  have hawaits : (s.jobs f).awaits = none := by rw [hjob]; rfl
  have htoken : (s.jobs f).token = info.token := by rw [hjob]; rfl
  have hwithin := (h.sound f).within
  rw [hjob] at hwithin
  rw [Flushes.receive]
  cases completion.err with
  | some text => exact h.fail hawaits htoken _
  | none =>
    simp only
    split_ifs
    · exact h.fail hawaits htoken _
    · exact h.setJob hawaits htoken.symm
        ⟨fun t ht => hwithin t (List.mem_cons_of_mem _ ht), by simp⟩

/-- The context of a flush is only noticed once its write has completed. -/
def Prompt (s : Flushes F) : FlushEvent F → Prop
  | .ctxDone f => (s.jobs f).awaits = none
  | _ => True

theorem Inv.step {final : F → Bool} (h : s.Inv) {e : FlushEvent F} {t : Flushes F}
    (hstep : Step final s e t) (hprompt : s.Prompt e) : t.Inv := by
  cases e with
  | start f buf =>
    obtain ⟨hjob, rfl⟩ := hstep
    exact h.setJob (by rw [hjob]; rfl) (by rw [hjob]; rfl) (Job.sound_of_nil rfl (by simp))
  | alloc f =>
    obtain ⟨buf, hjob, rfl⟩ := hstep
    exact h.alloc hjob
  | build f ctx =>
    obtain ⟨buf, info, hjob, -, -, rfl⟩ := hstep
    exact h.build hjob ctx
  | submit f err =>
    obtain ⟨segments, writtenTotal, need, info, hjob, rfl⟩ := hstep
    exact h.submit hjob err
  | complete id completion junk =>
    obtain ⟨flight, -, -, rfl⟩ := hstep
    exact h.complete flight completion junk
  | receive f =>
    obtain ⟨id, completion, segment, segments, writtenTotal, need, info, hjob, rfl⟩ := hstep
    exact h.receive hjob
  | ctxDone f =>
    obtain ⟨id, resCh, segment, segments, writtenTotal, need, info, hjob, -, rfl⟩ := hstep
    exact h.fail hprompt (by rw [hjob]; rfl) _
  | cancel f =>
    obtain ⟨-, rfl⟩ := hstep
    exact ⟨h.inv, h.lt, h.held, h.disjoint, h.sound, h.awaited⟩
  | rollbackCompleted f =>
    obtain ⟨info, hjob, rfl⟩ := hstep
    exact h.rollback (by rw [hjob]; rfl) (by rw [hjob]; rfl) rfl (Job.sound_of_nil rfl (by simp))

omit [DecidableEq F] in
theorem Inv.allocated (h : s.Inv) : ∀ flight ∈ s.flights, ∀ b ∈ flight.segment.blocks,
    s.device.allocator.isFree b = false := by
  intro flight hflight b hb
  obtain ⟨f, hf⟩ := h.awaited flight hflight
  exact ((h.held f).allocated b
    ((h.sound f).within _ (Job.mem_segments_of_awaits hf) b hb)).2

/-- A flush with room gets as far as waiting for its first write. -/
theorem exists_wait (final : F → Bool) {device : BlockDevice} (hinv : device.allocator.Inv)
    (disk : Disk) (f : F) {buf : Bytes} (hdvd : 4096 ∣ buf.length) (hpos : 0 < buf.length)
    (hroom : ((buf.length / 4096 : ℕ) : ℤ) ≤ device.allocator.available) :
    ∃ segment segments info t, 0 < segment.data.length ∧
      t.jobs f = .wait 0 none segment segments 0 buf.length info ∧
      t.flights = [⟨0, segment⟩] ∧ t.cancelled f = false ∧
      Run (fun s e t => Step final s e t ∧ s.Prompt e) (Flushes.new F device disk)
        [.start f buf, .alloc f, .build f none, .submit f none] t := by
  obtain ⟨d, results, token, hres, hproper, hlen, -⟩ := device.alloc_of_room hinv hdvd hpos hroom
  have hcount : byteCount results = buf.length := by
    rw [show results = token.map Result.toBytes from hproper.results_eq,
      byteCount_toBytes hproper.pos, hlen]
  have hblockwise : Blockwise results := by
    rw [show results = token.map Result.toBytes from hproper.results_eq]
    exact blockwise_toBytes hproper.pos
  obtain ⟨segment, segments, hbuild⟩ : ∃ segment segments,
      buildSegments buf results none 0 = .ok (segment :: segments, buf.length, none) := by
    rcases buildSegments_of_exact buf results none 0 hblockwise (by omega) with
      ⟨k, hk, -⟩ | ⟨ctx', hbuild, hnone⟩
    · exact absurd hk (by simp)
    · cases results with
      | nil => exact absurd hcount (Nat.ne_of_lt hpos)
      | cons r results => exact ⟨_, _, hnone rfl ▸ hbuild⟩
  let s₁ : Flushes F := (Flushes.new F device disk).setJob f (.alloc buf)
  let s₂ := setJob { s₁ with device := d } f (.build buf ⟨results, token⟩)
  let s₃ := s₂.setJob f (.submit (segment :: segments) 0 buf.length ⟨results, token⟩)
  have h₁ : s₁.alloc f buf = s₂ := by
    rw [Flushes.alloc, show s₁.device = device from rfl, hres]
  have h₂ : s₂.build f none buf ⟨results, token⟩ = s₃ := by
    rw [Flushes.build, if_neg (List.ne_nil_of_length_pos hpos), if_neg (by omega)]
    simp only [hbuild, ne_eq, not_true_eq_false, if_false]
    rfl
  have hrun : Run (fun s e t => Step final s e t ∧ s.Prompt e) (Flushes.new F device disk)
      [.start f buf, .alloc f, .build f none, .submit f none]
      (s₃.submit f none 0 buf.length ⟨results, token⟩ (segment :: segments)) :=
    .cons (t := s₁) ⟨⟨rfl, rfl⟩, trivial⟩ <|
      .cons (t := s₂) ⟨⟨buf, Function.update_self .., h₁.symm⟩, trivial⟩ <|
      .cons (t := s₃) ⟨⟨buf, _, Function.update_self .., by simp, fun _ => by contradiction,
        h₂.symm⟩, trivial⟩ <|
      .cons ⟨⟨_, _, _, _, Function.update_self .., rfl⟩, trivial⟩ .nil
  exact ⟨segment, segments, ⟨results, token⟩, _,
    ((buildSegments_spec buf hbuild).2 segment List.mem_cons_self).1,
    Function.update_self .., rfl, rfl, hrun⟩

end Flushes

/-- While the context of a flush is only noticed once its write has completed, every write in
flight goes to allocated blocks. -/
theorem inFlight_allocated {F : Type*} [DecidableEq F] {final : F → Bool} {device : BlockDevice}
    (hinv : device.allocator.Inv) (hlt : device.allocator.total < 2 ^ 63) {disk : Disk}
    {events : List (FlushEvent F)} {s : Flushes F}
    (h : Run (fun s e t => Flushes.Step final s e t ∧ s.Prompt e) (Flushes.new F device disk)
      events s) :
    ∀ flight ∈ s.flights, ∀ b ∈ flight.segment.blocks, s.device.allocator.isFree b = false :=
  (h.invariant (fun _ _ _ ht hstep => ht.step hstep.1 hstep.2)
    (Flushes.Inv.new hinv hlt disk)).allocated

/-- One block of ones. -/
def oneBlock : Bytes :=
  List.replicate 4096 1#8

theorem exists_wait_oneBlock : ∃ segment segments info, ∃ t : Flushes Unit,
    0 < segment.data.length ∧ t.jobs () = .wait 0 none segment segments 0 4096 info ∧
    t.flights = [⟨0, segment⟩] ∧ t.cancelled () = false ∧
    Run (fun s e t => Flushes.Step (fun _ => true) s e t ∧ s.Prompt e)
      (Flushes.new Unit (freeDevice 1) fun _ => 0#8)
      [.start () oneBlock, .alloc (), .build () none, .submit () none] t := by
  have hlen : oneBlock.length = 4096 := List.length_replicate
  have havail : (freeDevice 1).allocator.available = 1 := by
    rw [freeDevice, AllocatorV3.newAllocatorV3_eq one_pos]
    rfl
  simpa only [hlen] using Flushes.exists_wait (fun _ => true) (inv_freeDevice one_pos)
    (fun _ => 0#8) () (show 4096 ∣ oneBlock.length by omega) (by omega)
    (by rw [havail, hlen]; decide)

/-- A flush of one block waits for its write. -/
theorem inFlight_allocated_oneBlock : ∃ s : Flushes Unit,
    Run (fun s e t => Flushes.Step (fun _ => true) s e t ∧ s.Prompt e)
      (Flushes.new Unit (freeDevice 1) fun _ => 0#8)
      [.start () oneBlock, .alloc (), .build () none, .submit () none] s ∧
    s.flights ≠ [] ∧ ∀ flight ∈ s.flights, ∀ b ∈ flight.segment.blocks,
      s.device.allocator.isFree b = false := by
  obtain ⟨segment, segments, info, s, -, -, hflights, -, hrun⟩ := exists_wait_oneBlock
  exact ⟨s, hrun, by simp [hflights], inFlight_allocated (inv_freeDevice one_pos)
    ((total_freeDevice one_pos).trans_lt (by decide)) hrun⟩

/-- The context is cancelled while the write of a final flush is in flight : its block is free
afterwards, and the write is still in flight. -/
theorem rolled_back_in_flight : ∃ s : Flushes Unit,
    Run (Flushes.Step fun _ => true) (Flushes.new Unit (freeDevice 1) fun _ => 0#8)
      ([.start () oneBlock, .alloc (), .build () none, .submit () none] ++
        [.cancel (), .ctxDone ()]) s ∧
    ∃ flight ∈ s.flights, ∃ b ∈ flight.segment.blocks,
      s.device.allocator.isFree b = true := by
  obtain ⟨segment, segments, info, s, hpos, hjob, hflights, -, hrun⟩ := exists_wait_oneBlock
  have hinv : s.Inv := hrun.invariant (fun _ _ _ ht hstep => ht.step hstep.1 hstep.2)
    (Flushes.Inv.new (inv_freeDevice one_pos) ((total_freeDevice one_pos).trans_lt (by decide)) _)
  have hheld := hinv.held ()
  have hwithin := (hinv.sound ()).within
  rw [hjob] at hheld hwithin
  have hmem : segment.offset / 4096 ∈ segment.blocks :=
    Segment.mem_blocks.mpr ⟨segment.offset, le_rfl, by omega, rfl⟩
  refine ⟨_, (hrun.mono fun _ _ _ h => h.1).append (.cons ⟨rfl, rfl⟩ (.cons ⟨_, _, _, _, _, _, _,
    hjob, Function.update_self () true s.cancelled, rfl⟩ .nil)), ⟨0, segment⟩, ?_,
    segment.offset / 4096, hmem, ?_⟩
  · change _ ∈ s.flights
    rw [hflights]
    exact List.mem_singleton_self _
  · refine ((hheld.rollbackAlloc hinv.inv hinv.lt).2.2 _).trans ?_
    rw [Bool.or_eq_true, decide_eq_true_eq]
    exact Or.inr (hwithin segment List.mem_cons_self _ hmem)

end Corgi
