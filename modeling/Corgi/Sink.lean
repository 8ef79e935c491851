import Corgi.Chan

/-!
# A sink with a buffer

The sink that `flux.Create` gives to its source. `Next` puts a value into the queue and drains it,
`Request` adds to what the subscriber has asked for and drains it. Only one goroutine drains at a
time : it takes a value out of the queue for each one that was asked for, as long as the sink is
open. `Complete` waits on a condition until nobody drains and the queue is empty. Whoever has
drained wakes it, `Cancel` does not.

`Sink.drain` and `Sink.complete` are the steps of `drain` and `Complete`.

`Sink.Shut.step` : once the sink is not open and nobody is about to take a value, none is taken.
-/

namespace Corgi

/-- The state of a sink. -/
inductive SinkStat
  | opened
  | completed
  | cancelled
  deriving DecidableEq

theorem SinkStat.eq_cancelled {s : SinkStat} (h₁ : s ≠ .opened) (h₂ : s ≠ .completed) :
    s = .cancelled := by
  cases s <;> first | rfl | contradiction

/-- Where a goroutine is inside `drain`. -/
inductive DrainStage (α : Type*)
  /-- It takes one of what was asked for. -/
  | asking
  /-- There was one, and it looks whether the sink is open. -/
  | granted
  /-- The sink was open, and it takes a value out of the queue. -/
  | polling
  /-- It hands the value to the subscriber. -/
  | handing (v : α)
  /-- It has left the loop. -/
  | refused
  /-- It is about to let the next one drain, and to wake the one that waits. -/
  | leaving

/-- Where a goroutine is inside `Complete`. -/
inductive CompleteStage
  /-- It looks whether somebody drains. -/
  | looking
  /-- Nobody did, and it looks whether the queue is empty. -/
  | measuring
  /-- It waits on the condition. -/
  | waiting
  /-- The queue was empty. -/
  | drained
  /-- It has completed the sink, and closes the queue. -/
  | disposing
  deriving DecidableEq

/-- The sink is not completed yet. -/
def CompleteStage.waits : CompleteStage → Bool
  | .looking | .measuring | .waiting => true
  | _ => false

/-- What `Broadcast` does to a goroutine inside `Complete`. -/
def CompleteStage.wake : CompleteStage → CompleteStage
  | .waiting => .looking
  | stage => stage

/-- The calls of a sink in which a goroutine may have to wait. -/
inductive SinkCall
  /-- `Next`, before the value is in the queue. -/
  | offering
  | draining
  | completing (stage : CompleteStage)

/-- The call after somebody has drained. -/
def SinkCall.drained : SinkCall → Option SinkCall
  | .offering => some .offering
  | .draining => none
  | .completing stage => some (.completing stage.wake)

/-- A sink. -/
structure Sink (α : Type*) where
  stat : SinkStat
  queue : Chan α 256
  /-- What the subscriber has asked for and not got. -/
  n : BitVec 32
  /-- Where the goroutine is that drains. -/
  draining : Option (DrainStage α)
  /-- The calls of `Request` that have not come to `drain` yet. -/
  requested : ℕ

namespace Sink

variable {α : Type*} {s s' : Sink α}

/-- A sink that nothing was asked of. -/
def make : Sink α :=
  { stat := .opened, queue := .make, n := 0, draining := none, requested := 0 }

/-- All that was put into the queue. -/
def emitted (s : Sink α) : List α :=
  s.queue.sent

/-- `Request` adds to what was asked for. -/
def request (s : Sink α) (k : BitVec 32) : Sink α :=
  { s with n := s.n + k, requested := s.requested + 1 }

/-- A goroutine calls `drain`, which does nothing while another drains. -/
def enter (s : Sink α) : Sink α :=
  { s with draining := some (s.draining.getD .asking) }

/-- What the goroutine that drains does. -/
def drain (s : Sink α) : DrainStage α → Sink α
  | .asking => { s with
      n := s.n - 1
      draining := some (if -1 < (s.n - 1).toInt then .granted else .refused) }
  | .granted => { s with draining := some (if s.stat = .opened then .polling else .leaving) }
  | .polling =>
    match s.queue.recv with
    | some (v, queue) => { s with queue, draining := some (.handing v) }
    | none => { s with n := s.n + 1, draining := some .refused }
  | .handing _ => { s with draining := some .asking }
  | .refused => { s with n := if s.n = -1 then 0 else s.n, draining := some .leaving }
  | .leaving => { s with draining := none }

/-- What a goroutine does inside `Complete`, and where it is then, unless it returns. It does
nothing while it waits. -/
def complete (s : Sink α) : CompleteStage → Option (Sink α × Option CompleteStage)
  | .looking => some (s, some (if s.draining.isSome then .waiting else .measuring))
  | .measuring => some (s, some (if s.queue.buffer = [] then .drained else .waiting))
  | .waiting => none
  | .drained =>
    if s.stat = .opened then some ({ s with stat := .completed }, some .disposing)
    else some (s, none)
  | .disposing => some ({ s with queue := s.queue.close }, none)

/-! ## What the steps do -/

theorem draining_enter (s : Sink α) : (s.enter).draining ≠ none :=
  nofun

theorem enter_of_none (h : s.draining = none) :
    s.enter = { s with draining := some .asking } := by
  rw [enter, h]
  rfl

theorem enter_of_some (h : s.draining ≠ none) : s.enter = s := by
  obtain ⟨d, hd⟩ := Option.ne_none_iff_exists'.mp h
  cases s
  cases hd
  rfl

theorem drain_asking (h : -1 < (s.n - 1).toInt) :
    s.drain .asking = { s with n := s.n - 1, draining := some .granted } := by
  rw [drain, if_pos h]

theorem drain_granted (h : s.stat = .opened) :
    s.drain .granted = { s with draining := some .polling } := by
  rw [drain, if_pos h]

theorem drain_polling {v : α} {queue : Chan α 256} (h : s.queue.recv = some (v, queue)) :
    s.drain .polling = { s with queue, draining := some (.handing v) } := by
  rw [drain, h]

theorem drain_polling_none (h : s.queue.recv = none) :
    s.drain .polling = { s with n := s.n + 1, draining := some .refused } := by
  rw [drain, h]

theorem drain_refused (h : s.n ≠ -1) : s.drain .refused = { s with draining := some .leaving } := by
  rw [drain, if_neg h]

/-- Draining leaves the state of the sink and what was put into its queue alone. -/
theorem frame_drain (s : Sink α) (stage : DrainStage α) :
    (s.drain stage).stat = s.stat ∧ (s.drain stage).emitted = s.emitted ∧
      (s.drain stage).queue.closed = s.queue.closed := by
  cases stage with
  | polling =>
    unfold drain
    cases hrecv : s.queue.recv with
    | none => exact ⟨rfl, rfl, rfl⟩
    | some p =>
      obtain ⟨hsent, -, -, hclosed⟩ := Chan.of_recv hrecv
      exact ⟨rfl, hsent, hclosed⟩
  | _ => exact ⟨rfl, rfl, rfl⟩

theorem queue_drain (s : Sink α) {stage : DrainStage α} (h : stage ≠ .polling) :
    (s.drain stage).queue = s.queue := by
  cases stage with
  | polling => exact absurd rfl h
  | _ => rfl

/-- Who drains goes on until it leaves. -/
theorem draining_drain (s : Sink α) {stage : DrainStage α} (h : stage ≠ .leaving) :
    ∃ next, (s.drain stage).draining = some next := by
  cases stage with
  | leaving => exact absurd rfl h
  | polling =>
    unfold drain
    cases s.queue.recv with
    | none => exact ⟨_, rfl⟩
    | some p => exact ⟨_, rfl⟩
  | _ => exact ⟨_, rfl⟩

theorem opened_of_polling {stage : DrainStage α}
    (h : (s.drain stage).draining = some .polling) : s.stat = .opened := by
  cases stage with
  | asking =>
    rw [drain] at h
    split_ifs at h <;> cases h
  | granted =>
    rw [drain] at h
    split_ifs at h with hstat
    · exact hstat
    · cases h
  | polling =>
    unfold drain at h
    cases hrecv : s.queue.recv <;> rw [hrecv] at h <;> cases h
  | handing | refused | leaving => cases h

theorem complete_eq_none_iff {stage : CompleteStage} :
    s.complete stage = none ↔ stage = .waiting := by
  cases stage with
  | drained =>
    rw [complete]
    split_ifs <;> simp
  | _ => simp [complete]

/-- A step of `Complete` looks at the sink, completes it, finds it not open or closes its queue. -/
theorem complete_cases {stage : CompleteStage} {next : Option CompleteStage}
    (h : s.complete stage = some (s', next)) :
    (stage.waits = true ∧ s' = s ∧ ∃ stage', next = some stage' ∧ stage' ≠ .disposing) ∨
    (stage = .drained ∧ s.stat = .opened ∧ s' = { s with stat := .completed } ∧
      next = some .disposing) ∨
    (stage = .drained ∧ s.stat ≠ .opened ∧ s' = s ∧ next = none) ∨
    (stage = .disposing ∧ s' = { s with queue := s.queue.close } ∧ next = none) := by
  cases stage with
  | looking =>
    cases h
    exact Or.inl ⟨rfl, rfl, _, rfl, by split_ifs <;> nofun⟩
  | measuring =>
    cases h
    exact Or.inl ⟨rfl, rfl, _, rfl, by split_ifs <;> nofun⟩
  | waiting => cases h
  | drained =>
    rw [complete] at h
    split_ifs at h with hstat <;> cases h
    · exact Or.inr (Or.inl ⟨rfl, hstat, rfl, rfl⟩)
    · exact Or.inr (Or.inr (Or.inl ⟨rfl, hstat, rfl, rfl⟩))
  | disposing =>
    cases h
    exact Or.inr (Or.inr (Or.inr ⟨rfl, rfl, rfl⟩))

theorem frame_complete {stage : CompleteStage} {next : Option CompleteStage}
    (h : s.complete stage = some (s', next)) :
    s'.emitted = s.emitted ∧ s'.draining = s.draining ∧ s'.queue.buffer = s.queue.buffer := by
  rcases complete_cases h with ⟨-, rfl, -⟩ | ⟨-, -, rfl, -⟩ | ⟨-, -, rfl, -⟩ | ⟨-, rfl, -⟩ <;>
    exact ⟨rfl, rfl, rfl⟩

/-! ## A sink that is not open -/

/-- What can happen to a sink. -/
inductive Step (s : Sink α) : Sink α → Prop
  | request (k : BitVec 32) : Step s (s.request k)
  | requestDrain (requested : ℕ) : Step s { s with requested }.enter
  | enter : Step s s.enter
  | offer {v : α} {queue : Chan α 256} (h : s.queue.send v = some queue) : Step s { s with queue }
  | drain {stage : DrainStage α} (h : s.draining = some stage) : Step s (s.drain stage)
  | complete {stage : CompleteStage} {next : Option CompleteStage} {s' : Sink α}
    (h : s.complete stage = some (s', next)) : Step s s'
  | cancel (h : s.stat = .opened) : Step s { s with stat := .cancelled }
  | dispose (h : s.stat = .cancelled) : Step s { s with queue := s.queue.close }

/-- The sink is not open, and nobody is about to take a value out of the queue. -/
def Shut (s : Sink α) : Prop :=
  s.stat ≠ .opened ∧ s.draining ≠ some .polling

theorem draining_enter_ne (h : s.draining ≠ some .polling) : s.enter.draining ≠ some .polling := by
  by_cases hnone : s.draining = none
  · rw [enter_of_none hnone]
    nofun
  · rwa [enter_of_some hnone]

/-- Nothing is taken out of the queue any more. -/
theorem Shut.step (h : s.Shut) (hstep : s.Step s') :
    s'.Shut ∧ s.queue.buffer <+: s'.queue.buffer := by
  obtain ⟨hstat, hpoll⟩ := h
  cases hstep with
  | request | dispose => exact ⟨⟨hstat, hpoll⟩, List.prefix_rfl⟩
  | requestDrain | enter => exact ⟨⟨hstat, draining_enter_ne hpoll⟩, List.prefix_rfl⟩
  | offer hsend => exact ⟨⟨hstat, hpoll⟩, (Chan.of_send hsend).2.2.1 ▸ List.prefix_append _ _⟩
  | @drain stage hd =>
    refine ⟨⟨?_, fun hp => hstat (opened_of_polling hp)⟩, ?_⟩
    · rwa [(s.frame_drain stage).1]
    · have hqueue := s.queue_drain fun hp => hpoll (hp ▸ hd)
      exact hqueue ▸ List.prefix_rfl
  | complete hc =>
    obtain ⟨-, hdraining, hbuffer⟩ := frame_complete hc
    refine ⟨⟨?_, by rwa [hdraining]⟩, hbuffer ▸ List.prefix_rfl⟩
    rcases complete_cases hc with ⟨-, rfl, -⟩ | ⟨-, -, rfl, -⟩ | ⟨-, -, rfl, -⟩ | ⟨-, rfl, -⟩
    · exact hstat
    · nofun
    · exact hstat
    · exact hstat
  | cancel hopen => exact absurd hopen hstat

end Sink

/-! ## Who waits -/

namespace SinkCall

variable {α : Type*} {s s' : Sink α} {c c' : SinkCall}

/-- Whoever drains is the one that the sink knows. Whoever waits is going to be woken, or the queue
is not empty. -/
def Attended (s : Sink α) : SinkCall → Prop
  | .draining => s.draining ≠ none
  | .completing .waiting => s.draining ≠ none ∨ s.queue.buffer ≠ []
  | _ => True

/-- The goroutine waits for room in the queue, or for it to be empty. -/
def Blocked (s : Sink α) : SinkCall → Prop
  | .offering => s.queue.buffer.length = 256
  | .draining => False
  | .completing stage => stage.waits = true ∧ s.queue.buffer ≠ []

theorem Attended.of_prefix (h : c.Attended s) (hdraining : s'.draining = s.draining)
    (hbuffer : s.queue.buffer <+: s'.queue.buffer) : c.Attended s' := by
  unfold Attended at h ⊢
  split at h
  · rwa [hdraining]
  · rw [hdraining]
    exact h.imp_right fun hne hnil => hne (List.prefix_nil.mp (hnil ▸ hbuffer))
  · trivial

theorem attended_of_draining (h : s.draining ≠ none) : c.Attended s := by
  unfold Attended
  split
  · exact h
  · exact Or.inl h
  · trivial

/-- Whoever has been woken is attended. -/
theorem attended_of_drained (h : c.drained = some c') : c'.Attended s := by
  cases c with
  | offering =>
    cases h
    trivial
  | draining => cases h
  | completing stage =>
    cases h
    cases stage <;> trivial

/-- A goroutine inside `Complete` is attended after each step. -/
theorem attended_of_complete {stage next : CompleteStage}
    (h : s.complete stage = some (s', some next)) : Attended s' (.completing next) := by
  cases stage with
  | looking =>
    rw [Sink.complete] at h
    split_ifs at h with hd <;> cases h
    · exact Or.inl (Option.isSome_iff_ne_none.mp hd)
    · trivial
  | measuring =>
    rw [Sink.complete] at h
    split_ifs at h with hb <;> cases h
    · trivial
    · exact Or.inr hb
  | drained =>
    rw [Sink.complete] at h
    split_ifs at h <;> cases h
    trivial
  | waiting | disposing => cases h

/-- Whoever waits for a queue that is full, or not empty, still does when more is put into it. -/
theorem Blocked.of_prefix (h : c.Blocked s) (hbuffer : s.queue.buffer <+: s'.queue.buffer) :
    c.Blocked s' := by
  cases c with
  | offering =>
    have hfull : s.queue.buffer.length = 256 := h
    exact Nat.le_antisymm s'.queue.le (Nat.le_trans (Nat.le_of_eq hfull.symm) hbuffer.length_le)
  | draining => exact h.elim
  | completing stage => exact ⟨h.1, fun hnil => h.2 (List.prefix_nil.mp (hnil ▸ hbuffer))⟩

theorem Blocked.drained (h : c.Blocked s) : ∃ c', c.drained = some c' ∧ c'.Blocked s := by
  cases c with
  | offering => exact ⟨_, rfl, h⟩
  | draining => exact h.elim
  | completing stage =>
    refine ⟨_, rfl, ?_, h.2⟩
    cases stage <;> first | rfl | cases h.1

/-- `Complete` does not get past a queue that is not empty. -/
theorem Blocked.complete {stage : CompleteStage} {next : Option CompleteStage}
    (hb : Blocked s (.completing stage)) (h : s.complete stage = some (s', next)) :
    ∃ stage', next = some stage' ∧ Blocked s' (.completing stage') := by
  cases stage with
  | looking =>
    cases h
    exact ⟨_, rfl, by split_ifs <;> rfl, hb.2⟩
  | measuring =>
    cases h
    exact ⟨_, rfl, by rw [if_neg hb.2]; rfl, hb.2⟩
  | waiting => cases h
  | drained | disposing => cases hb.1

end SinkCall

end Corgi
