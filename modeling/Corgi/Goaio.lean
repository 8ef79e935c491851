import Corgi.Bytes
import Corgi.Runs
import Corgi.Totals
import Mathlib.Tactic.Abel

/-!
# Slots and completions of asynchronous writes

The notify path of `internal/third_party/goaio` (`aioPro.go`, and `New`, `Close`,
`getNextReady` and `releaseSlot` of `aio.go`) and the `AioChannel` of `internal/fs` that uses
it : any number of calls of `WriteAtNotify`, the completion loop and the final `Close`. A
control block (`iocb`) is a number below the queue depth. What runs under `dmtx` is one
step, and between two steps the others run. A call has a channel of its own with room for
one completion, as `submitAndWait` makes it.

The kernel reports an accepted iocb at most once, with any result, and not after
`io_destroy`.

In every state the iocbs are those in `avail`, those in `active` and those a call holds, and
the tokens of `slotSem` with those that calls hold are as many as `avail` has iocbs. So no
call finds `avail` empty, no event is untracked and no release finds the semaphore full. Each
accepted write is signalled once (`slots_conserved_and_signalled_once`).
-/

namespace Corgi

namespace Goaio

/-! ## The object -/

/-- The errors of the notify path. -/
inductive AIOError
  | invalidQueueDepth
  | invalidBuffer
  | ioSubFail
  | nilCallback
  | untrackedEventKey
  | invalidEventPtr
  | whatTheHell
  | shortWrite
  | closed
  /-- `errLookup`, of an errno with this text. -/
  | errno (text : String)
  /-- `lookupErrNo`, of a negative result. -/
  | result (res : ℤ)
  deriving DecidableEq, Repr

/-- The text of an error. -/
def AIOError.message : AIOError → String
  | invalidQueueDepth => "Invalid queue depth"
  | invalidBuffer => "Invalid buffer"
  | ioSubFail => "Failed to submit new IO request"
  | nilCallback => "The kernel returned a nil callback structure.  Fatal error"
  | untrackedEventKey => "The kernel returned an event key we weren't tracking"
  | invalidEventPtr => "The kernel returned an invalid callback event pointer"
  | whatTheHell => "A callback event occurred but no buffer was put into the pool"
  | shortWrite => "Short write occurred, caller needs to resubmit the remaining data"
  | closed => "aio closed"
  | errno text => text
  | result res => s!"Error {res}"

/-- What is sent to the caller: the bytes written, and an error. -/
structure Completion where
  n : ℕ
  err : Option AIOError
  deriving DecidableEq, Repr

/-- A write that the kernel has accepted, with the call whose channel is `doneCh`. -/
structure ActiveEvent (ι : Type) where
  data : Bytes
  written : ℕ
  cb : ℕ
  doneCh : ι
  deriving DecidableEq, Repr

/-- A completion, and the channel that it goes to. -/
structure NotifyResult (ι : Type) where
  ch : ι
  res : Completion
  deriving DecidableEq, Repr

/-- An event that the kernel reports. -/
structure Event where
  cb : Option ℕ
  res : ℤ
  deriving DecidableEq, Repr

/-- The event of an accepted iocb. -/
def Event.ofReport (report : ℕ × ℤ) : Event :=
  ⟨some report.1, report.2⟩

/-- The channels of tracked writes. -/
def doneChs {ι : Type} (active : Finmap fun _ : ℕ => ActiveEvent ι) : Multiset ι :=
  total (fun _ ae => {ae.doneCh}) active

/-- The queue of iocbs. Each one is in `avail`, in `active` or in the hands of a call. -/
structure AIO (ι : Type) where
  depth : ℕ
  /-- `ctx` is not 0. -/
  ctx : Bool
  avail : Finset ℕ
  active : Finmap fun _ : ℕ => ActiveEvent ι
  /-- The number of tokens in the semaphore. -/
  slotSem : ℕ
  /-- Some release found the semaphore full. -/
  overfull : Bool

/-- The queue depth, 16 if none is given and at most 1024. -/
def fixupConfig (queueDepth : ℤ) : Except AIOError ℕ :=
  let queueDepth := if queueDepth ≤ 0 then 16 else queueDepth
  if 1024 < queueDepth then .error .invalidQueueDepth else .ok queueDepth.toNat

namespace AIO

variable {ι : Type}

/-- All iocbs are available and the semaphore is full. -/
def new (queueDepth : ℤ) : Except AIOError <| AIO ι := do
  let depth ← fixupConfig queueDepth
  return ⟨depth, true, Finset.range depth, ∅, depth, false⟩

/-- Give a token back. A semaphore that is full drops it. -/
def releaseSlot (a : AIO ι) : AIO ι :=
  if a.slotSem < a.depth then { a with slotSem := a.slotSem + 1 } else { a with overfull := true }

/-- The part of `getNextReady` after the token is taken. `cb` is the iocb that the loop over
`avail` comes to first. -/
def getNextReady (a : AIO ι) (cb : ℕ) : AIO ι × Except AIOError ℕ :=
  if a.avail = ∅ then (a.releaseSlot, .error .whatTheHell)
  else ({ a with avail := a.avail.erase cb }, .ok cb)

/-- Put back an iocb that was not accepted. -/
def putBack (a : AIO ι) (cb : ℕ) : AIO ι :=
  { a with avail := insert cb a.avail }.releaseSlot

/-- Track an iocb that was accepted. -/
def track (a : AIO ι) (cb : ℕ) (data : Bytes) (doneCh : ι) : AIO ι :=
  { a with active := a.active.insert cb ⟨data, 0, cb, doneCh⟩ }

/-- Move an iocb from `active` to `avail`. -/
def recycle (a : AIO ι) (cb : ℕ) : AIO ι :=
  { a with active := a.active.erase cb, avail := insert cb a.avail }.releaseSlot

/-- Recycle the iocb and say what to send to its caller. -/
def finishEventLocked (a : AIO ι) (ae : ActiveEvent ι) (cb : ℕ) (err : Option AIOError) :
    AIO ι × NotifyResult ι :=
  (a.recycle cb, ⟨ae.doneCh, ⟨ae.written, err⟩⟩)

/-- Process one event of the kernel. A write that is not complete is an error. -/
def verifyResultPro (a : AIO ι) (evnt : Event) : AIO ι × Except AIOError (NotifyResult ι) :=
  match evnt.cb with
  | none => (a, .error .nilCallback)
  | some cb =>
    match a.active.lookup cb with
    | none => (a, .error .untrackedEventKey)
    | some ae =>
      if ae.cb ≠ cb then (a, .error .invalidEventPtr)
      else
        let (b, nr) :=
          if evnt.res < 0 then a.finishEventLocked ae cb (some (.result evnt.res))
          else
            let ae := { ae with written := ae.written + evnt.res.toNat }
            if ae.written ≠ ae.data.length then a.finishEventLocked ae cb (some .shortWrite)
            else a.finishEventLocked ae cb none
        (b, .ok nr)

end AIO

/-! ## The channel -/

/-- What `io_submit` returns. -/
inductive IoSubmit
  | accepted
  /-- Not 1, and no errno. -/
  | rejected
  | errno (text : String)

/-- The error of `io_submit`. -/
def IoSubmit.error : IoSubmit → Option AIOError
  | accepted => none
  | rejected => some .ioSubFail
  | errno text => some (.errno text)

/-- Where a call of `WriteAtNotify` stands. -/
inductive NotifyPhase
  /-- At the receive from `slotSem`. -/
  | waiting (b : Bytes)
  /-- With a token. -/
  | token (b : Bytes)
  /-- With an iocb, before `submit`. -/
  | holding (b : Bytes) (cb : ℕ)
  | returned (err : Option AIOError)
  deriving DecidableEq, Repr

namespace NotifyPhase

/-- The iocb that the call holds. -/
def held : NotifyPhase → Multiset ℕ
  | holding _ cb => {cb}
  | _ => 0

/-- The token that the call holds without an iocb. -/
def tokens : NotifyPhase → ℕ
  | token _ => 1
  | _ => 0

end NotifyPhase

/-- Where the completion loop stands. -/
inductive LoopPhase (ι : Type)
  /-- Outside `WaitAnyNotify`, or waiting for events. -/
  | idle
  | verifying (evts : List Event) (notifies : List (NotifyResult ι))
  | sending (notifies : List (NotifyResult ι))
  | exited

namespace LoopPhase

variable {ι : Type}

/-- The events that are not processed yet. -/
def events : LoopPhase ι → List Event
  | verifying evts _ => evts
  | _ => []

/-- The completions that are not sent yet. -/
def notifies : LoopPhase ι → List (NotifyResult ι)
  | verifying _ notifies => notifies
  | sending notifies => notifies
  | _ => []

end LoopPhase

/-- Where `Close` stands. -/
inductive ClosePhase
  | notCalled
  /-- `ctx` is 0. -/
  | cleared
  | destroyed
  | done
  deriving DecidableEq, Repr

/-- The queue with the calls of `WriteAtNotify`, the kernel, the completion loop and `Close`. -/
structure AioChannel (ι : Type) where
  aio : AIO ι
  calls : Finmap fun _ : ι => NotifyPhase
  /-- The iocbs that the kernel has accepted and not reported. -/
  kernel : Multiset ℕ
  /-- `stopCh` is closed. -/
  stopCh : Bool
  loop : LoopPhase ι
  closing : ClosePhase
  /-- What is in the channel of a call. -/
  resCh : ι → List Completion
  /-- Everything sent so far. -/
  sent : List (NotifyResult ι)
  /-- The calls whose event `verifyResultPro` has processed. -/
  processed : List ι
  /-- The errors of `verifyResultPro`, which `WaitAnyNotify` returned. -/
  errors : List AIOError

/-- The steps of the calls, of the kernel, of the completion loop and of `Close`. -/
inductive AioEvent (ι : Type)
  | writeAtNotify (i : ι) (b : Bytes)
  /-- A call takes a token. -/
  | takeToken (i : ι)
  | getNextReady (i : ι) (cb : ℕ)
  | submit (i : ι) (result : IoSubmit)
  /-- `io_getevents` returns these iocbs with these results. -/
  | getEvents (reports : List (ℕ × ℤ))
  /-- `io_getevents` returns nothing, or fails. -/
  | noEvents
  /-- `WaitAnyNotify` processes one event, or is through with them. -/
  | verifyResultPro
  /-- `WaitAnyNotify` sends one completion, or returns. -/
  | notify
  /-- A caller receives its completion. -/
  | receive (i : ι)
  /-- `stopCh` is closed. -/
  | stop
  /-- The completion loop returns. -/
  | exit
  /-- `Close` sets `ctx` to 0. -/
  | clearCtx
  | ioDestroy
  /-- `Close` clears `active`, going through it in this order. -/
  | clearActive (order : List ((_ : ℕ) × ActiveEvent ι))

namespace AioChannel

variable {ι : Type} [DecidableEq ι]

/-- The channel with its loop just started. -/
def newAioChannel (a : AIO ι) : AioChannel ι where
  aio := a
  calls := ∅
  kernel := 0
  stopCh := false
  loop := .idle
  closing := .notCalled
  resCh := fun _ => []
  sent := []
  processed := []
  errors := []

/-- The call moves on. -/
def goto (s : AioChannel ι) (i : ι) (phase : NotifyPhase) : AioChannel ι :=
  { s with calls := s.calls.insert i phase }

/-- A completion is put into the channel of its call. -/
def send (s : AioChannel ι) (nr : NotifyResult ι) : AioChannel ι :=
  { s with
    resCh := Function.update s.resCh nr.ch (s.resCh nr.ch ++ [nr.res])
    sent := s.sent ++ [nr] }

/-- `Close` takes one entry out of `active`. It does not wait for room in the channel. -/
def closeEntry (s : AioChannel ι) (e : (_ : ℕ) × ActiveEvent ι) : AioChannel ι :=
  let s := { s with aio := s.aio.recycle e.1 }
  if s.resCh e.2.doneCh = [] then s.send ⟨e.2.doneCh, ⟨e.2.written, some .closed⟩⟩ else s

/-- One step. -/
def Step (s : AioChannel ι) : AioEvent ι → AioChannel ι → Prop
  | .writeAtNotify i b, t => i ∉ s.calls ∧
    t = s.goto i (if b.length = 0 then .returned (some .invalidBuffer) else .waiting b)
  | .takeToken i, t => ∃ b, s.calls.lookup i = some (.waiting b) ∧ 0 < s.aio.slotSem ∧
    t = { s with aio := { s.aio with slotSem := s.aio.slotSem - 1 } }.goto i (.token b)
  | .getNextReady i cb, t => ∃ b, s.calls.lookup i = some (.token b) ∧
    (s.aio.avail ≠ ∅ → cb ∈ s.aio.avail) ∧
    t = { s with aio := (s.aio.getNextReady cb).1 }.goto i
      (match (s.aio.getNextReady cb).2 with
        | .ok cb => .holding b cb
        | .error e => .returned (some e))
  | .submit i result, t => ∃ b cb, s.calls.lookup i = some (.holding b cb) ∧
    -- A context that is 0 is not valid.
    (result.error = none → s.aio.ctx = true) ∧
    t = (match result.error with
      | none => { s with aio := s.aio.track cb b i, kernel := cb ::ₘ s.kernel }
      | some _ => { s with aio := s.aio.putBack cb }).goto i (.returned result.error)
  | .getEvents reports, t => s.loop = .idle ∧ reports.length ≤ s.aio.depth ∧
    (reports.map Prod.fst : Multiset ℕ) ≤ s.kernel ∧
    t = { s with
      kernel := s.kernel - (reports.map Prod.fst : Multiset ℕ)
      loop := .verifying (reports.map Event.ofReport) [] }
  | .noEvents, t => s.loop = .idle ∧ t = s
  | .verifyResultPro, t =>
    (∃ notifies, s.loop = .verifying [] notifies ∧ t = { s with loop := .sending notifies }) ∨
    ∃ evnt evts notifies, s.loop = .verifying (evnt :: evts) notifies ∧
      t = match s.aio.verifyResultPro evnt with
        | (a, .ok nr) => { s with
          aio := a
          loop := .verifying evts (notifies ++ [nr])
          processed := s.processed ++ [nr.ch] }
        -- The events and completions at hand are lost.
        | (a, .error e) => { s with aio := a, loop := .idle, errors := s.errors ++ [e] }
  | .notify, t =>
    (s.loop = .sending [] ∧ t = { s with loop := .idle }) ∨
    ∃ nr notifies, s.loop = .sending (nr :: notifies) ∧ s.resCh nr.ch = [] ∧
      t = { s with loop := .sending notifies }.send nr
  | .receive i, t => ∃ c rest, s.resCh i = c :: rest ∧
    t = { s with resCh := Function.update s.resCh i rest }
  | .stop, t => t = { s with stopCh := true }
  | .exit, t => s.loop = .idle ∧ s.stopCh = true ∧ t = { s with loop := .exited }
  | .clearCtx, t => s.loop = .exited ∧ s.aio.ctx = true ∧
    t = { s with aio := { s.aio with ctx := false }, closing := .cleared }
  | .ioDestroy, t => s.closing = .cleared ∧ t = { s with kernel := 0, closing := .destroyed }
  | .clearActive order, t => s.closing = .destroyed ∧
    (order : Multiset ((_ : ℕ) × ActiveEvent ι)) = s.aio.active.entries ∧
    t = { order.foldl closeEntry s with closing := .done }

/-- The iocbs that calls hold between `getNextReady` and `submit`. -/
def held (s : AioChannel ι) : Multiset ℕ :=
  total (fun _ phase => phase.held) s.calls

/-- The number of calls that hold a token and no iocb. -/
def tokens (s : AioChannel ι) : ℕ :=
  total (fun _ phase => phase.tokens) s.calls

/-- The calls that returned nil. -/
def accepted (s : AioChannel ι) : Multiset ι :=
  names (fun _ phase => phase = .returned none) s.calls

/-- The channels of the writes in `active`. -/
def pending (s : AioChannel ι) : Multiset ι :=
  doneChs s.aio.active

/-- What was sent to the channel of a call. -/
def sentTo (s : AioChannel ι) (i : ι) : List Completion :=
  (s.sent.filter fun nr => nr.ch = i).map NotifyResult.res

end AioChannel

/-! ## Slots -/

namespace AIO

variable {ι : Type}

/-- The iocbs are in `avail`, in `active` or held, and the tokens in the semaphore and held
are as many as `avail` has iocbs. -/
structure Conserved (a : AIO ι) (depth : ℕ) (held : Multiset ℕ) (tokens : ℕ) : Prop where
  depth_eq : a.depth = depth
  iocbs : a.avail.val + a.active.keys.val + held = Multiset.range depth
  slots : a.slotSem + tokens = a.avail.card
  notFull : a.overfull = false

variable {a : AIO ι} {depth : ℕ} {held : Multiset ℕ} {tokens cb : ℕ}

/-- A new object has all its iocbs in `avail`, and as many tokens. -/
theorem conserved_new {queueDepth : ℤ} (h : new queueDepth = .ok a) :
    a.Conserved a.depth 0 0 ∧ a.active = ∅ := by
  unfold new at h
  cases hd : fixupConfig queueDepth with
  | error e =>
    rw [hd] at h
    exact absurd h nofun
  | ok depth =>
    rw [hd] at h
    obtain rfl := Except.ok.inj h
    refine ⟨⟨rfl, ?_, ?_, rfl⟩, rfl⟩
    · show (Finset.range depth).val + (∅ : Finset ℕ).val + 0 = Multiset.range depth
      rw [Finset.empty_val, add_zero, add_zero, Finset.range_val]
    · show depth + 0 = (Finset.range depth).card
      rw [Finset.card_range, add_zero]

namespace Conserved

theorem card_avail_le (h : a.avail.val + a.active.keys.val + held = Multiset.range depth) :
    a.avail.card ≤ depth := by
  have hcard := congrArg Multiset.card h
  rw [Multiset.card_add, Multiset.card_add, Multiset.card_range] at hcard
  have hval : Multiset.card a.avail.val = a.avail.card := rfl
  omega

/-- The release after an iocb came back to `avail` finds room. -/
theorem insert_releaseSlot (hdepth : a.depth = depth) (hcb : cb ∉ a.avail)
    (h : cb ::ₘ (a.avail.val + a.active.keys.val + held) = Multiset.range depth)
    (hslots : a.slotSem + tokens = a.avail.card) (hfull : a.overfull = false) :
    { a with avail := insert cb a.avail }.releaseSlot.Conserved depth held tokens := by
  have hiocbs : (insert cb a.avail).val + a.active.keys.val + held = Multiset.range depth := by
    rw [Finset.insert_val_of_notMem hcb, Multiset.cons_add, Multiset.cons_add, h]
  have hle := @card_avail_le ι { a with avail := insert cb a.avail } depth held hiocbs
  have hcard := Finset.card_insert_of_notMem hcb
  simp only at hle
  rw [releaseSlot, if_pos (by simp only; omega)]
  exact ⟨hdepth, hiocbs, by simp only; omega, hfull⟩

/-- No iocb is in two places. -/
theorem nodup (h : a.Conserved depth held tokens) :
    (a.avail.val + a.active.keys.val + held).Nodup := by
  rw [h.iocbs]
  exact Multiset.nodup_range _

theorem notMem_of_held (h : a.Conserved depth (cb ::ₘ held) tokens) :
    cb ∉ a.avail ∧ cb ∉ a.active := by
  have hdisj := (Multiset.nodup_add.mp h.nodup).2.2
  have hout := Multiset.disjoint_right.mp hdisj (Multiset.mem_cons_self cb held)
  rw [Multiset.mem_add, not_or] at hout
  exact ⟨hout.1, fun hmem => hout.2 (Finmap.mem_keys.mpr hmem)⟩

theorem notMem_of_active (h : a.Conserved depth held tokens) (hcb : cb ∈ a.active) :
    cb ∉ a.avail := by
  have hdisj := (Multiset.nodup_add.mp (Multiset.nodup_add.mp h.nodup).1).2.2
  exact Multiset.disjoint_right.mp hdisj (Finmap.mem_keys.mpr hcb)

theorem takeToken (h : a.Conserved depth held tokens) (hpos : 0 < a.slotSem) :
    { a with slotSem := a.slotSem - 1 }.Conserved depth held (tokens + 1) :=
  ⟨h.depth_eq, h.iocbs, by have := h.slots; simp only; omega, h.notFull⟩

/-- A call that holds a token finds an iocb. -/
theorem avail_ne_empty (h : a.Conserved depth held (tokens + 1)) : a.avail ≠ ∅ := by
  have hslots := h.slots
  rw [← Finset.card_pos.trans Finset.nonempty_iff_ne_empty]
  omega

theorem getNextReady (h : a.Conserved depth held (tokens + 1)) (hcb : cb ∈ a.avail) :
    { a with avail := a.avail.erase cb }.Conserved depth (cb ::ₘ held) tokens := by
  refine ⟨h.depth_eq, ?_, ?_, h.notFull⟩
  · have hval : a.avail.val = cb ::ₘ (a.avail.erase cb).val := by
      rw [Finset.erase_val, Multiset.cons_erase hcb]
    have hiocbs := h.iocbs
    rw [hval] at hiocbs
    rw [← hiocbs]
    simp only [Multiset.cons_add, Multiset.add_cons]
  · have hslots := h.slots
    have hcard := Finset.card_erase_add_one hcb
    simp only
    omega

theorem putBack (h : a.Conserved depth (cb ::ₘ held) tokens) :
    (a.putBack cb).Conserved depth held tokens := by
  refine insert_releaseSlot h.depth_eq h.notMem_of_held.1 ?_ h.slots h.notFull
  rw [← Multiset.add_cons, h.iocbs]

theorem track (h : a.Conserved depth (cb ::ₘ held) tokens) (data : Bytes) (i : ι) :
    (a.track cb data i).Conserved depth held tokens := by
  obtain ⟨-, hact⟩ := h.notMem_of_held
  refine ⟨h.depth_eq, ?_, h.slots, h.notFull⟩
  show a.avail.val + (a.active.insert cb _).keys.val + held = Multiset.range depth
  rw [keys_insert_of_notMem hact, ← h.iocbs]
  simp only [Multiset.cons_add, Multiset.add_cons]

theorem recycle (h : a.Conserved depth held tokens) (hcb : cb ∈ a.active) :
    (a.recycle cb).Conserved depth held tokens := by
  refine @insert_releaseSlot ι { a with active := a.active.erase cb } depth held tokens cb
    h.depth_eq (h.notMem_of_active hcb) ?_ h.slots h.notFull
  rw [← h.iocbs, keys_of_mem hcb, Multiset.add_cons, Multiset.cons_add]

end Conserved

end AIO

/-! ## Completions -/

namespace AIO

variable {ι : Type} {a : AIO ι} {cb : ℕ}

theorem doneChs_insert {active : Finmap fun _ : ℕ => ActiveEvent ι} (h : cb ∉ active)
    (ae : ActiveEvent ι) : doneChs (active.insert cb ae) = ae.doneCh ::ₘ doneChs active := by
  rw [doneChs, total_insert_of_notMem _ h, Multiset.singleton_add, doneChs]

theorem doneChs_of_lookup {active : Finmap fun _ : ℕ => ActiveEvent ι}
    {ae : ActiveEvent ι} (h : active.lookup cb = some ae) :
    doneChs active = ae.doneCh ::ₘ doneChs (active.erase cb) := by
  rw [doneChs, total_of_lookup _ h, Multiset.singleton_add, doneChs]

theorem releaseSlot_fields (a : AIO ι) :
    a.releaseSlot.active = a.active ∧ a.releaseSlot.ctx = a.ctx := by
  unfold releaseSlot
  split_ifs <;> exact ⟨rfl, rfl⟩

/-- An event of a tracked iocb is processed, whatever its result. -/
theorem verifyResultPro_of_lookup {ae : ActiveEvent ι} (h : a.active.lookup cb = some ae)
    (hcb : ae.cb = cb) {evnt : Event} (hevnt : evnt.cb = some cb) :
    ∃ res, a.verifyResultPro evnt = (a.recycle cb, .ok ⟨ae.doneCh, res⟩) := by
  unfold verifyResultPro
  rw [hevnt]
  simp only [h, hcb, ne_eq, not_true_eq_false, if_false]
  split_ifs <;> exact ⟨_, rfl⟩

end AIO

namespace AioChannel

variable {ι : Type} [DecidableEq ι] {s t : AioChannel ι} {depth : ℕ} {i : ι}
  {phase phase' : NotifyPhase}

theorem held_goto (h : s.calls.lookup i = some phase) :
    (s.goto i phase').held + phase.held = s.held + phase'.held :=
  total_insert_of_lookup (fun (_ : ι) (phase : NotifyPhase) => phase.held) h phase'

theorem tokens_goto (h : s.calls.lookup i = some phase) :
    (s.goto i phase').tokens + phase.tokens = s.tokens + phase'.tokens :=
  total_insert_of_lookup (fun (_ : ι) (phase : NotifyPhase) => phase.tokens) h phase'

theorem mem_accepted : i ∈ s.accepted ↔ s.calls.lookup i = some (.returned none) := by
  rw [accepted, mem_names]
  exact ⟨fun ⟨_, hb, hp⟩ => hp ▸ hb, fun h => ⟨_, h, rfl⟩⟩

/-- Only a call that returns nil is accepted. -/
theorem accepted_goto (h : s.calls.lookup i = some phase) (hphase : phase ≠ .returned none) :
    (s.goto i phase').accepted =
      if phase' = .returned none then i ::ₘ s.accepted else s.accepted := by
  have hmoved := total_insert_of_lookup (fun (i : ι) (phase : NotifyPhase) =>
    if phase = .returned none then ({i} : Multiset ι) else 0) h phase'
  simp only [if_neg hphase, add_zero] at hmoved
  refine hmoved.trans ?_
  split_ifs
  · rw [add_comm, Multiset.singleton_add]
    rfl
  · rw [add_zero]
    rfl

/-- A call that moves to another phase than `phase` leaves no call there that was not. -/
theorem lookup_goto_ne (h : ∀ j, s.calls.lookup j ≠ some phase) (hphase : phase' ≠ phase) (j : ι) :
    (s.goto i phase').calls.lookup j ≠ some phase := by
  by_cases hji : j = i
  · subst hji
    rw [AioChannel.goto, Finmap.lookup_insert]
    exact fun heq => hphase (Option.some.inj heq)
  · rw [AioChannel.goto, Finmap.lookup_insert_of_ne _ hji]
    exact h j

/-- What holds in every state. -/
structure Sound (s : AioChannel ι) (depth : ℕ) : Prop where
  conserved : s.aio.Conserved depth s.held s.tokens
  keyed : ∀ cb ae, s.aio.active.lookup cb = some ae → ae.cb = cb
  /-- A tracked iocb is with the kernel, or its event is at hand. -/
  events : s.closing = .notCalled →
    s.kernel.map some + (s.loop.events.map Event.cb : Multiset (Option ℕ)) =
      s.aio.active.keys.val.map some
  /-- An accepted write is tracked, or its completion is at hand, or sent. -/
  channels : s.pending + (s.loop.notifies.map NotifyResult.ch : Multiset ι) +
    (s.sent.map NotifyResult.ch : Multiset ι) = s.accepted
  buffered : ∀ i, s.resCh i ≠ [] → i ∈ s.sent.map NotifyResult.ch
  processed : ∀ i ∈ s.processed, i ∈ s.accepted ∧ i ∉ s.pending
  exited : s.closing ≠ .notCalled → s.loop = .exited
  ctx : s.aio.ctx = true → s.closing = .notCalled
  done : s.closing = .done → s.aio.active = ∅
  noErrors : s.errors = []
  answers : ∀ i, s.calls.lookup i ≠ some (.returned (some .whatTheHell))

theorem sound_newAioChannel {a : AIO ι} (h : a.Conserved depth 0 0) (hempty : a.active = ∅) :
    (newAioChannel a).Sound depth where
  conserved := h
  keyed := by
    intro cb ae hae
    simp only [newAioChannel, hempty, Finmap.lookup_empty] at hae
    exact absurd hae nofun
  events := fun _ => by
    simp only [newAioChannel, hempty]
    rfl
  channels := by
    simp only [pending, newAioChannel, hempty]
    rfl
  buffered := nofun
  processed := nofun
  exited := nofun
  ctx := fun _ => rfl
  done := nofun
  noErrors := rfl
  answers := nofun

namespace Sound

/-- A call moves, and nothing is accepted. -/
theorem goto (h : s.Sound depth) {a : AIO ι} (hactive : a.active = s.aio.active)
    (hctx : a.ctx = s.aio.ctx) (haccepted : (s.goto i phase').accepted = s.accepted)
    (hconserved : a.Conserved depth (s.goto i phase').held (s.goto i phase').tokens)
    (hphase : phase' ≠ .returned (some .whatTheHell)) :
    ({ s with aio := a }.goto i phase').Sound depth where
  conserved := hconserved
  keyed := by
    rw [AioChannel.goto, hactive]
    exact h.keyed
  events := by
    simp only [AioChannel.goto, hactive]
    exact h.events
  channels := by
    refine Eq.trans ?_ (h.channels.trans haccepted.symm)
    simp only [pending, AioChannel.goto, hactive]
  buffered := h.buffered
  processed := by
    intro j hj
    simp only [pending, AioChannel.goto, hactive]
    refine ⟨?_, (h.processed j hj).2⟩
    exact haccepted.symm ▸ (h.processed j hj).1
  exited := h.exited
  ctx := fun hc => h.ctx (hctx.symm.trans hc)
  done := fun hd => hactive.trans (h.done hd)
  noErrors := h.noErrors
  answers := lookup_goto_ne h.answers hphase

theorem writeAtNotify (h : s.Sound depth) (hi : i ∉ s.calls) (hheld : phase'.held = 0)
    (htokens : phase'.tokens = 0) (hphase : phase' ≠ .returned none)
    (hphase' : phase' ≠ .returned (some .whatTheHell)) : (s.goto i phase').Sound depth := by
  have hheld' : (s.goto i phase').held = s.held := by
    refine (total_insert_of_notMem _ hi).trans ?_
    rw [hheld, zero_add]
    rfl
  have htokens' : (s.goto i phase').tokens = s.tokens := by
    refine (total_insert_of_notMem _ hi).trans ?_
    rw [htokens, zero_add]
    rfl
  have haccepted : (s.goto i phase').accepted = s.accepted :=
    names_insert_of_notMem _ hi hphase
  exact h.goto rfl rfl haccepted (by rw [hheld', htokens']; exact h.conserved) hphase'

theorem takeToken (h : s.Sound depth) {b : Bytes} (hi : s.calls.lookup i = some (.waiting b))
    (hpos : 0 < s.aio.slotSem) :
    ({ s with aio := { s.aio with slotSem := s.aio.slotSem - 1 } }.goto i
      (.token b)).Sound depth := by
  have hheld : (s.goto i (.token b)).held = s.held := by
    simpa only [NotifyPhase.held, add_zero] using @held_goto ι _ s i _ (.token b) hi
  have htokens : (s.goto i (.token b)).tokens = s.tokens + 1 := tokens_goto hi
  refine h.goto rfl rfl (accepted_goto hi nofun) ?_ nofun
  rw [hheld, htokens]
  exact h.conserved.takeToken hpos

/-- A call that holds a token is about to give it for an iocb. -/
theorem conserved_of_token (h : s.Sound depth) {b : Bytes}
    (hi : s.calls.lookup i = some (.token b)) (cb : ℕ) :
    s.aio.Conserved depth s.held ((s.goto i (.holding b cb)).tokens + 1) := by
  have htokens : (s.goto i (.holding b cb)).tokens + 1 = s.tokens := tokens_goto hi
  rw [htokens]
  exact h.conserved

theorem getNextReady (h : s.Sound depth) {b : Bytes} (hi : s.calls.lookup i = some (.token b))
    {cb : ℕ} (hcb : cb ∈ s.aio.avail) :
    ({ s with aio := { s.aio with avail := s.aio.avail.erase cb } }.goto i
      (.holding b cb)).Sound depth := by
  have hheld : (s.goto i (.holding b cb)).held = cb ::ₘ s.held := by
    rw [← Multiset.singleton_add, add_comm]
    simpa only [NotifyPhase.held, add_zero] using @held_goto ι _ s i _ (.holding b cb) hi
  refine h.goto rfl rfl (accepted_goto hi nofun) ?_ nofun
  rw [hheld]
  exact (h.conserved_of_token hi cb).getNextReady hcb

/-- A call that holds an iocb gives it up. -/
theorem conserved_of_holding (h : s.Sound depth) {b : Bytes} {cb : ℕ}
    (hi : s.calls.lookup i = some (.holding b cb)) (err : Option AIOError) :
    s.aio.Conserved depth (cb ::ₘ (s.goto i (.returned err)).held)
      (s.goto i (.returned err)).tokens := by
  have hheld : (s.goto i (.returned err)).held + {cb} = s.held := by
    simpa only [NotifyPhase.held, add_zero] using @held_goto ι _ s i _ (.returned err) hi
  have htokens : (s.goto i (.returned err)).tokens = s.tokens := tokens_goto hi
  rw [← Multiset.singleton_add, add_comm, hheld, htokens]
  exact h.conserved

theorem submit_error (h : s.Sound depth) {b : Bytes} {cb : ℕ}
    (hi : s.calls.lookup i = some (.holding b cb)) {e : AIOError} (he : e ≠ .whatTheHell) :
    ({ s with aio := s.aio.putBack cb }.goto i (.returned (some e))).Sound depth := by
  obtain ⟨hactive, hctx⟩ := AIO.releaseSlot_fields { s.aio with avail := insert cb s.aio.avail }
  refine h.goto hactive hctx (accepted_goto hi nofun) ?_ ?_
  · exact (h.conserved_of_holding hi (some e)).putBack
  · exact fun heq => he (Option.some.inj (NotifyPhase.returned.inj heq))

theorem submit_accepted (h : s.Sound depth) {b : Bytes} {cb : ℕ}
    (hi : s.calls.lookup i = some (.holding b cb)) (hctx : s.aio.ctx = true) :
    ({ s with aio := s.aio.track cb b i, kernel := cb ::ₘ s.kernel }.goto i
      (.returned none)).Sound depth := by
  have hholding := h.conserved_of_holding hi none
  obtain ⟨-, hcb⟩ := hholding.notMem_of_held
  have haccepted : (s.goto i (.returned none)).accepted = i ::ₘ s.accepted :=
    (accepted_goto hi nofun).trans (if_pos rfl)
  have hpending : doneChs (s.aio.track cb b i).active = i ::ₘ s.pending :=
    AIO.doneChs_insert hcb _
  have hfresh : i ∉ s.accepted := fun hmem =>
    absurd (hi.symm.trans (mem_accepted.mp hmem)) nofun
  have hnotCalled := h.ctx hctx
  refine ⟨hholding.track b i, fun cb' ae hae => ?_, fun hc => ?_, ?_, h.buffered, fun j hj => ?_,
    h.exited, h.ctx, fun hd => ?_, h.noErrors, lookup_goto_ne h.answers nofun⟩
  · by_cases hne : cb' = cb
    · subst hne
      simp only [AioChannel.goto, AIO.track, Finmap.lookup_insert] at hae
      exact Option.some.inj hae ▸ rfl
    · simp only [AioChannel.goto, AIO.track, Finmap.lookup_insert_of_ne _ hne] at hae
      exact h.keyed cb' ae hae
  · have hkeys : (s.aio.track cb b i).active.keys.val = cb ::ₘ s.aio.active.keys.val :=
      keys_insert_of_notMem hcb _
    show (cb ::ₘ s.kernel).map some + _ = (s.aio.track cb b i).active.keys.val.map some
    rw [hkeys, Multiset.map_cons, Multiset.map_cons, Multiset.cons_add]
    exact congrArg (some cb ::ₘ ·) (h.events hnotCalled)
  · refine Eq.trans ?_ haccepted.symm
    rw [← h.channels, ← Multiset.cons_add, ← Multiset.cons_add, ← hpending]
    rfl
  · obtain ⟨hacc, hpend⟩ := h.processed j hj
    refine ⟨haccepted.symm ▸ Multiset.mem_cons_of_mem hacc, ?_⟩
    show j ∉ doneChs (s.aio.track cb b i).active
    rw [hpending, Multiset.mem_cons, not_or]
    exact ⟨fun heq => hfresh (heq ▸ hacc), hpend⟩
  · exact absurd (hnotCalled.symm.trans hd) nofun

theorem notCalled (h : s.Sound depth) (hloop : s.loop ≠ .exited) : s.closing = .notCalled := by
  by_contra hc
  exact hloop (h.exited hc)

/-- The loop moves on with the same completions at hand. -/
theorem loop (h : s.Sound depth) {loop : LoopPhase ι} {kernel : Multiset ℕ}
    (hloop : s.loop ≠ .exited) (hnotifies : loop.notifies = s.loop.notifies)
    (hevents : kernel.map some + (loop.events.map Event.cb : Multiset (Option ℕ)) =
      s.kernel.map some + (s.loop.events.map Event.cb : Multiset (Option ℕ))) :
    { s with loop := loop, kernel := kernel }.Sound depth where
  conserved := h.conserved
  keyed := h.keyed
  events := fun hc => hevents.trans (h.events hc)
  channels := by
    simp only [hnotifies]
    exact h.channels
  buffered := h.buffered
  processed := h.processed
  exited := fun hc => absurd (h.notCalled hloop) hc
  ctx := h.ctx
  done := h.done
  noErrors := h.noErrors
  answers := h.answers

theorem getEvents (h : s.Sound depth) (hloop : s.loop = .idle) {reports : List (ℕ × ℤ)}
    (hle : (reports.map Prod.fst : Multiset ℕ) ≤ s.kernel) :
    { s with
      kernel := s.kernel - (reports.map Prod.fst : Multiset ℕ)
      loop := .verifying (reports.map Event.ofReport) [] }.Sound depth := by
  refine h.loop (by rw [hloop]; nofun) (by rw [hloop]; rfl) ?_
  have hcbs : ((reports.map Event.ofReport).map Event.cb : Multiset _) =
      (reports.map Prod.fst : Multiset ℕ).map some := by
    rw [Multiset.map_coe, List.map_map, List.map_map]
    rfl
  simp only [hloop, LoopPhase.events]
  rw [hcbs, ← Multiset.map_add, tsub_add_cancel_of_le hle]
  exact (add_zero _).symm

/-- The channels of the writes that are not signalled are not those of others. -/
theorem nodup (h : s.Sound depth) :
    (s.pending + (s.loop.notifies.map NotifyResult.ch : Multiset ι) +
      (s.sent.map NotifyResult.ch : Multiset ι)).Nodup := by
  rw [h.channels]
  exact nodup_names _

/-- The channel of a write that is not signalled is empty. -/
theorem resCh_eq_nil (h : s.Sound depth)
    (hi : i ∈ s.pending + (s.loop.notifies.map NotifyResult.ch : Multiset ι)) :
    s.resCh i = [] := by
  by_contra hne
  have hdisj := (Multiset.nodup_add.mp h.nodup).2.2
  exact Multiset.disjoint_left.mp hdisj hi (h.buffered i hne)

/-- The head of the events at hand is of a tracked iocb. -/
theorem exists_lookup (h : s.Sound depth) {evnt : Event} {evts : List Event}
    {notifies : List (NotifyResult ι)} (hloop : s.loop = .verifying (evnt :: evts) notifies) :
    ∃ cb ae, evnt.cb = some cb ∧ s.aio.active.lookup cb = some ae ∧ ae.cb = cb := by
  have hevents := h.events (h.notCalled (by rw [hloop]; nofun))
  have hmem : evnt.cb ∈ s.aio.active.keys.val.map some := by
    rw [← hevents, hloop]
    exact Multiset.mem_add.mpr (Or.inr (by simp [LoopPhase.events]))
  obtain ⟨cb, hcb, hsome⟩ := Multiset.mem_map.mp hmem
  obtain ⟨ae, hae⟩ := Finmap.mem_iff.mp (Finmap.mem_keys.mp hcb)
  exact ⟨cb, ae, hsome.symm, hae, h.keyed cb ae hae⟩

/-- An iocb goes from `active` to `avail`, and the completion of its write from the tracked
ones to those at hand or sent. -/
theorem recycle (h : s.Sound depth) {cb : ℕ} {ae : ActiveEvent ι}
    (hae : s.aio.active.lookup cb = some ae) :
    (s.aio.recycle cb).Conserved depth s.held s.tokens ∧
    (s.aio.recycle cb).active = s.aio.active.erase cb ∧ (s.aio.recycle cb).ctx = s.aio.ctx ∧
    s.pending = ae.doneCh ::ₘ doneChs (s.aio.active.erase cb) ∧
    ae.doneCh ∉ doneChs (s.aio.active.erase cb) ∧
    ∀ j ∉ s.pending, j ∉ doneChs (s.aio.active.erase cb) := by
  obtain ⟨hactive, hctx⟩ := AIO.releaseSlot_fields
    { s.aio with active := s.aio.active.erase cb, avail := insert cb s.aio.avail }
  have hpending : s.pending = ae.doneCh ::ₘ doneChs (s.aio.active.erase cb) :=
    AIO.doneChs_of_lookup hae
  have hnodup := (Multiset.nodup_add.mp (Multiset.nodup_add.mp h.nodup).1).1
  rw [hpending] at hnodup
  refine ⟨h.conserved.recycle (Finmap.mem_iff.mpr ⟨ae, hae⟩), hactive, hctx, hpending,
    (Multiset.nodup_cons.mp hnodup).1, fun j hj hc => hj ?_⟩
  rw [hpending]
  exact Multiset.mem_cons_of_mem hc

theorem verifyResultPro (h : s.Sound depth) {evnt : Event} {evts : List Event}
    {notifies : List (NotifyResult ι)} (hloop : s.loop = .verifying (evnt :: evts) notifies)
    {cb : ℕ} {ae : ActiveEvent ι} (hcb : evnt.cb = some cb)
    (hae : s.aio.active.lookup cb = some ae) (res : Completion) :
    { s with
      aio := s.aio.recycle cb
      loop := .verifying evts (notifies ++ [NotifyResult.mk ae.doneCh res])
      processed := s.processed ++ [ae.doneCh] }.Sound depth := by
  obtain ⟨hconserved, hactive, hctx, hpending, hout, hpend⟩ := h.recycle hae
  have hnotCalled := h.notCalled (by rw [hloop]; nofun)
  have hmem : cb ∈ s.aio.active := Finmap.mem_iff.mpr ⟨ae, hae⟩
  refine ⟨hconserved, fun cb' ae' hae' => ?_, fun hc => ?_, ?_, h.buffered, fun j hj => ?_,
    fun hc => absurd hnotCalled hc, fun hc => h.ctx (hctx.symm.trans hc),
    fun hd => absurd (hnotCalled.symm.trans hd) nofun, h.noErrors, h.answers⟩
  · simp only [hactive] at hae'
    exact h.keyed cb' ae' (lookup_of_erase hae')
  · -- The event and the iocb leave both sides.
    have hevents := h.events hnotCalled
    rw [hloop, keys_of_mem hmem, LoopPhase.events, List.map_cons, hcb, ← Multiset.cons_coe,
      Multiset.add_cons, Multiset.map_cons] at hevents
    simp only [hactive]
    exact (Multiset.cons_inj_right _).mp hevents
  · have hchannels := h.channels
    rw [hloop, hpending] at hchannels
    simp only [AioChannel.pending, hactive]
    refine Eq.trans ?_ hchannels
    simp only [LoopPhase.notifies, List.map_append, List.map_cons, List.map_nil,
      ← Multiset.coe_add, Multiset.coe_singleton]
    rw [← add_assoc, ← Multiset.singleton_add]
    abel
  · simp only [AioChannel.pending, hactive]
    rcases List.mem_append.mp hj with hj | hj
    · exact ⟨(h.processed j hj).1, hpend j (h.processed j hj).2⟩
    · obtain rfl := List.mem_singleton.mp hj
      refine ⟨?_, hout⟩
      show ae.doneCh ∈ s.accepted
      rw [← h.channels, hpending, Multiset.cons_add, Multiset.cons_add]
      exact Multiset.mem_cons_self _ _

/-- A completion that is sent stays accounted for. -/
theorem buffered_send (h : s.Sound depth) (nr : NotifyResult ι) (j : ι)
    (hj : (s.send nr).resCh j ≠ []) : j ∈ (s.send nr).sent.map NotifyResult.ch := by
  rw [AioChannel.send, List.map_append, List.mem_append]
  by_cases hji : j = nr.ch
  · exact Or.inr (by simp [hji])
  · simp only [AioChannel.send, Function.update_of_ne hji] at hj
    exact Or.inl (h.buffered j hj)

theorem notify (h : s.Sound depth) {nr : NotifyResult ι} {notifies : List (NotifyResult ι)}
    (hloop : s.loop = .sending (nr :: notifies)) :
    ({ s with loop := .sending notifies }.send nr).Sound depth := by
  have hnotCalled := h.notCalled (by rw [hloop]; nofun)
  refine ⟨h.conserved, h.keyed, fun hc => ?_, ?_, h.buffered_send nr, h.processed,
    fun hc => absurd hnotCalled hc, h.ctx, h.done, h.noErrors, h.answers⟩
  · have hevents := h.events hc
    rw [hloop] at hevents
    exact hevents
  · have hchannels := h.channels
    rw [hloop] at hchannels
    refine Eq.trans ?_ hchannels
    simp only [AioChannel.send, AioChannel.pending, LoopPhase.notifies, List.map_append,
      List.map_cons, List.map_nil, ← Multiset.coe_add, ← Multiset.cons_coe,
      ← Multiset.singleton_add]
    abel

theorem receive (h : s.Sound depth) {c : Completion} {rest : List Completion}
    (hi : s.resCh i = c :: rest) :
    { s with resCh := Function.update s.resCh i rest }.Sound depth := by
  refine { h with buffered := fun j hj => ?_ }
  by_cases hji : j = i
  · refine h.buffered j ?_
    rw [hji, hi]
    exact List.cons_ne_nil _ _
  · simp only [Function.update_of_ne hji] at hj
    exact h.buffered j hj

theorem clearCtx (h : s.Sound depth) (hloop : s.loop = .exited) :
    { s with aio := { s.aio with ctx := false }, closing := .cleared }.Sound depth :=
  ⟨⟨h.conserved.depth_eq, h.conserved.iocbs, h.conserved.slots, h.conserved.notFull⟩, h.keyed,
    nofun, h.channels, h.buffered, h.processed, fun _ => hloop, nofun, nofun, h.noErrors,
    h.answers⟩

theorem ioDestroy (h : s.Sound depth) (hclosing : s.closing = .cleared) :
    { s with kernel := 0, closing := .destroyed }.Sound depth :=
  ⟨h.conserved, h.keyed, nofun, h.channels, h.buffered, h.processed,
    fun _ => h.exited (by rw [hclosing]; nofun),
    fun hc => absurd (hclosing.symm.trans (h.ctx hc)) nofun, nofun, h.noErrors, h.answers⟩

/-- `Close` takes an entry out of `active` : its channel has room. -/
theorem closeEntry (h : s.Sound depth) (hclosing : s.closing = .destroyed)
    {e : (_ : ℕ) × ActiveEvent ι} (he : s.aio.active.lookup e.1 = some e.2) :
    (s.closeEntry e).Sound depth ∧ (s.closeEntry e).closing = .destroyed ∧
      (s.closeEntry e).aio.active = s.aio.active.erase e.1 := by
  obtain ⟨hconserved, hactive, hctx, hpending, -, hpend⟩ := h.recycle he
  have hloop := h.exited (by rw [hclosing]; nofun)
  have hroom : s.resCh e.2.doneCh = [] := by
    refine h.resCh_eq_nil (Multiset.mem_add.mpr (Or.inl ?_))
    rw [hpending]
    exact Multiset.mem_cons_self _ _
  have hentry : s.closeEntry e = { s with aio := s.aio.recycle e.1 }.send
      ⟨e.2.doneCh, ⟨e.2.written, some .closed⟩⟩ := if_pos hroom
  rw [hentry]
  refine ⟨⟨hconserved, fun cb ae hae => ?_, fun hc => ?_, ?_, h.buffered_send _, fun j hj => ?_,
    fun _ => hloop, fun hc => h.ctx (hctx.symm.trans hc), fun hd => ?_, h.noErrors, h.answers⟩,
    hclosing, hactive⟩
  · simp only [AioChannel.send, hactive] at hae
    exact h.keyed cb ae (lookup_of_erase hae)
  · exact absurd (hclosing.symm.trans hc) nofun
  · have hchannels := h.channels
    rw [hpending] at hchannels
    refine Eq.trans ?_ hchannels
    simp only [AioChannel.send, AioChannel.pending, hactive, List.map_append, List.map_cons,
      List.map_nil, ← Multiset.coe_add, Multiset.coe_singleton, ← Multiset.singleton_add]
    abel
  · simp only [AioChannel.send, AioChannel.pending, hactive]
    exact ⟨(h.processed j hj).1, hpend j (h.processed j hj).2⟩
  · exact absurd (hclosing.symm.trans hd) nofun

theorem foldl_closeEntry : ∀ (order : List ((_ : ℕ) × ActiveEvent ι)) {s : AioChannel ι},
    s.Sound depth → s.closing = .destroyed →
    (order : Multiset ((_ : ℕ) × ActiveEvent ι)) = s.aio.active.entries →
    (order.foldl AioChannel.closeEntry s).Sound depth ∧
      (order.foldl AioChannel.closeEntry s).closing = .destroyed ∧
      (order.foldl AioChannel.closeEntry s).aio.active = ∅
  | [], s, h, hclosing, horder => ⟨h, hclosing, Finmap.ext horder.symm⟩
  | e :: order, s, h, hclosing, horder => by
    have he : s.aio.active.lookup e.1 = some e.2 := by
      rw [← mem_entries_iff, ← horder]
      exact Multiset.mem_coe.mpr List.mem_cons_self
    obtain ⟨h', hclosing', hactive⟩ := h.closeEntry hclosing he
    refine foldl_closeEntry order h' hclosing' ?_
    rw [entries_of_lookup he, ← Multiset.cons_coe] at horder
    rw [hactive]
    exact (Multiset.cons_inj_right _).mp horder

theorem clearActive (h : s.Sound depth) (hclosing : s.closing = .destroyed)
    {order : List ((_ : ℕ) × ActiveEvent ι)}
    (horder : (order : Multiset ((_ : ℕ) × ActiveEvent ι)) = s.aio.active.entries) :
    { order.foldl AioChannel.closeEntry s with closing := .done }.Sound depth := by
  obtain ⟨h', hclosing', hactive⟩ := foldl_closeEntry order h hclosing horder
  exact { h' with
    events := nofun
    exited := fun _ => h'.exited (by rw [hclosing']; nofun)
    ctx := fun hc => absurd (hclosing'.symm.trans (h'.ctx hc)) nofun
    done := fun _ => hactive }

theorem step (h : s.Sound depth) {e : AioEvent ι} (hstep : Step s e t) : t.Sound depth := by
  cases e with
  | writeAtNotify i b =>
    obtain ⟨hi, rfl⟩ := hstep
    split_ifs
    · exact h.writeAtNotify hi rfl rfl nofun nofun
    · exact h.writeAtNotify hi rfl rfl nofun nofun
  | takeToken i =>
    obtain ⟨b, hi, hpos, rfl⟩ := hstep
    exact h.takeToken hi hpos
  | getNextReady i cb =>
    obtain ⟨b, hi, hcb, rfl⟩ := hstep
    have hne : s.aio.avail ≠ ∅ := (h.conserved_of_token hi cb).avail_ne_empty
    unfold AIO.getNextReady
    rw [if_neg hne]
    exact h.getNextReady hi (hcb hne)
  | submit i result =>
    obtain ⟨b, cb, hi, hctx, rfl⟩ := hstep
    cases result with
    | accepted => exact h.submit_accepted hi (hctx rfl)
    | rejected => exact h.submit_error hi nofun
    | errno text => exact h.submit_error hi nofun
  | getEvents reports =>
    obtain ⟨hloop, -, hle, rfl⟩ := hstep
    exact h.getEvents hloop hle
  | noEvents =>
    obtain ⟨-, rfl⟩ := hstep
    exact h
  | verifyResultPro =>
    rcases hstep with ⟨notifies, hloop, rfl⟩ | ⟨evnt, evts, notifies, hloop, rfl⟩
    · exact h.loop (by rw [hloop]; nofun) (by rw [hloop]; rfl) (by rw [hloop]; rfl)
    · obtain ⟨cb, ae, hcb, hae, hkey⟩ := h.exists_lookup hloop
      obtain ⟨res, hres⟩ := AIO.verifyResultPro_of_lookup hae hkey hcb
      rw [hres]
      exact h.verifyResultPro hloop hcb hae res
  | notify =>
    rcases hstep with ⟨hloop, rfl⟩ | ⟨nr, notifies, hloop, -, rfl⟩
    · exact h.loop (by rw [hloop]; nofun) (by rw [hloop]; rfl) (by rw [hloop]; rfl)
    · exact h.notify hloop
  | receive i =>
    obtain ⟨c, rest, hi, rfl⟩ := hstep
    exact h.receive hi
  | stop =>
    obtain rfl := hstep
    exact { h with }
  | exit =>
    obtain ⟨hloop, -, rfl⟩ := hstep
    exact @loop ι _ s depth h .exited s.kernel (by rw [hloop]; nofun) (by rw [hloop]; rfl)
      (by rw [hloop]; rfl)
  | clearCtx =>
    obtain ⟨hloop, -, rfl⟩ := hstep
    exact h.clearCtx hloop
  | ioDestroy =>
    obtain ⟨hclosing, rfl⟩ := hstep
    exact h.ioDestroy hclosing
  | clearActive order =>
    obtain ⟨hclosing, horder, rfl⟩ := hstep
    exact h.clearActive hclosing horder

theorem length_sentTo (s : AioChannel ι) (i : ι) :
    (s.sentTo i).length = (s.sent.map NotifyResult.ch : Multiset ι).count i := by
  rw [sentTo, List.length_map, Multiset.coe_count, List.count, List.countP_map,
    List.countP_eq_length_filter]
  rfl

end Sound

/-- In every state that is reached, whatever the interleaving : each iocb is in `avail`, in
`active` or held by one call, the tokens left and those that calls hold without an iocb are
as many as `avail` has iocbs, and the branches for the opposite were never taken. When the
loop is idle every tracked iocb is with the kernel, and the loop never waits for room in a
channel. A call that returned nil has been sent at most one completion, and exactly one once
its event is processed and its completion no longer at hand, or `Close` is through. -/
theorem slots_conserved_and_signalled_once {queueDepth : ℤ} {a : AIO ι}
    (hnew : AIO.new queueDepth = .ok a) {events : List (AioEvent ι)}
    (hrun : Run Step (newAioChannel a) events s) :
    s.aio.avail.val + s.aio.active.keys.val + s.held = Multiset.range a.depth ∧
    s.aio.slotSem + s.tokens = s.aio.avail.card ∧
    (s.aio.overfull = false ∧ s.errors = [] ∧
      ∀ i, s.calls.lookup i ≠ some (.returned (some .whatTheHell))) ∧
    (s.loop = .idle → s.aio.active.keys.val = s.kernel) ∧
    (∀ nr ∈ s.loop.notifies, s.resCh nr.ch = []) ∧
    ∀ i, s.calls.lookup i = some (.returned none) →
      (s.sentTo i).length ≤ 1 ∧
      (i ∈ s.processed → i ∉ s.loop.notifies.map NotifyResult.ch → (s.sentTo i).length = 1) ∧
      (s.closing = .done → (s.sentTo i).length = 1) := by
  obtain ⟨hconserved, hempty⟩ := AIO.conserved_new hnew
  have h : s.Sound a.depth := Run.invariant (I := fun t => t.Sound a.depth)
    (fun _ _ _ h hstep => h.step hstep) hrun (sound_newAioChannel hconserved hempty)
  refine ⟨h.conserved.iocbs, h.conserved.slots, ⟨h.conserved.notFull, h.noErrors, h.answers⟩,
    fun hidle => ?_, fun nr hnr => ?_, fun i hi => ?_⟩
  · have hevents := h.events (h.notCalled (by rw [hidle]; nofun))
    rw [hidle] at hevents
    refine (Multiset.map_injective (Option.some_injective ℕ) ?_).symm
    exact (add_zero _).symm.trans hevents
  · refine h.resCh_eq_nil (Multiset.mem_add.mpr (Or.inr ?_))
    exact Multiset.mem_coe.mpr (List.mem_map_of_mem hnr)
  · have hone : s.accepted.count i = 1 :=
      Multiset.count_eq_one_of_mem (nodup_names _) (mem_accepted.mpr hi)
    rw [← h.channels, Multiset.count_add, Multiset.count_add] at hone
    rw [Sound.length_sentTo]
    refine ⟨by omega, fun hproc hout => ?_, fun hdone => ?_⟩
    · have hpend := Multiset.count_eq_zero.mpr (h.processed i hproc).2
      have hnot : (s.loop.notifies.map NotifyResult.ch : Multiset ι).count i = 0 :=
        Multiset.count_eq_zero.mpr hout
      omega
    · have hpend : s.pending = 0 := by
        rw [AioChannel.pending, h.done hdone]
        rfl
      have hloop := h.exited (by rw [hdone]; nofun)
      rw [hpend, hloop, Multiset.count_zero] at hone
      simpa [LoopPhase.notifies] using hone

/-- Two writes through one slot. The first is completed by the loop, which lets the second
take the slot, and the second by `Close`. -/
theorem slots_conserved_and_signalled_once_two_writes : ∃ s : AioChannel ℕ,
    Run Step (newAioChannel ⟨1, true, Finset.range 1, ∅, 1, false⟩)
      [.writeAtNotify 0 [1#8], .takeToken 0, .getNextReady 0 0, .submit 0 .accepted,
        .writeAtNotify 1 [2#8], .getEvents [(0, 1)], .verifyResultPro, .verifyResultPro, .notify,
        .notify, .takeToken 1, .getNextReady 1 0, .submit 1 .accepted, .stop, .exit, .clearCtx,
        .ioDestroy, .clearActive [⟨0, [2#8], 0, 0, 1⟩]] s ∧
    (s.sentTo 0).length = 1 ∧ (s.sentTo 1).length = 1 := by
  have hrun : ∃ s : AioChannel ℕ,
      Run Step (newAioChannel ⟨1, true, Finset.range 1, ∅, 1, false⟩)
        [.writeAtNotify 0 [1#8], .takeToken 0, .getNextReady 0 0, .submit 0 .accepted,
          .writeAtNotify 1 [2#8], .getEvents [(0, 1)], .verifyResultPro, .verifyResultPro, .notify,
          .notify, .takeToken 1, .getNextReady 1 0, .submit 1 .accepted, .stop, .exit, .clearCtx,
          .ioDestroy, .clearActive [⟨0, [2#8], 0, 0, 1⟩]] s ∧
      s.closing = .done ∧ s.calls.lookup 0 = some (.returned none) ∧
      s.calls.lookup 1 = some (.returned none) :=
    ⟨_, Run.cons ⟨by decide, rfl⟩ <| Run.cons ⟨[1#8], rfl, by decide, rfl⟩ <|
      Run.cons ⟨[1#8], rfl, by decide, rfl⟩ <| Run.cons ⟨[1#8], 0, rfl, fun _ => rfl, rfl⟩ <|
      Run.cons ⟨by decide, rfl⟩ <| Run.cons ⟨rfl, by decide, by decide, rfl⟩ <|
      Run.cons (Or.inr ⟨_, _, _, rfl, rfl⟩) <| Run.cons (Or.inl ⟨_, rfl, rfl⟩) <|
      Run.cons (Or.inr ⟨_, _, rfl, rfl, rfl⟩) <| Run.cons (Or.inl ⟨rfl, rfl⟩) <|
      Run.cons ⟨[2#8], rfl, by decide, rfl⟩ <| Run.cons ⟨[2#8], rfl, by decide, rfl⟩ <|
      Run.cons ⟨[2#8], 0, rfl, fun _ => rfl, rfl⟩ <| Run.cons rfl <| Run.cons ⟨rfl, rfl, rfl⟩ <|
      Run.cons ⟨rfl, rfl, rfl⟩ <| Run.cons ⟨rfl, rfl⟩ <| Run.cons ⟨rfl, rfl, rfl⟩ Run.nil,
      rfl, rfl, rfl⟩
  obtain ⟨s, hs, hdone, h0, h1⟩ := hrun
  have h := (@slots_conserved_and_signalled_once ℕ _ s 1 _ rfl _ hs).2.2.2.2.2
  exact ⟨s, hs, (h 0 h0).2.2 hdone, (h 1 h1).2.2 hdone⟩

end AioChannel

end Goaio

end Corgi
