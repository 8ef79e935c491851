import Corgi.Emission
import Corgi.Retention

/-!
# The process with its connections

The server of `Corgi.Archive` behind the connections of `Corgi.Connection`. Each connection has
one upload, whose handler its request channel calls. What the handler waits for comes from the
device, the disk and the group commit, which all uploads share. A connection that panics takes
the process with it.

`Host.exists_run` : what happens to the store is a run of `Corgi.Archive`, and what happens to
each connection is a run of it alone, so that all that holds of either holds here.
-/

set_option linter.unusedSectionVars false

namespace Corgi

/-! ## The model -/

/-- The upload of a request channel, which is new until a payload starts it. -/
def RequestChannel.upload {δ : Type} (c : RequestChannel δ) : Upload :=
  (c.h.map Prod.snd).getD .new

/-- The upload of a connection has moved on. -/
def Connection.withUpload {δ : Type} (x : Connection δ) (u : Upload) : Connection δ :=
  { x with channel := { x.channel with h := x.channel.h.map fun h => (h.1, u) } }

/-- The process with its connections. -/
structure Host where
  archive : Archive
  /-- The connection `k` has the upload `k`. -/
  connections : List (Connection Unit)

/-- A step of the process, or of one of its connections. -/
inductive HostEvent
  | accept (server : ErasureServer Unit)
  /-- A step of the process that no connection takes. -/
  | process (e : ArchiveEvent)
  | connection (k : ℕ) (e : ConnectionEvent)

/-- The steps of a process that its connections take. -/
def ArchiveEvent.OfConnection : ArchiveEvent → Prop
  | .accept | .call _ _ => True
  | _ => False

namespace Host

/-- A process that has not started yet. -/
def initial (db : DB) (disk : Disk) : Host :=
  ⟨.initial db disk, []⟩

/-- A goroutine of a connection has panicked. -/
def Panicked (s : Host) : Prop :=
  ∃ x ∈ s.connections, x.panicked = true

variable (crc : BitVec 32 → Bytes → BitVec 32) (pb : Protobuf) (json : JSONDeleteMark)
  (unmarshal : Bytes → Except String PutInitRequest) (name : String) (n : ℕ)

/-- One step of a process whose device has `n` blocks. -/
def Step (s : Host) : HostEvent → Host → Prop
  | .accept server, t => ¬s.Panicked ∧
    Archive.Step crc pb json name n s.archive .accept t.archive ∧
    t.connections = s.connections ++ [.new server]
  | .process e, t => (s.Panicked → ∃ disk, e = .crash disk) ∧ ¬e.OfConnection ∧
    Archive.Step crc pb json name n s.archive e t.archive ∧
    t.connections = List.zipWith Connection.withUpload s.connections t.archive.uploads
  | .connection k e, t => ¬s.Panicked ∧ (∀ event, e ≠ .upload event) ∧ ∃ x y,
    s.connections[k]? = some x ∧ Connection.Step crc pb unmarshal x e y ∧
    t = ⟨s.archive.setUpload k y.channel.upload, s.connections.set k y⟩

end Host

/-! ## What an upload tells -/

/-- The record is the one that was asked for. -/
structure FileMeta.Names (fileMeta : FileMeta) (req : PutInitRequest) : Prop where
  metaKey : fileMeta.metaKey = req.metaKey
  fileName : fileMeta.fileName = req.fileName
  lun : fileMeta.lun = req.lun

/-- The upload commits the record of the request, and is not about to answer SUCCESS without. -/
def UploadTask.Honest (req : PutInitRequest) : UploadTask → Prop
  | .commit c => c.fileMeta.Names req
  | .rollback _ r => r ≠ .success
  | _ => True

namespace Upload

variable {crc : BitVec 32 → Bytes → BitVec 32} {pb : Protobuf} {u u' : Upload}
  {req : PutInitRequest}

/-- An upload of the request that has answered SUCCESS has stored its record. -/
structure Honest (req : PutInitRequest) (u : Upload) : Prop where
  initReq : u.handler.initReq = some req
  task : u.task.Honest req
  stored : ∀ fileMeta, u.stored = some fileMeta → fileMeta.Names req
  success : .success ∈ u.responses → u.stored ≠ none

theorem Honest.of_task (h : u.Honest req) (hinit : u'.handler.initReq = u.handler.initReq)
    (htask : u'.task.Honest req) (hstored : u'.stored = u.stored)
    (hresponses : u'.responses = u.responses) : u'.Honest req :=
  ⟨hinit.trans h.initReq, htask, fun fileMeta hf => h.stored fileMeta (hstored.symm.trans hf),
    fun hmem => hstored ▸ h.success (hresponses ▸ hmem)⟩

theorem Honest.withHandler (h : u.Honest req) (handler : Handler)
    (hinit : handler.initReq = u.handler.initReq) : Honest req { u with handler } :=
  h.of_task hinit h.task rfl rfl

theorem Honest.respond (h : u.Honest req) {r : Response} (hr : r ≠ .success) :
    (u.respond r).Honest req := by
  refine ⟨h.initReq, trivial, h.stored, fun hmem => ?_⟩
  rcases List.mem_append.mp hmem with hmem | hmem
  · exact h.success hmem
  · exact absurd (List.mem_singleton.mp hmem).symm hr

theorem Honest.rollback (h : u.Honest req) (tokens : List (List Result)) {r : Response}
    (hr : r ≠ .success) : (u.rollback tokens r).Honest req := by
  rw [Upload.rollback]
  split_ifs
  · exact h.respond hr
  · exact h.of_task rfl hr rfl rfl

theorem Honest.rollbackCompletedFlushes (h : u.Honest req) {r : Response} (hr : r ≠ .success) :
    (u.rollbackCompletedFlushes r).Honest req :=
  (h.withHandler u.handler.clearTokens rfl).rollback _ hr

theorem Honest.fail (h : u.Honest req) (tokens : List (List Result)) (e : UploadError) :
    (u.fail tokens e).Honest req :=
  (h.withHandler (u.handler.failFlush e).clearTokens rfl).rollback _ (by simp)

theorem Honest.flush (h : u.Honest req) (respond : Bool) : (u.flush respond).Honest req :=
  h.of_task rfl trivial rfl rfl

theorem Honest.submit (h : u.Honest req) : (u.submit pb req).Honest req := by
  unfold Upload.submit
  split
  · exact h.rollbackCompletedFlushes (by simp)
  · exact h.of_task rfl ⟨rfl, rfl, rfl⟩ rfl rfl

theorem Honest.put (h : u.Honest req) (data : Bytes) : (u.put crc data).Honest req := by
  have hadd : Honest req { u with handler := u.handler.addChunk crc data } := h.withHandler _ rfl
  unfold Upload.put
  split
  · exact h.respond (by simp)
  split
  · exact h.respond (by simp)
  split
  · exact h.respond (by simp)
  split
  · exact h.respond (by simp)
  simp only
  split
  · exact hadd.flush true
  · exact hadd.respond (by simp)

theorem Honest.complete (h : u.Honest req) : (u.complete pb).Honest req := by
  have hfinal : u.finalize.Honest req := h.withHandler _ rfl
  unfold Upload.complete
  rw [h.initReq]
  simp only
  split
  · exact hfinal.rollbackCompletedFlushes (by simp)
  split
  · exact h.respond (by simp)
  split
  · exact hfinal.respond (by simp)
  split
  · exact hfinal.flush false
  · exact hfinal.submit

/-- A call after `Start`. -/
theorem Honest.call (h : u.Honest req) {c : UploadCall} (hc : c.isAsked = true) :
    ((u.called c).call crc pb c).Honest req := by
  have hcalled : (u.called c).Honest req := h.of_task rfl h.task rfl rfl
  cases c with
  | start req => cases hc
  | put data => exact hcalled.put data
  | complete => exact hcalled.complete
  | timeOut =>
    exact (hcalled.withHandler { u.handler with finalized := true, pendingLen := 0, chunks := [] }
      rfl).rollbackCompletedFlushes (by simp)

theorem honest_start (req : PutInitRequest) :
    ((new.called (.start req)).call crc pb (.start req)).Honest req :=
  ⟨rfl, trivial, by simp [Upload.call, called, new], by simp [Upload.call, called, new]⟩

theorem Honest.written (h : u.Honest req) (buf : Bytes) (results token : List Result)
    (respond : Bool) (n : ℕ) (err : Option ChannelError) :
    (u.written pb buf results token respond n err).Honest req := by
  have hflushed : Honest req { u with handler := u.handler.completeFlush results token } :=
    h.withHandler _ rfl
  have hinit : (u.handler.completeFlush results token).initReq = some req := h.initReq
  unfold Upload.written
  simp only
  split
  · exact h.fail _ _
  split
  · exact hflushed.respond (by simp)
  rw [hinit]
  exact hflushed.submit

/-- Whatever is not an answer that a record was found. -/
theorem Honest.step (h : u.Honest req) {e : UploadEvent} (hcall : ∀ c, e ≠ .call c)
    (hfound : e ≠ .commit none true) (hstep : Step crc pb u e u') : u'.Honest req := by
  cases e with
  | call c => exact absurd rfl (hcall c)
  | alloc outcome =>
    obtain ⟨buf, respond, -, rfl⟩ := hstep
    cases outcome with
    | error e => exact h.fail _ _
    | ok res => exact h.of_task rfl trivial rfl rfl
  | write n err =>
    obtain ⟨buf, results, token, respond, -, rfl⟩ := hstep
    exact h.written buf results token respond n err
  | rollbackAlloc =>
    obtain ⟨token, tokens, r, htask, rfl⟩ := hstep
    have hr := h.task
    rw [htask] at hr
    exact (show Honest req { u with released := u.released ++ [token] } from
      h.of_task rfl h.task rfl rfl).rollback tokens hr
  | commit answer found =>
    obtain ⟨c, htask, rfl⟩ := hstep
    have hc := h.task
    rw [htask] at hc
    unfold committed
    split
    · exact h.rollbackCompletedFlushes (by simp)
    split_ifs with hf
    · exact absurd (by rw [hf]) hfound
    · exact ⟨h.initReq, trivial, fun fileMeta hf => Option.some.inj hf ▸ hc, fun _ => by
        simp [Upload.respond]⟩

end Upload

/-! ## What a request channel does to its upload -/

/-- The payload asks for an upload of the request. -/
def RequestPayload.AsksFor (unmarshal : Bytes → Except String PutInitRequest) (p : RequestPayload)
    (req : PutInitRequest) : Prop :=
  decodePutInitRequest unmarshal p.data = .ok req ∨
    p.metaType = .putAndCompleteObject ∧ ∃ body,
      decodePutAndComplete unmarshal p.data = .ok (req, body)

namespace RequestChannel

variable {crc : BitVec 32 → Bytes → BitVec 32} {pb : Protobuf}
  {unmarshal : Bytes → Except String PutInitRequest} {δ : Type} {c c' : RequestChannel δ}

/-- The upload is the one that the first payload asks for. -/
def Serves (unmarshal : Bytes → Except String PutInitRequest) (c : RequestChannel δ) : Prop :=
  ∀ device u, c.h = some (device, u) → ∃ p ps req,
    c.processed = p :: ps ∧ p.AsksFor unmarshal req ∧ u.Honest req

theorem serves_of_none (h : c.h = none) : c.Serves unmarshal :=
  fun _ _ hh => by cases h.symm.trans hh

theorem Serves.of_prefix (h : c.Serves unmarshal) (hh : c'.h = c.h)
    (hprocessed : c.processed <+: c'.processed) : c'.Serves unmarshal := by
  intro device u hu
  obtain ⟨p, ps, req, hp, hasks, hhonest⟩ := h device u (hh.symm.trans hu)
  obtain ⟨rest, hrest⟩ := hprocessed
  exact ⟨p, ps ++ rest, req, by rw [← hrest, hp, List.cons_append], hasks, hhonest⟩

theorem Serves.call (h : c.Serves unmarshal) {call : UploadCall} (hcall : call.isAsked = true)
    (next : AfterForward) : (c.call crc pb call next).Serves unmarshal := by
  intro device u hu
  obtain ⟨⟨device', v⟩, hv, heq⟩ := Option.map_eq_some_iff.mp hu
  obtain ⟨rfl, rfl⟩ := Prod.mk.inj heq
  obtain ⟨p, ps, req, hp, hasks, hhonest⟩ := h device' v hv
  exact ⟨p, ps, req, hp, hasks, hhonest.call hcall⟩

theorem serves_start {p : RequestPayload} {ps : List RequestPayload}
    (hprocessed : c.processed = p :: ps) {req : PutInitRequest} (hasks : p.AsksFor unmarshal req)
    (device : δ) : Serves unmarshal { c with
      h := some (device, (Upload.new.called (.start req)).call crc pb (.start req)) } := by
  rintro _ _ ⟨⟩
  exact ⟨p, ps, req, hprocessed, hasks, Upload.honest_start req⟩

theorem serves_receiveStart (hh : c.h = none) {p : RequestPayload} {ps : List RequestPayload}
    (hprocessed : c.processed = p :: ps) :
    (c.receiveStart crc pb unmarshal p).Serves unmarshal := by
  unfold receiveStart
  cases hdecode : decodePutInitRequest unmarshal p.data with
  | error e => exact serves_of_none hh
  | ok req =>
    cases hdevice : c.server.deviceOf req with
    | none =>
      simp only [startHandler_of_none hdevice]
      exact serves_of_none hh
    | some device =>
      simp only [startHandler_of_some hdevice]
      exact serves_start hprocessed (Or.inl hdecode) device

theorem serves_receivePutAndComplete (hh : c.h = none) {p : RequestPayload}
    {ps : List RequestPayload} (hp : p.metaType = .putAndCompleteObject)
    (hprocessed : c.processed = p :: ps) :
    (c.receivePutAndComplete crc pb unmarshal p).Serves unmarshal := by
  unfold receivePutAndComplete
  cases hdecode : decodePutAndComplete unmarshal p.data with
  | error e => exact serves_of_none hh
  | ok start =>
    obtain ⟨req, body⟩ := start
    cases hdevice : c.server.deviceOf req with
    | none =>
      simp only [startHandler_of_none hdevice]
      exact serves_of_none hh
    | some device =>
      simp only [startHandler_of_some hdevice]
      exact (serves_start hprocessed (Or.inr ⟨hp, body, hdecode⟩) device).call rfl _

theorem serves_receiveFirst (hh : c.h = none) {p : RequestPayload} {ps : List RequestPayload}
    (hprocessed : c.processed = p :: ps) :
    (c.receiveFirst crc pb unmarshal p).Serves unmarshal := by
  unfold receiveFirst
  split
  · exact serves_receivePutAndComplete hh ‹_› hprocessed
  · exact serves_receiveStart hh hprocessed
  · exact serves_receiveStart hh hprocessed
  · exact serves_receiveStart hh hprocessed
  all_goals exact serves_of_none hh

theorem Serves.forward (h : c.Serves unmarshal) (next : AfterForward) (r : Response) :
    (c.forward crc pb next r).Serves unmarshal := by
  have hout : Serves unmarshal { c with taken := c.taken + 1, out := c.out ++ [r.payload] } :=
    h.of_prefix rfl List.prefix_rfl
  unfold RequestChannel.forward
  simp only
  split
  · exact h.of_prefix rfl List.prefix_rfl
  · exact h.of_prefix rfl List.prefix_rfl
  · exact h.of_prefix rfl List.prefix_rfl
  · exact hout.call rfl _

theorem Serves.step (h : c.Serves unmarshal) (hphase : c.Phase unmarshal) {e : ChannelEvent}
    (hfound : e ≠ .upload (.commit none true)) (hstep : Step crc pb unmarshal c e c') :
    c'.Serves unmarshal := by
  cases e with
  | payload p =>
    obtain ⟨hstage, rfl⟩ := hstep
    rcases hphase.of_taking hstage with hnew | ⟨device, u, datas, hready, -, htalks, -⟩
    · rw [hnew]
      exact serves_receiveFirst (c := { new c.server with processed := [p] }) rfl rfl
    · rw [receive_of_ready hready]
      have hnext : Serves unmarshal { c with processed := c.processed ++ [p] } :=
        h.of_prefix rfl (List.prefix_append _ _)
      rcases @receiveNext_cases crc pb δ { c with processed := c.processed ++ [p] }
        (by rw [htalks.h]; rfl) p with ⟨call, -, hcall, heq⟩ | ⟨-, heq⟩ <;> rw [heq]
      · exact hnext.call hcall _
      · exact hnext.of_prefix rfl List.prefix_rfl
  | close =>
    obtain ⟨-, rfl⟩ := hstep
    exact h.of_prefix rfl List.prefix_rfl
  | upload e =>
    obtain ⟨hcall, device, u, u', hh, hstep, rfl⟩ := hstep
    rintro _ _ ⟨⟩
    obtain ⟨p, ps, req, hp, hasks, hhonest⟩ := h device u hh
    exact ⟨p, ps, req, hp, hasks, hhonest.step hcall (fun he => hfound (by rw [he])) hstep⟩
  | forward =>
    obtain ⟨device, u, next, r, -, -, -, rfl⟩ := hstep
    exact h.forward next r

theorem upload_of_h {device : δ} {u : Upload} (h : c.h = some (device, u)) : c.upload = u := by
  rw [upload, h]
  rfl

theorem upload_of_none (h : c.h = none) : c.upload = .new := by
  rw [upload, h]
  rfl

/-- The calls that a step of the channel makes. -/
abbrev Calls (crc : BitVec 32 → Bytes → BitVec 32) (pb : Protobuf) (u : Upload)
    (calls : List UploadCall) (u' : Upload) : Prop :=
  Run (fun u call u' => Upload.Step crc pb u (.call call) u') u calls u'

theorem calls_receiveFirst (server : ErasureServer δ) (p : RequestPayload) : ∃ calls,
    Calls crc pb Upload.new calls
      (receiveFirst crc pb unmarshal { new server with processed := [p] } p).upload := by
  have hstart : ∀ req, Upload.Step crc pb .new (.call (.start req))
      ((Upload.new.called (.start req)).call crc pb (.start req)) := fun req => ⟨rfl, rfl, rfl⟩
  rcases @receiveFirst_cases crc pb unmarshal δ { new server with processed := [p] } p with
    ⟨device, req, -, heq⟩ | ⟨device, req, body, -, heq⟩ | ⟨-, -, e, heq⟩ <;> rw [heq]
  · exact ⟨[.start req], .cons (hstart req) .nil⟩
  · have htalks := @talks_start crc pb δ (new server) device req
    exact ⟨[.start req, .put body], .cons (hstart req) (.cons (htalks.step_call rfl rfl) .nil)⟩
  · exact ⟨[], .nil⟩

/-- A step of a channel calls its handler, unless it is a step of the handler. -/
theorem Step.calls (hphase : c.Phase unmarshal) {e : ChannelEvent}
    (hupload : ∀ event, e ≠ .upload event) (hstep : Step crc pb unmarshal c e c') :
    ∃ calls, Calls crc pb c.upload calls c'.upload := by
  cases e with
  | payload p =>
    obtain ⟨hstage, rfl⟩ := hstep
    rcases hphase.of_taking hstage with hnew | ⟨device, u, datas, hready, -, htalks, hquiet, -⟩
    · rw [hnew]
      exact calls_receiveFirst c.server p
    · rw [receive_of_ready hready]
      rcases @receiveNext_cases crc pb δ { c with processed := c.processed ++ [p] }
        (by rw [htalks.h]; rfl) p with ⟨call, -, hcall, heq⟩ | ⟨-, heq⟩ <;> rw [heq]
      · refine ⟨[call], Run.nil.snoc ?_⟩
        rw [RequestChannel.call, upload_of_h htalks.h, upload_of_h (by rw [htalks.h]; rfl)]
        exact htalks.step_call hquiet.idle hcall
      · exact ⟨[], .nil⟩
  | close =>
    obtain ⟨-, rfl⟩ := hstep
    exact ⟨[], .nil⟩
  | upload e => exact absurd rfl (hupload e)
  | forward =>
    obtain ⟨device, u, next, r, hh, hstage, hr, rfl⟩ := hstep
    obtain ⟨device', v, datas, last, -, htalks, hexpects, htaken, hresponses, -⟩ :=
      hphase.of_waiting hstage
    obtain ⟨rfl, rfl⟩ := Prod.mk.inj (Option.some.inj (hh.symm.trans htalks.h))
    obtain ⟨hidle, -⟩ := htalks.responses_eq htaken hresponses hr
    unfold RequestChannel.forward
    simp only
    split
    · exact ⟨[], .nil⟩
    · exact ⟨[], .nil⟩
    · exact ⟨[], .nil⟩
    · obtain ⟨rfl, -⟩ := hexpects
      refine ⟨[.complete], Run.nil.snoc ?_⟩
      rw [RequestChannel.call, upload_of_h hh, upload_of_h (by rw [hh]; rfl)]
      exact htalks.step_call hidle rfl

end RequestChannel

/-! ## What a process does to its uploads -/

/-- The upload is left alone or gets what it waits for, and not that a record was found. -/
def Upload.Turns (crc : BitVec 32 → Bytes → BitVec 32) (pb : Protobuf) (u u' : Upload) : Prop :=
  u' = u ∨ ∃ e : UploadEvent, e.Proper ∧ (∀ c, e ≠ .call c) ∧ e ≠ .commit none true ∧
    Upload.Step crc pb u e u'

/-- Nothing is stored under the keys that records are looked up under. -/
def LooksEmpty (db : DB) : Prop :=
  ∀ metaKey, db (fileMetaKey metaKey) = []

namespace Archive

variable {crc : BitVec 32 → Bytes → BitVec 32} {pb : Protobuf} {json : JSONDeleteMark}
  {name : String} {n : ℕ} {s t : Archive} {m : Node ℕ} {k : ℕ} {u u' : Upload}

theorem turns_set (hk : s.uploads[k]? = some u) (hu : u.Turns crc pb u')
    (ht : t.uploads = s.uploads.set k u') {j : ℕ} {v' : Upload} (hv : t.uploads[j]? = some v') :
    ∃ v, s.uploads[j]? = some v ∧ v.Turns crc pb v' := by
  rw [ht, List.getElem?_set] at hv
  split_ifs at hv with hj hlt
  · subst hj
    obtain rfl := Option.some.inj hv
    exact ⟨u, hk, hu⟩
  · exact ⟨v', hv, Or.inl rfl⟩

/-- The answer to an upload of a group. -/
theorem turns_answered (json : JSONDeleteMark) (hinv : m.Inv n) (hempty : LooksEmpty m.db)
    (group : List (Completion ℕ)) (outcome : Option BatchError) {i : ℕ} {c : Commit}
    (hi : (group.map m.commitOf)[i]? = some c) (htask : u.task = .commit c) :
    u.Turns crc pb (u.answered
      (flush json m.db [] ((group.map m.commitOf).map (commitRequest json)) outcome) i) := by
  generalize ho : flush json m.db [] ((group.map m.commitOf).map (commitRequest json)) outcome = o
  refine Or.inr ⟨.commit ((o.answers[i]?).join.map .commit)
    (decide (o.outputs[i]? = some (some true))), trivial, by simp, fun h => ?_, c, htask,
    by rw [Upload.answered, htask]⟩
  obtain ⟨hanswer, hfound⟩ := UploadEvent.commit.inj h
  rcases flush_commits json m.db (List.forall_mem_map.mpr
      fun g (_ : g ∈ group) => hinv.aligned_commitOf g) outcome with
    ⟨-, -, -, e, h3⟩ | ⟨-, -, h3, -⟩ <;> rw [ho] at h3
  · rw [h3, List.getElem?_map, hi] at hanswer
    cases hanswer
  · rw [h3, List.getElem?_map, hi, Option.map_some,
      (Commit.lookup_of_nil (hempty c.fileMeta.metaKey)).2] at hfound
    simp at hfound

/-- What a step of the process does to each upload. -/
theorem Step.turns (hshows : s.Shows m) (hs : s.Sound pb) (hinv : m.Inv n)
    (hempty : LooksEmpty s.db) {e : ArchiveEvent} (he : ¬e.OfConnection)
    (hstep : Step crc pb json name n s e t) {j : ℕ} {v' : Upload}
    (hv : t.uploads[j]? = some v') : ∃ v, s.uploads[j]? = some v ∧ v.Turns crc pb v' := by
  cases e with
  | start =>
    obtain ⟨-, d, db, -, rfl⟩ := hstep
    exact ⟨v', hv, Or.inl rfl⟩
  | startCrash done =>
    obtain ⟨-, db, -, rfl⟩ := hstep
    exact ⟨v', hv, Or.inl rfl⟩
  | crash disk =>
    obtain ⟨-, rfl⟩ := hstep
    cases hv
  | accept => exact absurd trivial he
  | call k c => exact absurd trivial he
  | alloc k =>
    obtain ⟨u, u', d, d', buf, respond, outcome, hk, hd, htask, halloc, hu, rfl⟩ := hstep
    refine turns_set hk (Or.inr ⟨.alloc outcome, ?_, by simp, by simp, hu⟩) rfl hv
    obtain ⟨-, howns⟩ := hinv.owns d (hshows.device.trans hd)
    rcases d.alloc_spec howns buf.length with ⟨d₁, results, token, hres, hproper, -⟩ |
      ⟨d₁, e, hres, -⟩ <;>
      obtain ⟨rfl, rfl⟩ := Prod.mk.inj (hres.symm.trans halloc)
    · exact hproper
    · trivial
  | write k outcome ctx =>
    obtain ⟨u, u', buf, results, token, respond, disk, written, err, hk, htask, -, -, hu, rfl⟩ :=
      hstep
    exact turns_set hk (Or.inr ⟨.write written err, trivial, by simp, by simp, hu⟩) rfl hv
  | rollbackAlloc k =>
    obtain ⟨u, u', d, token, tokens, r, hk, hd, htask, hu, rfl⟩ := hstep
    exact turns_set hk (Or.inr ⟨.rollbackAlloc, trivial, by simp, by simp, hu⟩) rfl hv
  | commit ks outcome =>
    obtain ⟨-, hnodup, cs, hks, rfl⟩ := hstep
    obtain ⟨group, rfl, rfl, hgroup⟩ := hshows.exists_group hs hinv hks
    rw [getElem?_afterCommit] at hv
    obtain ⟨v, hj, rfl⟩ := Option.map_eq_some_iff.mp hv
    refine ⟨v, hj, ?_⟩
    split_ifs with hmem
    · obtain ⟨g, hg, rfl⟩ := List.mem_map.mp hmem
      obtain ⟨-, u, hu, htask⟩ := hgroup g hg
      obtain rfl := Option.some.inj (hu.symm.trans hj)
      rw [← hshows.db] at hempty ⊢
      exact turns_answered json hinv hempty group outcome
        (getElem?_idxOf_upload hnodup hg m.commitOf) htask
    · exact Or.inl rfl
  | noProcessor k =>
    obtain ⟨u, u', d, c, hk, hd, htask, hu, rfl⟩ := hstep
    exact turns_set hk (Or.inr ⟨.commit (some _) false, trivial, by simp, by simp, hu⟩) rfl hv
  | land completion junk =>
    obtain ⟨before, stray, after, -, rfl⟩ := hstep
    exact ⟨v', hv, Or.inl rfl⟩

theorem ne_familySpaceKey (metaKey : Bytes) (i : ℕ) : fileMetaKey metaKey ≠ familySpaceKey i := by
  intro h
  have hhead := congrArg List.head? h
  rw [head_fileMetaKey] at hhead
  exact absurd hhead (by simp [familySpaceKey, ascii])

/-- No step writes the keys that records are looked up under. -/
theorem Step.looksEmpty (hshows : s.Shows m) (hs : s.Sound pb) (hinv : m.Inv n) (hn : 0 < n)
    (hlt : n < 2 ^ 63) (hempty : LooksEmpty s.db) {e : ArchiveEvent}
    (hstep : Step crc pb json name n s e t) : LooksEmpty t.db := by
  intro metaKey
  refine Eq.trans ?_ (hempty metaKey)
  cases e with
  | start =>
    obtain ⟨hdown, d, db, hnew, rfl⟩ := hstep
    obtain ⟨d', db', hnew', -, hframe⟩ := hinv.start json name hn hlt (hshows.device.trans hdown)
    rw [hshows.db] at hnew' hframe
    obtain ⟨rfl, rfl⟩ := Prod.mk.inj (Except.ok.inj (hnew'.symm.trans hnew))
    exact hframe _ (ne_familySpaceKey metaKey)
  | startCrash done =>
    obtain ⟨hdown, db, hinit, rfl⟩ := hstep
    obtain ⟨-, hframe⟩ := hinv.startCrash (hshows.device.trans hdown) (hshows.db ▸ hinit)
    rw [hshows.db] at hframe
    exact hframe _ (ne_familySpaceKey metaKey)
  | crash disk =>
    obtain ⟨-, rfl⟩ := hstep
    rfl
  | accept =>
    obtain ⟨-, rfl⟩ := hstep
    rfl
  | call k c =>
    obtain ⟨u, u', -, -, rfl⟩ := hstep
    rfl
  | alloc k =>
    obtain ⟨u, u', d, d', buf, respond, outcome, -, -, -, -, -, rfl⟩ := hstep
    rfl
  | write k outcome ctx =>
    obtain ⟨u, u', buf, results, token, respond, disk, written, err, -, -, -, -, -, rfl⟩ := hstep
    rfl
  | rollbackAlloc k =>
    obtain ⟨u, u', d, token, tokens, r, -, -, -, -, rfl⟩ := hstep
    rfl
  | commit ks outcome =>
    obtain ⟨-, hnodup, cs, hks, rfl⟩ := hstep
    obtain ⟨group, rfl, rfl, -⟩ := hshows.exists_group hs hinv hks
    change (flush json s.db [] _ outcome).after _ = _
    rcases flush_commits json s.db (List.forall_mem_map.mpr
        fun g (_ : g ∈ group) => hinv.aligned_commitOf g) outcome with
      ⟨-, h2, -⟩ | ⟨-, h2, -⟩ <;> rw [h2]
    exact applyAll_ops_fileMetaKey _ _ _
  | noProcessor k =>
    obtain ⟨u, u', d, c, -, -, -, -, rfl⟩ := hstep
    rfl
  | land completion junk =>
    obtain ⟨before, stray, after, -, rfl⟩ := hstep
    rfl

theorem looksEmpty_of_run (hn : 0 < n) (hlt : n < 2 ^ 63) {db : DB} (hfresh : Fresh db)
    (hempty : LooksEmpty db) {disk : Disk} {events : List ArchiveEvent}
    (h : Run (Step crc pb json name n) (initial db disk) events s) : LooksEmpty s.db := by
  suffices h : ∃ m : Node ℕ, s.Shows m ∧ s.Sound pb ∧ m.Inv n ∧ LooksEmpty s.db by
    obtain ⟨-, -, -, -, h⟩ := h
    exact h
  refine h.invariant
    (I := fun s => ∃ m : Node ℕ, s.Shows m ∧ s.Sound pb ∧ m.Inv n ∧ LooksEmpty s.db) ?_
    ⟨_, shows_of_nil rfl rfl rfl rfl rfl, sound_of_nil rfl, .initial hfresh, hempty⟩
  rintro s e t ⟨m, hshows, hs, hinv, hempty⟩ hstep
  obtain ⟨events, m', hrun, hshows', hs'⟩ := hshows.step hs hinv hstep
  exact ⟨m', hshows', hs', hrun.invariant (fun _ _ _ ht he => (ht.step hn hlt he).1) hinv,
    hstep.looksEmpty hshows hs hinv hn hlt hempty⟩

/-- The calls of one upload are steps of the process. -/
theorem run_calls {calls : List UploadCall} (h : RequestChannel.Calls crc pb u calls u')
    (hk : s.uploads[k]? = some u) :
    Run (Step crc pb json name n) s (calls.map (.call k)) (s.setUpload k u') := by
  have hlt := (List.getElem?_eq_some_iff.mp hk).1
  induction h with
  | nil =>
    have hset : s.setUpload k u = s := by
      obtain ⟨hlt, rfl⟩ := List.getElem?_eq_some_iff.mp hk
      rw [setUpload, List.set_getElem_self]
    rw [hset]
    exact .nil
  | snoc _ hstep ih =>
    rw [List.map_append]
    refine ih.snoc ⟨_, _, List.getElem?_set_self hlt, hstep, ?_⟩
    rw [setUpload, setUpload, setUpload, List.set_set]

end Archive

/-! ## A connection on its own -/

namespace Connection

variable {crc : BitVec 32 → Bytes → BitVec 32} {pb : Protobuf}
  {unmarshal : Bytes → Except String PutInitRequest} {δ : Type} {x y : Connection δ} {u' : Upload}

/-- The connection has got there from its start, and its upload was never told that a record was
found. -/
def Reached (crc : BitVec 32 → Bytes → BitVec 32) (pb : Protobuf)
    (unmarshal : Bytes → Except String PutInitRequest) (x : Connection δ) : Prop :=
  ∃ server events, Run (Step crc pb unmarshal) (new server) events x ∧
    ∀ e ∈ events, e.Proper ∧ e ≠ .upload (.commit none true)

theorem Reached.snoc (h : x.Reached crc pb unmarshal) {e : ConnectionEvent} (he : e.Proper)
    (hfound : e ≠ .upload (.commit none true)) (hstep : x.Step crc pb unmarshal e y) :
    y.Reached crc pb unmarshal := by
  obtain ⟨server, events, hrun, hevents⟩ := h
  refine ⟨server, _, hrun.snoc hstep, fun e' he' => ?_⟩
  rcases List.mem_append.mp he' with he' | he'
  · exact hevents e' he'
  · obtain rfl := List.mem_singleton.mp he'
    exact ⟨he, hfound⟩

theorem Reached.phase (h : x.Reached crc pb unmarshal) : x.channel.Phase unmarshal := by
  obtain ⟨server, events, hrun, hevents⟩ := h
  exact phase_of_run hrun fun e he => (hevents e he).1

theorem Reached.serves (h : x.Reached crc pb unmarshal) : x.channel.Serves unmarshal := by
  obtain ⟨server, events, hrun, hevents⟩ := h
  refine (hrun.history (I := fun events x => (∀ e ∈ events, e.Proper ∧
      e ≠ .upload (.commit none true)) → x.channel.Phase unmarshal ∧ x.channel.Serves unmarshal)
    (fun events x e y ih hstep hall => ?_) (fun _ => ⟨.fresh rfl, ?_⟩) hevents).2
  · obtain ⟨hphase, hserves⟩ := ih fun e he => hall e (List.mem_append_left _ he)
    obtain ⟨hproper, hfound⟩ := hall e (List.mem_append_right _ (List.mem_singleton_self e))
    refine ⟨phase_step hphase hproper hstep, ?_⟩
    rcases hstep.channel_cases with heq | ⟨e', hstep', hupload⟩
    · rwa [heq]
    · exact hserves.step hphase (fun he' => hfound (hupload _ he')) hstep'
  · exact RequestChannel.serves_of_none rfl

/-- A handler that was not started waits for nothing. -/
theorem turns_new (h : Upload.new.Turns crc pb u') : u' = .new := by
  rcases h with h | ⟨e, -, hcall, -, hstep⟩
  · exact h
  · cases e with
    | call c => exact absurd rfl (hcall c)
    | alloc outcome =>
      obtain ⟨_, _, htask, -⟩ := hstep
      cases htask
    | write n err =>
      obtain ⟨_, _, _, _, htask, -⟩ := hstep
      cases htask
    | rollbackAlloc =>
      obtain ⟨_, _, _, htask, -⟩ := hstep
      cases htask
    | commit answer found =>
      obtain ⟨_, htask, -⟩ := hstep
      cases htask

theorem upload_withUpload (h : x.channel.upload.Turns crc pb u') :
    (x.withUpload u').channel.upload = u' := by
  cases hh : x.channel.h with
  | none =>
    rw [RequestChannel.upload_of_none hh] at h
    rw [turns_new h, withUpload, RequestChannel.upload_of_none (by rw [hh]; rfl)]
  | some h => rw [withUpload, RequestChannel.upload_of_h (by rw [hh]; rfl)]

theorem withUpload_upload (x : Connection δ) : x.withUpload x.channel.upload = x := by
  have hh : x.channel.h.map (fun h => (h.1, x.channel.upload)) = x.channel.h := by
    cases hh : x.channel.h with
    | none => rfl
    | some h => rw [Option.map_some, RequestChannel.upload_of_h hh]
  rw [withUpload, hh]

/-- What the process does to its upload is a step of the connection. -/
theorem Reached.withUpload (hx : x.Reached crc pb unmarshal) (hp : x.panicked = false)
    (h : x.channel.upload.Turns crc pb u') : (x.withUpload u').Reached crc pb unmarshal := by
  rcases id h with rfl | ⟨e, he, hcall, hfound, hstep⟩
  · rwa [withUpload_upload]
  cases hh : x.channel.h with
  | none =>
    rw [RequestChannel.upload_of_none hh] at h
    have heq := turns_new h
    rw [← RequestChannel.upload_of_none hh] at heq
    rwa [heq, withUpload_upload]
  | some p =>
    obtain ⟨device, u⟩ := p
    rw [RequestChannel.upload_of_h hh] at hstep
    refine hx.snoc (e := .upload e) he (fun heq => hfound (ConnectionEvent.upload.inj heq))
      ⟨hp, Or.inr (Or.inr (Or.inl ⟨_, ⟨hcall, device, u, u', hh, hstep, rfl⟩, ?_⟩))⟩
    rw [Connection.withUpload, hh]
    rfl

end Connection

/-! ## The process and its connections -/

/-- No write is left in flight. -/
def HostEvent.Waits : HostEvent → Prop
  | .process e => e.Waits
  | _ => True

namespace Host

variable {crc : BitVec 32 → Bytes → BitVec 32} {pb : Protobuf} {json : JSONDeleteMark}
  {unmarshal : Bytes → Except String PutInitRequest} {name : String} {n : ℕ} {s t : Host}

/-- The uploads are those of the connections, each of which has got there on its own. -/
structure Linked (crc : BitVec 32 → Bytes → BitVec 32) (pb : Protobuf)
    (unmarshal : Bytes → Except String PutInitRequest) (s : Host) : Prop where
  uploads : s.archive.uploads = s.connections.map fun x => x.channel.upload
  reached : ∀ x ∈ s.connections, x.Reached crc pb unmarshal

theorem linked_initial (db : DB) (disk : Disk) : (initial db disk).Linked crc pb unmarshal :=
  ⟨rfl, List.forall_mem_nil _⟩

theorem Linked.getElem? (h : s.Linked crc pb unmarshal) (k : ℕ) :
    s.archive.uploads[k]? = s.connections[k]?.map fun x => x.channel.upload := by
  rw [h.uploads, List.getElem?_map]

/-- A step of the process that no connection takes. -/
theorem Linked.process (h : s.Linked crc pb unmarshal) {archive : Archive}
    (hp : ¬s.Panicked ∨ archive.uploads = [])
    (hturns : ∀ (j : ℕ) (v' : Upload), archive.uploads[j]? = some v' →
      ∃ v, s.archive.uploads[j]? = some v ∧ v.Turns crc pb v') :
    Linked crc pb unmarshal
      ⟨archive, List.zipWith Connection.withUpload s.connections archive.uploads⟩ := by
  have hconnection : ∀ (j : ℕ) (v' : Upload), archive.uploads[j]? = some v' →
      ∃ x, s.connections[j]? = some x ∧ x.channel.upload.Turns crc pb v' := by
    intro j v' hv'
    obtain ⟨v, hv, hturn⟩ := hturns j v' hv'
    rw [h.getElem?] at hv
    obtain ⟨x, hx, rfl⟩ := Option.map_eq_some_iff.mp hv
    exact ⟨x, hx, hturn⟩
  refine ⟨List.ext_getElem? fun j => ?_, fun y hy => ?_⟩
  · rw [List.getElem?_map, List.getElem?_zipWith]
    cases hv' : archive.uploads[j]? with
    | none => cases s.connections[j]? <;> rfl
    | some v' =>
      obtain ⟨x, hx, hturn⟩ := hconnection j v' hv'
      rw [hx]
      exact congrArg some (Connection.upload_withUpload hturn).symm
  · obtain ⟨j, hy⟩ := List.mem_iff_getElem?.mp hy
    rw [List.getElem?_zipWith] at hy
    cases hv' : archive.uploads[j]? with
    | none =>
      rw [hv'] at hy
      cases hx : s.connections[j]? <;> rw [hx] at hy <;> cases hy
    | some v' =>
      obtain ⟨x, hx, hturn⟩ := hconnection j v' hv'
      rw [hx, hv'] at hy
      obtain rfl := Option.some.inj hy
      have hmem := List.mem_of_getElem? hx
      refine (h.reached x hmem).withUpload ?_ hturn
      rcases hp with hp | hp
      · exact Bool.eq_false_iff.mpr fun hpanicked => hp ⟨x, hmem, hpanicked⟩
      · rw [hp] at hv'
        cases hv'

/-- A step of one connection. -/
theorem Linked.connection (h : s.Linked crc pb unmarshal) {k : ℕ} {x y : Connection Unit}
    {e : ConnectionEvent} (hk : s.connections[k]? = some x) (he : ∀ event, e ≠ .upload event)
    (hstep : x.Step crc pb unmarshal e y) :
    Linked crc pb unmarshal ⟨s.archive.setUpload k y.channel.upload, s.connections.set k y⟩ := by
  refine ⟨?_, fun z hz => ?_⟩
  · rw [List.map_set, ← h.uploads]
    rfl
  · rcases List.mem_or_eq_of_mem_set hz with hz | rfl
    · exact h.reached z hz
    · refine (h.reached x (List.mem_of_getElem? hk)).snoc ?_ (he _) hstep
      cases e with
      | upload event => exact absurd rfl (he event)
      | _ => trivial

/-- The calls that a step of a connection makes. -/
theorem exists_calls {x y : Connection Unit} (hx : x.Reached crc pb unmarshal)
    {e : ConnectionEvent} (he : ∀ event, e ≠ .upload event)
    (hstep : x.Step crc pb unmarshal e y) :
    ∃ calls, RequestChannel.Calls crc pb x.channel.upload calls y.channel.upload := by
  rcases hstep.channel_cases with heq | ⟨e', hstep', hupload⟩
  · exact ⟨[], heq ▸ .nil⟩
  · exact hstep'.calls hx.phase fun event heq => he event (hupload event heq)

/-- Every step is some steps of the store. -/
theorem Step.exists_run (hn : 0 < n) (hlt : n < 2 ^ 63) {db : DB} (hfresh : Fresh db)
    (hempty : LooksEmpty db) {disk : Disk} {events : List ArchiveEvent}
    (hrun : Run (Archive.Step crc pb json name n) (.initial db disk) events s.archive)
    (h : s.Linked crc pb unmarshal) {e : HostEvent}
    (hstep : Step crc pb json unmarshal name n s e t) :
    ∃ events', Run (Archive.Step crc pb json name n) s.archive events' t.archive ∧
      (e.Waits → ∀ e ∈ events', e.Waits) ∧ t.Linked crc pb unmarshal := by
  cases e with
  | accept server =>
    obtain ⟨-, hstep, hconnections⟩ := hstep
    refine ⟨[.accept], .cons hstep .nil, fun _ => List.forall_mem_singleton.mpr trivial, ?_⟩
    obtain ⟨-, ht⟩ := hstep
    refine ⟨?_, fun x hx => ?_⟩
    · rw [ht, hconnections, List.map_append, ← h.uploads]
      rfl
    · rw [hconnections] at hx
      rcases List.mem_append.mp hx with hx | hx
      · exact h.reached x hx
      · obtain rfl := List.mem_singleton.mp hx
        exact ⟨server, [], .nil, List.forall_mem_nil _⟩
  | process e =>
    obtain ⟨hpanicked, hnot, hstep, hconnections⟩ := hstep
    obtain ⟨events', m, -, hshows, hs, hinv⟩ := Archive.exists_node hn hlt hfresh hrun
    have hlooks := Archive.looksEmpty_of_run hn hlt hfresh hempty hrun
    refine ⟨[e], .cons hstep .nil, fun he => List.forall_mem_singleton.mpr he, ?_⟩
    obtain ⟨archive, connections⟩ := t
    dsimp only at hconnections
    subst hconnections
    refine h.process ?_ fun j v' hv' => hstep.turns hshows hs hinv hlooks hnot hv'
    by_cases hp : s.Panicked
    · obtain ⟨disk, rfl⟩ := hpanicked hp
      obtain ⟨-, rfl⟩ := hstep
      exact Or.inr rfl
    · exact Or.inl hp
  | connection k e =>
    obtain ⟨-, he, x, y, hk, hstep, rfl⟩ := hstep
    obtain ⟨calls, hcalls⟩ := exists_calls (h.reached x (List.mem_of_getElem? hk)) he hstep
    refine ⟨calls.map (.call k), Archive.run_calls hcalls (by rw [h.getElem?, hk]; rfl),
      fun _ e he => ?_, h.connection hk he hstep⟩
    obtain ⟨c, -, rfl⟩ := List.mem_map.mp he
    trivial

/-- A run of the process with its connections is one of the store. -/
theorem exists_run (hn : 0 < n) (hlt : n < 2 ^ 63) {db : DB} (hfresh : Fresh db)
    (hempty : LooksEmpty db) {disk : Disk} {before : List ArchiveEvent}
    (hrun : Run (Archive.Step crc pb json name n) (.initial db disk) before s.archive)
    (hs : s.Linked crc pb unmarshal) {events : List HostEvent}
    (h : Run (Step crc pb json unmarshal name n) s events t) :
    ∃ events', Run (Archive.Step crc pb json name n) s.archive events' t.archive ∧
      ((∀ e ∈ events, e.Waits) → ∀ e ∈ events', e.Waits) ∧ t.Linked crc pb unmarshal := by
  induction h with
  | nil => exact ⟨[], .nil, fun _ => List.forall_mem_nil _, hs⟩
  | snoc _ hstep ih =>
    obtain ⟨events₁, hrun₁, hwaits₁, hlinked⟩ := ih
    obtain ⟨events₂, hrun₂, hwaits₂, hlinked'⟩ :=
      hstep.exists_run hn hlt hfresh hempty (hrun.append hrun₁) hlinked
    refine ⟨events₁ ++ events₂, hrun₁.append hrun₂, fun hall e he => ?_, hlinked'⟩
    rcases List.mem_append.mp he with he | he
    · exact hwaits₁ (fun e he => hall e (List.mem_append_left _ he)) e he
    · exact hwaits₂ (hall _ (List.mem_append_right _ (List.mem_singleton_self _))) e he

end Host

end Corgi
