import Corgi.Balance
import Corgi.Payload

/-!
# One request channel

The goroutine of `RequestChannel`. It takes one payload at a time, calls the upload handler and
forwards the response before it takes the next. The steps of the handler come in between. Each
channel has its own view of the devices, since it looks one up only once.

`RequestChannel.Phase` says where a channel stands after a run, with all that it has been sent
and has answered.
-/

set_option linter.unusedSectionVars false

namespace Corgi

/-! ## The model -/

/-- The device of the server, and what `fs.Get` finds. -/
structure ErasureServer (δ : Type) where
  device : Option δ
  get : Bytes → Option δ

/-- What a channel does when it has forwarded a response that is no ERROR. -/
inductive AfterForward
  /-- It takes the next payload. -/
  | loop
  /-- It calls `Complete`. -/
  | complete
  /-- It returns. -/
  | stop
  deriving DecidableEq

/-- Where the goroutine of the channel is. -/
inductive ChannelStage
  /-- It waits for the first payload. -/
  | first
  /-- It waits for a later payload. -/
  | ready
  /-- It waits for the response of the handler. -/
  | waiting (next : AfterForward)
  | returned
  deriving DecidableEq

/-- The goroutine with its handler, and what it took and answered. -/
structure RequestChannel (δ : Type) where
  server : ErasureServer δ
  stage : ChannelStage
  /-- The handler and its device. -/
  h : Option (δ × Upload)
  /-- How many responses of the handler were forwarded. -/
  taken : ℕ
  /-- The payloads taken so far. -/
  processed : List RequestPayload
  /-- The payloads came to an end. -/
  closed : Bool
  out : List ResponsePayload

/-- The steps of the goroutine and of its handler. -/
inductive ChannelEvent
  | payload (p : RequestPayload)
  /-- The channel of the payloads is closed. -/
  | close
  /-- A step of the handler. -/
  | upload (e : UploadEvent)
  /-- A response of the handler is forwarded. -/
  | forward

/-- What a payload after the first one calls, if anything. -/
def RequestPayload.call (p : RequestPayload) : Option UploadCall :=
  match p.metaType with
  | .putObject | .partUpload => some (.put p.data)
  | .completePutObject | .completePartUpload => some .complete
  | .error => some .timeOut
  | _ => none

/-- The device for a request. -/
def ErasureServer.deviceOf {δ : Type} (s : ErasureServer δ) (req : PutInitRequest) : Option δ :=
  if req.lun ≠ [] then (s.get req.lun).or s.device else s.device

namespace RequestChannel

variable {δ : Type}

/-- The goroutine before its first payload. -/
def new (server : ErasureServer δ) : RequestChannel δ :=
  { server, stage := .first, h := none, taken := 0, processed := [], closed := false, out := [] }

/-- Send an ERROR and return. -/
def fail (c : RequestChannel δ) (e : RequestError) : RequestChannel δ :=
  { c with stage := .returned, out := c.out ++ [⟨.error, some e⟩] }

section

variable (crc : BitVec 32 → Bytes → BitVec 32) (pb : Protobuf)
  (unmarshal : Bytes → Except String PutInitRequest)

/-- Whether there is a device for the request. -/
def startHandler (c : RequestChannel δ) (req : PutInitRequest) : RequestChannel δ × Bool :=
  match c.server.deviceOf req with
  | none => (c.fail (.noDevice req.lun), false)
  | some device =>
    ({ c with h := some (device, (Upload.new.called (.start req)).call crc pb (.start req)) }, true)

/-- Call the handler and wait for its response. -/
def call (c : RequestChannel δ) (call : UploadCall) (next : AfterForward) : RequestChannel δ :=
  { c with
    stage := .waiting next
    h := c.h.map fun (device, u) => (device, (u.called call).call crc pb call) }

/-- A first payload that holds the whole upload. -/
def receivePutAndComplete (c : RequestChannel δ) (p : RequestPayload) : RequestChannel δ :=
  match decodePutAndComplete unmarshal p.data with
  | .error e => c.fail e
  | .ok (start, body) => match c.startHandler crc pb start with
    | (c, false) => c
    | (c, true) => c.call crc pb (.put body) .complete

/-- A first payload that starts an upload. -/
def receiveStart (c : RequestChannel δ) (p : RequestPayload) : RequestChannel δ :=
  match decodePutInitRequest unmarshal p.data with
  | .error e => c.fail e
  | .ok start => match c.startHandler crc pb start with
    | (c, false) => c
    | (c, true) => { c with stage := .ready }

/-- The first payload. -/
def receiveFirst (c : RequestChannel δ) (p : RequestPayload) : RequestChannel δ :=
  match p.metaType with
  | .putAndCompleteObject => c.receivePutAndComplete crc pb unmarshal p
  | .startPutObject | .startPartUpload | .startBatchPut => c.receiveStart crc pb unmarshal p
  | .cpSSFile | .startFileAsync => c.fail (.ignored p.metaType)
  | _ => c.fail (.unsupportedFirst p.metaType)

/-- A payload after the first. -/
def receiveNext (c : RequestChannel δ) (p : RequestPayload) : RequestChannel δ :=
  match p.metaType with
  | .putObject | .partUpload =>
    if c.h.isNone then c.fail .missingHandler else c.call crc pb (.put p.data) .loop
  | .completePutObject | .completePartUpload =>
    if c.h.isNone then c.fail .missingHandler else c.call crc pb .complete .stop
  | .error => if c.h.isNone then c.fail .timeout else c.call crc pb .timeOut .stop
  | _ => c.fail (.unexpected p.metaType)

/-- Take a payload. -/
def receive (c : RequestChannel δ) (p : RequestPayload) : RequestChannel δ :=
  let c := { c with processed := c.processed ++ [p] }
  if c.stage = .first then c.receiveFirst crc pb unmarshal p else c.receiveNext crc pb p

/-- Forward a response of the handler. -/
def forward (c : RequestChannel δ) (next : AfterForward) (r : Response) : RequestChannel δ :=
  let c := { c with taken := c.taken + 1, out := c.out ++ [r.payload] }
  match r, next with
  | .error _, _ | _, .stop => { c with stage := .returned }
  | _, .loop => { c with stage := .ready }
  | _, .complete => c.call crc pb .complete .stop

/-- One step. -/
def Step (c : RequestChannel δ) : ChannelEvent → RequestChannel δ → Prop
  | .payload p, c' => (c.stage = .first ∨ c.stage = .ready) ∧ c' = c.receive crc pb unmarshal p
  | .close, c' => (c.stage = .first ∨ c.stage = .ready) ∧
    c' = { c with stage := .returned, closed := true }
  | .upload e, c' => (∀ call, e ≠ .call call) ∧ ∃ device u u', c.h = some (device, u) ∧
    Upload.Step crc pb u e u' ∧ c' = { c with h := some (device, u') }
  | .forward, c' => ∃ device u next r, c.h = some (device, u) ∧ c.stage = .waiting next ∧
    u.responses[c.taken]? = some r ∧ c' = c.forward crc pb next r

end

end RequestChannel

/-! ## The first payload -/

section

variable (unmarshal : Bytes → Except String PutInitRequest) {δ : Type}

/-- A START for a device that exists. -/
def ErasureServer.Starts (s : ErasureServer δ) (p : RequestPayload) : Prop :=
  p.metaType ∈ [.startPutObject, .startPartUpload, .startBatchPut] ∧
    ∃ req, decodePutInitRequest unmarshal p.data = .ok req ∧ s.deviceOf req ≠ none

/-- A PUT_AND_COMPLETE of `body` for a device that exists. -/
def ErasureServer.Puts (s : ErasureServer δ) (p : RequestPayload) (body : Bytes) : Prop :=
  p.metaType = .putAndCompleteObject ∧
    ∃ req, decodePutAndComplete unmarshal p.data = .ok (req, body) ∧ s.deviceOf req ≠ none

theorem ErasureServer.Starts.not_puts {unmarshal : Bytes → Except String PutInitRequest}
    {s : ErasureServer δ} {p : RequestPayload} (h : s.Starts unmarshal p) (body : Bytes) :
    ¬s.Puts unmarshal p body := by
  rintro ⟨hp, -⟩
  have hmem := h.1
  rw [hp] at hmem
  revert hmem
  decide

end

namespace RequestChannel

variable {crc : BitVec 32 → Bytes → BitVec 32} {pb : Protobuf}
  {unmarshal : Bytes → Except String PutInitRequest} {δ : Type}

theorem startHandler_of_some {c : RequestChannel δ} {req : PutInitRequest} {device : δ}
    (h : c.server.deviceOf req = some device) : c.startHandler crc pb req =
      ({ c with h := some (device, (Upload.new.called (.start req)).call crc pb (.start req)) },
        true) := by
  rw [startHandler, h]

theorem startHandler_of_none {c : RequestChannel δ} {req : PutInitRequest}
    (h : c.server.deviceOf req = none) :
    c.startHandler crc pb req = (c.fail (.noDevice req.lun), false) := by
  rw [startHandler, h]

/-- A START starts an upload or is refused. -/
theorem receiveStart_cases (c : RequestChannel δ) {p : RequestPayload}
    (hp : p.metaType ∈ [.startPutObject, .startPartUpload, .startBatchPut]) :
    (∃ device req, c.server.Starts unmarshal p ∧ c.receiveStart crc pb unmarshal p =
      { c with
        stage := .ready
        h := some (device, (Upload.new.called (.start req)).call crc pb (.start req)) }) ∨
    ¬c.server.Starts unmarshal p ∧ ∃ e, c.receiveStart crc pb unmarshal p = c.fail e := by
  unfold receiveStart ErasureServer.Starts
  cases hdecode : decodePutInitRequest unmarshal p.data with
  | error e =>
    refine Or.inr ⟨?_, e, rfl⟩
    rintro ⟨-, req, h, -⟩
    cases h
  | ok req =>
    cases hdevice : c.server.deviceOf req with
    | none =>
      simp only [startHandler_of_none hdevice]
      refine Or.inr ⟨?_, _, rfl⟩
      rintro ⟨-, req', h, hne⟩
      cases h
      exact hne hdevice
    | some device =>
      simp only [startHandler_of_some hdevice]
      exact Or.inl ⟨device, req, ⟨hp, req, rfl, by rw [hdevice]; nofun⟩, rfl⟩

theorem receivePutAndComplete_cases (c : RequestChannel δ) {p : RequestPayload}
    (hp : p.metaType = .putAndCompleteObject) :
    (∃ device req body, c.server.Puts unmarshal p body ∧
      c.receivePutAndComplete crc pb unmarshal p = call crc pb { c with
        h := some (device, (Upload.new.called (.start req)).call crc pb (.start req)) }
        (.put body) .complete) ∨
    (∀ body, ¬c.server.Puts unmarshal p body) ∧
      ∃ e, c.receivePutAndComplete crc pb unmarshal p = c.fail e := by
  unfold receivePutAndComplete ErasureServer.Puts
  cases hdecode : decodePutAndComplete unmarshal p.data with
  | error e =>
    refine Or.inr ⟨?_, e, rfl⟩
    rintro body ⟨-, req, h, -⟩
    cases h
  | ok start =>
    obtain ⟨req, body⟩ := start
    cases hdevice : c.server.deviceOf req with
    | none =>
      simp only [startHandler_of_none hdevice]
      refine Or.inr ⟨?_, _, rfl⟩
      rintro body' ⟨-, req', h, hne⟩
      cases h
      exact hne hdevice
    | some device =>
      simp only [startHandler_of_some hdevice]
      exact Or.inl ⟨device, req, body, ⟨hp, req, rfl, by rw [hdevice]; nofun⟩, rfl⟩

/-- The first payload starts an upload, starts one and puts the body, or is refused. -/
theorem receiveFirst_cases (c : RequestChannel δ) (p : RequestPayload) :
    (∃ device req, c.server.Starts unmarshal p ∧ c.receiveFirst crc pb unmarshal p =
      { c with
        stage := .ready
        h := some (device, (Upload.new.called (.start req)).call crc pb (.start req)) }) ∨
    (∃ device req body, c.server.Puts unmarshal p body ∧ c.receiveFirst crc pb unmarshal p =
      call crc pb { c with
        h := some (device, (Upload.new.called (.start req)).call crc pb (.start req)) }
        (.put body) .complete) ∨
    ¬c.server.Starts unmarshal p ∧ (∀ body, ¬c.server.Puts unmarshal p body) ∧
      ∃ e, c.receiveFirst crc pb unmarshal p = c.fail e := by
  by_cases hstart : p.metaType ∈ [.startPutObject, .startPartUpload, .startBatchPut]
  · have heq : c.receiveFirst crc pb unmarshal p = c.receiveStart crc pb unmarshal p := by
      unfold receiveFirst
      simp only [List.mem_cons, List.not_mem_nil, or_false] at hstart
      rcases hstart with h | h | h <;> rw [h]
    rw [heq]
    rcases @receiveStart_cases crc pb unmarshal δ c p hstart with h | ⟨hnot, he⟩
    · exact Or.inl h
    · refine Or.inr (Or.inr ⟨hnot, ?_, he⟩)
      rintro body ⟨hp, -⟩
      rw [hp] at hstart
      revert hstart
      decide
  have hnot : ¬c.server.Starts unmarshal p := fun h => hstart h.1
  by_cases hputs : p.metaType = .putAndCompleteObject
  · have heq : c.receiveFirst crc pb unmarshal p = c.receivePutAndComplete crc pb unmarshal p := by
      unfold receiveFirst
      rw [hputs]
    rw [heq]
    rcases @receivePutAndComplete_cases crc pb unmarshal δ c p hputs with h | ⟨hno, he⟩
    · exact Or.inr (Or.inl h)
    · exact Or.inr (Or.inr ⟨hnot, hno, he⟩)
  · refine Or.inr (Or.inr ⟨hnot, fun body h => hputs h.1, ?_⟩)
    unfold receiveFirst
    split
    · exact absurd ‹_› hputs
    · exact absurd (by rw [‹p.metaType = _›]; decide) hstart
    · exact absurd (by rw [‹p.metaType = _›]; decide) hstart
    · exact absurd (by rw [‹p.metaType = _›]; decide) hstart
    all_goals exact ⟨_, rfl⟩

/-! ## Later payloads -/

/-- What a channel does after the response to a call. -/
def afterCall : UploadCall → AfterForward
  | .put _ => .loop
  | _ => .stop

theorem receive_of_ready {c : RequestChannel δ} (hstage : c.stage = .ready) (p : RequestPayload) :
    c.receive crc pb unmarshal p =
      receiveNext crc pb { c with processed := c.processed ++ [p] } p := by
  rw [receive]
  exact if_neg (by rw [hstage]; nofun)

/-- A later payload makes a call, or is not expected. -/
theorem receiveNext_cases {c : RequestChannel δ} (hh : c.h.isNone = false) (p : RequestPayload) :
    (∃ call, p.call = some call ∧ call.isAsked = true ∧
      c.receiveNext crc pb p = c.call crc pb call (afterCall call)) ∨
    p.call = none ∧ c.receiveNext crc pb p = c.fail (.unexpected p.metaType) := by
  unfold receiveNext RequestPayload.call
  rw [hh]
  cases p.metaType <;> first
    | exact Or.inr ⟨rfl, rfl⟩
    | exact Or.inl ⟨_, rfl, rfl, rfl⟩

/-! ## Where a channel stands -/

/-- The payloads start an upload and ask for the calls, one each. -/
def Asked (unmarshal : Bytes → Except String PutInitRequest) (s : ErasureServer δ)
    (processed : List RequestPayload) (calls : List UploadCall) : Prop :=
  ∃ p ps, processed = p :: ps ∧ s.Starts unmarshal p ∧
    ps.map RequestPayload.call = calls.map some

/-- One payload asks for the whole upload. -/
def AskedAtOnce (unmarshal : Bytes → Except String PutInitRequest) (s : ErasureServer δ)
    (processed : List RequestPayload) (calls : List UploadCall) : Prop :=
  ∃ p body, processed = [p] ∧ s.Puts unmarshal p body ∧
    (calls = [.put body] ∨ calls = [.put body, .complete])

/-- The handler was started, has been sent `datas` and then has got the call `last`. -/
structure Talks (c : RequestChannel δ) (device : δ) (u : Upload) (datas : List Bytes)
    (last : List UploadCall) : Prop where
  h : c.h = some (device, u)
  sound : u.Sound
  calls : ∃ req, u.calls = .start req :: (datas.map .put ++ last)
  last : last = [] ∨ last = [.complete] ∨ last = [.timeOut]

/-- What was asked for when a channel waits for a response, by what it does after it. -/
def Expects (unmarshal : Bytes → Except String PutInitRequest) (c : RequestChannel δ)
    (datas : List Bytes) (last : List UploadCall) : AfterForward → Prop
  | .loop => last = [] ∧ Asked unmarshal c.server c.processed (datas.map .put)
  | .complete => last = [] ∧ AskedAtOnce unmarshal c.server c.processed (datas.map .put)
  | .stop => last ≠ [] ∧ (Asked unmarshal c.server c.processed (datas.map .put ++ last) ∨
      AskedAtOnce unmarshal c.server c.processed (datas.map .put ++ last))

/-- The handler has answered every `Put` with CONTINUE, and that was forwarded. -/
structure Quiet (c : RequestChannel δ) (u : Upload) (datas : List Bytes) : Prop where
  idle : u.task = .idle
  responses : u.responses = List.replicate datas.length .cont
  taken : c.taken = datas.length

/-- Where a channel stands. -/
inductive Phase (unmarshal : Bytes → Except String PutInitRequest) (c : RequestChannel δ) : Prop
  | fresh (h : c = .new c.server)
  /-- There was no payload. -/
  | unused (h : c = { new c.server with stage := .returned, closed := true })
  | refused (p : RequestPayload) (e : RequestError) (hstart : ¬c.server.Starts unmarshal p)
    (hputs : ∀ body, ¬c.server.Puts unmarshal p body)
    (h : c = { new c.server with
      stage := .returned, processed := [p], out := [⟨.error, some e⟩] })
  | ready (device : δ) (u : Upload) (datas : List Bytes) (hstage : c.stage = .ready)
    (hclosed : c.closed = false) (htalks : c.Talks device u datas []) (hquiet : c.Quiet u datas)
    (hasked : Asked unmarshal c.server c.processed (datas.map .put))
    (hout : c.out = List.replicate datas.length (Response.payload .cont))
  | waiting (next : AfterForward) (device : δ) (u : Upload) (datas : List Bytes)
    (last : List UploadCall) (hstage : c.stage = .waiting next) (hclosed : c.closed = false)
    (htalks : c.Talks device u datas last) (hexpects : c.Expects unmarshal datas last next)
    (htaken : c.taken + 1 = datas.length + last.length)
    (hresponses : u.responses.take c.taken = List.replicate c.taken .cont)
    (hout : c.out = List.replicate c.taken (Response.payload .cont))
  /-- The last response was forwarded. -/
  | answered (device : δ) (u : Upload) (datas : List Bytes) (last : List UploadCall) (n : ℕ)
    (r : Response) (hstage : c.stage = .returned) (hclosed : c.closed = false)
    (htalks : c.Talks device u datas last) (hidle : u.task = .idle)
    (hasked : Asked unmarshal c.server c.processed (datas.map .put ++ last) ∨
      AskedAtOnce unmarshal c.server c.processed (datas.map .put ++ last))
    (hn : n + 1 = datas.length + last.length) (hr : u.responses.getLast? = some r)
    (hcont : r ≠ .cont) (hsuccess : r = .success → last = [.complete])
    (hout : c.out = List.replicate n (Response.payload .cont) ++ [r.payload])
  /-- The payloads came to an end, or there was one that is not expected. -/
  | abandoned (device : δ) (u : Upload) (datas : List Bytes) (ps rest : List RequestPayload)
    (hstage : c.stage = .returned) (htalks : c.Talks device u datas []) (hquiet : c.Quiet u datas)
    (hasked : Asked unmarshal c.server ps (datas.map .put)) (hprocessed : c.processed = ps ++ rest)
    (hrest : (rest = [] ∧ c.closed = true ∧
        c.out = List.replicate datas.length (Response.payload .cont)) ∨
      ∃ p e, rest = [p] ∧ p.call = none ∧ c.closed = false ∧
        c.out = List.replicate datas.length (Response.payload .cont) ++ [⟨.error, some e⟩])

/-! ## Every step leads from a phase to a phase -/

section

variable {c : RequestChannel δ} {device : δ} {u : Upload} {datas : List Bytes}
  {last : List UploadCall}

theorem Talks.congr {c' : RequestChannel δ} (h : c.Talks device u datas last) (hh : c'.h = c.h) :
    c'.Talks device u datas last :=
  ⟨hh.trans h.h, h.sound, h.calls, h.last⟩

theorem Quiet.congr {c' : RequestChannel δ} (h : c.Quiet u datas) (htaken : c'.taken = c.taken) :
    c'.Quiet u datas :=
  ⟨h.idle, h.responses, htaken.trans h.taken⟩

theorem Talks.asked_eq (h : c.Talks device u datas last) :
    u.asked = datas.length + last.length := by
  obtain ⟨req, hcalls⟩ := h.calls
  have hput : (datas.map UploadCall.put).countP UploadCall.isAsked = datas.length := by
    rw [List.countP_map]
    exact List.countP_eq_length.mpr fun _ _ => rfl
  have hlast : last.countP UploadCall.isAsked = last.length := by
    rcases h.last with rfl | rfl | rfl <;> rfl
  rw [Upload.asked, hcalls, List.countP_cons_of_neg Bool.false_ne_true, List.countP_append, hput,
    hlast]

theorem Talks.open (h : c.Talks device u datas []) : u.Open := by
  obtain ⟨req, hcalls⟩ := h.calls
  rw [Upload.Open, hcalls]
  simp

theorem Talks.ended (h : c.Talks device u datas last) (hne : last ≠ []) : u.Ended := by
  obtain ⟨req, hcalls⟩ := h.calls
  rw [Upload.Ended, hcalls]
  rcases h.last with rfl | rfl | rfl
  · exact absurd rfl hne
  · exact Or.inl (by simp)
  · exact Or.inr (by simp)

theorem filterMap_data_map_put (datas : List Bytes) :
    (datas.map UploadCall.put).filterMap UploadCall.data = datas := by
  rw [List.filterMap_map]
  exact List.filterMap_some

theorem Talks.putData_eq (h : c.Talks device u datas []) : u.putData = datas := by
  obtain ⟨req, hcalls⟩ := h.calls
  rw [Upload.putData, hcalls, List.append_nil]
  exact filterMap_data_map_put datas

/-- The call of an open upload is a step of it. -/
theorem Talks.step_call (h : c.Talks device u datas []) (hidle : u.task = .idle)
    {call : UploadCall} (hcall : call.isAsked = true) :
    Upload.Step crc pb u (.call call) ((u.called call).call crc pb call) := by
  refine ⟨hidle, ?_, rfl⟩
  cases call with
  | start req => cases hcall
  | _ => exact h.open

/-- What the handler has got after a call. -/
theorem Talks.call (h : c.Talks device u datas []) (hidle : u.task = .idle) {call : UploadCall}
    (hcall : call.isAsked = true) (next : AfterForward) : ∃ datas' last',
      datas'.map .put ++ last' = datas.map .put ++ [call] ∧ afterCall call =
        (if last' = [] then .loop else .stop) ∧
      (c.call crc pb call next).Talks device ((u.called call).call crc pb call) datas' last' := by
  have hsound := h.sound.step (e := .call call) trivial
    (@step_call crc pb _ _ _ _ _ h hidle _ hcall)
  have hh : (c.call crc pb call next).h = some (device, (u.called call).call crc pb call) := by
    rw [RequestChannel.call, h.h]
    rfl
  have hcalls : ∃ req, ((u.called call).call crc pb call).calls =
      .start req :: (datas.map .put ++ [call]) := by
    obtain ⟨req, hcalls⟩ := h.calls
    refine ⟨req, (Upload.answers_call (u.called call) hcall).1.trans ?_⟩
    rw [Upload.called, hcalls, List.append_nil, List.cons_append]
  cases call with
  | start req => cases hcall
  | put data =>
    refine ⟨datas ++ [data], [], by simp, rfl, hh, hsound, ?_, Or.inl rfl⟩
    obtain ⟨req, hcalls⟩ := hcalls
    exact ⟨req, by rw [hcalls]; simp⟩
  | complete => exact ⟨datas, [.complete], rfl, rfl, hh, hsound, hcalls, Or.inr (Or.inl rfl)⟩
  | timeOut => exact ⟨datas, [.timeOut], rfl, rfl, hh, hsound, hcalls, Or.inr (Or.inr rfl)⟩

theorem take_append_of_take_eq {l t : List Response} {n : ℕ}
    (h : l.take n = List.replicate n .cont) : (l ++ t).take n = List.replicate n .cont := by
  have hlen := congrArg List.length h
  rw [List.length_take, List.length_replicate] at hlen
  rw [List.take_append_of_le_length (by omega), h]

theorem Quiet.take_responses (h : c.Quiet u datas) {u' : Upload} {tail : List Response}
    (hu : u'.responses = u.responses ++ tail) :
    u'.responses.take c.taken = List.replicate c.taken .cont := by
  rw [hu, h.responses, h.taken, List.take_left' List.length_replicate]

/-- A channel that calls the handler. -/
theorem phase_call (htalks : c.Talks device u datas []) (hquiet : c.Quiet u datas)
    (hclosed : c.closed = false)
    (hout : c.out = List.replicate datas.length (Response.payload .cont))
    {call : UploadCall} (hcall : call.isAsked = true) {next : AfterForward}
    (hexpects : ∀ datas' last', datas'.map .put ++ last' = datas.map .put ++ [call] →
      afterCall call = (if last' = [] then .loop else .stop) →
      c.Expects unmarshal datas' last' next) :
    (c.call crc pb call next).Phase unmarshal := by
  obtain ⟨datas', last', heq, hafter, htalks'⟩ :=
    @Talks.call crc pb _ _ _ _ _ htalks hquiet.idle _ hcall next
  have hlen := congrArg List.length heq
  rw [List.length_append, List.length_map, List.length_append, List.length_map] at hlen
  have htail : ∃ tail, ((u.called call).call crc pb call).responses = u.responses ++ tail := by
    obtain ⟨-, ⟨-, r, hr⟩ | ⟨-, hr⟩⟩ := @Upload.answers_call crc pb (u.called call) _ hcall
    · exact ⟨[r], hr⟩
    · exact ⟨[], hr.trans (List.append_nil _).symm⟩
  obtain ⟨tail, htail⟩ := htail
  refine .waiting next device _ datas' last' rfl hclosed htalks' (hexpects _ _ heq hafter) ?_
    (hquiet.take_responses htail) ?_
  · change c.taken + 1 = _
    rw [hlen, hquiet.taken]
    rfl
  · change c.out = List.replicate c.taken _
    rw [hout, hquiet.taken]

/-- A handler that was just started. -/
theorem talks_start (c : RequestChannel δ) (device : δ) (req : PutInitRequest) :
    Talks { c with
      h := some (device, (Upload.new.called (.start req)).call crc pb (.start req)) }
      device ((Upload.new.called (.start req)).call crc pb (.start req)) [] [] :=
  ⟨rfl, Upload.sound_new.step (e := .call (.start req)) trivial ⟨rfl, rfl, rfl⟩, ⟨req, rfl⟩,
    Or.inl rfl⟩

/-- The first payload. -/
theorem phase_receiveFirst (server : ErasureServer δ) (p : RequestPayload) :
    ((new server).receive crc pb unmarshal p).Phase unmarshal := by
  have heq : (new server).receive crc pb unmarshal p =
      receiveFirst crc pb unmarshal { new server with processed := [p] } p := rfl
  rw [heq]
  rcases @receiveFirst_cases crc pb unmarshal δ { new server with processed := [p] } p with
    ⟨device, req, hstarts, heq⟩ | ⟨device, req, body, hputs, heq⟩ | ⟨hstarts, hputs, e, heq⟩
  · rw [heq]
    obtain ⟨hh, hsound, hcalls, hlast⟩ := @talks_start crc pb δ (new server) device req
    exact .ready device _ [] rfl rfl ⟨hh, hsound, hcalls, hlast⟩ ⟨rfl, rfl, rfl⟩
      ⟨p, [], rfl, hstarts, rfl⟩ rfl
  · rw [heq]
    refine phase_call (talks_start _ device req) ⟨rfl, rfl, rfl⟩ rfl rfl rfl
      fun datas' last' heq hafter => ?_
    have hlast : last' = [] := by
      by_contra hne
      rw [if_neg hne] at hafter
      cases hafter
    subst hlast
    rw [List.append_nil] at heq
    exact ⟨rfl, p, body, rfl, hputs, Or.inl heq⟩
  · rw [heq]
    exact .refused p e hstarts hputs rfl

/-- A later payload. -/
theorem phase_receiveNext (hstage : c.stage = .ready) (hclosed : c.closed = false)
    (htalks : c.Talks device u datas []) (hquiet : c.Quiet u datas)
    (hasked : Asked unmarshal c.server c.processed (datas.map .put))
    (hout : c.out = List.replicate datas.length (Response.payload .cont)) (p : RequestPayload) :
    (c.receive crc pb unmarshal p).Phase unmarshal := by
  have htalks' : Talks { c with processed := c.processed ++ [p] } device u datas [] :=
    htalks.congr rfl
  rw [receive_of_ready hstage]
  rcases @receiveNext_cases crc pb δ { c with processed := c.processed ++ [p] }
    (congrArg Option.isNone htalks.h) p with ⟨call, hp, hcall, heq⟩ | ⟨hp, heq⟩
  · rw [heq]
    refine phase_call htalks' (hquiet.congr rfl) hclosed hout hcall
      fun datas' last' heq' hafter => ?_
    obtain ⟨q, ps, hprocessed, hstarts, hps⟩ := hasked
    have hasked' : Asked unmarshal c.server (c.processed ++ [p]) (datas'.map .put ++ last') := by
      refine ⟨q, ps ++ [p], by rw [hprocessed]; rfl, hstarts, ?_⟩
      rw [heq', List.map_append, List.map_append, hps, List.map_singleton, hp]
      rfl
    rw [hafter]
    split_ifs with hlast
    · subst hlast
      rw [List.append_nil] at hasked'
      exact ⟨rfl, hasked'⟩
    · exact ⟨hlast, Or.inl hasked'⟩
  · rw [heq]
    exact .abandoned device u datas c.processed [p] rfl
      (htalks.congr rfl)
      (hquiet.congr rfl) hasked rfl
      (Or.inr ⟨p, _, rfl, hp, hclosed, by rw [fail, hout]⟩)

/-- A step of the handler. -/
theorem phase_upload (h : c.Phase unmarshal) (hh : c.h = some (device, u)) {e : UploadEvent}
    {u' : Upload} (he : e.Proper) (hcall : ∀ call, e ≠ .call call)
    (hstep : Upload.Step crc pb u e u') :
    ({ c with h := some (device, u') } : RequestChannel δ).Phase unmarshal := by
  have hinj : ∀ {device' v datas last}, c.Talks device' v datas last → device = device' ∧ u = v :=
    fun htalks => Prod.mk.inj (Option.some.inj (hh.symm.trans htalks.h))
  -- the handler is at work only when the channel waits
  have hidle : ∀ {device' v datas last}, c.Talks device' v datas last → v.task ≠ .idle := by
    intro device' v datas last htalks hidle
    obtain ⟨-, rfl⟩ := hinj htalks
    exact (hstep.answers htalks.sound.stage hcall).1 hidle
  cases h with
  | fresh h => rw [h] at hh; cases hh
  | unused h => rw [h] at hh; cases hh
  | refused p e hstart hputs h => rw [h] at hh; cases hh
  | ready device' v datas _ _ htalks hquiet => exact absurd hquiet.idle (hidle htalks)
  | answered device' v datas last n r _ _ htalks hv => exact absurd hv (hidle htalks)
  | abandoned device' v datas ps rest _ htalks hquiet => exact absurd hquiet.idle (hidle htalks)
  | waiting next device' v datas last hstage hclosed htalks hexpects htaken hresponses hout =>
    obtain ⟨rfl, rfl⟩ := hinj htalks
    obtain ⟨-, hcalls, hanswers⟩ := hstep.answers htalks.sound.stage hcall
    refine .waiting next device u' datas last hstage hclosed
      ⟨rfl, htalks.sound.step he hstep, hcalls ▸ htalks.calls, htalks.last⟩ hexpects htaken ?_ hout
    rcases hanswers with ⟨-, r, hr⟩ | ⟨-, hr⟩
    · rw [hr]
      exact take_append_of_take_eq hresponses
    · rw [hr]
      exact hresponses

/-- The response that a channel waits for is the last one of the handler. -/
theorem Talks.responses_eq (h : c.Talks device u datas last)
    (htaken : c.taken + 1 = datas.length + last.length)
    (hresponses : u.responses.take c.taken = List.replicate c.taken .cont) {r : Response}
    (hr : u.responses[c.taken]? = some r) :
    u.task = .idle ∧ u.responses = List.replicate c.taken .cont ++ [r] := by
  have hlt : c.taken < u.responses.length := (List.getElem?_eq_some_iff.mp hr).1
  have hidle : u.task = .idle := by
    by_contra hbusy
    have hlen := h.sound.answered.busy hbusy
    rw [h.asked_eq] at hlen
    omega
  refine ⟨hidle, ?_⟩
  have hlen := h.sound.answered.idle hidle
  rw [h.asked_eq, ← htaken] at hlen
  calc u.responses = u.responses.take (c.taken + 1) := (List.take_of_length_le hlen.le).symm
    _ = u.responses.take c.taken ++ u.responses[c.taken]?.toList := List.take_add_one
    _ = List.replicate c.taken .cont ++ [r] := by rw [hresponses, hr]; rfl

/-- What was asked for, without a look at what comes next. -/
theorem Expects.asked {next : AfterForward} (h : c.Expects unmarshal datas last next) :
    Asked unmarshal c.server c.processed (datas.map .put ++ last) ∨
      AskedAtOnce unmarshal c.server c.processed (datas.map .put ++ last) := by
  cases next with
  | loop =>
    obtain ⟨rfl, h⟩ := h
    rw [List.append_nil]
    exact Or.inl h
  | complete =>
    obtain ⟨rfl, h⟩ := h
    rw [List.append_nil]
    exact Or.inr h
  | stop => exact h.2

/-- A response is forwarded. -/
theorem phase_forward {next : AfterForward} (hstage : c.stage = .waiting next)
    (hclosed : c.closed = false) (htalks : c.Talks device u datas last)
    (hexpects : c.Expects unmarshal datas last next)
    (htaken : c.taken + 1 = datas.length + last.length)
    (hresponses : u.responses.take c.taken = List.replicate c.taken .cont)
    (hout : c.out = List.replicate c.taken (Response.payload .cont)) {r : Response}
    (hr : u.responses[c.taken]? = some r) : (c.forward crc pb next r).Phase unmarshal := by
  obtain ⟨hidle, heq⟩ := htalks.responses_eq htaken hresponses hr
  have hlast : u.responses.getLast? = some r := by rw [heq, List.getLast?_concat]
  -- the channel returns
  have hreturn : r ≠ .cont → (r = .success → last = [.complete]) → Phase unmarshal
      { c with stage := .returned, taken := c.taken + 1, out := c.out ++ [r.payload] } :=
    fun hcont hsuccess => .answered device u datas last c.taken r rfl hclosed
      (htalks.congr rfl) hidle hexpects.asked htaken hlast hcont
      hsuccess (by rw [hout])
  cases r with
  | error e => cases next <;> exact hreturn nofun nofun
  | success =>
    have hcomplete : last = [.complete] := by
      have hmem := htalks.sound.stage.complete_of_success hidle hlast
      obtain ⟨req, hcalls⟩ := htalks.calls
      rw [hcalls] at hmem
      rcases htalks.last with rfl | rfl | rfl
      · simp at hmem
      · rfl
      · simp at hmem
    cases next with
    | stop => exact hreturn nofun fun _ => hcomplete
    | _ => rw [hexpects.1] at hcomplete; cases hcomplete
  | cont =>
    have hreplicate : List.replicate c.taken (Response.payload .cont) ++ [Response.payload .cont] =
        List.replicate (c.taken + 1) (Response.payload .cont) := List.replicate_succ'.symm
    have hquiet : last = [] → Quiet
        { c with taken := c.taken + 1, out := c.out ++ [Response.payload .cont] } u datas := by
      rintro rfl
      exact ⟨hidle, by rw [heq, ← List.replicate_succ', htaken]; rfl, htaken⟩
    have hout' : last = [] → c.out ++ [Response.payload .cont] =
        List.replicate datas.length (Response.payload .cont) := by
      rintro rfl
      rw [hout, hreplicate, htaken]
      rfl
    cases next with
    | loop =>
      obtain ⟨rfl, hasked⟩ := hexpects
      obtain ⟨-, h₁, h₂⟩ := hquiet rfl
      exact .ready device u datas rfl hclosed (htalks.congr rfl)
        ⟨hidle, h₁, h₂⟩ hasked (hout' rfl)
    | complete =>
      obtain ⟨rfl, p, body, hprocessed, hputs, hbody⟩ := hexpects
      refine phase_call (c := { c with
          taken := c.taken + 1, out := c.out ++ [Response.payload .cont] })
        (htalks.congr rfl) (hquiet rfl) hclosed
        (hout' rfl) rfl fun datas' last' heq' hafter => ?_
      have hlast' : last' ≠ [] := by
        rintro rfl
        cases hafter
      refine ⟨hlast', Or.inr ⟨p, body, hprocessed, hputs, Or.inr ?_⟩⟩
      rw [heq']
      rcases hbody with hbody | hbody
      · rw [hbody]
        rfl
      · have hmem : UploadCall.complete ∈ datas.map UploadCall.put := by
          rw [hbody]
          simp
        simp at hmem
    | stop =>
      obtain ⟨r', hr', hne, -⟩ := htalks.sound.of_ended (htalks.ended hexpects.1) hidle
      exact absurd (Option.some.inj (hlast.symm.trans hr')).symm hne

/-- A channel that takes payloads is new, or all `Put` so far are answered. -/
theorem Phase.of_taking (h : c.Phase unmarshal) (hstage : c.stage = .first ∨ c.stage = .ready) :
    c = .new c.server ∨ ∃ device u datas, c.stage = .ready ∧ c.closed = false ∧
      c.Talks device u datas [] ∧ c.Quiet u datas ∧
      Asked unmarshal c.server c.processed (datas.map .put) ∧
      c.out = List.replicate datas.length (Response.payload .cont) := by
  have hne : ∀ stage, c.stage = stage → stage ≠ .first → stage ≠ .ready → False := by
    rintro stage rfl h₁ h₂
    exact hstage.elim h₁ h₂
  cases h with
  | fresh h => exact Or.inl h
  | ready device u datas hstage hclosed htalks hquiet hasked hout =>
    exact Or.inr ⟨device, u, datas, hstage, hclosed, htalks, hquiet, hasked, hout⟩
  | unused h => exact (hne .returned (congrArg stage h) nofun nofun).elim
  | refused p e hstart hputs h => exact (hne .returned (congrArg stage h) nofun nofun).elim
  | waiting _ _ _ _ _ h => exact (hne _ h nofun nofun).elim
  | answered _ _ _ _ _ _ h => exact (hne _ h nofun nofun).elim
  | abandoned _ _ _ _ _ h => exact (hne _ h nofun nofun).elim

theorem Phase.of_waiting (h : c.Phase unmarshal) {next : AfterForward}
    (hstage : c.stage = .waiting next) : ∃ device u datas last, c.closed = false ∧
      c.Talks device u datas last ∧ c.Expects unmarshal datas last next ∧
      c.taken + 1 = datas.length + last.length ∧
      u.responses.take c.taken = List.replicate c.taken .cont ∧
      c.out = List.replicate c.taken (Response.payload .cont) := by
  have hne : ∀ stage, c.stage = stage → stage ≠ .waiting next → False := by
    rintro stage rfl h
    exact h hstage
  cases h with
  | waiting next' device u datas last hstage' hclosed htalks hexpects htaken hresponses hout =>
    cases hstage.symm.trans hstage'
    exact ⟨device, u, datas, last, hclosed, htalks, hexpects, htaken, hresponses, hout⟩
  | fresh h => exact (hne .first (congrArg stage h) nofun).elim
  | unused h => exact (hne .returned (congrArg stage h) nofun).elim
  | refused p e hstart hputs h => exact (hne .returned (congrArg stage h) nofun).elim
  | ready _ _ _ h => exact (hne _ h nofun).elim
  | answered _ _ _ _ _ _ h => exact (hne _ h nofun).elim
  | abandoned _ _ _ _ _ h => exact (hne _ h nofun).elim

/-- Every step leads from a phase to a phase. -/
theorem Phase.step {c' : RequestChannel δ} (h : c.Phase unmarshal) {e : ChannelEvent}
    (he : ∀ event, e = .upload event → event.Proper) (hstep : Step crc pb unmarshal c e c') :
    c'.Phase unmarshal := by
  cases e with
  | payload p =>
    obtain ⟨hstage, rfl⟩ := hstep
    rcases h.of_taking hstage with
      h | ⟨device, u, datas, hready, hclosed, htalks, hquiet, hasked, hout⟩
    · rw [h]
      exact phase_receiveFirst _ p
    · exact phase_receiveNext hready hclosed htalks hquiet hasked hout p
  | close =>
    obtain ⟨hstage, rfl⟩ := hstep
    rcases h.of_taking hstage with h | ⟨device, u, datas, -, -, htalks, hquiet, hasked, hout⟩
    · rw [h]
      exact .unused rfl
    · exact .abandoned device u datas c.processed [] rfl
        (htalks.congr rfl)
        (hquiet.congr rfl) hasked (List.append_nil _).symm
        (Or.inl ⟨rfl, rfl, hout⟩)
  | upload e =>
    obtain ⟨hcall, device, u, u', hh, hstep, rfl⟩ := hstep
    exact phase_upload h hh (he e rfl) hcall hstep
  | forward =>
    obtain ⟨device, u, next, r, hh, hstage, hr, rfl⟩ := hstep
    obtain ⟨device', v, datas, last, hclosed, htalks, hexpects, htaken, hresponses, hout⟩ :=
      h.of_waiting hstage
    obtain ⟨rfl, rfl⟩ := Prod.mk.inj (Option.some.inj (hh.symm.trans htalks.h))
    exact phase_forward hstage hclosed htalks hexpects htaken hresponses hout hr

end

end RequestChannel

end Corgi
