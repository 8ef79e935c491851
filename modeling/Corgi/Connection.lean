import Corgi.Chan
import Corgi.Durability
import Corgi.MountInfo
import Corgi.Responses
import Corgi.Sink

/-!
# A connection

`requestChannelFlux` puts a request channel between the payloads that the transport delivers and
the sink that it reads. The reader decodes what is delivered and passes it on, the writer passes
on the responses. Whoever ends the connection does so inside `finishOnce`. The two of them, the
request channel and the transport take their steps in any order.

`Connection.in_order` : the request channel takes what is delivered in order, nothing twice and
nothing left out.
-/

set_option linter.unusedSectionVars false

namespace Corgi

/-! ## Payloads of the transport -/

/-- A payload of the transport. -/
structure TransportPayload where
  data : Bytes
  metadata : Option Bytes
  deriving DecidableEq

/-- The meta types that the code has a name for. -/
def metaTypes : List PayloadMetaType :=
  [.error, .success, .cont, .startPutObject, .putObject, .completePutObject,
    .putAndCompleteObject, .startPartUpload, .partUpload, .completePartUpload, .startBatchPut,
    .cpSSFile, .startFileAsync]

theorem map_text_metaTypes : metaTypes.map PayloadMetaType.text = metaTypeTexts :=
  rfl

/-- The meta type of a text. -/
def PayloadMetaType.ofText (text : String) : PayloadMetaType :=
  match h : metaTypes.find? (·.text = text) with
  | some metaType => metaType
  | none => .other text (by
      rw [← map_text_metaTypes, List.mem_map]
      rintro ⟨m, hm, rfl⟩
      simpa using List.find?_eq_none.mp h m hm)

/-- Without the white space that `s` begins with, `fuel` being its length. -/
def trimLeft (runes : List Bytes) : ℕ → Bytes → Bytes
  | 0, s => s
  | fuel + 1, s =>
    match runes.find? (·.isPrefixOf s) with
    | none => s
    | some rune => trimLeft runes fuel (s.drop rune.length)

/-- `strings.TrimSpace`. -/
def trimSpace (s : Bytes) : Bytes :=
  let s := trimLeft spaceRunes s.length s
  (trimLeft (spaceRunes.map List.reverse) s.length s.reverse).reverse

/-- The error of `DecodePayload`. -/
def missingMetadata : String := "missing payload metadata"

/-- The meta type is the trimmed metadata, which must not be empty. -/
def decodePayload (p : TransportPayload) : Except String RequestPayload :=
  match p.metadata with
  | none => .error missingMetadata
  | some metadata =>
    if trimSpace metadata = [] then .error missingMetadata
    else .ok ⟨.ofText (textOf (trimSpace metadata)), p.data⟩

/-- The payload of a meta type and the text of an error. -/
def encodePayload (metaType : PayloadMetaType) (err : Option String) : TransportPayload :=
  ⟨(err.map fun text => ascii text.toList).getD [], some (ascii metaType.text.toList)⟩

/-- A response as a payload. -/
def ResponsePayload.encode (r : ResponsePayload) : TransportPayload :=
  encodePayload r.metaType (r.err.map RequestError.message)

/-! ## The model -/

/-- Where the reader is. -/
inductive ReaderStage
  /-- It waits for a payload or an error. -/
  | select
  | sending (req : RequestPayload)
  /-- It calls `emitError`. -/
  | failing (err : String)
  /-- It has found the sink open. -/
  | offering (err : String)
  /-- It has put the error into the queue, and calls `drain`. -/
  | offered
  | draining
  /-- It has emitted the error, unless the sink was not open. -/
  | emitted
  /-- It has closed `finished`, and completes the sink. -/
  | completing (stage : CompleteStage)
  | returned

/-- Where the writer is. -/
inductive WriterStage
  /-- It waits for a response. -/
  | select
  | received (resp : ResponsePayload)
  /-- It has found the sink open. -/
  | offering (resp : ResponsePayload)
  /-- It has put the response into the queue, and calls `drain`. -/
  | offered
  | draining
  /-- It calls `complete`. -/
  | ending
  /-- It has closed `finished`, and completes the sink. -/
  | completing (stage : CompleteStage)
  | returned

/-- The reader after a `drain`. -/
def ReaderStage.drained : ReaderStage → ReaderStage
  | .draining => .emitted
  | .completing stage => .completing stage.wake
  | stage => stage

/-- The writer after a `drain`. -/
def WriterStage.drained : WriterStage → WriterStage
  | .draining => .select
  | .completing stage => .completing stage.wake
  | stage => stage

/-- The state of `finishOnce`. -/
inductive Once
  | unused
  | running
  | done
  deriving DecidableEq

/-- A connection. -/
structure Connection (δ : Type) where
  incoming : Chan TransportPayload 64
  incomingErr : Chan (Option String) 1
  /-- `incoming` is not nil. -/
  listens : Bool
  /-- `incomingErr` is not nil. -/
  listensErr : Bool
  ctxDone : Bool
  finished : Bool
  once : Once
  reader : ReaderStage
  requests : Chan RequestPayload 64
  channel : RequestChannel δ
  /-- What the request channel is about to send. -/
  pending : List ResponsePayload
  responses : Chan ResponsePayload 64
  writer : WriterStage
  sink : Sink TransportPayload
  /-- A value was sent on the queue of the sink after it was closed. -/
  panicked : Bool

/-- What happens to a connection. -/
inductive ConnectionEvent
  -- the transport
  | deliver (p : TransportPayload)
  | fault (err : Option String)
  | endIncoming
  | endErr
  | cancel
  | cancelSink
  | disposeSink
  | request (k : BitVec 32)
  | requestDrain
  -- the reader
  | readerStop
  | readerEnd
  | take
  | takeEnd
  | takeErr
  | takeErrEnd
  | send
  | emitError
  | readerOffer
  | readerDrain
  | readerFinish
  | readerComplete
  -- the request channel
  | payload (p : RequestPayload)
  | endPayloads
  | forward
  | upload (e : UploadEvent)
  | push
  | closeOut
  -- the writer
  | writerStop
  | receive
  | receiveEnd
  | check
  | offer
  | writerDrain
  | writerFinish
  | writerComplete
  -- whoever drains the sink
  | drain
  | leave

/-- What `Alloc` returns to the handler is proper. -/
def ConnectionEvent.Proper : ConnectionEvent → Prop
  | .upload e => e.Proper
  | _ => True

namespace Connection

variable {δ : Type}

/-- A connection that is accepted. -/
def new (server : ErasureServer δ) : Connection δ :=
  { incoming := .make, incomingErr := .make, listens := true, listensErr := true
    ctxDone := false, finished := false, once := .unused, reader := .select
    requests := .make, channel := .new server, pending := [], responses := .make
    writer := .select, sink := .make, panicked := false }

/-- The reader returns and closes the requests. -/
def readerReturn (x : Connection δ) : Connection δ :=
  { x with reader := .returned, requests := x.requests.close }

/-- A context or `finished` lets a `select` return. -/
def Over (x : Connection δ) : Prop :=
  x.ctxDone = true ∨ x.finished = true

/-- The reader has got an error, which may be nil. -/
def gotErr (x : Connection δ) : Option String → Connection δ
  | none => x
  | some err => { x with reader := .failing err }

/-- The reader has got a payload. -/
def gotPayload (x : Connection δ) (p : TransportPayload) : Connection δ :=
  match decodePayload p with
  | .error err => { x with reader := .failing err }
  | .ok req => { x with reader := .sending req }

/-- The request channel is now `c`, and is about to send what it has added. -/
def withChannel (x : Connection δ) (c : RequestChannel δ) : Connection δ :=
  { x with channel := c, pending := c.out.drop x.channel.out.length }

/-- The reader is at `stage` of `Complete`, or has returned from it and from `finishOnce`. -/
def readerAt (x : Connection δ) (sink : Sink TransportPayload) :
    Option CompleteStage → Connection δ
  | some stage => { x with reader := .completing stage, sink }
  | none => { x.readerReturn with once := .done, sink }

/-- The writer is at `stage` of `Complete`, or has returned from it and from `finishOnce`. -/
def writerAt (x : Connection δ) (sink : Sink TransportPayload) :
    Option CompleteStage → Connection δ
  | some stage => { x with writer := .completing stage, sink }
  | none => { x with writer := .returned, once := .done, sink }

/-- The lock of the condition is held. -/
def Locked (x : Connection δ) : Prop :=
  x.reader = .completing .measuring ∨ x.writer = .completing .measuring

/-- The one that has drained goes on, and the one that waits for it is woken. -/
def leave (x : Connection δ) : Connection δ :=
  { x with
    reader := x.reader.drained
    writer := x.writer.drained
    sink := x.sink.drain .leaving }

section

variable (crc : BitVec 32 → Bytes → BitVec 32) (pb : Protobuf)
  (unmarshal : Bytes → Except String PutInitRequest)

/-- What the transport does. -/
def TransportStep (x : Connection δ) : ConnectionEvent → Connection δ → Prop
  | .deliver p, y => ∃ c, x.incoming.send p = some c ∧ y = { x with incoming := c }
  | .fault err, y => ∃ c, x.incomingErr.send err = some c ∧ y = { x with incomingErr := c }
  | .endIncoming, y => y = { x with incoming := x.incoming.close }
  | .endErr, y => y = { x with incomingErr := x.incomingErr.close }
  | .cancel, y => y = { x with ctxDone := true }
  | .cancelSink, y => x.sink.stat = .opened ∧
    y = { x with sink := { x.sink with stat := .cancelled } }
  | .disposeSink, y => x.sink.stat = .cancelled ∧
    y = { x with sink := { x.sink with queue := x.sink.queue.close } }
  | .request k, y => y = { x with sink := x.sink.request k }
  | .requestDrain, y => ∃ requested, x.sink.requested = requested + 1 ∧
    y = { x with sink := { x.sink with requested }.enter }
  | _, _ => False

/-- What the reader does. -/
def ReaderStep (x : Connection δ) : ConnectionEvent → Connection δ → Prop
  | .readerStop, y => (x.reader = .select ∧ (x.listens ∨ x.listensErr) ∨
      ∃ req, x.reader = .sending req) ∧ x.Over ∧ y = x.readerReturn
  | .readerEnd, y => x.reader = .select ∧ x.listens = false ∧ x.listensErr = false ∧
    y = x.readerReturn
  | .take, y => x.reader = .select ∧ x.listens ∧ ∃ p c, x.incoming.recv = some (p, c) ∧
    y = gotPayload { x with incoming := c } p
  | .takeEnd, y => x.reader = .select ∧ x.listens ∧ x.incoming.Done ∧
    y = { x with listens := false }
  | .takeErr, y => x.reader = .select ∧ x.listensErr ∧ ∃ err c,
    x.incomingErr.recv = some (err, c) ∧ y = gotErr { x with incomingErr := c } err
  | .takeErrEnd, y => x.reader = .select ∧ x.listensErr ∧ x.incomingErr.Done ∧
    y = { x with listensErr := false }
  | .send, y => ∃ req c, x.reader = .sending req ∧ x.requests.send req = some c ∧
    y = { x with reader := .select, requests := c }
  | .emitError, y => ∃ err, x.reader = .failing err ∧
    -- Once it is done, `finishOnce` does nothing. While it runs, it waits.
    ((x.once = .done ∧ y = x.readerReturn) ∨
      x.once = .unused ∧ y = { x with
        once := .running
        reader := if x.sink.stat = .opened then .offering err else .emitted })
  | .readerOffer, y => ∃ err, x.reader = .offering err ∧
    (x.sink.queue.closed = true ∧ y = { x with panicked := true } ∨
      ∃ queue, x.sink.queue.send (encodePayload .error (some err)) = some queue ∧
        y = { x with reader := .offered, sink := { x.sink with queue } })
  | .readerDrain, y => x.reader = .offered ∧ y = { x with
      reader := if x.sink.draining.isSome then .emitted else .draining
      sink := x.sink.enter }
  | .readerFinish, y => x.reader = .emitted ∧
    y = { x with reader := .completing .looking, finished := true }
  | .readerComplete, y => ∃ stage sink next, x.reader = .completing stage ∧
    x.sink.complete stage = some (sink, next) ∧ y = x.readerAt sink next
  | _, _ => False

/-- What the request channel does. -/
def ChannelStep (x : Connection δ) : ConnectionEvent → Connection δ → Prop
  | .payload p, y => x.pending = [] ∧ ∃ c requests, x.requests.recv = some (p, requests) ∧
    RequestChannel.Step crc pb unmarshal x.channel (.payload p) c ∧
    y = withChannel { x with requests } c
  | .endPayloads, y => x.pending = [] ∧ x.requests.Done ∧ ∃ c,
    RequestChannel.Step crc pb unmarshal x.channel .close c ∧ y = x.withChannel c
  | .forward, y => x.pending = [] ∧ ∃ c,
    RequestChannel.Step crc pb unmarshal x.channel .forward c ∧ y = x.withChannel c
  | .upload e, y => ∃ c, RequestChannel.Step crc pb unmarshal x.channel (.upload e) c ∧
    y = { x with channel := c }
  | .push, y => ∃ resp rest c, x.pending = resp :: rest ∧ x.responses.send resp = some c ∧
    y = { x with pending := rest, responses := c }
  | .closeOut, y => x.channel.stage = .returned ∧ x.pending = [] ∧ x.responses.closed = false ∧
    y = { x with responses := x.responses.close }
  | _, _ => False

/-- What the writer does. -/
def WriterStep (x : Connection δ) : ConnectionEvent → Connection δ → Prop
  | .writerStop, y => x.writer = .select ∧ x.Over ∧ y = { x with writer := .returned }
  | .receive, y => x.writer = .select ∧ ∃ resp c, x.responses.recv = some (resp, c) ∧
    y = { x with writer := .received resp, responses := c }
  | .receiveEnd, y => x.writer = .select ∧ x.responses.Done ∧ y = { x with writer := .ending }
  | .check, y => ∃ resp, x.writer = .received resp ∧
    y = { x with writer := if x.sink.stat = .opened then .offering resp else .select }
  | .offer, y => ∃ resp, x.writer = .offering resp ∧
    (x.sink.queue.closed = true ∧ y = { x with panicked := true } ∨
      ∃ queue, x.sink.queue.send resp.encode = some queue ∧
        y = { x with writer := .offered, sink := { x.sink with queue } })
  | .writerDrain, y => x.writer = .offered ∧ y = { x with
      writer := if x.sink.draining.isSome then .select else .draining
      sink := x.sink.enter }
  | .writerFinish, y => x.writer = .ending ∧
    ((x.once = .done ∧ y = { x with writer := .returned }) ∨
      x.once = .unused ∧ y = { x with
        once := .running, writer := .completing .looking, finished := true })
  | .writerComplete, y => ∃ stage sink next, x.writer = .completing stage ∧
    x.sink.complete stage = some (sink, next) ∧ y = x.writerAt sink next
  | _, _ => False

/-- What whoever drains the sink does. -/
def DrainStep (x : Connection δ) : ConnectionEvent → Connection δ → Prop
  | .drain, y => ∃ stage, x.sink.draining = some stage ∧ stage ≠ .leaving ∧
    y = { x with sink := x.sink.drain stage }
  | .leave, y => x.sink.draining = some .leaving ∧ ¬x.Locked ∧ y = x.leave
  | _, _ => False

/-- One step. After a panic there is none. -/
def Step (x : Connection δ) (e : ConnectionEvent) (y : Connection δ) : Prop :=
  x.panicked = false ∧ (x.TransportStep e y ∨ x.ReaderStep e y ∨
    x.ChannelStep crc pb unmarshal e y ∨ x.WriterStep e y ∨ x.DrainStep e y)

end

end Connection

/-! ## What a request channel takes and adds -/

/-- The payload that an event takes. -/
def ChannelEvent.taken : ChannelEvent → List RequestPayload
  | .payload p => [p]
  | _ => []

namespace RequestChannel

variable {crc : BitVec 32 → Bytes → BitVec 32} {pb : Protobuf}
  {unmarshal : Bytes → Except String PutInitRequest} {δ : Type} {c c' : RequestChannel δ}

theorem receiveFirst_log (c : RequestChannel δ) (p : RequestPayload) :
    (c.receiveFirst crc pb unmarshal p).processed = c.processed ∧
      c.out <+: (c.receiveFirst crc pb unmarshal p).out := by
  rcases @receiveFirst_cases crc pb unmarshal δ c p with
    ⟨device, req, -, heq⟩ | ⟨device, req, body, -, heq⟩ | ⟨-, -, e, heq⟩ <;> rw [heq]
  · exact ⟨rfl, List.prefix_rfl⟩
  · exact ⟨rfl, List.prefix_rfl⟩
  · exact ⟨rfl, List.prefix_append _ _⟩

theorem receiveNext_log (c : RequestChannel δ) (p : RequestPayload) :
    (c.receiveNext crc pb p).processed = c.processed ∧ c.out <+: (c.receiveNext crc pb p).out := by
  unfold receiveNext
  split <;> (try split_ifs) <;> first
    | exact ⟨rfl, List.prefix_rfl⟩
    | exact ⟨rfl, List.prefix_append _ _⟩

theorem forward_log (c : RequestChannel δ) (next : AfterForward) (r : Response) :
    (c.forward crc pb next r).processed = c.processed ∧
      c.out <+: (c.forward crc pb next r).out := by
  unfold forward
  split <;> exact ⟨rfl, List.prefix_append _ _⟩

/-- A step takes one payload or none, and may add responses. -/
theorem Step.log {e : ChannelEvent} (h : Step crc pb unmarshal c e c') :
    c'.processed = c.processed ++ e.taken ∧ c.out <+: c'.out := by
  cases e with
  | payload p =>
    obtain ⟨-, rfl⟩ := h
    rw [receive]
    split_ifs
    · exact receiveFirst_log _ p
    · exact receiveNext_log _ p
  | close =>
    obtain ⟨-, rfl⟩ := h
    exact ⟨(List.append_nil _).symm, List.prefix_rfl⟩
  | upload e =>
    obtain ⟨-, _, _, _, -, -, rfl⟩ := h
    exact ⟨(List.append_nil _).symm, List.prefix_rfl⟩
  | forward =>
    obtain ⟨_, _, _, _, -, -, -, rfl⟩ := h
    exact ⟨(forward_log _ _ _).1.trans (List.append_nil _).symm, (forward_log _ _ _).2⟩

end RequestChannel

/-! ## What holds in every state -/

/-- What the reader has taken and not passed on. -/
def ReaderStage.hand : ReaderStage → List RequestPayload
  | .sending req => [req]
  | _ => []

/-- The reader has not failed and not returned. -/
def ReaderStage.reads : ReaderStage → Bool
  | .select | .sending _ => true
  | _ => false

/-- The error that the reader is going to emit. -/
def ReaderStage.error : ReaderStage → Option String
  | .failing err | .offering err => some err
  | _ => none

namespace Connection

variable {crc : BitVec 32 → Bytes → BitVec 32} {pb : Protobuf}
  {unmarshal : Bytes → Except String PutInitRequest} {δ : Type} {x y : Connection δ}

/-- The request channel has returned and the writer has got all its responses. -/
def Ended (x : Connection δ) : Prop :=
  x.channel.stage = .returned ∧ x.pending = [] ∧ x.responses.buffer = []

/-- Where an error of the reader comes from. -/
def Cause (x : Connection δ) (err : String) : Prop :=
  (∃ p ∈ x.incoming.received, decodePayload p = .error err) ∨ some err ∈ x.incomingErr.received

/-- The requests are what was delivered, decoded. Only a reader that has stopped has left out
anything. -/
def Inbound (x : Connection δ) : Prop :=
  ∃ rest, x.incoming.received.map decodePayload =
    (x.requests.sent ++ x.reader.hand).map .ok ++ rest ∧ (x.reader.reads = true → rest = [])

/-- What holds on the way from the transport to the request channel. -/
structure Inlet (x : Connection δ) : Prop where
  processed : x.channel.processed = x.requests.received
  inbound : x.Inbound
  cause : ∀ err, x.reader.error = some err → x.Cause err

/-! ## What the steps leave alone -/

/-- The transport leaves the parties alone. -/
theorem TransportStep.frame {e : ConnectionEvent} (h : x.TransportStep e y) :
    y.reader = x.reader ∧ y.requests = x.requests ∧ y.channel = x.channel ∧
      y.pending = x.pending ∧ y.responses = x.responses ∧ y.writer = x.writer ∧
      y.once = x.once ∧ y.panicked = x.panicked ∧ y.incoming.received = x.incoming.received ∧
      y.incomingErr.received = x.incomingErr.received ∧
      y.sink.emitted = x.sink.emitted := by
  cases e with
  | deliver p =>
    obtain ⟨c, hc, rfl⟩ := h
    exact ⟨rfl, rfl, rfl, rfl, rfl, rfl, rfl, rfl, (Chan.of_send hc).2.1, rfl, rfl⟩
  | fault err =>
    obtain ⟨c, hc, rfl⟩ := h
    exact ⟨rfl, rfl, rfl, rfl, rfl, rfl, rfl, rfl, rfl, (Chan.of_send hc).2.1, rfl⟩
  | endIncoming | endErr | cancel =>
    obtain rfl := h
    exact ⟨rfl, rfl, rfl, rfl, rfl, rfl, rfl, rfl, rfl, rfl, rfl⟩
  | request k =>
    obtain rfl := h
    exact ⟨rfl, rfl, rfl, rfl, rfl, rfl, rfl, rfl, rfl, rfl, rfl⟩
  | cancelSink | disposeSink =>
    obtain ⟨-, rfl⟩ := h
    exact ⟨rfl, rfl, rfl, rfl, rfl, rfl, rfl, rfl, rfl, rfl, rfl⟩
  | requestDrain =>
    obtain ⟨requested, -, rfl⟩ := h
    exact ⟨rfl, rfl, rfl, rfl, rfl, rfl, rfl, rfl, rfl, rfl, rfl⟩
  | _ => exact h.elim

theorem gotPayload_eq (x : Connection δ) (p : TransportPayload) :
    x.gotPayload p = { x with reader := (x.gotPayload p).reader } := by
  unfold gotPayload
  split <;> rfl

theorem gotErr_eq (x : Connection δ) (err : Option String) :
    x.gotErr err = { x with reader := (x.gotErr err).reader } := by
  cases err <;> rfl

/-- The reader leaves the request channel and the writer alone. -/
theorem ReaderStep.frame {e : ConnectionEvent} (h : x.ReaderStep e y) :
    y.channel = x.channel ∧ y.pending = x.pending ∧ y.responses = x.responses ∧
      y.writer = x.writer ∧ x.incoming.received <+: y.incoming.received ∧
      x.incomingErr.received <+: y.incomingErr.received := by
  have hsame : ∀ {reader requests listens listensErr finished once sink panicked},
      y = { x with reader, requests, listens, listensErr, finished, once, sink, panicked } →
        y.channel = x.channel ∧ y.pending = x.pending ∧ y.responses = x.responses ∧
        y.writer = x.writer ∧ x.incoming.received <+: y.incoming.received ∧
        x.incomingErr.received <+: y.incomingErr.received := by
    rintro _ _ _ _ _ _ _ _ rfl
    exact ⟨rfl, rfl, rfl, rfl, List.prefix_rfl, List.prefix_rfl⟩
  cases e with
  | readerStop => exact hsame h.2.2
  | readerEnd => exact hsame h.2.2.2
  | take =>
    obtain ⟨-, -, p, c, hc, rfl⟩ := h
    rw [gotPayload_eq]
    exact ⟨rfl, rfl, rfl, rfl, (Chan.of_recv hc).2.1 ▸ List.prefix_append _ _, List.prefix_rfl⟩
  | takeEnd => exact hsame h.2.2.2
  | takeErr =>
    obtain ⟨-, -, err, c, hc, rfl⟩ := h
    rw [gotErr_eq]
    exact ⟨rfl, rfl, rfl, rfl, List.prefix_rfl, (Chan.of_recv hc).2.1 ▸ List.prefix_append _ _⟩
  | takeErrEnd => exact hsame h.2.2.2
  | send =>
    obtain ⟨req, c, -, -, hy⟩ := h
    exact hsame hy
  | emitError =>
    obtain ⟨err, -, ⟨-, hy⟩ | ⟨-, hy⟩⟩ := h
    · exact hsame hy
    · exact hsame hy
  | readerOffer =>
    obtain ⟨err, -, ⟨-, hy⟩ | ⟨queue, -, hy⟩⟩ := h
    · exact hsame hy
    · exact hsame hy
  | readerDrain => exact hsame h.2
  | readerFinish => exact hsame h.2
  | readerComplete =>
    obtain ⟨stage, sink, next, -, -, hy⟩ := h
    cases next with
    | none => exact hsame hy
    | some stage => exact hsame hy
  | _ => exact h.elim

/-- The request channel leaves the reader, the writer and the sink alone. -/
theorem ChannelStep.frame {e : ConnectionEvent} (h : x.ChannelStep crc pb unmarshal e y) :
    y.reader = x.reader ∧ y.writer = x.writer ∧ y.once = x.once ∧ y.sink = x.sink ∧
      y.panicked = x.panicked ∧ y.incoming = x.incoming ∧ y.incomingErr = x.incomingErr ∧
      y.requests.sent = x.requests.sent ∧ y.responses.received = x.responses.received := by
  cases e with
  | payload p =>
    obtain ⟨-, c, requests, hrecv, -, rfl⟩ := h
    exact ⟨rfl, rfl, rfl, rfl, rfl, rfl, rfl, (Chan.of_recv hrecv).1, rfl⟩
  | endPayloads =>
    obtain ⟨-, -, c, -, rfl⟩ := h
    exact ⟨rfl, rfl, rfl, rfl, rfl, rfl, rfl, rfl, rfl⟩
  | forward =>
    obtain ⟨-, c, -, rfl⟩ := h
    exact ⟨rfl, rfl, rfl, rfl, rfl, rfl, rfl, rfl, rfl⟩
  | upload e =>
    obtain ⟨c, -, rfl⟩ := h
    exact ⟨rfl, rfl, rfl, rfl, rfl, rfl, rfl, rfl, rfl⟩
  | push =>
    obtain ⟨resp, rest, c, -, hsend, rfl⟩ := h
    exact ⟨rfl, rfl, rfl, rfl, rfl, rfl, rfl, rfl, (Chan.of_send hsend).2.1⟩
  | closeOut =>
    obtain ⟨-, -, -, rfl⟩ := h
    exact ⟨rfl, rfl, rfl, rfl, rfl, rfl, rfl, rfl, rfl⟩
  | _ => exact h.elim

/-- The writer leaves the reader and the request channel alone. -/
theorem WriterStep.frame {e : ConnectionEvent} (h : x.WriterStep e y) :
    y.channel = x.channel ∧ y.pending = x.pending ∧ y.requests = x.requests ∧
      y.reader = x.reader ∧ y.incoming = x.incoming ∧ y.incomingErr = x.incomingErr ∧
      y.responses.sent = x.responses.sent ∧ y.responses.closed = x.responses.closed ∧
      (x.responses.buffer = [] → y.responses.buffer = []) := by
  have hsame : ∀ {writer finished once sink panicked},
      y = { x with writer, finished, once, sink, panicked } →
        y.channel = x.channel ∧ y.pending = x.pending ∧ y.requests = x.requests ∧
        y.reader = x.reader ∧ y.incoming = x.incoming ∧ y.incomingErr = x.incomingErr ∧
        y.responses.sent = x.responses.sent ∧ y.responses.closed = x.responses.closed ∧
        (x.responses.buffer = [] → y.responses.buffer = []) := by
    rintro _ _ _ _ _ rfl
    exact ⟨rfl, rfl, rfl, rfl, rfl, rfl, rfl, rfl, id⟩
  cases e with
  | writerStop => exact hsame h.2.2
  | receive =>
    obtain ⟨-, resp, c, hc, rfl⟩ := h
    obtain ⟨hsent, -, hbuffer, hclosed⟩ := Chan.of_recv hc
    refine ⟨rfl, rfl, rfl, rfl, rfl, rfl, hsent, hclosed, fun hnil => ?_⟩
    rw [hnil] at hbuffer
    cases hbuffer
  | receiveEnd => exact hsame h.2.2
  | check =>
    obtain ⟨resp, -, hy⟩ := h
    exact hsame hy
  | offer =>
    obtain ⟨resp, -, ⟨-, hy⟩ | ⟨queue, -, hy⟩⟩ := h
    · exact hsame hy
    · exact hsame hy
  | writerDrain => exact hsame h.2
  | writerFinish =>
    obtain ⟨-, ⟨-, hy⟩ | ⟨-, hy⟩⟩ := h
    · exact hsame hy
    · exact hsame hy
  | writerComplete =>
    obtain ⟨stage, sink, next, -, -, hy⟩ := h
    cases next with
    | none => exact hsame hy
    | some stage => exact hsame hy
  | _ => exact h.elim

/-- Whoever drains leaves the request channel alone, and moves on the reader and the writer. -/
theorem DrainStep.frame {e : ConnectionEvent} (h : x.DrainStep e y) : ∃ reader writer sink,
    y = { x with reader, writer, sink } ∧
      (reader = x.reader ∨ reader = x.reader.drained) ∧
      (writer = x.writer ∨ writer = x.writer.drained) ∧ sink.stat = x.sink.stat ∧
      sink.emitted = x.sink.emitted ∧ sink.queue.closed = x.sink.queue.closed := by
  cases e with
  | drain =>
    obtain ⟨stage, -, -, rfl⟩ := h
    exact ⟨_, _, _, rfl, Or.inl rfl, Or.inl rfl, x.sink.frame_drain stage⟩
  | leave =>
    obtain ⟨-, -, rfl⟩ := h
    exact ⟨_, _, _, rfl, Or.inr rfl, Or.inr rfl, x.sink.frame_drain .leaving⟩
  | _ => exact h.elim

theorem ChannelStep.ended (h : x.Ended) {e : ConnectionEvent}
    (hstep : x.ChannelStep crc pb unmarshal e y) : y.Ended := by
  obtain ⟨hstage, hpending, hbuffer⟩ := h
  cases e with
  | payload p =>
    obtain ⟨-, c, requests, -, ⟨hstage' | hstage', -⟩, -⟩ := hstep <;>
      cases hstage.symm.trans hstage'
  | endPayloads =>
    obtain ⟨-, -, c, ⟨hstage' | hstage', -⟩, -⟩ := hstep <;> cases hstage.symm.trans hstage'
  | forward =>
    obtain ⟨-, c, ⟨_, _, _, _, -, hstage', -, -⟩, -⟩ := hstep
    cases hstage.symm.trans hstage'
  | upload e =>
    obtain ⟨c, ⟨-, _, _, _, -, -, rfl⟩, rfl⟩ := hstep
    exact ⟨hstage, hpending, hbuffer⟩
  | push =>
    obtain ⟨resp, rest, c, hpending', -⟩ := hstep
    cases hpending.symm.trans hpending'
  | closeOut =>
    obtain ⟨-, -, -, rfl⟩ := hstep
    exact ⟨hstage, hpending, hbuffer⟩
  | _ => exact hstep.elim

theorem Ended.step (h : x.Ended) {e : ConnectionEvent} (hstep : x.Step crc pb unmarshal e y) :
    y.Ended := by
  obtain ⟨-, hstep | hstep | hstep | hstep | hstep⟩ := hstep
  · obtain ⟨-, -, hchannel, hpending, hresponses, -⟩ := hstep.frame
    rwa [Ended, hchannel, hpending, hresponses]
  · obtain ⟨hchannel, hpending, hresponses, -⟩ := hstep.frame
    rwa [Ended, hchannel, hpending, hresponses]
  · exact ChannelStep.ended h hstep
  · obtain ⟨hchannel, hpending, -, -, -, -, -, -, hbuffer⟩ := hstep.frame
    rw [Ended, hchannel, hpending]
    exact ⟨h.1, h.2.1, hbuffer h.2.2⟩
  · obtain ⟨reader, writer, sink, rfl, -⟩ := hstep.frame
    exact h

theorem Cause.mono {err : String} (h : x.Cause err)
    (hincoming : x.incoming.received <+: y.incoming.received)
    (herr : x.incomingErr.received <+: y.incomingErr.received) : y.Cause err := by
  rcases h with ⟨p, hp, hdecode⟩ | h
  · exact Or.inl ⟨p, hincoming.subset hp, hdecode⟩
  · exact Or.inr (herr.subset h)

theorem Cause.step {err : String} (h : x.Cause err) {e : ConnectionEvent}
    (hstep : x.Step crc pb unmarshal e y) : y.Cause err := by
  obtain ⟨-, hstep | hstep | hstep | hstep | hstep⟩ := hstep
  · obtain ⟨-, -, -, -, -, -, -, -, hincoming, herr, -⟩ := hstep.frame
    exact h.mono (hincoming ▸ List.prefix_rfl) (herr ▸ List.prefix_rfl)
  · obtain ⟨-, -, -, -, hincoming, herr⟩ := hstep.frame
    exact h.mono hincoming herr
  · obtain ⟨-, -, -, -, -, hincoming, herr, -⟩ := hstep.frame
    exact h.mono (hincoming ▸ List.prefix_rfl) (herr ▸ List.prefix_rfl)
  · obtain ⟨-, -, -, -, hincoming, herr, -⟩ := hstep.frame
    exact h.mono (hincoming ▸ List.prefix_rfl) (herr ▸ List.prefix_rfl)
  · obtain ⟨reader, writer, sink, rfl, -⟩ := hstep.frame
    exact h

/-! ## Where the request channel stands -/

/-- A step of a connection leaves the request channel alone, or is one of it. -/
theorem Step.channel_cases {e : ConnectionEvent} (h : x.Step crc pb unmarshal e y) :
    y.channel = x.channel ∨ ∃ e', RequestChannel.Step crc pb unmarshal x.channel e' y.channel ∧
      ∀ event, e' = .upload event → e = .upload event := by
  obtain ⟨-, ht | hr | hc | hw | hd⟩ := h
  · exact Or.inl ht.frame.2.2.1
  · exact Or.inl hr.frame.1
  · cases e with
    | payload p =>
      obtain ⟨-, c, requests, -, hstep, rfl⟩ := hc
      exact Or.inr ⟨.payload p, hstep, fun _ h => by cases h⟩
    | endPayloads =>
      obtain ⟨-, -, c, hstep, rfl⟩ := hc
      exact Or.inr ⟨.close, hstep, fun _ h => by cases h⟩
    | forward =>
      obtain ⟨-, c, hstep, rfl⟩ := hc
      exact Or.inr ⟨.forward, hstep, fun _ h => by cases h⟩
    | upload e =>
      obtain ⟨c, hstep, rfl⟩ := hc
      exact Or.inr ⟨.upload e, hstep, fun _ h => by rw [ChannelEvent.upload.inj h]⟩
    | push =>
      obtain ⟨resp, rest, c, -, -, rfl⟩ := hc
      exact Or.inl rfl
    | closeOut =>
      obtain ⟨-, -, -, rfl⟩ := hc
      exact Or.inl rfl
    | _ => exact hc.elim
  · exact Or.inl hw.frame.1
  · obtain ⟨reader, writer, sink, rfl, -⟩ := hd.frame
    exact Or.inl rfl

theorem phase_step (h : x.channel.Phase unmarshal) {e : ConnectionEvent} (he : e.Proper)
    (hstep : x.Step crc pb unmarshal e y) : y.channel.Phase unmarshal := by
  rcases hstep.channel_cases with heq | ⟨e', hstep', hupload⟩
  · rwa [heq]
  · refine h.step (fun event heq => ?_) hstep'
    rw [hupload event heq] at he
    exact he

/-- The states that a run with proper events reaches. -/
theorem phase_of_run {server : ErasureServer δ} {events : List ConnectionEvent}
    (h : Run (Step crc pb unmarshal) (new server) events x) (hproper : ∀ e ∈ events, e.Proper) :
    x.channel.Phase unmarshal := by
  refine h.history (I := fun events x => (∀ e ∈ events, e.Proper) → x.channel.Phase unmarshal)
    (fun events x e y ih hstep hall => ?_) (fun _ => .fresh rfl) hproper
  exact phase_step (ih fun e he => hall e (List.mem_append_left _ he))
    (hall e (List.mem_append_right _ (List.mem_singleton_self e))) hstep

/-! ## From the transport to the request channel -/

theorem inlet_new (server : ErasureServer δ) : (new server).Inlet :=
  ⟨rfl, ⟨[], rfl, fun _ => rfl⟩, nofun⟩

/-- A reader that stops leaves out what it had in hand. -/
theorem Inbound.stop (h : x.Inbound) (hincoming : y.incoming.received = x.incoming.received)
    (hrequests : y.requests.sent = x.requests.sent) (hhand : y.reader.hand = [])
    (hreads : y.reader.reads = false) : y.Inbound := by
  obtain ⟨rest, heq, -⟩ := h
  refine ⟨x.reader.hand.map .ok ++ rest, ?_, fun h => by rw [hreads] at h; cases h⟩
  rw [hincoming, hrequests, hhand, List.append_nil, heq, List.map_append, List.append_assoc]

theorem Inlet.of_stop (h : x.Inlet) (hincoming : y.incoming = x.incoming)
    (herr : y.incomingErr = x.incomingErr) (hrequests : y.requests.sent = x.requests.sent)
    (hreceived : y.requests.received = x.requests.received) (hchannel : y.channel = x.channel)
    (hhand : y.reader.hand = []) (hreads : y.reader.reads = false)
    (herror : ∀ err, y.reader.error = some err → x.reader.error = some err) : y.Inlet := by
  refine ⟨?_, h.inbound.stop (by rw [hincoming]) hrequests hhand hreads, fun err he => ?_⟩
  · rw [hchannel, hreceived]
    exact h.processed
  · exact (h.cause err (herror err he)).mono (hincoming ▸ List.prefix_rfl) (herr ▸ List.prefix_rfl)

theorem Inlet.take (h : x.Inlet) (hselect : x.reader = .select) {p : TransportPayload}
    {c : Chan TransportPayload 64} (hrecv : x.incoming.recv = some (p, c)) :
    (gotPayload { x with incoming := c } p).Inlet := by
  obtain ⟨rest, heq, hrest⟩ := h.inbound
  obtain rfl := hrest (by rw [hselect]; rfl)
  rw [List.append_nil, hselect] at heq
  obtain ⟨-, hreceived, -, -⟩ := Chan.of_recv hrecv
  unfold gotPayload
  split
  · next err hdecode =>
    refine ⟨h.processed, ⟨[.error err], ?_, nofun⟩, ?_⟩
    · rw [hreceived, List.map_append, heq, List.map_singleton, hdecode]
      rfl
    · rintro _ ⟨⟩
      exact Or.inl ⟨p, hreceived ▸ List.mem_append_right _ (List.mem_singleton_self p), hdecode⟩
  · next req hdecode =>
    refine ⟨h.processed, ⟨[], ?_, fun _ => rfl⟩, nofun⟩
    rw [hreceived, List.map_append, heq, List.map_singleton, hdecode]
    simp [ReaderStage.hand]

theorem Inlet.takeErr (h : x.Inlet) (hselect : x.reader = .select) {err : Option String}
    {c : Chan (Option String) 1} (hrecv : x.incomingErr.recv = some (err, c)) :
    (gotErr { x with incomingErr := c } err).Inlet := by
  obtain ⟨-, hreceived, -, -⟩ := Chan.of_recv hrecv
  cases err with
  | none => exact ⟨h.processed, h.inbound, fun err he => by rw [gotErr, hselect] at he; cases he⟩
  | some err =>
    refine ⟨h.processed, h.inbound.stop rfl rfl rfl rfl, ?_⟩
    rintro _ ⟨⟩
    exact Or.inr (hreceived ▸ List.mem_append_right _ (List.mem_singleton_self _))

theorem Inlet.send (h : x.Inlet) {req : RequestPayload} (hsending : x.reader = .sending req)
    {c : Chan RequestPayload 64} (hsend : x.requests.send req = some c) :
    Inlet { x with reader := .select, requests := c } := by
  obtain ⟨rest, heq, hrest⟩ := h.inbound
  obtain rfl := hrest (by rw [hsending]; rfl)
  obtain ⟨hsent, hreceived, -, -⟩ := Chan.of_send hsend
  refine ⟨h.processed.trans hreceived.symm, ⟨[], ?_, fun _ => rfl⟩, nofun⟩
  rw [heq, hsending, hsent]
  simp [ReaderStage.hand]

theorem Inlet.reader (h : x.Inlet) {e : ConnectionEvent} (hstep : x.ReaderStep e y) : y.Inlet := by
  cases e with
  | readerStop =>
    obtain ⟨-, -, rfl⟩ := hstep
    exact h.of_stop rfl rfl rfl rfl rfl rfl rfl nofun
  | readerEnd =>
    obtain ⟨-, -, -, rfl⟩ := hstep
    exact h.of_stop rfl rfl rfl rfl rfl rfl rfl nofun
  | take =>
    obtain ⟨hselect, -, p, c, hc, rfl⟩ := hstep
    exact h.take hselect hc
  | takeErr =>
    obtain ⟨hselect, -, err, c, hc, rfl⟩ := hstep
    exact h.takeErr hselect hc
  | takeEnd | takeErrEnd =>
    obtain ⟨-, -, -, rfl⟩ := hstep
    exact ⟨h.processed, h.inbound, h.cause⟩
  | send =>
    obtain ⟨req, c, hsending, hsend, rfl⟩ := hstep
    exact h.send hsending hsend
  | emitError =>
    obtain ⟨err, hfailing, ⟨-, rfl⟩ | ⟨-, rfl⟩⟩ := hstep
    · exact h.of_stop rfl rfl rfl rfl rfl rfl rfl nofun
    · refine h.of_stop rfl rfl rfl rfl rfl ?_ ?_ fun err' => ?_ <;> dsimp only <;> split_ifs
      · rfl
      · rfl
      · rfl
      · rfl
      · rw [hfailing]
        exact id
      · nofun
  | readerOffer =>
    obtain ⟨err, -, ⟨-, rfl⟩ | ⟨queue, -, rfl⟩⟩ := hstep
    · exact ⟨h.processed, h.inbound, h.cause⟩
    · exact h.of_stop rfl rfl rfl rfl rfl rfl rfl nofun
  | readerDrain =>
    obtain ⟨-, rfl⟩ := hstep
    refine h.of_stop rfl rfl rfl rfl rfl ?_ ?_ ?_ <;> dsimp only <;> split_ifs <;>
      first | rfl | nofun
  | readerFinish =>
    obtain ⟨-, rfl⟩ := hstep
    exact h.of_stop rfl rfl rfl rfl rfl rfl rfl nofun
  | readerComplete =>
    obtain ⟨stage, sink, next, -, -, rfl⟩ := hstep
    cases next with
    | none => exact h.of_stop rfl rfl rfl rfl rfl rfl rfl nofun
    | some stage => exact h.of_stop rfl rfl rfl rfl rfl rfl rfl nofun
  | _ => exact hstep.elim

theorem Inlet.congr (h : x.Inlet) (hincoming : y.incoming.received = x.incoming.received)
    (herr : y.incomingErr.received = x.incomingErr.received)
    (hreader : y.reader = x.reader) (hsent : y.requests.sent = x.requests.sent)
    (hprocessed : y.channel.processed = y.requests.received) : y.Inlet := by
  refine ⟨hprocessed, ?_, fun err he => ?_⟩
  · rw [Inbound, hincoming, hsent, hreader]
    exact h.inbound
  · rw [hreader] at he
    exact (h.cause err he).mono (hincoming ▸ List.prefix_rfl) (herr ▸ List.prefix_rfl)

theorem Inlet.channel (h : x.Inlet) {e : ConnectionEvent}
    (hstep : x.ChannelStep crc pb unmarshal e y) : y.Inlet := by
  obtain ⟨hreader, -, -, -, -, hincoming, herr, hsent, -⟩ := hstep.frame
  refine h.congr (by rw [hincoming]) (by rw [herr]) hreader hsent ?_
  cases e with
  | payload p =>
    obtain ⟨-, c, requests, hrecv, hstep, rfl⟩ := hstep
    exact hstep.log.1.trans
      ((congrArg (· ++ [p]) h.processed).trans (Chan.of_recv hrecv).2.1.symm)
  | endPayloads =>
    obtain ⟨-, -, c, hstep, rfl⟩ := hstep
    exact hstep.log.1.trans ((List.append_nil _).trans h.processed)
  | forward =>
    obtain ⟨-, c, hstep, rfl⟩ := hstep
    exact hstep.log.1.trans ((List.append_nil _).trans h.processed)
  | upload e =>
    obtain ⟨c, hstep, rfl⟩ := hstep
    exact hstep.log.1.trans ((List.append_nil _).trans h.processed)
  | push =>
    obtain ⟨resp, rest, c, -, -, rfl⟩ := hstep
    exact h.processed
  | closeOut =>
    obtain ⟨-, -, -, rfl⟩ := hstep
    exact h.processed
  | _ => exact hstep.elim

theorem Inlet.drained (h : x.Inlet) (writer : WriterStage) (sink : Sink TransportPayload) :
    Inlet { x with reader := x.reader.drained, writer, sink } := by
  cases hreader : x.reader with
  | draining | completing => exact h.of_stop rfl rfl rfl rfl rfl rfl rfl nofun
  | _ =>
    refine h.congr rfl rfl ?_ rfl h.processed
    rw [hreader]
    rfl

theorem Inlet.step (h : x.Inlet) {e : ConnectionEvent} (hstep : x.Step crc pb unmarshal e y) :
    y.Inlet := by
  obtain ⟨-, hstep | hstep | hstep | hstep | hstep⟩ := hstep
  · obtain ⟨hreader, hrequests, hchannel, -, -, -, -, -, hincoming, herr, -⟩ := hstep.frame
    refine h.congr hincoming herr hreader (by rw [hrequests]) ?_
    rw [hrequests, hchannel]
    exact h.processed
  · exact h.reader hstep
  · exact h.channel hstep
  · obtain ⟨hchannel, -, hrequests, hreader, hincoming, herr, -⟩ := hstep.frame
    refine h.congr (by rw [hincoming]) (by rw [herr]) hreader (by rw [hrequests]) ?_
    rw [hrequests, hchannel]
    exact h.processed
  · obtain ⟨reader, writer, sink, rfl, rfl | rfl, -⟩ := hstep.frame
    · exact ⟨h.processed, h.inbound, h.cause⟩
    · exact h.drained writer sink

/-- The requests are the payloads that were delivered first. -/
theorem Inlet.sent_prefix (h : x.Inlet) :
    x.requests.sent.map .ok <+: x.incoming.sent.map decodePayload := by
  obtain ⟨rest, heq, -⟩ := h.inbound
  refine List.IsPrefix.trans ?_ (x.incoming.received_prefix.map decodePayload)
  rw [heq, List.map_append, List.append_assoc]
  exact List.prefix_append _ _

theorem Inlet.sent_eq (h : x.Inlet) :
    x.requests.sent = x.channel.processed ++ x.requests.buffer := by
  rw [h.processed]
  rfl

/-- In every run, what the request channel takes and what waits for it are the payloads that were
delivered first, decoded, each once and in order. As long as the reader has not stopped, nothing
is left out. -/
theorem in_order {server : ErasureServer δ} {events : List ConnectionEvent}
    (h : Run (Step crc pb unmarshal) (new server) events x) :
    (x.channel.processed ++ x.requests.buffer).map .ok <+:
      x.incoming.sent.map decodePayload ∧
    (x.reader.reads = true → x.incoming.received.map decodePayload =
      (x.channel.processed ++ x.requests.buffer ++ x.reader.hand).map .ok) := by
  have hinlet : x.Inlet :=
    h.invariant (fun _ _ _ h hstep => h.step hstep) (inlet_new server)
  refine ⟨hinlet.sent_eq ▸ hinlet.sent_prefix, fun hreads => ?_⟩
  obtain ⟨rest, heq, hrest⟩ := hinlet.inbound
  rw [heq, hrest hreads, List.append_nil, hinlet.sent_eq]

/-- A payload of a meta type that is not known. -/
def unknownPayload : TransportPayload :=
  ⟨[], some (ascii "PING".toList)⟩

/-- The same, decoded. -/
def unknownRequest : RequestPayload :=
  ⟨.other "PING" (by decide), []⟩

/-- A server without a device. -/
def bareServer : ErasureServer Unit :=
  ⟨none, fun _ => none⟩

/-- A payload is passed on, and the next is not decoded. -/
theorem exists_run_bad_payload : ∃ x : Connection Unit,
    Run (Step crc32Update protobuf unmarshalRequest) (new bareServer)
      [.deliver unknownPayload, .take, .send, .deliver ⟨[], none⟩, .take] x ∧
    x.requests.buffer = [unknownRequest] ∧ x.reader = .failing missingMetadata :=
  ⟨_, .cons ⟨rfl, Or.inl ⟨_, rfl, rfl⟩⟩ <|
    .cons ⟨rfl, Or.inr (Or.inl ⟨rfl, rfl, _, _, rfl, rfl⟩)⟩ <|
    .cons ⟨rfl, Or.inr (Or.inl ⟨_, _, rfl, rfl, rfl⟩)⟩ <|
    .cons ⟨rfl, Or.inl ⟨_, rfl, rfl⟩⟩ <|
    .cons ⟨rfl, Or.inr (Or.inl ⟨rfl, rfl, _, _, rfl, rfl⟩)⟩ .nil, rfl, rfl⟩

theorem in_order_bad_payload : ∃ events, ∃ x : Connection Unit,
    Run (Step crc32Update protobuf unmarshalRequest) (new bareServer) events x ∧
    x.requests.buffer = [unknownRequest] ∧ x.reader = .failing missingMetadata ∧
    (x.channel.processed ++ x.requests.buffer).map .ok <+:
      x.incoming.sent.map decodePayload := by
  obtain ⟨x, hrun, hbuffer, hreader⟩ := exists_run_bad_payload
  exact ⟨_, x, hrun, hbuffer, hreader, (in_order hrun).1⟩

end Connection

end Corgi
