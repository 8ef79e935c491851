import Corgi.Emission
import Corgi.Service

/-!
# A connection whose transport is gone

When its context is cancelled, the goroutines of a connection come to an end by themselves, with
two exceptions. A request channel that has a response to send while 64 wait and the writer has
returned waits forever, and so does what its upload holds. The reader or the writer waits inside
the sink while its queue is full or, to complete it, not empty and nobody drains it. If the sink is
cancelled then, it waits forever : `Cancel` wakes nobody, and no more is taken out of the queue. A
reader that waits so does not close the requests, and the request channel does not end.

`Connection.hangup` : these are the only ways in which a goroutine is left, and they are never
undone.
-/

set_option linter.unusedSectionVars false

namespace Corgi

/-- The event is a step of a goroutine of the connection, or of one that drains its sink. -/
def ConnectionEvent.Own : ConnectionEvent → Prop
  | .deliver _ | .fault _ | .endIncoming | .endErr | .cancel | .cancelSink | .disposeSink
  | .request _ | .requestDrain => False
  | _ => True

/-- The call of the sink that the reader is in. -/
def ReaderStage.call : ReaderStage → Option SinkCall
  | .offering _ => some .offering
  | .draining => some .draining
  | .completing stage => some (.completing stage)
  | _ => none

/-- The call of the sink that the writer is in. -/
def WriterStage.call : WriterStage → Option SinkCall
  | .offering _ => some .offering
  | .draining => some .draining
  | .completing stage => some (.completing stage)
  | _ => none

theorem ReaderStage.call_drained (r : ReaderStage) :
    r.drained.call = r.call.bind SinkCall.drained := by
  cases r <;> rfl

theorem WriterStage.call_drained (w : WriterStage) :
    w.drained.call = w.call.bind SinkCall.drained := by
  cases w <;> rfl

namespace Connection

variable {crc : BitVec 32 → Bytes → BitVec 32} {pb : Protobuf}
  {unmarshal : Bytes → Except String PutInitRequest} {δ : Type} {x y : Connection δ}

/-- All goroutines have returned. -/
def Returned (x : Connection δ) : Prop :=
  x.reader = .returned ∧ x.writer = .returned ∧ x.channel.stage = .returned ∧ x.pending = [] ∧
    x.responses.closed = true

/-- The request channel has a response to send that nobody makes room for. -/
def Stuck (x : Connection δ) : Prop :=
  x.writer = .returned ∧ x.pending ≠ [] ∧ x.responses.buffer.length = 64

/-- The reader waits in the sink. -/
def ReaderBlocked (x : Connection δ) : Prop :=
  ∃ c, x.reader.call = some c ∧ c.Blocked x.sink

/-- The writer waits in the sink. -/
def WriterBlocked (x : Connection δ) : Prop :=
  ∃ c, x.writer.call = some c ∧ c.Blocked x.sink

/-- The reader or the writer waits in the sink, and nobody drains it. -/
def Starved (x : Connection δ) : Prop :=
  x.sink.draining = none ∧ (x.ReaderBlocked ∨ x.WriterBlocked)

/-! ## Who is inside `finishOnce` -/

/-- What holds in every state. -/
structure Alive (x : Connection δ) : Prop where
  running : x.once = .running → x.reader.inside = true ∨ x.writer.inside = true
  requests : x.requests.closed = true ↔ x.reader = .returned
  attended : ∀ c, x.reader.call = some c ∨ x.writer.call = some c → c.Attended x.sink

theorem alive_new (server : ErasureServer δ) : (new server).Alive :=
  ⟨nofun, ⟨nofun, nofun⟩, fun _ hc => hc.elim nofun nofun⟩

theorem Alive.open_of_ne (h : x.Alive) (hret : x.reader ≠ .returned) :
    x.requests.closed = false :=
  Bool.eq_false_iff.mpr fun hclosed => hret (h.requests.mp hclosed)

/-- Only the reader has moved, and not into a call of the sink. -/
theorem Alive.of_reading (h : x.Alive) (hx : x.reader.inside = false)
    (honce : y.once = x.once) (hwriter : y.writer = x.writer) (hsink : y.sink = x.sink)
    (hrequests : y.requests.closed = true ↔ y.reader = .returned) (hcall : y.reader.call = none) :
    y.Alive := by
  refine ⟨fun hrun => Or.inr ?_, hrequests, ?_⟩
  · rw [hwriter]
    exact (h.running (honce ▸ hrun)).resolve_left (by rw [hx]; nofun)
  · rw [hwriter, hsink, hcall]
    exact fun c hc => h.attended c (Or.inr (hc.resolve_left nofun))

/-- A step of a reader that is inside of `finishOnce` afterwards. -/
theorem Alive.of_inside (h : x.Alive) (hy : y.reader.inside = true) (hwriter : y.writer = x.writer)
    (hrequests : y.requests.closed = x.requests.closed) (hret : x.reader ≠ .returned)
    (hsink : ∀ c : SinkCall, c.Attended x.sink → c.Attended y.sink)
    (hcall : ∀ c, y.reader.call = some c → c.Attended y.sink) : y.Alive := by
  refine ⟨fun _ => Or.inl hy, ⟨fun hclosed => ?_, fun hr => ?_⟩, ?_⟩
  · exact absurd (h.requests.mp (hrequests ▸ hclosed)) hret
  · rw [hr] at hy
    cases hy
  · rw [hwriter]
    rintro c (hc | hc)
    · exact hcall c hc
    · exact hsink c (h.attended c (Or.inr hc))

theorem attended_complete {stage : CompleteStage} {next : Option CompleteStage}
    {sink : Sink TransportPayload} (h : x.sink.complete stage = some (sink, next)) (c : SinkCall)
    (hc : c.Attended x.sink) : c.Attended sink := by
  obtain ⟨-, hdraining, hbuffer⟩ := Sink.frame_complete h
  exact hc.of_prefix hdraining (hbuffer ▸ List.prefix_rfl)

theorem attended_send {v : TransportPayload} {queue : Chan TransportPayload 256}
    (h : x.sink.queue.send v = some queue) (c : SinkCall) (hc : c.Attended x.sink) :
    c.Attended { x.sink with queue } :=
  hc.of_prefix rfl ((Chan.of_send h).2.2.1 ▸ List.prefix_append _ _)

theorem Alive.readerStep (h : x.Alive) {e : ConnectionEvent} (hr : x.ReaderStep e y) :
    y.Alive := by
  cases e with
  | readerStop =>
    obtain ⟨hreader, -, rfl⟩ := hr
    refine h.of_reading ?_ rfl rfl rfl ⟨fun _ => rfl, fun _ => rfl⟩ rfl
    rcases hreader with ⟨hreader, -⟩ | ⟨req, hreader⟩ <;> rw [hreader] <;> rfl
  | readerEnd =>
    obtain ⟨hreader, -, -, rfl⟩ := hr
    exact h.of_reading (by rw [hreader]; rfl) rfl rfl rfl ⟨fun _ => rfl, fun _ => rfl⟩ rfl
  | take =>
    obtain ⟨hreader, -, p, c, -, rfl⟩ := hr
    have hopen := h.open_of_ne (by rw [hreader]; nofun)
    unfold gotPayload
    split <;> exact h.of_reading (by rw [hreader]; rfl) rfl rfl rfl
      ⟨fun hclosed => (nomatch hopen.symm.trans hclosed), nofun⟩ rfl
  | takeErr =>
    obtain ⟨hreader, -, err, c, -, rfl⟩ := hr
    have hopen := h.open_of_ne (by rw [hreader]; nofun)
    cases err with
    | none => exact ⟨h.running, h.requests, h.attended⟩
    | some err =>
      exact h.of_reading (by rw [hreader]; rfl) rfl rfl rfl
        ⟨fun hclosed => (nomatch hopen.symm.trans hclosed), nofun⟩ rfl
  | takeEnd | takeErrEnd =>
    obtain ⟨-, -, -, rfl⟩ := hr
    exact ⟨h.running, h.requests, h.attended⟩
  | send =>
    obtain ⟨req, c, hreader, hsend, rfl⟩ := hr
    have hopen := h.open_of_ne (by rw [hreader]; nofun)
    refine h.of_reading (by rw [hreader]; rfl) rfl rfl rfl ⟨fun hclosed => ?_, nofun⟩ rfl
    cases hopen.symm.trans ((Chan.of_send hsend).2.2.2.symm.trans hclosed)
  | emitError =>
    obtain ⟨err, hreader, ⟨hdone, rfl⟩ | ⟨-, rfl⟩⟩ := hr
    · exact h.of_reading (by rw [hreader]; rfl) rfl rfl rfl ⟨fun _ => rfl, fun _ => rfl⟩ rfl
    · refine h.of_inside ?_ rfl rfl (by rw [hreader]; nofun) (fun _ => id) fun c hc => ?_
      · dsimp only
        split_ifs <;> rfl
      · dsimp only at hc
        split_ifs at hc <;> cases hc
        trivial
  | readerOffer =>
    obtain ⟨err, hreader, ⟨-, rfl⟩ | ⟨queue, hqueue, rfl⟩⟩ := hr
    · exact ⟨h.running, h.requests, h.attended⟩
    · exact h.of_inside rfl rfl rfl (by rw [hreader]; nofun) (attended_send hqueue) nofun
  | readerDrain =>
    obtain ⟨hreader, rfl⟩ := hr
    refine h.of_inside ?_ rfl rfl (by rw [hreader]; nofun)
      (fun _ _ => SinkCall.attended_of_draining x.sink.draining_enter)
      fun _ _ => SinkCall.attended_of_draining x.sink.draining_enter
    dsimp only
    split_ifs <;> rfl
  | readerFinish =>
    obtain ⟨hreader, rfl⟩ := hr
    refine h.of_inside rfl rfl rfl (by rw [hreader]; nofun) (fun _ => id) ?_
    rintro _ ⟨⟩
    trivial
  | readerComplete =>
    obtain ⟨stage, sink, next, hreader, hcomplete, rfl⟩ := hr
    cases next with
    | none =>
      exact ⟨nofun, ⟨fun _ => rfl, fun _ => rfl⟩, fun c hc =>
        attended_complete hcomplete c (h.attended c (Or.inr (hc.resolve_left nofun)))⟩
    | some stage' =>
      refine h.of_inside rfl rfl rfl (by rw [hreader]; nofun) (attended_complete hcomplete) ?_
      rintro _ ⟨⟩
      exact SinkCall.attended_of_complete hcomplete
  | _ => exact hr.elim

theorem ChannelStep.requests_closed {e : ConnectionEvent}
    (h : x.ChannelStep crc pb unmarshal e y) : y.requests.closed = x.requests.closed := by
  cases e with
  | payload p =>
    obtain ⟨-, c, requests, hrecv, -, rfl⟩ := h
    exact (Chan.of_recv hrecv).2.2.2
  | endPayloads =>
    obtain ⟨-, -, c, -, rfl⟩ := h
    rfl
  | forward =>
    obtain ⟨-, c, -, rfl⟩ := h
    rfl
  | upload e =>
    obtain ⟨c, -, rfl⟩ := h
    rfl
  | push =>
    obtain ⟨resp, rest, c, -, -, rfl⟩ := h
    rfl
  | closeOut =>
    obtain ⟨-, -, -, rfl⟩ := h
    rfl
  | _ => exact h.elim

theorem ChannelStep.requests_nil {e : ConnectionEvent} (h : x.ChannelStep crc pb unmarshal e y)
    (hnil : x.requests.buffer = []) : y.requests.buffer = [] := by
  cases e with
  | payload p =>
    obtain ⟨-, c, requests, hrecv, -, -⟩ := h
    cases hnil.symm.trans (Chan.of_recv hrecv).2.2.1
  | endPayloads =>
    obtain ⟨-, -, c, -, rfl⟩ := h
    exact hnil
  | forward =>
    obtain ⟨-, c, -, rfl⟩ := h
    exact hnil
  | upload e =>
    obtain ⟨c, -, rfl⟩ := h
    exact hnil
  | push =>
    obtain ⟨resp, rest, c, -, -, rfl⟩ := h
    exact hnil
  | closeOut =>
    obtain ⟨-, -, -, rfl⟩ := h
    exact hnil
  | _ => exact h.elim

/-- Only the writer has moved. -/
theorem Alive.of_writing (h : x.Alive) {writer : WriterStage} {once : Once} {finished : Bool}
    {responses : Chan ResponsePayload 64} {sink : Sink TransportPayload}
    (hin : once = .running → x.once = .running ∧ x.writer.inside = false ∨ writer.inside = true)
    (hsink : ∀ c : SinkCall, c.Attended x.sink → c.Attended sink)
    (hcall : ∀ c, writer.call = some c → c.Attended sink) :
    Alive { x with writer, once, finished, responses, sink } := by
  refine ⟨fun honce => ?_, h.requests, ?_⟩
  · rcases hin honce with ⟨hrun, hout⟩ | hin
    · exact Or.inl ((h.running hrun).resolve_right (by rw [hout]; nofun))
    · exact Or.inr hin
  · rintro c (hc | hc)
    · exact hsink c (h.attended c (Or.inl hc))
    · exact hcall c hc

theorem Alive.writerStep (h : x.Alive) {e : ConnectionEvent} (hw : x.WriterStep e y) :
    y.Alive := by
  -- a writer outside of `finishOnce`
  have hout : ∀ {w : WriterStage} {P : Prop}, x.writer = w → w.inside = false →
      x.once = .running → x.once = .running ∧ x.writer.inside = false ∨ P :=
    fun hwriter hin honce => Or.inl ⟨honce, by rw [hwriter, hin]⟩
  cases e with
  | writerStop =>
    obtain ⟨hwriter, -, rfl⟩ := hw
    exact h.of_writing (hout hwriter rfl) (fun _ => id) nofun
  | receive =>
    obtain ⟨hwriter, resp, c, -, rfl⟩ := hw
    exact h.of_writing (hout hwriter rfl) (fun _ => id) nofun
  | receiveEnd =>
    obtain ⟨hwriter, -, rfl⟩ := hw
    exact h.of_writing (hout hwriter rfl) (fun _ => id) nofun
  | check =>
    obtain ⟨resp, hwriter, rfl⟩ := hw
    refine h.of_writing (hout hwriter rfl) (fun _ => id) fun c hc => ?_
    split_ifs at hc <;> cases hc
    trivial
  | offer =>
    obtain ⟨resp, hwriter, ⟨-, rfl⟩ | ⟨queue, hqueue, rfl⟩⟩ := hw
    · exact ⟨h.running, h.requests, h.attended⟩
    · exact h.of_writing (hout hwriter rfl) (attended_send hqueue) nofun
  | writerDrain =>
    obtain ⟨hwriter, rfl⟩ := hw
    exact h.of_writing (hout hwriter rfl)
      (fun _ _ => SinkCall.attended_of_draining x.sink.draining_enter)
      fun _ _ => SinkCall.attended_of_draining x.sink.draining_enter
  | writerFinish =>
    obtain ⟨hwriter, ⟨-, rfl⟩ | ⟨-, rfl⟩⟩ := hw
    · exact h.of_writing (hout hwriter rfl) (fun _ => id) nofun
    · refine h.of_writing (fun _ => Or.inr rfl) (fun _ => id) ?_
      rintro _ ⟨⟩
      trivial
  | writerComplete =>
    obtain ⟨stage, sink, next, hwriter, hcomplete, rfl⟩ := hw
    cases next with
    | none => exact h.of_writing nofun (attended_complete hcomplete) nofun
    | some stage' =>
      refine h.of_writing (fun _ => Or.inr rfl) (attended_complete hcomplete) ?_
      rintro _ ⟨⟩
      exact SinkCall.attended_of_complete hcomplete
  | _ => exact hw.elim

theorem TransportStep.attended {e : ConnectionEvent} (h : x.TransportStep e y) {c : SinkCall}
    (hc : c.Attended x.sink) : c.Attended y.sink := by
  cases e with
  | deliver | fault =>
    obtain ⟨c, -, rfl⟩ := h
    exact hc
  | endIncoming | endErr | cancel =>
    obtain rfl := h
    exact hc
  | request k =>
    obtain rfl := h
    exact hc.of_prefix rfl List.prefix_rfl
  | cancelSink | disposeSink =>
    obtain ⟨-, rfl⟩ := h
    exact hc.of_prefix rfl List.prefix_rfl
  | requestDrain =>
    obtain ⟨requested, -, rfl⟩ := h
    exact SinkCall.attended_of_draining (Sink.draining_enter _)
  | _ => exact h.elim

theorem Alive.drainStep (h : x.Alive) {e : ConnectionEvent} (hd : x.DrainStep e y) : y.Alive := by
  cases e with
  | drain =>
    obtain ⟨stage, -, hne, rfl⟩ := hd
    obtain ⟨next, hnext⟩ := x.sink.draining_drain hne
    exact ⟨h.running, h.requests, fun _ _ =>
      SinkCall.attended_of_draining (by rw [hnext]; nofun)⟩
  | leave =>
    obtain ⟨-, -, rfl⟩ := hd
    refine ⟨fun honce => ?_, ?_, fun c hc => ?_⟩
    · rw [leave, ReaderStage.inside_drained, WriterStage.inside_drained]
      exact h.running honce
    · rw [leave, h.requests]
      cases hreader : x.reader <;> simp [ReaderStage.drained]
    · rw [leave, ReaderStage.call_drained, WriterStage.call_drained] at hc
      rcases hc with hc | hc <;> obtain ⟨c', -, hc⟩ := Option.bind_eq_some_iff.mp hc <;>
        exact SinkCall.attended_of_drained hc
  | _ => exact hd.elim

theorem Alive.step (h : x.Alive) {e : ConnectionEvent} (hstep : x.Step crc pb unmarshal e y) :
    y.Alive := by
  obtain ⟨-, ht | hr | hc | hw | hd⟩ := hstep
  · obtain ⟨hreader, hrequests, -, -, -, hwriter, honce, -⟩ := ht.frame
    refine ⟨?_, ?_, ?_⟩
    · rw [hreader, hwriter, honce]
      exact h.running
    · rw [hreader, hrequests]
      exact h.requests
    · rw [hreader, hwriter]
      exact fun c hc => ht.attended (h.attended c hc)
  · exact h.readerStep hr
  · obtain ⟨hreader, hwriter, honce, hsink, -⟩ := hc.frame
    refine ⟨?_, ?_, ?_⟩
    · rw [hreader, hwriter, honce]
      exact h.running
    · rw [hreader, hc.requests_closed]
      exact h.requests
    · rw [hreader, hwriter, hsink]
      exact h.attended
  · exact h.writerStep hw
  · exact h.drainStep hd

/-! ## A response that nobody makes room for -/

theorem Stuck.step (h : x.Stuck) {e : ConnectionEvent} (hstep : x.Step crc pb unmarshal e y) :
    y.Stuck ∧ y.channel.stage = x.channel.stage ∧ y.pending = x.pending := by
  obtain ⟨hwriter, hpending, hfull⟩ := h
  obtain ⟨-, ht | hr | hc | hw | hd⟩ := hstep
  · obtain ⟨-, -, hchannel, hp, hresponses, hw, -⟩ := ht.frame
    rw [Stuck, hchannel, hp, hresponses, hw]
    exact ⟨⟨hwriter, hpending, hfull⟩, rfl, rfl⟩
  · obtain ⟨hchannel, hp, hresponses, hw, -⟩ := hr.frame
    rw [Stuck, hchannel, hp, hresponses, hw]
    exact ⟨⟨hwriter, hpending, hfull⟩, rfl, rfl⟩
  · cases e with
    | payload p => exact absurd hc.1 hpending
    | endPayloads => exact absurd hc.1 hpending
    | forward => exact absurd hc.1 hpending
    | upload e =>
      obtain ⟨c, ⟨-, _, _, _, -, -, rfl⟩, rfl⟩ := hc
      exact ⟨⟨hwriter, hpending, hfull⟩, rfl, rfl⟩
    | push =>
      obtain ⟨resp, rest, c, -, hsend, -⟩ := hc
      cases hsend.symm.trans (Chan.send_eq_none_iff.mpr (Or.inr hfull))
    | closeOut => exact absurd hc.2.1 hpending
    | _ => exact hc.elim
  · cases e with
    | writerStop | receive | receiveEnd | writerDrain | writerFinish =>
      cases hwriter.symm.trans hw.1
    | check | offer =>
      obtain ⟨resp, hw, -⟩ := hw
      cases hwriter.symm.trans hw
    | writerComplete =>
      obtain ⟨stage, sink, next, hw, -⟩ := hw
      cases hwriter.symm.trans hw
    | _ => exact hw.elim
  · obtain ⟨reader, writer, sink, rfl, -, hw, -⟩ := hd.frame
    refine ⟨⟨?_, hpending, hfull⟩, rfl, rfl⟩
    rcases hw with rfl | rfl
    · exact hwriter
    · rw [hwriter]
      rfl

/-! ## A queue that nobody empties -/

theorem ReaderStep.sink {e : ConnectionEvent} (h : x.ReaderStep e y) :
    y.sink = x.sink ∨ x.sink.Step y.sink := by
  cases e with
  | readerStop =>
    obtain ⟨-, -, rfl⟩ := h
    exact Or.inl rfl
  | readerEnd | takeEnd | takeErrEnd =>
    obtain ⟨-, -, -, rfl⟩ := h
    exact Or.inl rfl
  | take =>
    obtain ⟨-, -, p, c, -, rfl⟩ := h
    rw [gotPayload_eq]
    exact Or.inl rfl
  | takeErr =>
    obtain ⟨-, -, err, c, -, rfl⟩ := h
    rw [gotErr_eq]
    exact Or.inl rfl
  | send =>
    obtain ⟨req, c, -, -, rfl⟩ := h
    exact Or.inl rfl
  | emitError =>
    obtain ⟨err, -, ⟨-, rfl⟩ | ⟨-, rfl⟩⟩ := h
    · exact Or.inl rfl
    · exact Or.inl rfl
  | readerOffer =>
    obtain ⟨err, -, ⟨-, rfl⟩ | ⟨queue, hsend, rfl⟩⟩ := h
    · exact Or.inl rfl
    · exact Or.inr (.offer hsend)
  | readerDrain =>
    obtain ⟨-, rfl⟩ := h
    exact Or.inr .enter
  | readerFinish =>
    obtain ⟨-, rfl⟩ := h
    exact Or.inl rfl
  | readerComplete =>
    obtain ⟨stage, sink, next, -, hcomplete, rfl⟩ := h
    cases next <;> exact Or.inr (.complete hcomplete)
  | _ => exact h.elim

theorem WriterStep.sink {e : ConnectionEvent} (h : x.WriterStep e y) :
    y.sink = x.sink ∨ x.sink.Step y.sink := by
  cases e with
  | writerStop | receiveEnd =>
    obtain ⟨-, -, rfl⟩ := h
    exact Or.inl rfl
  | receive =>
    obtain ⟨-, resp, c, -, rfl⟩ := h
    exact Or.inl rfl
  | check =>
    obtain ⟨resp, -, rfl⟩ := h
    exact Or.inl rfl
  | offer =>
    obtain ⟨resp, -, ⟨-, rfl⟩ | ⟨queue, hsend, rfl⟩⟩ := h
    · exact Or.inl rfl
    · exact Or.inr (.offer hsend)
  | writerDrain =>
    obtain ⟨-, rfl⟩ := h
    exact Or.inr .enter
  | writerFinish =>
    obtain ⟨-, ⟨-, rfl⟩ | ⟨-, rfl⟩⟩ := h
    · exact Or.inl rfl
    · exact Or.inl rfl
  | writerComplete =>
    obtain ⟨stage, sink, next, -, hcomplete, rfl⟩ := h
    cases next <;> exact Or.inr (.complete hcomplete)
  | _ => exact h.elim

theorem TransportStep.sink {e : ConnectionEvent} (h : x.TransportStep e y) :
    y.sink = x.sink ∨ x.sink.Step y.sink := by
  cases e with
  | deliver | fault =>
    obtain ⟨c, -, rfl⟩ := h
    exact Or.inl rfl
  | endIncoming | endErr | cancel =>
    obtain rfl := h
    exact Or.inl rfl
  | request k =>
    obtain rfl := h
    exact Or.inr (.request k)
  | cancelSink =>
    obtain ⟨hopen, rfl⟩ := h
    exact Or.inr (.cancel hopen)
  | disposeSink =>
    obtain ⟨hcancelled, rfl⟩ := h
    exact Or.inr (.dispose hcancelled)
  | requestDrain =>
    obtain ⟨requested, -, rfl⟩ := h
    exact Or.inr (.requestDrain requested)
  | _ => exact h.elim

/-- A step of a connection leaves the sink alone, or is one of it. -/
theorem Step.sink {e : ConnectionEvent} (h : x.Step crc pb unmarshal e y) :
    y.sink = x.sink ∨ x.sink.Step y.sink := by
  obtain ⟨-, ht | hr | hc | hw | hd⟩ := h
  · exact ht.sink
  · exact hr.sink
  · exact Or.inl hc.frame.2.2.2.1
  · exact hw.sink
  · cases e with
    | drain =>
      obtain ⟨stage, hstage, -, rfl⟩ := hd
      exact Or.inr (.drain hstage)
    | leave =>
      obtain ⟨hleaving, -, rfl⟩ := hd
      exact Or.inr (.drain hleaving)
    | _ => exact hd.elim

theorem shut_step (h : x.sink.Shut) {e : ConnectionEvent} (hstep : x.Step crc pb unmarshal e y) :
    y.sink.Shut ∧ x.sink.queue.buffer <+: y.sink.queue.buffer := by
  rcases hstep.sink with hsame | hstep
  · rw [hsame]
    exact ⟨h, List.prefix_rfl⟩
  · exact h.step hstep

/-- A reader that waits in a sink that is not open keeps waiting, and sends no request. -/
theorem ReaderBlocked.step (h : x.ReaderBlocked) (hshut : x.sink.Shut) {e : ConnectionEvent}
    (hstep : x.Step crc pb unmarshal e y) : y.ReaderBlocked ∧
      (x.requests.buffer = [] → y.requests.buffer = []) := by
  obtain ⟨c, hcall, hblocked⟩ := h
  have hblocked' := hblocked.of_prefix (shut_step hshut hstep).2
  obtain ⟨-, ht | hr | hc | hw | hd⟩ := hstep
  · obtain ⟨hreader, hrequests, -⟩ := ht.frame
    exact ⟨⟨c, by rw [hreader]; exact hcall, hblocked'⟩, by rw [hrequests]; exact id⟩
  · cases e with
    | readerOffer =>
      obtain ⟨err, hreader, ⟨-, rfl⟩ | ⟨queue, hsend, -⟩⟩ := hr
      · exact ⟨⟨c, hcall, hblocked'⟩, id⟩
      · rw [hreader] at hcall
        cases hcall
        cases hsend.symm.trans (Chan.send_eq_none_iff.mpr (Or.inr hblocked))
    | readerComplete =>
      obtain ⟨stage, sink, next, hreader, hcomplete, rfl⟩ := hr
      rw [hreader] at hcall
      cases hcall
      obtain ⟨stage', rfl, hblocked⟩ := hblocked.complete hcomplete
      exact ⟨⟨_, rfl, hblocked⟩, id⟩
    | readerStop =>
      obtain ⟨⟨hreader, -⟩ | ⟨req, hreader⟩, -⟩ := hr <;> rw [hreader] at hcall <;> cases hcall
    | readerEnd | take | takeEnd | takeErr | takeErrEnd | readerDrain | readerFinish =>
      rw [hr.1] at hcall
      cases hcall
    | send =>
      obtain ⟨req, c, hreader, -⟩ := hr
      rw [hreader] at hcall
      cases hcall
    | emitError =>
      obtain ⟨err, hreader, -⟩ := hr
      rw [hreader] at hcall
      cases hcall
    | _ => exact hr.elim
  · obtain ⟨hreader, -⟩ := hc.frame
    exact ⟨⟨c, by rw [hreader]; exact hcall, hblocked'⟩, hc.requests_nil⟩
  · obtain ⟨-, -, hrequests, hreader, -⟩ := hw.frame
    exact ⟨⟨c, by rw [hreader]; exact hcall, hblocked'⟩, by rw [hrequests]; exact id⟩
  · obtain ⟨reader, writer, sink, rfl, rfl | rfl, -⟩ := hd.frame
    · exact ⟨⟨c, hcall, hblocked'⟩, id⟩
    · obtain ⟨c', hdrained, hblocked'⟩ := hblocked'.drained
      refine ⟨⟨c', ?_, hblocked'⟩, id⟩
      rw [ReaderStage.call_drained, hcall]
      exact hdrained

/-- So does the writer. -/
theorem WriterBlocked.step (h : x.WriterBlocked) (hshut : x.sink.Shut) {e : ConnectionEvent}
    (hstep : x.Step crc pb unmarshal e y) : y.WriterBlocked := by
  obtain ⟨c, hcall, hblocked⟩ := h
  have hblocked' := hblocked.of_prefix (shut_step hshut hstep).2
  obtain ⟨-, ht | hr | hc | hw | hd⟩ := hstep
  · obtain ⟨-, -, -, -, -, hwriter, -⟩ := ht.frame
    exact ⟨c, by rw [hwriter]; exact hcall, hblocked'⟩
  · obtain ⟨-, -, -, hwriter, -⟩ := hr.frame
    exact ⟨c, by rw [hwriter]; exact hcall, hblocked'⟩
  · obtain ⟨-, hwriter, -⟩ := hc.frame
    exact ⟨c, by rw [hwriter]; exact hcall, hblocked'⟩
  · cases e with
    | offer =>
      obtain ⟨resp, hwriter, ⟨-, rfl⟩ | ⟨queue, hsend, -⟩⟩ := hw
      · exact ⟨c, hcall, hblocked'⟩
      · rw [hwriter] at hcall
        cases hcall
        cases hsend.symm.trans (Chan.send_eq_none_iff.mpr (Or.inr hblocked))
    | writerComplete =>
      obtain ⟨stage, sink, next, hwriter, hcomplete, rfl⟩ := hw
      rw [hwriter] at hcall
      cases hcall
      obtain ⟨stage', rfl, hblocked⟩ := hblocked.complete hcomplete
      exact ⟨_, rfl, hblocked⟩
    | writerStop | receive | receiveEnd | writerDrain | writerFinish =>
      rw [hw.1] at hcall
      cases hcall
    | check =>
      obtain ⟨resp, hwriter, -⟩ := hw
      rw [hwriter] at hcall
      cases hcall
    | _ => exact hw.elim
  · obtain ⟨reader, writer, sink, rfl, -, rfl | rfl, -⟩ := hd.frame
    · exact ⟨c, hcall, hblocked'⟩
    · obtain ⟨c', hdrained, hblocked'⟩ := hblocked'.drained
      refine ⟨c', ?_, hblocked'⟩
      rw [WriterStage.call_drained, hcall]
      exact hdrained

/-- The request channel waits for a request. -/
def Idle (x : Connection δ) : Prop :=
  (x.channel.stage = .first ∨ x.channel.stage = .ready) ∧ x.requests.buffer = []

/-- A request channel that waits for a request keeps waiting while nobody sends one or closes
them. -/
theorem Idle.step (h : x.Idle) (hopen : x.requests.closed = false)
    (hsend : x.requests.buffer = [] → y.requests.buffer = []) {e : ConnectionEvent}
    (hstep : x.Step crc pb unmarshal e y) : y.Idle ∧ y.channel.stage = x.channel.stage := by
  obtain ⟨hstage, hnil⟩ := h
  suffices hsame : y.channel.stage = x.channel.stage from
    ⟨⟨by rw [hsame]; exact hstage, hsend hnil⟩, hsame⟩
  obtain ⟨-, ht | hr | hc | hw | hd⟩ := hstep
  · rw [ht.frame.2.2.1]
  · rw [hr.frame.1]
  · cases e with
    | payload p =>
      obtain ⟨-, c, requests, hrecv, -⟩ := hc
      cases hnil.symm.trans (Chan.of_recv hrecv).2.2.1
    | endPayloads =>
      obtain ⟨-, ⟨hclosed, -⟩, -⟩ := hc
      cases hopen.symm.trans hclosed
    | forward =>
      obtain ⟨-, c, ⟨_, _, _, _, -, hwaiting, -, -⟩, -⟩ := hc
      rcases hstage with hstage | hstage <;> cases hstage.symm.trans hwaiting
    | upload e =>
      obtain ⟨c, ⟨-, _, _, _, -, -, rfl⟩, rfl⟩ := hc
      rfl
    | push =>
      obtain ⟨resp, rest, c, -, -, rfl⟩ := hc
      rfl
    | closeOut =>
      obtain ⟨-, -, -, rfl⟩ := hc
      rfl
    | _ => exact hc.elim
  · rw [hw.frame.1]
  · obtain ⟨reader, writer, sink, rfl, -⟩ := hd.frame
    rfl

/-! ## Otherwise there is a step -/

/-- A goroutine of the connection can take a step. -/
def Moves (crc : BitVec 32 → Bytes → BitVec 32) (pb : Protobuf)
    (unmarshal : Bytes → Except String PutInitRequest) (x : Connection δ) : Prop :=
  ∃ e y, e.Own ∧ x.Step crc pb unmarshal e y

theorem moves_of_reader (hp : x.panicked = false) {e : ConnectionEvent} (he : e.Own)
    (h : x.ReaderStep e y) : x.Moves crc pb unmarshal :=
  ⟨e, y, he, hp, Or.inr (Or.inl h)⟩

theorem moves_of_channel (hp : x.panicked = false) {e : ConnectionEvent} (he : e.Own)
    (h : x.ChannelStep crc pb unmarshal e y) : x.Moves crc pb unmarshal :=
  ⟨e, y, he, hp, Or.inr (Or.inr (Or.inl h))⟩

theorem moves_of_writer (hp : x.panicked = false) {e : ConnectionEvent} (he : e.Own)
    (h : x.WriterStep e y) : x.Moves crc pb unmarshal :=
  ⟨e, y, he, hp, Or.inr (Or.inr (Or.inr (Or.inl h)))⟩

/-- Whoever drains can take a step, or the one that holds the lock. -/
theorem moves_of_draining (hp : x.panicked = false) {stage : DrainStage TransportPayload}
    (h : x.sink.draining = some stage) : x.Moves crc pb unmarshal := by
  by_cases hleaving : stage = .leaving
  · subst hleaving
    by_cases hlock : x.Locked
    · rcases hlock with hreader | hwriter
      · exact moves_of_reader hp (e := .readerComplete) trivial ⟨_, _, _, hreader, rfl, rfl⟩
      · exact moves_of_writer hp (e := .writerComplete) trivial ⟨_, _, _, hwriter, rfl, rfl⟩
    · exact ⟨.leave, _, trivial, step_leave hp h hlock⟩
  · exact ⟨.drain, _, trivial, step_drain stage hp h hleaving rfl⟩

/-- A reader that has an error to put into the queue does so, unless the queue is full. -/
theorem moves_of_readerOffer (hp : x.panicked = false) (hdraining : x.sink.draining = none)
    {err : String} (hreader : x.reader = .offering err) :
    x.Moves crc pb unmarshal ∨ x.Starved := by
  cases hsend : x.sink.queue.send (encodePayload .error (some err)) with
  | some queue =>
    exact Or.inl (moves_of_reader hp (e := .readerOffer) trivial
      ⟨err, hreader, Or.inr ⟨queue, hsend, rfl⟩⟩)
  | none =>
    rcases Chan.send_eq_none_iff.mp hsend with hclosed | hfull
    · exact Or.inl (moves_of_reader hp (e := .readerOffer) trivial
        ⟨err, hreader, Or.inl ⟨hclosed, rfl⟩⟩)
    · exact Or.inr ⟨hdraining, Or.inl ⟨.offering, by rw [hreader]; rfl, hfull⟩⟩

theorem moves_of_offer (hp : x.panicked = false) (hdraining : x.sink.draining = none)
    {resp : ResponsePayload} (hwriter : x.writer = .offering resp) :
    x.Moves crc pb unmarshal ∨ x.Starved := by
  cases hsend : x.sink.queue.send resp.encode with
  | some queue =>
    exact Or.inl (moves_of_writer hp (e := .offer) trivial
      ⟨resp, hwriter, Or.inr ⟨queue, hsend, rfl⟩⟩)
  | none =>
    rcases Chan.send_eq_none_iff.mp hsend with hclosed | hfull
    · exact Or.inl (moves_of_writer hp (e := .offer) trivial
        ⟨resp, hwriter, Or.inl ⟨hclosed, rfl⟩⟩)
    · exact Or.inr ⟨hdraining, Or.inr ⟨.offering, by rw [hwriter]; rfl, hfull⟩⟩

/-- Whoever is inside `finishOnce` can take a step, unless it waits in the sink. -/
theorem Alive.moves_of_running (h : x.Alive) (hp : x.panicked = false)
    (hdraining : x.sink.draining = none) (honce : x.once = .running) :
    x.Moves crc pb unmarshal ∨ x.Starved := by
  -- nobody is going to wake the one that waits, so the queue is not empty
  have hwaits : ∀ {stage}, x.sink.complete stage = none →
      x.reader.call = some (.completing stage) ∨ x.writer.call = some (.completing stage) →
      SinkCall.Blocked x.sink (.completing stage) := by
    intro stage hnone hcall
    obtain rfl := Sink.complete_eq_none_iff.mp hnone
    exact ⟨rfl, (h.attended _ hcall).resolve_left fun hne => hne hdraining⟩
  rcases h.running honce with hin | hin
  · cases hreader : x.reader with
    | offering err => exact moves_of_readerOffer hp hdraining hreader
    | offered => exact Or.inl (moves_of_reader hp (e := .readerDrain) trivial ⟨hreader, rfl⟩)
    | draining => exact absurd hdraining (h.attended .draining (Or.inl (by rw [hreader]; rfl)))
    | emitted => exact Or.inl (moves_of_reader hp (e := .readerFinish) trivial ⟨hreader, rfl⟩)
    | completing stage =>
      cases hcomplete : x.sink.complete stage with
      | some p =>
        exact Or.inl (moves_of_reader hp (e := .readerComplete) trivial
          ⟨stage, p.1, p.2, hreader, hcomplete, rfl⟩)
      | none =>
        have hcall : x.reader.call = some (.completing stage) := by rw [hreader]; rfl
        exact Or.inr ⟨hdraining, Or.inl ⟨_, hcall, hwaits hcomplete (Or.inl hcall)⟩⟩
    | select | sending | failing | returned =>
      rw [hreader] at hin
      cases hin
  · cases hwriter : x.writer with
    | completing stage =>
      cases hcomplete : x.sink.complete stage with
      | some p =>
        exact Or.inl (moves_of_writer hp (e := .writerComplete) trivial
          ⟨stage, p.1, p.2, hwriter, hcomplete, rfl⟩)
      | none =>
        have hcall : x.writer.call = some (.completing stage) := by rw [hwriter]; rfl
        exact Or.inr ⟨hdraining, Or.inr ⟨_, hcall, hwaits hcomplete (Or.inr hcall)⟩⟩
    | select | received | offering | offered | draining | ending | returned =>
      rw [hwriter] at hin
      cases hin

theorem exists_reader_step (h : x.Alive) (ho : x.Outlet) (hp : x.panicked = false)
    (hdraining : x.sink.draining = none) (hdone : x.ctxDone = true)
    (hreader : x.reader ≠ .returned) : x.Moves crc pb unmarshal ∨ x.Starved := by
  by_cases honce : x.once = .running
  · exact h.moves_of_running hp hdraining honce
  cases hr : x.reader with
  | select =>
    by_cases hl : x.listens = true ∨ x.listensErr = true
    · exact Or.inl (moves_of_reader hp (e := .readerStop) trivial
        ⟨Or.inl ⟨hr, hl⟩, Or.inl hdone, rfl⟩)
    · rw [not_or, Bool.not_eq_true, Bool.not_eq_true] at hl
      exact Or.inl (moves_of_reader hp (e := .readerEnd) trivial ⟨hr, hl.1, hl.2, rfl⟩)
  | sending req =>
    exact Or.inl (moves_of_reader hp (e := .readerStop) trivial
      ⟨Or.inr ⟨req, hr⟩, Or.inl hdone, rfl⟩)
  | failing err =>
    cases hon : x.once with
    | running => exact absurd hon honce
    | unused =>
      exact Or.inl (moves_of_reader hp (e := .emitError) trivial ⟨err, hr, Or.inr ⟨hon, rfl⟩⟩)
    | done =>
      exact Or.inl (moves_of_reader hp (e := .emitError) trivial ⟨err, hr, Or.inl ⟨hon, rfl⟩⟩)
  | offering | offered | draining | emitted | completing =>
    exact absurd (ho.inside (Or.inl (by rw [hr]; rfl))) honce
  | returned => exact absurd hr hreader

theorem exists_writer_step (h : x.Alive) (ho : x.Outlet) (hp : x.panicked = false)
    (hdraining : x.sink.draining = none) (hdone : x.ctxDone = true)
    (hwriter : x.writer ≠ .returned) : x.Moves crc pb unmarshal ∨ x.Starved := by
  by_cases honce : x.once = .running
  · exact h.moves_of_running hp hdraining honce
  cases hw : x.writer with
  | select =>
    exact Or.inl (moves_of_writer hp (e := .writerStop) trivial ⟨hw, Or.inl hdone, rfl⟩)
  | received resp => exact Or.inl (moves_of_writer hp (e := .check) trivial ⟨resp, hw, rfl⟩)
  | offering resp => exact moves_of_offer hp hdraining hw
  | offered => exact Or.inl (moves_of_writer hp (e := .writerDrain) trivial ⟨hw, rfl⟩)
  | draining => exact absurd hdraining (h.attended .draining (Or.inr (by rw [hw]; rfl)))
  | ending =>
    cases hon : x.once with
    | running => exact absurd hon honce
    | unused =>
      exact Or.inl (moves_of_writer hp (e := .writerFinish) trivial ⟨hw, Or.inr ⟨hon, rfl⟩⟩)
    | done =>
      exact Or.inl (moves_of_writer hp (e := .writerFinish) trivial ⟨hw, Or.inl ⟨hon, rfl⟩⟩)
  | completing => exact absurd (ho.inside (Or.inr (by rw [hw]; rfl))) honce
  | returned => exact absurd hw hwriter

/-- A handler that is at work can take a step. -/
theorem exists_upload_step {u : Upload} (h : u.Stage) (hbusy : u.task ≠ .idle) :
    ∃ e u', (∀ c, e ≠ .call c) ∧ Upload.Step crc pb u e u' := by
  obtain ⟨e, u', -, -, -, hcall, hstep, -⟩ := @Server.exists_effect crc pb (fun _ => none)
    ⟨freeDevice 1, fun _ => 0#8, emptyDB, []⟩ u h hbusy
  exact ⟨e, u', hcall, hstep⟩

/-- A request channel whose requests are closed can take a step, unless it has returned. -/
theorem exists_channel_step (hphase : x.channel.Phase unmarshal) (hp : x.panicked = false)
    (hclosed : x.requests.closed = true) (hpending : x.pending = [])
    (hstage : x.channel.stage ≠ .returned) : x.Moves crc pb unmarshal := by
  have htaking : x.channel.stage = .first ∨ x.channel.stage = .ready →
      x.Moves crc pb unmarshal := by
    intro htaking
    cases hbuffer : x.requests.buffer with
    | nil =>
      exact moves_of_channel hp (e := .endPayloads) trivial
        ⟨hpending, ⟨hclosed, hbuffer⟩, _, ⟨htaking, rfl⟩, rfl⟩
    | cons p rest =>
      obtain ⟨c, hrecv⟩ := Chan.recv_of_buffer hbuffer
      exact moves_of_channel hp (e := .payload p) trivial
        ⟨hpending, _, c, hrecv, ⟨htaking, rfl⟩, rfl⟩
  cases hs : x.channel.stage with
  | first => exact htaking (Or.inl hs)
  | ready => exact htaking (Or.inr hs)
  | returned => exact absurd hs hstage
  | waiting next =>
    rcases @RequestChannel.Phase.forward_or_busy crc pb _ _ x.channel hphase next hs with
      ⟨c, hstep⟩ | ⟨device, u, hh, hsound, hbusy⟩
    · exact moves_of_channel hp (e := .forward) trivial ⟨hpending, c, hstep, rfl⟩
    · obtain ⟨e, u', hcall, hstep⟩ := @exists_upload_step crc pb u hsound.stage hbusy
      exact moves_of_channel hp (e := .upload e) trivial
        ⟨_, ⟨hcall, device, u, u', hh, hstep, rfl⟩, rfl⟩

/-! ## The result -/

/-- Unless a goroutine waits in the sink or for room in the responses, there is a step until all
have returned. -/
theorem Alive.moves_or_returned (h : x.Alive) (ho : x.Outlet) (hphase : x.channel.Phase unmarshal)
    (hdone : x.ctxDone = true) (hp : x.panicked = false) :
    x.Moves crc pb unmarshal ∨ x.Returned ∨ x.Stuck ∨ x.Starved := by
  by_cases hstill : x.Moves crc pb unmarshal ∨ x.Starved
  · exact hstill.imp_right fun hstarved => Or.inr (Or.inr hstarved)
  have hmoves : ¬x.Moves crc pb unmarshal := fun hmoves => hstill (Or.inl hmoves)
  have hdraining : x.sink.draining = none := by
    cases hd : x.sink.draining with
    | none => rfl
    | some stage => exact absurd (moves_of_draining hp hd) hmoves
  have hreader : x.reader = .returned := by
    by_contra hne
    exact hstill (exists_reader_step h ho hp hdraining hdone hne)
  have hwriter : x.writer = .returned := by
    by_contra hne
    exact hstill (exists_writer_step h ho hp hdraining hdone hne)
  refine Or.inr ?_
  cases hpending : x.pending with
  | cons resp rest =>
    refine Or.inr (Or.inl ⟨hwriter, by rw [hpending]; nofun, ?_⟩)
    cases hsend : x.responses.send resp with
    | some c =>
      exact absurd (moves_of_channel hp (e := .push) trivial
        ⟨resp, rest, c, hpending, hsend, rfl⟩) hmoves
    | none =>
      refine (Chan.send_eq_none_iff.mp hsend).resolve_left fun hclosed => ?_
      cases (ho.closed hclosed).2.symm.trans hpending
  | nil =>
    have hstage : x.channel.stage = .returned := by
      by_contra hne
      exact hmoves (exists_channel_step hphase hp (h.requests.mpr hreader) hpending hne)
    refine Or.inl ⟨hreader, hwriter, hstage, hpending, ?_⟩
    by_contra hopen
    exact hmoves (moves_of_channel hp (e := .closeOut) trivial
      ⟨hstage, hpending, Bool.eq_false_iff.mpr hopen, rfl⟩)

theorem Stuck.run (h : x.Stuck) {later : List ConnectionEvent}
    (hrun : Run (Step crc pb unmarshal) x later y) :
    y.Stuck ∧ y.channel.stage = x.channel.stage ∧ y.pending = x.pending := by
  refine hrun.invariant (I := fun y => y.Stuck ∧ y.channel.stage = x.channel.stage ∧
    y.pending = x.pending) (fun z e y ih hstep => ?_) ⟨h, rfl, rfl⟩
  obtain ⟨hz, hstage, hpending⟩ := ih
  obtain ⟨hy, hstage', hpending'⟩ := hz.step hstep
  exact ⟨hy, hstage'.trans hstage, hpending'.trans hpending⟩

/-- The requests of a reader that waits in a sink that is not open are never closed, and a request
channel that waits for one waits forever. -/
theorem ReaderBlocked.run (h : x.ReaderBlocked) (halive : x.Alive) (hshut : x.sink.Shut)
    {later : List ConnectionEvent} (hrun : Run (Step crc pb unmarshal) x later y) :
    y.ReaderBlocked ∧ y.requests.closed = false ∧
      (x.Idle → y.Idle ∧ y.channel.stage = x.channel.stage) := by
  have hne : ∀ {z : Connection δ}, z.ReaderBlocked → z.reader ≠ .returned := by
    rintro z ⟨c, hcall, -⟩ hreturned
    rw [hreturned] at hcall
    cases hcall
  have hall : y.ReaderBlocked ∧ y.Alive ∧ y.sink.Shut ∧
      (x.Idle → y.Idle ∧ y.channel.stage = x.channel.stage) := by
    refine hrun.invariant (I := fun y => y.ReaderBlocked ∧ y.Alive ∧ y.sink.Shut ∧
      (x.Idle → y.Idle ∧ y.channel.stage = x.channel.stage)) (fun z e y ih hstep => ?_)
      ⟨h, halive, hshut, fun hidle => ⟨hidle, rfl⟩⟩
    obtain ⟨hz, halive, hshut, hidle⟩ := ih
    obtain ⟨hy, hsend⟩ := hz.step hshut hstep
    refine ⟨hy, halive.step hstep, (shut_step hshut hstep).1, fun hx => ?_⟩
    obtain ⟨hidle, hstage⟩ := hidle hx
    obtain ⟨hidle', hstage'⟩ := hidle.step (halive.open_of_ne (hne hz)) hsend hstep
    exact ⟨hidle', hstage'.trans hstage⟩
  obtain ⟨hy, halive, -, hidle⟩ := hall
  exact ⟨hy, halive.open_of_ne (hne hy), hidle⟩

theorem WriterBlocked.run (h : x.WriterBlocked) (hshut : x.sink.Shut)
    {later : List ConnectionEvent} (hrun : Run (Step crc pb unmarshal) x later y) :
    y.WriterBlocked := by
  have hall : y.WriterBlocked ∧ y.sink.Shut := by
    refine hrun.invariant (I := fun y => y.WriterBlocked ∧ y.sink.Shut) (fun z e y ih hstep => ?_)
      ⟨h, hshut⟩
    exact ⟨ih.1.step ih.2 hstep, (shut_step ih.2 hstep).1⟩
  exact hall.1

/-- A START, as it is delivered. -/
def startPayload : TransportPayload :=
  ⟨bytesA, some (ascii "START_PUT_OBJECT".toList)⟩

/-- A PUT_OBJECT without data. -/
def emptyPayload : TransportPayload :=
  ⟨[], some (ascii "PUT_OBJECT".toList)⟩

/-- A sink of a client that has asked for one payload. -/
def askedSink : Sink TransportPayload :=
  { Sink.make with n := 1 }

/-- The connection waits for a payload, and so does the handler. -/
structure Ready (x : Connection Unit) : Prop where
  panicked : x.panicked = false
  once : x.once = .unused
  sink : x.sink = askedSink
  reader : x.reader = .select ∧ x.listens = true
  incoming : x.incoming.buffer = [] ∧ x.incoming.closed = false
  requests : x.requests.buffer = [] ∧ x.requests.closed = false
  responses : x.responses.closed = false
  writer : x.writer = .select
  stage : x.channel.stage = .ready
  handler : ∃ u, x.channel.h = some ((), u) ∧ u.responses.length = x.channel.taken ∧
    u.handler.initReq ≠ none ∧ u.handler.flushErr = none ∧ u.handler.finalized = false

/-- A payload is delivered and passed on. -/
theorem Ready.passOn {x : Connection Unit} (h : x.Ready) {p : TransportPayload}
    {req : RequestPayload} (hp : decodePayload p = .ok req) : ∃ incoming requests,
    incoming.buffer = [] ∧ incoming.closed = false ∧ requests.buffer = [req] ∧
      requests.closed = false ∧ Run (Step crc pb unmarshal) x [.deliver p, .take, .send]
        { x with incoming, requests } := by
  obtain ⟨hpanicked, -, -, ⟨hreader, hlistens⟩, ⟨hibuffer, hiclosed⟩, ⟨hrbuffer, hrclosed⟩, -⟩ := h
  obtain ⟨c, hc⟩ := Chan.exists_send hiclosed (by rw [hibuffer]; decide) p
  obtain ⟨-, -, hcbuffer, hcclosed⟩ := Chan.of_send hc
  rw [hibuffer, List.nil_append] at hcbuffer
  obtain ⟨c', hc'⟩ := Chan.recv_of_buffer hcbuffer
  obtain ⟨-, -, hc'buffer, hc'closed⟩ := Chan.of_recv hc'
  obtain ⟨d, hd⟩ := Chan.exists_send hrclosed (by rw [hrbuffer]; decide) req
  obtain ⟨-, -, hdbuffer, hdclosed⟩ := Chan.of_send hd
  refine ⟨c', d, ?_, ?_, ?_, hdclosed.trans hrclosed,
    .cons ⟨hpanicked, Or.inl ⟨c, hc, rfl⟩⟩ <|
    .cons (t := { x with incoming := c', reader := .sending req })
      ⟨hpanicked, Or.inr (Or.inl ⟨hreader, hlistens, p, c', hc', ?_⟩)⟩ <|
    .cons ⟨hpanicked, Or.inr (Or.inl ⟨req, d, rfl, hd, ?_⟩)⟩ .nil⟩
  · rw [hcbuffer] at hc'buffer
    exact (List.cons.inj hc'buffer).2.symm
  · exact hc'closed.trans (hcclosed.trans hiclosed)
  · rw [hdbuffer, hrbuffer, List.nil_append]
  · rw [gotPayload, hp]
  · rw [← hreader]

theorem put_nil {u : Upload} (hinit : u.handler.initReq ≠ none) (herr : u.handler.flushErr = none)
    (hfin : u.handler.finalized = false) : u.put crc [] = u.respond .cont := by
  unfold Upload.put
  rw [if_neg hinit]
  simp [herr, hfin]

/-- An empty PUT_OBJECT is answered with CONTINUE. -/
theorem Ready.round {x : Connection Unit} (h : x.Ready) (hpending : x.pending = []) :
    ∃ y : Connection Unit, Run (Step crc32Update protobuf unmarshalRequest) x
      [.deliver emptyPayload, .take, .send, .payload ⟨.putObject, []⟩, .forward] y ∧
      y.Ready ∧ y.pending = [⟨.cont, none⟩] ∧ y.responses = x.responses := by
  obtain ⟨incoming, requests, hi, hiclosed, hr, hrclosed, hrun⟩ :=
    @Ready.passOn crc32Update protobuf unmarshalRequest x h emptyPayload
      ⟨.putObject, []⟩ rfl
  obtain ⟨u, hh, htaken, hinit, herr, hfin⟩ := h.handler
  obtain ⟨c, hc⟩ := Chan.recv_of_buffer hr
  obtain ⟨-, -, hcbuffer, hcclosed⟩ := Chan.of_recv hc
  have hreceive : x.channel.receive crc32Update protobuf unmarshalRequest
      ⟨.putObject, []⟩ = { x.channel with
        processed := x.channel.processed ++ [⟨.putObject, []⟩]
        stage := .waiting .loop
        h := some ((), (u.called (.put [])).respond .cont) } := by
    have hput : (u.called (.put [])).put crc32Update [] =
        (u.called (.put [])).respond .cont := put_nil hinit herr hfin
    rw [RequestChannel.receive_of_ready h.stage]
    simp [RequestChannel.receiveNext, RequestChannel.call, Upload.call, hh, hput]
  refine ⟨_, hrun.append (.cons ⟨h.panicked, Or.inr (Or.inr (Or.inl
      ⟨hpending, _, c, hc, ⟨Or.inr h.stage, hreceive.symm⟩, rfl⟩))⟩ <|
    .cons ⟨h.panicked, Or.inr (Or.inr (Or.inl ⟨?_, _, ⟨(), _, .loop, .cont, rfl, rfl, ?_, rfl⟩,
      rfl⟩))⟩ .nil), ⟨h.panicked, h.once, h.sink, h.reader, ⟨hi, hiclosed⟩,
      ⟨?_, hcclosed.trans hrclosed⟩, h.responses, h.writer, rfl, _, rfl, ?_, hinit, herr, hfin⟩,
      ?_, rfl⟩
  · exact List.drop_length
  · change (u.responses ++ [Response.cont])[x.channel.taken]? = some .cont
    rw [← htaken, List.getElem?_concat_length]
  · rw [hr] at hcbuffer
    exact (List.cons.inj hcbuffer).2.symm
  · change (u.responses ++ [Response.cont]).length = x.channel.taken + 1
    rw [List.length_append, htaken, List.length_singleton]
  · exact List.drop_left

theorem Ready.push {x : Connection Unit} (h : x.Ready) {r : ResponsePayload}
    (hpending : x.pending = [r]) (hroom : x.responses.buffer.length < 64) :
    ∃ y : Connection Unit, x.Step crc32Update protobuf unmarshalRequest .push y ∧
      y.Ready ∧ y.pending = [] ∧ y.responses.buffer.length = x.responses.buffer.length + 1 := by
  obtain ⟨c, hc⟩ := Chan.exists_send h.responses hroom r
  obtain ⟨-, -, hbuffer, hclosed⟩ := Chan.of_send hc
  refine ⟨{ x with pending := [], responses := c }, ⟨h.panicked, Or.inr (Or.inr (Or.inl
    ⟨r, [], c, hpending, hc, rfl⟩))⟩, ?_, rfl, ?_⟩
  · exact ⟨h.panicked, h.once, h.sink, h.reader, h.incoming, h.requests,
      hclosed.trans h.responses, h.writer, h.stage, h.handler⟩
  · rw [hbuffer, List.length_append, List.length_singleton]

/-- Payloads are answered while nobody reads the responses. -/
theorem exists_run_unread (n : ℕ) (hn : n ≤ 64) : ∃ events, ∃ x : Connection Unit,
    Run (Step crc32Update protobuf unmarshalRequest) (new Service.oneDevice) events x ∧
      (∀ e ∈ events, e.Proper) ∧ x.Ready ∧ x.pending = [] ∧
      x.responses.buffer.length = n := by
  induction n with
  | zero =>
    refine ⟨[.request 1, .requestDrain, .drain, .drain, .drain, .drain, .leave,
      .deliver startPayload, .take, .send, .payload ⟨.startPutObject, bytesA⟩], _,
      .cons ⟨rfl, Or.inl rfl⟩ <|
      .cons ⟨rfl, Or.inl ⟨_, rfl, rfl⟩⟩ <|
      .cons (step_drain .asking rfl rfl nofun rfl) <|
      .cons (step_drain .granted rfl rfl nofun rfl) <|
      .cons (step_drain .polling rfl rfl nofun rfl) <|
      .cons (step_drain .refused rfl rfl nofun rfl) <|
      .cons (step_leave rfl rfl nofun) <|
      .cons ⟨rfl, Or.inl ⟨_, rfl, rfl⟩⟩ <|
      .cons ⟨rfl, Or.inr (Or.inl ⟨rfl, rfl, _, _, rfl, rfl⟩)⟩ <|
      .cons ⟨rfl, Or.inr (Or.inl ⟨_, _, rfl, rfl, rfl⟩)⟩ <|
      .cons ⟨rfl, Or.inr (Or.inr (Or.inl
        ⟨rfl, _, _, rfl, Service.step_startedChannel, rfl⟩))⟩ .nil,
      ?_, ⟨rfl, rfl, rfl, ⟨rfl, rfl⟩, ⟨rfl, rfl⟩, ⟨rfl, rfl⟩, rfl, rfl, rfl, _, rfl, rfl, nofun,
        rfl, rfl⟩, rfl, rfl⟩
    simp [ConnectionEvent.Proper]
  | succ n ih =>
    obtain ⟨events, x, hrun, hproper, hready, hpending, hlen⟩ := ih (Nat.le_of_succ_le hn)
    obtain ⟨y, hround, hy, hypending, hyresponses⟩ := hready.round hpending
    obtain ⟨z, hpush, hz, hzpending, hzlen⟩ := hy.push hypending (by rw [hyresponses, hlen]; omega)
    refine ⟨_, z, (hrun.append hround).snoc hpush, fun e he => ?_, hz, hzpending, ?_⟩
    · simp only [List.mem_append, List.mem_singleton] at he
      rcases he with (he | he) | rfl
      · exact hproper e he
      · revert e
        simp [ConnectionEvent.Proper]
      · trivial
    · rw [hzlen, hyresponses, hlen]

/-- The transport goes away while 64 responses are not read, and one more payload is answered. -/
theorem exists_run_stuck : ∃ events, ∃ x : Connection Unit,
    Run (Step crc32Update protobuf unmarshalRequest) (new Service.oneDevice) events x ∧
      (∀ e ∈ events, e.Proper) ∧ x.ctxDone = true ∧ x.panicked = false ∧ x.Stuck ∧
      x.channel.stage = .ready := by
  obtain ⟨events, x, hrun, hproper, hready, hpending, hlen⟩ := exists_run_unread 64 le_rfl
  obtain ⟨y, hround, hy, hypending, hyresponses⟩ := hready.round hpending
  have hcancel : y.Step crc32Update protobuf unmarshalRequest .cancel
      { y with ctxDone := true } := ⟨hy.panicked, Or.inl rfl⟩
  have hstop : Step crc32Update protobuf unmarshalRequest { y with ctxDone := true }
      .writerStop { y with ctxDone := true, writer := .returned } :=
    ⟨hy.panicked, Or.inr (Or.inr (Or.inr (Or.inl ⟨hy.writer, Or.inl rfl, rfl⟩)))⟩
  refine ⟨_, _, ((hrun.append hround).snoc hcancel).snoc hstop, fun e he => ?_, rfl, hy.panicked,
    ⟨rfl, ?_, ?_⟩, hy.stage⟩
  · simp only [List.mem_append, List.mem_singleton] at he
    rcases he with ((he | he) | rfl) | rfl
    · exact hproper e he
    · revert e
      simp [ConnectionEvent.Proper]
    · trivial
    · trivial
  · change y.pending ≠ []
    rw [hypending]
    nofun
  · change y.responses.buffer.length = 64
    rw [hyresponses, hlen]

/-- Whoever drains hands out the one value that was asked for, and goes on. -/
theorem run_handing (hp : x.panicked = false) (hlock : ¬x.Locked)
    (hdraining : x.sink.draining = some .asking) (hn : x.sink.n = 1) (hstat : x.sink.stat = .opened)
    {v : TransportPayload} {queue : Chan TransportPayload 256}
    (hrecv : x.sink.queue.recv = some (v, queue)) :
    Run (Step crc pb unmarshal) x [.drain, .drain, .drain, .drain, .drain, .drain, .leave]
      { x with
        reader := x.reader.drained
        writer := x.writer.drained
        sink := { x.sink with queue, n := 0, draining := none } } := by
  have hasking : x.sink.drain .asking = { x.sink with n := 0, draining := some .granted } := by
    rw [Sink.drain, hn]
    rfl
  exact .cons (step_drain .asking hp hdraining (by simp) hasking) <|
    .cons (step_drain .granted hp rfl (by simp) (Sink.drain_granted hstat)) <|
    .cons (step_drain .polling hp rfl (by simp) (Sink.drain_polling hrecv)) <|
    .cons (step_drain (.handing v) hp rfl (by simp) rfl) <|
    .cons (step_drain .asking hp rfl (by simp) rfl) <|
    .cons (step_drain .refused hp rfl (by simp) rfl) <|
    .cons (step_leave hp rfl hlock) .nil

/-- Whoever drains finds that nothing was asked for, and goes on. -/
theorem run_refused (hp : x.panicked = false) (hlock : ¬x.Locked)
    (hdraining : x.sink.draining = some .asking) (hn : x.sink.n = 0) :
    Run (Step crc pb unmarshal) x [.drain, .drain, .leave]
      { x with
        reader := x.reader.drained
        writer := x.writer.drained
        sink := { x.sink with n := 0, draining := none } } := by
  have hasking : x.sink.drain .asking = { x.sink with n := -1, draining := some .refused } := by
    rw [Sink.drain, hn]
    rfl
  exact .cons (step_drain .asking hp hdraining (by simp) hasking) <|
    .cons (step_drain .refused hp rfl (by simp) rfl) <|
    .cons (step_leave hp rfl hlock) .nil

/-- The client has got the one payload that it has asked for, and the next is not decoded. The
transport goes away while the error is in the queue. -/
theorem Ready.exists_starved {x : Connection Unit} (h : x.Ready) {resp : ResponsePayload}
    (hbuffer : x.responses.buffer = [resp]) : ∃ events, ∃ y : Connection Unit,
    Run (Step crc32Update protobuf unmarshalRequest) x events y ∧ (∀ e ∈ events, e.Proper) ∧
      y.ctxDone = true ∧ y.panicked = false ∧ y.Starved ∧ y.sink.stat ≠ .opened ∧
      y.ReaderBlocked ∧ y.channel = x.channel ∧ y.requests = x.requests := by
  obtain ⟨hpanicked, honce, hsink, ⟨hreader, hlistens⟩, ⟨hinil, hiopen⟩, -, -, hwriter, -⟩ := h
  obtain ⟨c, hc⟩ := Chan.recv_of_buffer hbuffer
  obtain ⟨i, hi⟩ := Chan.exists_send hiopen (by rw [hinil]; decide) ⟨[], none⟩
  have hibuffer := (Chan.of_send hi).2.2.1
  rw [hinil, List.nil_append] at hibuffer
  obtain ⟨i', hi'⟩ := Chan.recv_of_buffer hibuffer
  have hx : x = { x with
      once := .unused, listens := true, reader := .select, writer := .select, sink := askedSink
      panicked := false } := by
    rw [← hpanicked, ← honce, ← hsink, ← hreader, ← hlistens, ← hwriter]
  rw [hx]
  have hwrite : Run (Step crc32Update protobuf unmarshalRequest) { x with
      once := .unused, listens := true, reader := .select, writer := .select, sink := askedSink
      panicked := false } [.receive, .check, .offer, .writerDrain] _ :=
    .cons ⟨rfl, Or.inr (Or.inr (Or.inr (Or.inl ⟨rfl, _, _, hc, rfl⟩)))⟩ <|
    .cons ⟨rfl, Or.inr (Or.inr (Or.inr (Or.inl ⟨_, rfl, rfl⟩)))⟩ <|
    .cons ⟨rfl, Or.inr (Or.inr (Or.inr (Or.inl ⟨_, rfl, Or.inr ⟨_, rfl, rfl⟩⟩)))⟩ <|
    .cons ⟨rfl, Or.inr (Or.inr (Or.inr (Or.inl ⟨rfl, rfl⟩)))⟩ .nil
  have hhanded := hwrite.append (run_handing rfl (by rintro (h | h) <;> cases h) rfl rfl rfl rfl)
  have hfail := hhanded.append (show Run _ _ [.deliver ⟨[], none⟩, .take, .emitError, .readerOffer,
      .readerDrain] _ from
    .cons ⟨rfl, Or.inl ⟨_, hi, rfl⟩⟩ <|
    .cons ⟨rfl, Or.inr (Or.inl ⟨rfl, rfl, _, _, hi', rfl⟩)⟩ <|
    .cons ⟨rfl, Or.inr (Or.inl ⟨_, rfl, Or.inr ⟨rfl, rfl⟩⟩)⟩ <|
    .cons ⟨rfl, Or.inr (Or.inl ⟨_, rfl, Or.inr ⟨_, rfl, rfl⟩⟩)⟩ <|
    .cons ⟨rfl, Or.inr (Or.inl ⟨rfl, rfl⟩)⟩ .nil)
  have hrefused := hfail.append (run_refused rfl (by rintro (h | h) <;> cases h) rfl rfl)
  have hgone := hrefused.append (show Run _ _ [.readerFinish, .readerComplete, .readerComplete,
      .cancelSink, .disposeSink, .cancel] _ from
    .cons ⟨rfl, Or.inr (Or.inl ⟨rfl, rfl⟩)⟩ <|
    .cons ⟨rfl, Or.inr (Or.inl ⟨_, _, _, rfl, rfl, rfl⟩)⟩ <|
    .cons ⟨rfl, Or.inr (Or.inl ⟨_, _, _, rfl, rfl, rfl⟩)⟩ <|
    .cons ⟨rfl, Or.inl ⟨rfl, rfl⟩⟩ <|
    .cons ⟨rfl, Or.inl ⟨rfl, rfl⟩⟩ <|
    .cons ⟨rfl, Or.inl rfl⟩ .nil)
  refine ⟨_, _, hgone, ?_, rfl, rfl, ?_, nofun, ?_, rfl, rfl⟩
  · simp [ConnectionEvent.Proper]
  · exact ⟨rfl, Or.inl ⟨_, rfl, rfl, nofun⟩⟩
  · exact ⟨_, rfl, rfl, nofun⟩

theorem exists_run_starved : ∃ events, ∃ x : Connection Unit,
    Run (Step crc32Update protobuf unmarshalRequest) (new Service.oneDevice) events x ∧
      (∀ e ∈ events, e.Proper) ∧ x.ctxDone = true ∧ x.panicked = false ∧ x.Starved ∧
      x.sink.stat ≠ .opened ∧ x.ReaderBlocked ∧ x.Idle ∧ x.channel.stage = .ready := by
  obtain ⟨events, x, hrun, hproper, hready, hpending, hlen⟩ := exists_run_unread 1 (by decide)
  obtain ⟨resp, hbuffer⟩ := List.length_eq_one_iff.mp hlen
  obtain ⟨later, y, hlater, hproper', hdone, hp, hstarved, hstat, hblocked, hchannel, hrequests⟩ :=
    hready.exists_starved hbuffer
  refine ⟨_, y, hrun.append hlater, fun e he => ?_, hdone, hp, hstarved, hstat, hblocked, ?_, ?_⟩
  · exact (List.mem_append.mp he).elim (hproper e) (hproper' e)
  · rw [Idle, hchannel, hrequests]
    exact ⟨Or.inr hready.stage, hready.requests.1⟩
  · rw [hchannel]
    exact hready.stage

end Connection

end Corgi
