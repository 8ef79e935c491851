import Corgi.Connection

/-!
# What a connection emits

The reader and the writer share the sink. Whoever is inside `finishOnce` completes it, and the
other may be about to emit a response at that time.

`Connection.emitted_eq` : the sink gets the responses in order. Only an error of the reader can
come between them, once, and without one the sink is completed after the last response.
-/

set_option linter.unusedSectionVars false

namespace Corgi

/-! ## What holds in every state -/

/-- The reader is inside `finishOnce`. -/
def ReaderStage.inside : ReaderStage → Bool
  | .offering _ | .offered | .draining | .emitted | .completing _ => true
  | _ => false

/-- The reader is inside `finishOnce`, and has emitted the error if the sink was open. -/
def ReaderStage.late : ReaderStage → Bool
  | .offered | .draining | .emitted | .completing _ => true
  | _ => false

theorem ReaderStage.inside_of_late {r : ReaderStage} (h : r.late = true) : r.inside = true := by
  cases r <;> first | rfl | cases h

/-- What the writer has taken and not put into the queue. -/
def WriterStage.hand : WriterStage → List ResponsePayload
  | .received resp | .offering resp => [resp]
  | _ => []

/-- The writer has found the sink open. -/
def WriterStage.offers : WriterStage → Bool
  | .offering _ => true
  | _ => false

/-- The writer is inside `finishOnce`. -/
def WriterStage.inside : WriterStage → Bool
  | .completing _ => true
  | _ => false

/-- The writer has found the responses closed. -/
def WriterStage.atEnd : WriterStage → Bool
  | .ending | .completing _ => true
  | _ => false

/-! ### After a `drain` -/

theorem CompleteStage.wake_eq_disposing {stage : CompleteStage} :
    stage.wake = .disposing ↔ stage = .disposing := by
  cases stage <;> decide

namespace ReaderStage

variable (r : ReaderStage)

theorem inside_drained : r.drained.inside = r.inside := by
  cases r <;> rfl

theorem late_drained : r.drained.late = r.late := by
  cases r <;> rfl

theorem drained_eq_disposing : r.drained = .completing .disposing ↔ r = .completing .disposing := by
  cases r <;> simp [drained, CompleteStage.wake_eq_disposing]

end ReaderStage

namespace WriterStage

variable (w : WriterStage)

theorem inside_drained : w.drained.inside = w.inside := by
  cases w <;> rfl

theorem hand_drained : w.drained.hand = w.hand := by
  cases w <;> rfl

theorem offers_drained : w.drained.offers = w.offers := by
  cases w <;> rfl

theorem atEnd_drained : w.drained.atEnd = w.atEnd := by
  cases w <;> rfl

theorem drained_eq_disposing : w.drained = .completing .disposing ↔ w = .completing .disposing := by
  cases w <;> simp [drained, CompleteStage.wake_eq_disposing]

end WriterStage

namespace Connection

variable {crc : BitVec 32 → Bytes → BitVec 32} {pb : Protobuf}
  {unmarshal : Bytes → Except String PutInitRequest} {δ : Type} {x y : Connection δ}

/-- The responses `fwd` were put into the queue, and no other is left out while the sink is open. -/
def Forwarded (x : Connection δ) (fwd : List ResponsePayload) : Prop :=
  fwd <+: x.responses.received ∧ (x.sink.stat = .opened ∨ x.writer.offers = true →
    x.responses.received = fwd ++ x.writer.hand)

/-- The sink has got the responses `fwd`. If it is completed, these are all. -/
def Plain (x : Connection δ) (fwd : List ResponsePayload) : Prop :=
  x.Forwarded fwd ∧ x.sink.emitted = fwd.map ResponsePayload.encode ∧
    (x.reader.late = true → x.sink.stat = .cancelled) ∧
    (x.sink.stat = .completed → x.Ended ∧ x.responses.received = fwd ∧
      (x.writer = .completing .disposing ∨ x.writer = .returned ∧ x.once = .done)) ∧
    (x.panicked = true → x.sink.stat = .cancelled)

/-- The sink has got the error `err` after the responses `before`, and after it `after`. -/
def Failed (x : Connection δ) (before after : List ResponsePayload) (err : String) : Prop :=
  x.Forwarded (before ++ after) ∧ x.sink.emitted = before.map ResponsePayload.encode ++
      encodePayload .error (some err) :: after.map ResponsePayload.encode ∧
    x.Cause err ∧ x.once ≠ .unused ∧ x.writer.inside = false ∧
    (x.reader.late = true ∨ x.reader = .returned)

/-- What the sink has got. -/
def Emission (x : Connection δ) : Prop :=
  (∃ fwd, x.Plain fwd) ∨ ∃ before after err, x.Failed before after err

/-- What holds on the way from the request channel to the sink. -/
structure Outlet (x : Connection δ) : Prop where
  out : x.channel.out = x.responses.sent ++ x.pending
  closed : x.responses.closed = true → x.channel.stage = .returned ∧ x.pending = []
  inside : x.reader.inside = true ∨ x.writer.inside = true → x.once = .running
  excl : x.reader.inside = true → x.writer.inside = false
  ended : x.writer.atEnd = true → x.Ended
  disposed : x.sink.queue.closed = true → x.sink.stat ≠ .opened
  disposing : x.reader = .completing .disposing ∨ x.writer = .completing .disposing →
    x.sink.stat ≠ .opened
  emission : x.Emission

/-! ## Every step keeps it -/

theorem outlet_new (server : ErasureServer δ) : (new server).Outlet :=
  ⟨rfl, nofun, nofun, nofun, nofun, nofun, nofun,
    Or.inl ⟨[], ⟨List.prefix_rfl, fun _ => rfl⟩, rfl, nofun, nofun, nofun⟩⟩

/-- What the sink has got stays as it is. The sink may be cancelled. -/
structure Keeps (x y : Connection δ) : Prop where
  emitted : y.sink.emitted = x.sink.emitted
  stat : y.sink.stat = x.sink.stat ∨ y.sink.stat = .cancelled
  received : y.responses.received = x.responses.received
  hand : y.sink.stat = .opened ∨ y.writer.offers = true →
    (x.sink.stat = .opened ∨ x.writer.offers = true) ∧ y.writer.hand = x.writer.hand
  inside : y.writer.inside = x.writer.inside
  last : x.writer = .completing .disposing ∨ x.writer = .returned ∧ x.once = .done →
    y.writer = .completing .disposing ∨ y.writer = .returned ∧ y.once = .done
  once : x.once ≠ .unused → y.once ≠ .unused
  panicked : y.panicked = x.panicked
  late : y.reader.late = true → x.reader.late = true
  failed : x.reader.late = true ∨ x.reader = .returned →
    y.reader.late = true ∨ y.reader = .returned

theorem Keeps.emission (hk : x.Keeps y) {e : ConnectionEvent}
    (hstep : x.Step crc pb unmarshal e y) (h : x.Emission) : y.Emission := by
  have hcancelled : x.sink.stat = .cancelled → y.sink.stat = .cancelled := fun h =>
    hk.stat.elim (fun heq => heq.trans h) id
  have hstat : ∀ {s}, y.sink.stat = s → s ≠ .cancelled → x.sink.stat = s := fun h hne =>
    hk.stat.elim (fun heq => heq.symm.trans h) fun hc => absurd (h.symm.trans hc) hne
  have hforwarded : ∀ fwd, x.Forwarded fwd → y.Forwarded fwd := by
    rintro fwd ⟨hpre, hopen⟩
    rw [Forwarded, hk.received]
    refine ⟨hpre, fun h => ?_⟩
    obtain ⟨hx, hhand⟩ := hk.hand h
    rw [hhand]
    exact hopen hx
  rcases h with ⟨fwd, hfwd, hemitted, hlate, hend, hpanic⟩ |
    ⟨before, after, err, hfwd, hemitted, hcause, honce, hinside, hreader⟩
  · refine Or.inl ⟨fwd, hforwarded fwd hfwd, hk.emitted.trans hemitted, fun h => ?_, fun h => ?_,
      fun h => ?_⟩
    · exact hcancelled (hlate (hk.late h))
    · obtain ⟨hended, hreceived, hlast⟩ := hend (hstat h nofun)
      exact ⟨hended.step hstep, hk.received.trans hreceived, hk.last hlast⟩
    · exact hcancelled (hpanic (hk.panicked ▸ h))
  · exact Or.inr ⟨before, after, err, hforwarded _ hfwd, hk.emitted.trans hemitted,
      hcause.step hstep, hk.once honce, hk.inside.trans hinside, hk.failed hreader⟩

/-- The sink has got nothing but responses, and the writer is not at its end. -/
theorem Plain.stat_ne {fwd : List ResponsePayload} (h : x.Plain fwd)
    (hwriter : x.writer.inside = false) (honce : x.once ≠ .done) : x.sink.stat ≠ .completed := by
  intro hstat
  obtain ⟨-, -, -, hend, -⟩ := h
  rcases (hend hstat).2.2 with hw | ⟨-, hdone⟩
  · rw [hw] at hwriter
    cases hwriter
  · exact honce hdone

/-- While `finishOnce` is not used, the sink has got nothing but responses. -/
theorem Outlet.plain (h : x.Outlet) (honce : x.once = .unused) : ∃ fwd, x.Plain fwd := by
  rcases h.emission with h | ⟨before, after, err, -, -, -, hne, -⟩
  · exact h
  · exact absurd honce hne

theorem Outlet.not_inside (h : x.Outlet) (honce : x.once = .unused) :
    x.reader.inside = false ∧ x.writer.inside = false := by
  have hnot : ¬(x.reader.inside = true ∨ x.writer.inside = true) := fun hin => by
    cases (h.inside hin).symm.trans honce
  rw [not_or] at hnot
  exact ⟨Bool.eq_false_iff.mpr hnot.1, Bool.eq_false_iff.mpr hnot.2⟩

theorem Outlet.transport (h : x.Outlet) {e : ConnectionEvent}
    (hstep : x.Step crc pb unmarshal e y) (ht : x.TransportStep e y) : y.Outlet := by
  obtain ⟨hreader, -, hchannel, hpending, hresponses, hwriter, honce, hpanicked, -, -, hemitted⟩ :=
    ht.frame
  obtain ⟨hstat, hdisposed⟩ : (y.sink.stat = x.sink.stat ∨ y.sink.stat = .cancelled) ∧
      (y.sink.queue.closed = true → y.sink.stat ≠ .opened) := by
    cases e with
    | deliver | fault =>
      obtain ⟨c, -, rfl⟩ := ht
      exact ⟨Or.inl rfl, h.disposed⟩
    | endIncoming | endErr | cancel | request =>
      obtain rfl := ht
      exact ⟨Or.inl rfl, h.disposed⟩
    | cancelSink =>
      obtain ⟨-, rfl⟩ := ht
      exact ⟨Or.inr rfl, fun _ => nofun⟩
    | disposeSink =>
      obtain ⟨hcancelled, rfl⟩ := ht
      exact ⟨Or.inl rfl, fun _ hopen => nomatch hcancelled.symm.trans hopen⟩
    | requestDrain =>
      obtain ⟨requested, -, rfl⟩ := ht
      exact ⟨Or.inl rfl, h.disposed⟩
    | _ => exact ht.elim
  have hopen : y.sink.stat = .opened → x.sink.stat = .opened := fun hopen =>
    hstat.elim (fun hsame => hsame.symm.trans hopen) fun hc => nomatch hopen.symm.trans hc
  have hkeeps : x.Keeps y := ⟨hemitted, hstat, by rw [hresponses],
    fun hy => by rw [hwriter] at hy ⊢; exact ⟨hy.imp_left hopen, rfl⟩,
    by rw [hwriter], by rw [hwriter, honce]; exact id, by rw [honce]; exact id, hpanicked,
    by rw [hreader]; exact id, by rw [hreader]; exact id⟩
  refine ⟨?_, ?_, ?_, ?_, ?_, hdisposed, ?_, hkeeps.emission hstep h.emission⟩
  · rw [hchannel, hresponses, hpending]
    exact h.out
  · rw [hchannel, hresponses, hpending]
    exact h.closed
  · rw [hreader, hwriter, honce]
    exact h.inside
  · rw [hreader, hwriter]
    exact h.excl
  · rw [hwriter]
    exact fun hend => (h.ended hend).step hstep
  · rw [hreader, hwriter]
    exact fun hd hopen' => h.disposing hd (hopen hopen')

theorem Outlet.channel (h : x.Outlet) {e : ConnectionEvent}
    (hstep : x.Step crc pb unmarshal e y) (hc : x.ChannelStep crc pb unmarshal e y) :
    y.Outlet := by
  obtain ⟨hreader, hwriter, honce, hsink, hpanicked, -, -, -, hreceived⟩ := hc.frame
  have hkeeps : x.Keeps y := ⟨by rw [hsink], Or.inl (by rw [hsink]), hreceived,
    by rw [hwriter, hsink]; exact fun hy => ⟨hy, rfl⟩, by rw [hwriter],
    by rw [hwriter, honce]; exact id, by rw [honce]; exact id, hpanicked,
    by rw [hreader]; exact id, by rw [hreader]; exact id⟩
  have hopen : x.channel.stage ≠ .returned → x.responses.closed ≠ true := fun hne hclosed =>
    hne (h.closed hclosed).1
  -- a step of the request channel itself is about to send what it adds
  have hwith : ∀ {ev c}, x.pending = [] → x.channel.stage ≠ .returned →
      RequestChannel.Step crc pb unmarshal x.channel ev c →
      c.out = x.responses.sent ++ c.out.drop x.channel.out.length ∧
      (x.responses.closed = true → c.stage = .returned ∧
        c.out.drop x.channel.out.length = []) := by
    intro ev c hpending hne hstep
    obtain ⟨new, hnew⟩ := hstep.log.2
    have hout := h.out
    rw [hpending, List.append_nil] at hout
    refine ⟨?_, fun hclosed => absurd hclosed (hopen hne)⟩
    rw [← hnew, List.drop_left, hout]
  have hlink : y.channel.out = y.responses.sent ++ y.pending ∧ (y.responses.closed = true →
      y.channel.stage = .returned ∧ y.pending = []) := by
    cases e with
    | payload p =>
      obtain ⟨hpending, c, requests, -, hc, rfl⟩ := hc
      refine hwith hpending (fun hr => ?_) hc
      obtain ⟨hstage | hstage, -⟩ := hc <;> cases hr.symm.trans hstage
    | endPayloads =>
      obtain ⟨hpending, -, c, hc, rfl⟩ := hc
      refine hwith hpending (fun hr => ?_) hc
      obtain ⟨hstage | hstage, -⟩ := hc <;> cases hr.symm.trans hstage
    | forward =>
      obtain ⟨hpending, c, hc, rfl⟩ := hc
      refine hwith hpending (fun hr => ?_) hc
      obtain ⟨_, _, _, _, -, hstage, -, -⟩ := hc
      cases hr.symm.trans hstage
    | upload e =>
      obtain ⟨c, ⟨-, _, _, _, -, -, rfl⟩, rfl⟩ := hc
      exact ⟨h.out, h.closed⟩
    | push =>
      obtain ⟨resp, rest, c, hpending, hsend, rfl⟩ := hc
      obtain ⟨hsent, -, -, hclosed⟩ := Chan.of_send hsend
      refine ⟨?_, fun hcl => ?_⟩
      · rw [hsent, h.out, hpending, List.append_assoc]
        rfl
      · cases (h.closed (hclosed ▸ hcl)).2.symm.trans hpending
    | closeOut =>
      obtain ⟨hstage, hpending, -, rfl⟩ := hc
      exact ⟨h.out, fun _ => ⟨hstage, hpending⟩⟩
    | _ => exact hc.elim
  refine ⟨hlink.1, hlink.2, ?_, ?_, ?_, by rw [hsink]; exact h.disposed, ?_,
    hkeeps.emission hstep h.emission⟩
  · rw [hreader, hwriter, honce]
    exact h.inside
  · rw [hreader, hwriter]
    exact h.excl
  · rw [hwriter]
    exact fun hend => (h.ended hend).step hstep
  · rw [hreader, hwriter, hsink]
    exact h.disposing

/-- A step of the reader that has nothing to do with the sink. -/
theorem Outlet.of_reading (h : x.Outlet) {e : ConnectionEvent}
    (hstep : x.Step crc pb unmarshal e y) (hr : x.ReaderStep e y) (hsink : y.sink = x.sink)
    (honce : y.once = x.once) (hpanicked : y.panicked = x.panicked)
    (hx : x.reader.inside = false) (hret : x.reader ≠ .returned)
    (hy : y.reader.inside = false) : y.Outlet := by
  obtain ⟨hchannel, hpending, hresponses, hwriter, -, -⟩ := hr.frame
  have hlate : ∀ {r : ReaderStage}, r.inside = false → r.late ≠ true := fun hin hl => by
    rw [ReaderStage.inside_of_late hl] at hin
    cases hin
  have hkeeps : x.Keeps y := ⟨by rw [hsink], Or.inl (by rw [hsink]), by rw [hresponses],
    by rw [hwriter, hsink]; exact fun hy => ⟨hy, rfl⟩, by rw [hwriter],
    by rw [hwriter, honce]; exact id, by rw [honce]; exact id, hpanicked,
    fun hl => absurd hl (hlate hy), fun hl => ?_⟩
  · refine ⟨?_, ?_, fun hin => ?_, fun hin => ?_, ?_, by rw [hsink]; exact h.disposed, ?_,
      hkeeps.emission hstep h.emission⟩
    · rw [hchannel, hresponses, hpending]
      exact h.out
    · rw [hchannel, hresponses, hpending]
      exact h.closed
    · rw [hy, hwriter] at hin
      rw [honce]
      exact h.inside (Or.inr (hin.resolve_left Bool.false_ne_true))
    · rw [hy] at hin
      cases hin
    · rw [hwriter]
      exact fun hend => (h.ended hend).step hstep
    · rw [hwriter, hsink]
      rintro (hd | hd)
      · rw [hd] at hy
        cases hy
      · exact h.disposing (Or.inr hd)
  · exact hl.elim (fun hl => absurd hl (hlate hx)) fun hl => absurd hl hret

theorem Outlet.emitError (h : x.Outlet) (honce : x.once = .unused) (err : String) : Outlet { x with
      once := .running
      reader := if x.sink.stat = .opened then .offering err else .emitted } := by
  obtain ⟨-, hwriter⟩ := h.not_inside honce
  obtain ⟨fwd, hplain⟩ := h.plain honce
  have hne : x.sink.stat ≠ .completed := hplain.stat_ne hwriter (by rw [honce]; nofun)
  obtain ⟨hfwd, hemitted, hlate, hend, hpanic⟩ := hplain
  refine ⟨h.out, h.closed, fun _ => rfl, fun _ => hwriter, h.ended, h.disposed, ?_,
    Or.inl ⟨fwd, hfwd, hemitted, ?_, fun hstat => absurd hstat hne, hpanic⟩⟩
  · rintro (hd | hd)
    · dsimp only at hd
      split_ifs at hd
    · rw [hd] at hwriter
      cases hwriter
  · dsimp only
    split_ifs with hopen
    · nofun
    · exact fun _ => SinkStat.eq_cancelled hopen hne

theorem Outlet.of_inside (h : x.Outlet) (hin : x.reader.inside = true) :
    x.once = .running ∧ x.writer.inside = false :=
  ⟨h.inside (Or.inl hin), h.excl hin⟩

theorem Outlet.readerOffer (h : x.Outlet) {err : String} (hoffering : x.reader = .offering err)
    (hcause : x.Cause err) :
    (x.sink.queue.closed = true → Outlet { x with panicked := true }) ∧
    ∀ queue, x.sink.queue.send (encodePayload .error (some err)) = some queue →
      Outlet { x with reader := .offered, sink := { x.sink with queue } } := by
  obtain ⟨honce, hwriter⟩ := h.of_inside (by rw [hoffering]; rfl)
  -- the error was not emitted before
  obtain ⟨fwd, hplain⟩ : ∃ fwd, x.Plain fwd := by
    rcases h.emission with hplain | ⟨_, _, _, -, -, -, -, -, hreader⟩
    · exact hplain
    · rw [hoffering] at hreader
      rcases hreader with hreader | hreader <;> cases hreader
  have hne : x.sink.stat ≠ .completed := hplain.stat_ne hwriter (by rw [honce]; nofun)
  obtain ⟨⟨hpre, hopened⟩, hemitted, hlate, hend, hpanic⟩ := hplain
  refine ⟨fun hdisposed => ?_, fun queue hqueue => ?_⟩
  · exact ⟨h.out, h.closed, h.inside, h.excl, h.ended, h.disposed, h.disposing,
      Or.inl ⟨fwd, ⟨hpre, hopened⟩, hemitted, hlate, hend,
        fun _ => SinkStat.eq_cancelled (h.disposed hdisposed) hne⟩⟩
  obtain ⟨hsent, -, -, hclosed⟩ := Chan.of_send hqueue
  refine ⟨h.out, h.closed, fun _ => honce, fun _ => hwriter, h.ended,
    fun hcl => h.disposed (hclosed ▸ hcl),
    fun hd => h.disposing (Or.inr (hd.resolve_left nofun)),
    Or.inr ⟨fwd, [], err, ⟨?_, ?_⟩, ?_, hcause, ?_, hwriter, Or.inl rfl⟩⟩
  · rwa [List.append_nil]
  · rwa [List.append_nil]
  · exact hsent.trans (congrArg (· ++ [_]) hemitted)
  · exact fun hun => nomatch honce.symm.trans hun

/-- The reader goes on inside `finishOnce`. -/
theorem Outlet.of_late (h : x.Outlet) {e : ConnectionEvent} {reader : ReaderStage} {finished : Bool}
    {sink : Sink TransportPayload}
    (hstep : x.Step crc pb unmarshal e { x with reader, finished, sink })
    (hx : x.reader.late = true) (hy : reader.late = true) (hstat : sink.stat = x.sink.stat)
    (hemitted : sink.emitted = x.sink.emitted)
    (hclosed : sink.queue.closed = x.sink.queue.closed)
    (hdisposing : reader = .completing .disposing → x.sink.stat ≠ .opened) :
    Outlet { x with reader, finished, sink } := by
  obtain ⟨honce, hwriter⟩ := h.of_inside (ReaderStage.inside_of_late hx)
  have hkeeps : x.Keeps { x with reader, finished, sink } :=
    ⟨hemitted, Or.inl hstat, rfl, fun hopen => ⟨hopen.imp_left hstat.symm.trans, rfl⟩, rfl, id, id,
      rfl, fun _ => hx, fun _ => Or.inl hy⟩
  refine ⟨h.out, h.closed, fun _ => honce, fun _ => hwriter, h.ended, ?_, ?_,
    hkeeps.emission hstep h.emission⟩
  · rw [hclosed, hstat]
    exact h.disposed
  · rw [hstat]
    rintro (hd | hd)
    · exact hdisposing hd
    · exact h.disposing (Or.inr hd)

/-- The reader leaves `finishOnce`. -/
theorem Outlet.readerLeave (h : x.Outlet) (hin : x.reader.inside = true) {e : ConnectionEvent}
    {queue : Chan TransportPayload 256} (hsent : queue.sent = x.sink.queue.sent)
    (hclosed : queue.closed = true → x.sink.stat ≠ .opened)
    (hstep : x.Step crc pb unmarshal e
      { x.readerReturn with once := .done, sink := { x.sink with queue } }) :
    Outlet { x.readerReturn with once := .done, sink := { x.sink with queue } } := by
  obtain ⟨honce, hwriter⟩ := h.of_inside hin
  have hkeeps : x.Keeps { x.readerReturn with once := .done, sink := { x.sink with queue } } :=
    ⟨hsent, Or.inl rfl, rfl, fun hopen => ⟨hopen, rfl⟩, rfl,
      fun hlast => hlast.imp_right fun hr => ⟨hr.1, rfl⟩, fun _ => nofun, rfl, nofun,
      fun _ => Or.inr rfl⟩
  refine ⟨h.out, h.closed, fun hin' => ?_, nofun, h.ended, hclosed, fun hd => ?_,
    hkeeps.emission hstep h.emission⟩
  · cases hwriter.symm.trans (hin'.resolve_left nofun)
  · exact h.disposing (Or.inr (hd.resolve_left nofun))

theorem Outlet.readerComplete (h : x.Outlet) {stage : CompleteStage} {next : Option CompleteStage}
    {sink : Sink TransportPayload} (hreader : x.reader = .completing stage)
    (hcomplete : x.sink.complete stage = some (sink, next)) {e : ConnectionEvent}
    (hstep : x.Step crc pb unmarshal e (x.readerAt sink next)) : (x.readerAt sink next).Outlet := by
  have hlate : x.reader.late = true := by rw [hreader]; rfl
  have hin := ReaderStage.inside_of_late hlate
  rcases Sink.complete_cases hcomplete with ⟨-, rfl, stage', rfl, hne⟩ | ⟨-, hstat, rfl, rfl⟩ |
    ⟨-, -, rfl, rfl⟩ | ⟨rfl, rfl, rfl⟩
  · exact h.of_late hstep hlate rfl rfl rfl rfl fun hd => absurd (ReaderStage.completing.inj hd) hne
  · obtain ⟨honce, hwriter⟩ := h.of_inside hin
    refine ⟨h.out, h.closed, fun _ => honce, fun _ => hwriter, h.ended, fun _ => nofun,
      fun _ => nofun, ?_⟩
    rcases h.emission with ⟨fwd, -, -, hcancelled, -, -⟩ |
      ⟨before, after, err, ⟨hpre, hopened⟩, hemitted, hcause, hne, -, -⟩
    · cases hstat.symm.trans (hcancelled hlate)
    · exact Or.inr ⟨before, after, err, ⟨hpre, fun hopen => hopened (Or.inl hstat)⟩, hemitted,
        hcause, hne, hwriter, Or.inl rfl⟩
  · exact h.readerLeave hin rfl h.disposed hstep
  · exact h.readerLeave hin rfl (fun _ => h.disposing (Or.inl hreader)) hstep

theorem Outlet.reader (h : x.Outlet) (hinlet : x.Inlet) {e : ConnectionEvent}
    (hstep : x.Step crc pb unmarshal e y) (hr : x.ReaderStep e y) : y.Outlet := by
  cases e with
  | readerStop =>
    obtain ⟨hreader, -, rfl⟩ := id hr
    obtain ⟨hx, hret⟩ : x.reader.inside = false ∧ x.reader ≠ .returned := by
      rcases hreader with ⟨hreader, -⟩ | ⟨req, hreader⟩ <;> simp [hreader, ReaderStage.inside]
    exact h.of_reading hstep hr rfl rfl rfl hx hret rfl
  | readerEnd =>
    obtain ⟨hreader, -, -, rfl⟩ := id hr
    exact h.of_reading hstep hr rfl rfl rfl (by rw [hreader]; rfl) (by simp [hreader]) rfl
  | take =>
    obtain ⟨hreader, -, p, c, -, rfl⟩ := id hr
    refine h.of_reading hstep hr ?_ ?_ ?_ (by rw [hreader]; rfl) (by simp [hreader]) ?_ <;>
      unfold gotPayload <;> split <;> rfl
  | takeErr =>
    obtain ⟨hreader, -, err, c, -, rfl⟩ := id hr
    refine h.of_reading hstep hr ?_ ?_ ?_ (by rw [hreader]; rfl) (by simp [hreader]) ?_ <;>
      cases err <;> first | rfl | (rw [gotErr, hreader]; rfl)
  | takeEnd | takeErrEnd =>
    obtain ⟨hreader, -, -, rfl⟩ := id hr
    exact h.of_reading hstep hr rfl rfl rfl (by rw [hreader]; rfl) (by simp [hreader])
      (by rw [hreader]; rfl)
  | send =>
    obtain ⟨req, c, hreader, -, rfl⟩ := id hr
    exact h.of_reading hstep hr rfl rfl rfl (by rw [hreader]; rfl) (by simp [hreader]) rfl
  | emitError =>
    obtain ⟨err, hreader, ⟨-, rfl⟩ | ⟨honce, rfl⟩⟩ := id hr
    · exact h.of_reading hstep hr rfl rfl rfl (by rw [hreader]; rfl) (by simp [hreader]) rfl
    · exact h.emitError honce err
  | readerOffer =>
    obtain ⟨err, hreader, hy⟩ := hr
    obtain ⟨hpanic, hnext⟩ := h.readerOffer hreader (hinlet.cause err (by rw [hreader]; rfl))
    obtain ⟨hclosed, rfl⟩ | ⟨queue, hqueue, rfl⟩ := hy
    · exact hpanic hclosed
    · exact hnext queue hqueue
  | readerDrain =>
    obtain ⟨hreader, rfl⟩ := hr
    exact h.of_late hstep (by rw [hreader]; rfl) (by split_ifs <;> rfl) rfl rfl rfl
      (by split_ifs <;> simp)
  | readerFinish =>
    obtain ⟨hreader, rfl⟩ := hr
    exact h.of_late hstep (by rw [hreader]; rfl) rfl rfl rfl rfl (by simp)
  | readerComplete =>
    obtain ⟨stage, sink, next, hreader, hcomplete, rfl⟩ := hr
    exact h.readerComplete hreader hcomplete hstep
  | _ => exact hr.elim

/-- A step of the writer that puts nothing into the queue. -/
theorem Outlet.of_writing (h : x.Outlet) {writer : WriterStage} {sink : Sink TransportPayload}
    {e : ConnectionEvent} (hstep : x.Step crc pb unmarshal e { x with writer, sink })
    (hx : x.writer.inside = false) (hret : x.writer ≠ .returned) (hy : writer.inside = false)
    (hhand : x.sink.stat = .opened ∨ writer.offers = true →
      (x.sink.stat = .opened ∨ x.writer.offers = true) ∧ writer.hand = x.writer.hand)
    (hend : writer.atEnd = true → x.Ended) (hstat : sink.stat = x.sink.stat)
    (hemitted : sink.emitted = x.sink.emitted)
    (hclosed : sink.queue.closed = x.sink.queue.closed) : Outlet { x with writer, sink } := by
  have hkeeps : x.Keeps { x with writer, sink } := by
    refine ⟨hemitted, Or.inl hstat, rfl, fun hopen => hhand (hopen.imp_left hstat.symm.trans),
      hy.trans hx.symm, fun hlast => ?_, id, rfl, id, id⟩
    rcases hlast with hlast | ⟨hlast, -⟩
    · rw [hlast] at hx
      cases hx
    · exact absurd hlast hret
  refine ⟨h.out, h.closed, fun hin => ?_, fun _ => hy, hend, ?_, fun hd => ?_,
    hkeeps.emission hstep h.emission⟩
  · exact h.inside (Or.inl (hin.resolve_right (by rw [hy]; nofun)))
  · rw [hclosed, hstat]
    exact h.disposed
  · rw [hstat]
    refine h.disposing (Or.inl (hd.resolve_right fun hd => ?_))
    rw [show writer = .completing .disposing from hd] at hy
    cases hy

theorem Outlet.receive (h : x.Outlet) (hselect : x.writer = .select) {resp : ResponsePayload}
    {c : Chan ResponsePayload 64} (hrecv : x.responses.recv = some (resp, c)) :
    Outlet { x with writer := .received resp, responses := c } := by
  obtain ⟨hsent, hreceived, hbuffer, hclosed⟩ := Chan.of_recv hrecv
  have hforwarded : ∀ fwd, x.Forwarded fwd →
      Forwarded { x with writer := .received resp, responses := c } fwd := by
    rintro fwd ⟨hpre, hopened⟩
    refine ⟨hpre.trans (hreceived ▸ List.prefix_append _ _), fun hopen => ?_⟩
    rw [hreceived, hopened (Or.inl (hopen.resolve_right nofun)), hselect]
    exact congrArg (· ++ [resp]) (List.append_nil fwd)
  refine ⟨?_, ?_, fun hin => ?_, fun _ => rfl, nofun, h.disposed, fun hd => ?_, ?_⟩
  · rw [hsent]
    exact h.out
  · rw [hclosed]
    exact h.closed
  · exact h.inside (Or.inl (hin.resolve_right nofun))
  · exact h.disposing (Or.inl (hd.resolve_right nofun))
  rcases h.emission with ⟨fwd, hfwd, hemitted, hlate, hend, hpanic⟩ |
    ⟨before, after, err, hfwd, hemitted, hcause, honce, -, hreader⟩
  · refine Or.inl ⟨fwd, hforwarded fwd hfwd, hemitted, hlate, fun hstat => ?_, hpanic⟩
    -- nothing is received after the sink is completed
    cases hbuffer.symm.trans (hend hstat).1.2.2
  · exact Or.inr ⟨before, after, err, hforwarded _ hfwd, hemitted, hcause, honce, rfl, hreader⟩

theorem Outlet.offer (h : x.Outlet) {resp : ResponsePayload}
    (hoffering : x.writer = .offering resp) :
    (x.sink.queue.closed = true → Outlet { x with panicked := true }) ∧
    ∀ queue, x.sink.queue.send resp.encode = some queue →
      Outlet { x with writer := .offered, sink := { x.sink with queue } } := by
  -- a sink that has got nothing but responses is not completed yet
  have hne : ∀ {fwd}, x.Plain fwd → x.sink.stat ≠ .completed := by
    rintro fwd ⟨-, -, -, hend, -⟩ hstat
    rcases (hend hstat).2.2 with hw | ⟨hw, -⟩ <;> cases hoffering.symm.trans hw
  refine ⟨fun hdisposed => ?_, fun queue hqueue => ?_⟩
  · refine ⟨h.out, h.closed, h.inside, h.excl, h.ended, h.disposed, h.disposing, ?_⟩
    rcases h.emission with ⟨fwd, hplain⟩ | hfailed
    · have hcancelled := SinkStat.eq_cancelled (h.disposed hdisposed) (hne hplain)
      obtain ⟨hfwd, hemitted, hlate, hend, -⟩ := hplain
      exact Or.inl ⟨fwd, hfwd, hemitted, hlate, hend, fun _ => hcancelled⟩
    · exact Or.inr hfailed
  obtain ⟨hsent, -, -, hclosed⟩ := Chan.of_send hqueue
  have hforwarded : ∀ fwd, x.Forwarded fwd →
      Forwarded { x with writer := .offered, sink := { x.sink with queue } } (fwd ++ [resp]) := by
    rintro fwd ⟨-, hopened⟩
    have hreceived := hopened (Or.inr (by rw [hoffering]; rfl))
    rw [hoffering, WriterStage.hand] at hreceived
    exact ⟨hreceived ▸ List.prefix_rfl, fun _ => hreceived.trans (List.append_nil _).symm⟩
  refine ⟨h.out, h.closed, fun hin => ?_, fun _ => rfl, nofun,
    fun hcl => h.disposed (hclosed ▸ hcl), fun hd => ?_, ?_⟩
  · exact h.inside (Or.inl (hin.resolve_right nofun))
  · exact h.disposing (Or.inl (hd.resolve_right nofun))
  rcases h.emission with ⟨fwd, hplain⟩ |
    ⟨before, after, err, hfwd, hemitted, hcause, honce, -, hreader⟩
  · have hstat := hne hplain
    obtain ⟨hfwd, hemitted, hlate, -, hpanic⟩ := hplain
    refine Or.inl ⟨_, hforwarded fwd hfwd, ?_, hlate, fun h => absurd h hstat, hpanic⟩
    rw [List.map_append, ← hemitted]
    exact hsent
  · refine Or.inr ⟨before, after ++ [resp], err, ?_, ?_, hcause, honce, rfl, hreader⟩
    · rw [← List.append_assoc]
      exact hforwarded _ hfwd
    · rw [List.map_append, ← List.cons_append, ← List.append_assoc, ← hemitted]
      exact hsent

theorem Outlet.writerFinish (h : x.Outlet) (hending : x.writer = .ending)
    (honce : x.once = .unused) :
    Outlet { x with once := .running, writer := .completing .looking, finished := true } := by
  obtain ⟨hreader, hwriter⟩ := h.not_inside honce
  obtain ⟨fwd, hplain⟩ := h.plain honce
  have hne : x.sink.stat ≠ .completed := hplain.stat_ne hwriter (by rw [honce]; nofun)
  obtain ⟨⟨hpre, hopened⟩, hemitted, hlate, -, hpanic⟩ := hplain
  rw [hending] at hopened
  refine ⟨h.out, h.closed, fun _ => rfl, fun hin => ?_, fun _ => h.ended (by rw [hending]; rfl),
    h.disposed, fun hd => ?_,
    Or.inl ⟨fwd, ⟨hpre, hopened⟩, hemitted, hlate, fun hstat => absurd hstat hne, hpanic⟩⟩
  · cases hreader.symm.trans hin
  · rw [show x.reader = .completing .disposing from hd.resolve_right nofun] at hreader
    cases hreader

/-- A writer inside `finishOnce` has emitted nothing but responses. -/
theorem Outlet.plain_of_inside (h : x.Outlet) (hin : x.writer.inside = true) :
    (∃ fwd, x.Plain fwd) ∧ x.reader.inside = false := by
  refine ⟨?_, Bool.eq_false_iff.mpr fun hr => ?_⟩
  · rcases h.emission with hplain | ⟨_, _, _, -, -, -, -, hwriter, -⟩
    · exact hplain
    · cases hin.symm.trans hwriter
  · cases hin.symm.trans (h.excl hr)

/-- The writer leaves `finishOnce`. -/
theorem Outlet.writerLeave (h : x.Outlet) {stage : CompleteStage}
    (hwriter : x.writer = .completing stage) {queue : Chan TransportPayload 256}
    (hsent : queue.sent = x.sink.queue.sent) (hclosed : queue.closed = true → x.sink.stat ≠ .opened)
    (hstat : x.sink.stat ≠ .opened) :
    Outlet { x with writer := .returned, once := .done, sink := { x.sink with queue } } := by
  obtain ⟨⟨fwd, hplain⟩, hreader⟩ := h.plain_of_inside (by rw [hwriter]; rfl)
  obtain ⟨⟨hpre, -⟩, hemitted, hlate, hend, hpanic⟩ := hplain
  refine ⟨h.out, h.closed, fun hin => ?_, fun _ => rfl, nofun, hclosed, fun _ => hstat,
    Or.inl ⟨fwd, ⟨hpre, fun hopen => ?_⟩, hsent.trans hemitted, hlate, fun hc => ?_, hpanic⟩⟩
  · cases hreader.symm.trans (hin.resolve_right nofun)
  · exact absurd (hopen.resolve_right nofun) hstat
  · exact ⟨(hend hc).1, (hend hc).2.1, Or.inr ⟨rfl, rfl⟩⟩

theorem Outlet.writerComplete (h : x.Outlet) {stage : CompleteStage} {next : Option CompleteStage}
    {sink : Sink TransportPayload} (hwriter : x.writer = .completing stage)
    (hcomplete : x.sink.complete stage = some (sink, next)) :
    (x.writerAt sink next).Outlet := by
  have hended := h.ended (by rw [hwriter]; rfl)
  obtain ⟨⟨fwd, hplain⟩, hreader⟩ := h.plain_of_inside (by rw [hwriter]; rfl)
  have honce := h.inside (Or.inr (by rw [hwriter]; rfl))
  obtain ⟨⟨hpre, hopened⟩, hemitted, hlate, hend, hpanic⟩ := hplain
  rw [hwriter] at hopened
  rcases Sink.complete_cases hcomplete with ⟨hwaits, rfl, stage', rfl, hne⟩ |
    ⟨-, hstat, rfl, rfl⟩ | ⟨-, hstat, rfl, rfl⟩ | ⟨rfl, rfl, rfl⟩
  · refine ⟨h.out, h.closed, fun _ => honce, fun hin => ?_, fun _ => hended, h.disposed,
      fun hd => ?_, Or.inl ⟨fwd, ⟨hpre, hopened⟩, hemitted, hlate, fun hc => ?_, hpanic⟩⟩
    · cases hreader.symm.trans hin
    · exact h.disposing (Or.inl (hd.resolve_right fun hd =>
        absurd (WriterStage.completing.inj hd) hne))
    · rcases (hend hc).2.2 with hw | ⟨hw, -⟩ <;> cases hwriter.symm.trans hw
      cases hwaits
  · have hreceived : x.responses.received = fwd :=
      (hopened (Or.inl hstat)).trans (List.append_nil fwd)
    refine ⟨h.out, h.closed, fun _ => honce, fun hin => ?_, fun _ => hended, fun _ => nofun,
      fun _ => nofun, Or.inl ⟨fwd, ⟨hpre, nofun⟩, hemitted, fun hl => ?_,
        fun _ => ⟨hended, hreceived, Or.inl rfl⟩, fun hp => ?_⟩⟩
    · cases hreader.symm.trans hin
    · cases hreader.symm.trans (ReaderStage.inside_of_late hl)
    · cases hstat.symm.trans (hpanic hp)
  · exact h.writerLeave hwriter rfl h.disposed hstat
  · exact h.writerLeave hwriter rfl (fun _ => h.disposing (Or.inr hwriter))
      (h.disposing (Or.inr hwriter))

theorem Outlet.writer (h : x.Outlet) {e : ConnectionEvent} (hstep : x.Step crc pb unmarshal e y)
    (hw : x.WriterStep e y) : y.Outlet := by
  cases e with
  | writerStop =>
    obtain ⟨hwriter, -, rfl⟩ := hw
    exact h.of_writing hstep (by rw [hwriter]; rfl) (by rw [hwriter]; nofun) rfl
      (fun hopen => ⟨Or.inl (hopen.resolve_right nofun), by rw [hwriter]; rfl⟩) nofun rfl rfl rfl
  | receive =>
    obtain ⟨hwriter, resp, c, hrecv, rfl⟩ := hw
    exact h.receive hwriter hrecv
  | receiveEnd =>
    obtain ⟨hwriter, ⟨hclosed, hbuffer⟩, rfl⟩ := hw
    obtain ⟨hstage, hpending⟩ := h.closed hclosed
    exact h.of_writing hstep (by rw [hwriter]; rfl) (by rw [hwriter]; nofun) rfl
      (fun hopen => ⟨Or.inl (hopen.resolve_right nofun), by rw [hwriter]; rfl⟩)
      (fun _ => ⟨hstage, hpending, hbuffer⟩) rfl rfl rfl
  | check =>
    obtain ⟨resp, hwriter, rfl⟩ := hw
    refine h.of_writing hstep (by rw [hwriter]; rfl) (by rw [hwriter]; nofun) ?_ (fun hopen => ?_)
      (fun hend => ?_) rfl rfl rfl
    · split_ifs <;> rfl
    · split_ifs at hopen ⊢ with hstat
      · exact ⟨Or.inl hstat, by rw [hwriter]; rfl⟩
      · exact absurd (hopen.resolve_right nofun) hstat
    · split_ifs at hend <;> cases hend
  | offer =>
    obtain ⟨resp, hwriter, hy⟩ := hw
    obtain ⟨hpanic, hnext⟩ := h.offer hwriter
    obtain ⟨hclosed, rfl⟩ | ⟨queue, hqueue, rfl⟩ := hy
    · exact hpanic hclosed
    · exact hnext queue hqueue
  | writerDrain =>
    obtain ⟨hwriter, rfl⟩ := hw
    refine h.of_writing hstep (by rw [hwriter]; rfl) (by rw [hwriter]; nofun) ?_ (fun hopen => ?_)
      (fun hend => ?_) rfl rfl rfl
    · split_ifs <;> rfl
    · rw [hwriter]
      split_ifs at hopen ⊢ <;> exact ⟨Or.inl (hopen.resolve_right nofun), rfl⟩
    · split_ifs at hend <;> cases hend
  | writerFinish =>
    obtain ⟨hwriter, ⟨-, rfl⟩ | ⟨honce, rfl⟩⟩ := hw
    · exact h.of_writing hstep (by rw [hwriter]; rfl) (by rw [hwriter]; nofun) rfl
        (fun hopen => ⟨Or.inl (hopen.resolve_right nofun), by rw [hwriter]; rfl⟩) nofun rfl rfl rfl
    · exact h.writerFinish hwriter honce
  | writerComplete =>
    obtain ⟨stage, sink, next, hwriter, hcomplete, rfl⟩ := hw
    exact h.writerComplete hwriter hcomplete
  | _ => exact hw.elim

theorem Outlet.drain (h : x.Outlet) {e : ConnectionEvent} (hstep : x.Step crc pb unmarshal e y)
    (hd : x.DrainStep e y) : y.Outlet := by
  obtain ⟨reader, writer, sink, rfl, hreader, hwriter, hstat, hemitted, hclosed⟩ := hd.frame
  have hr : reader.inside = x.reader.inside ∧ reader.late = x.reader.late ∧
      (reader = .completing .disposing ↔ x.reader = .completing .disposing) ∧
      (x.reader = .returned → reader = .returned) := by
    rcases hreader with rfl | rfl
    · exact ⟨rfl, rfl, Iff.rfl, id⟩
    · exact ⟨x.reader.inside_drained, x.reader.late_drained, x.reader.drained_eq_disposing,
        fun hret => by rw [hret]; rfl⟩
  have hw : writer.inside = x.writer.inside ∧ writer.hand = x.writer.hand ∧
      writer.offers = x.writer.offers ∧ writer.atEnd = x.writer.atEnd ∧
      (writer = .completing .disposing ↔ x.writer = .completing .disposing) ∧
      (x.writer = .returned → writer = .returned) := by
    rcases hwriter with rfl | rfl
    · exact ⟨rfl, rfl, rfl, rfl, Iff.rfl, id⟩
    · exact ⟨x.writer.inside_drained, x.writer.hand_drained, x.writer.offers_drained,
        x.writer.atEnd_drained, x.writer.drained_eq_disposing, fun hret => by rw [hret]; rfl⟩
  obtain ⟨hinside, hlate, hdisposing, hreturned⟩ := hr
  obtain ⟨hwinside, hhand, hoffers, hatEnd, hwdisposing, hwreturned⟩ := hw
  have hkeeps : x.Keeps { x with reader, writer, sink } := by
    refine ⟨hemitted, Or.inl hstat, rfl, ?_, hwinside, fun hlast => ?_, id, rfl, ?_, fun hl => ?_⟩
    · dsimp only
      rw [hstat, hoffers]
      exact fun hopen => ⟨hopen, hhand⟩
    · exact hlast.imp hwdisposing.mpr fun hlast => ⟨hwreturned hlast.1, hlast.2⟩
    · exact fun hl => hlate ▸ hl
    · exact hl.imp (fun hl => hlate.trans hl) hreturned
  refine ⟨h.out, h.closed, ?_, ?_, ?_, ?_, ?_, hkeeps.emission hstep h.emission⟩ <;> dsimp only
  · rw [hinside, hwinside]
    exact h.inside
  · rw [hinside, hwinside]
    exact h.excl
  · rw [hatEnd]
    exact h.ended
  · rw [hclosed, hstat]
    exact h.disposed
  · rw [hdisposing, hwdisposing, hstat]
    exact h.disposing

theorem Outlet.step (h : x.Outlet) (hinlet : x.Inlet) {e : ConnectionEvent}
    (hstep : x.Step crc pb unmarshal e y) : y.Outlet := by
  obtain ⟨-, ht | hr | hc | hw | hd⟩ := id hstep
  · exact h.transport hstep ht
  · exact h.reader hinlet hstep hr
  · exact h.channel hstep hc
  · exact h.writer hstep hw
  · exact h.drain hstep hd

/-! ## The result -/

theorem inlet_outlet {server : ErasureServer δ} {events : List ConnectionEvent}
    (h : Run (Step crc pb unmarshal) (new server) events x) : x.Inlet ∧ x.Outlet :=
  h.invariant (I := fun x => x.Inlet ∧ x.Outlet)
    (fun _ _ _ h hstep => ⟨h.1.step hstep, h.2.step h.1 hstep⟩)
    ⟨inlet_new server, outlet_new server⟩

/-- In every run, the sink gets the responses of the request channel in order. Once it is
completed it has got all of them, and the request channel has returned.

The exception is an error of the reader : it is emitted once, between any two responses, and then
the sink may be completed while there are responses left. Only then, or when the transport cancels
the sink, the writer may send on the closed queue. -/
theorem emitted_eq {server : ErasureServer δ} {events : List ConnectionEvent}
    (h : Run (Step crc pb unmarshal) (new server) events x) :
    (∃ n, x.sink.emitted = (x.channel.out.take n).map ResponsePayload.encode ∧
      (x.sink.stat = .completed → x.channel.stage = .returned ∧ x.channel.out.length ≤ n) ∧
      (x.panicked = true → x.sink.stat = .cancelled)) ∨
    ∃ i j err, i ≤ j ∧ x.Cause err ∧
      x.sink.emitted = (x.channel.out.take i).map ResponsePayload.encode ++
        encodePayload .error (some err) ::
          ((x.channel.out.take j).drop i).map ResponsePayload.encode := by
  obtain ⟨-, houtlet⟩ := inlet_outlet h
  have hout : x.responses.received <+: x.channel.out := by
    rw [houtlet.out]
    exact x.responses.received_prefix.trans (List.prefix_append _ _)
  rcases houtlet.emission with ⟨fwd, ⟨hpre, -⟩, hemitted, -, hend, hpanic⟩ |
    ⟨before, after, err, ⟨hpre, -⟩, hemitted, hcause, -⟩
  · refine Or.inl ⟨fwd.length, ?_, fun hstat => ?_, hpanic⟩
    · rw [hemitted, ← List.prefix_iff_eq_take.mp (hpre.trans hout)]
    · obtain ⟨⟨hstage, hpending, hbuffer⟩, hreceived, -⟩ := hend hstat
      refine ⟨hstage, ?_⟩
      rw [houtlet.out, hpending, Chan.sent, hbuffer, hreceived, List.append_nil, List.append_nil]
  · have htake := List.prefix_iff_eq_take.mp (hpre.trans hout)
    refine Or.inr ⟨before.length, (before ++ after).length, err, ?_, hcause, ?_⟩
    · rw [List.length_append]
      exact Nat.le_add_right _ _
    · have hbefore := List.prefix_iff_eq_take.mp
        ((List.prefix_append before after).trans (hpre.trans hout))
      rw [hemitted, ← htake, List.drop_left, ← hbefore]

/-- Whoever drains goes on. -/
theorem step_drain (stage : DrainStage TransportPayload) {sink : Sink TransportPayload}
    (hp : x.panicked = false) (h : x.sink.draining = some stage) (hne : stage ≠ .leaving)
    (hsink : x.sink.drain stage = sink) : x.Step crc pb unmarshal .drain { x with sink } :=
  ⟨hp, Or.inr (Or.inr (Or.inr (Or.inr ⟨stage, h, hne, by rw [hsink]⟩)))⟩

theorem step_leave (hp : x.panicked = false) (h : x.sink.draining = some .leaving)
    (hlock : ¬x.Locked) : x.Step crc pb unmarshal .leave x.leave :=
  ⟨hp, Or.inr (Or.inr (Or.inr (Or.inr ⟨h, hlock, rfl⟩)))⟩

/-- The client asks for five payloads. The writer is about to put a response into the queue, and the
next payload is not decoded. -/
theorem exists_run_panic : ∃ x : Connection Unit,
    Run (Step crc32Update protobuf unmarshalRequest) (new bareServer)
      [.request 5, .requestDrain, .drain, .drain, .drain, .drain, .leave,
        .deliver unknownPayload, .take, .send, .payload unknownRequest, .push, .receive, .check,
        .deliver ⟨[], none⟩, .take, .emitError, .readerOffer, .readerDrain, .drain, .drain, .drain,
        .drain, .drain, .drain, .drain, .drain, .leave, .readerFinish, .readerComplete,
        .readerComplete, .readerComplete, .readerComplete, .offer] x ∧
      x.panicked = true ∧ x.sink.stat = .completed :=
  ⟨_, .cons ⟨rfl, Or.inl rfl⟩ <|
    .cons ⟨rfl, Or.inl ⟨_, rfl, rfl⟩⟩ <|
    .cons (step_drain .asking rfl rfl nofun rfl) <|
    .cons (step_drain .granted rfl rfl nofun rfl) <|
    .cons (step_drain .polling rfl rfl nofun rfl) <|
    .cons (step_drain .refused rfl rfl nofun rfl) <|
    .cons (step_leave rfl rfl nofun) <|
    .cons ⟨rfl, Or.inl ⟨_, rfl, rfl⟩⟩ <|
    .cons ⟨rfl, Or.inr (Or.inl ⟨rfl, rfl, _, _, rfl, rfl⟩)⟩ <|
    .cons ⟨rfl, Or.inr (Or.inl ⟨_, _, rfl, rfl, rfl⟩)⟩ <|
    .cons ⟨rfl, Or.inr (Or.inr (Or.inl ⟨rfl, _, _, rfl, ⟨Or.inl rfl, rfl⟩, rfl⟩))⟩ <|
    .cons ⟨rfl, Or.inr (Or.inr (Or.inl ⟨_, _, _, rfl, rfl, rfl⟩))⟩ <|
    .cons ⟨rfl, Or.inr (Or.inr (Or.inr (Or.inl ⟨rfl, _, _, rfl, rfl⟩)))⟩ <|
    .cons ⟨rfl, Or.inr (Or.inr (Or.inr (Or.inl ⟨_, rfl, rfl⟩)))⟩ <|
    .cons ⟨rfl, Or.inl ⟨_, rfl, rfl⟩⟩ <|
    .cons ⟨rfl, Or.inr (Or.inl ⟨rfl, rfl, _, _, rfl, rfl⟩)⟩ <|
    .cons ⟨rfl, Or.inr (Or.inl ⟨_, rfl, Or.inr ⟨rfl, rfl⟩⟩)⟩ <|
    .cons ⟨rfl, Or.inr (Or.inl ⟨_, rfl, Or.inr ⟨_, rfl, rfl⟩⟩)⟩ <|
    .cons ⟨rfl, Or.inr (Or.inl ⟨rfl, rfl⟩)⟩ <|
    .cons (step_drain .asking rfl rfl nofun rfl) <|
    .cons (step_drain .granted rfl rfl nofun rfl) <|
    .cons (step_drain .polling rfl rfl nofun rfl) <|
    .cons (step_drain (.handing _) rfl rfl nofun rfl) <|
    .cons (step_drain .asking rfl rfl nofun rfl) <|
    .cons (step_drain .granted rfl rfl nofun rfl) <|
    .cons (step_drain .polling rfl rfl nofun rfl) <|
    .cons (step_drain .refused rfl rfl nofun rfl) <|
    .cons (step_leave rfl rfl nofun) <|
    .cons ⟨rfl, Or.inr (Or.inl ⟨rfl, rfl⟩)⟩ <|
    .cons ⟨rfl, Or.inr (Or.inl ⟨_, _, _, rfl, rfl, rfl⟩)⟩ <|
    .cons ⟨rfl, Or.inr (Or.inl ⟨_, _, _, rfl, rfl, rfl⟩)⟩ <|
    .cons ⟨rfl, Or.inr (Or.inl ⟨_, _, _, rfl, rfl, rfl⟩)⟩ <|
    .cons ⟨rfl, Or.inr (Or.inl ⟨_, _, _, rfl, rfl, rfl⟩)⟩ <|
    .cons ⟨rfl, Or.inr (Or.inr (Or.inr (Or.inl ⟨_, rfl, Or.inl ⟨rfl, rfl⟩⟩)))⟩ .nil, rfl, rfl⟩

/-- So the sink has got the error of the reader. -/
theorem emitted_eq_panic : ∃ events, ∃ x : Connection Unit,
    Run (Step crc32Update protobuf unmarshalRequest) (new bareServer) events x ∧
    x.panicked = true ∧ ∃ i j err, i ≤ j ∧ x.Cause err ∧
      x.sink.emitted = (x.channel.out.take i).map ResponsePayload.encode ++
        encodePayload .error (some err) ::
          ((x.channel.out.take j).drop i).map ResponsePayload.encode := by
  obtain ⟨x, hrun, hpanicked, hstat⟩ := exists_run_panic
  refine ⟨_, x, hrun, hpanicked, ?_⟩
  rcases emitted_eq hrun with ⟨n, -, -, hpanic⟩ | hfailed
  · cases hstat.symm.trans (hpanic hpanicked)
  · exact hfailed

end Connection

end Corgi
