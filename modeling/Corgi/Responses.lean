import Corgi.RequestChannel

/-!
# The responses of a channel

What a channel answers in each phase, and what its handler still holds when the channel has
returned.

`RequestChannel.Phase.types_of_starts` : the responses to the payloads of an upload.

`RequestChannel.Phase.returns_all_iff` : what a channel that returned without SUCCESS leaves
behind.
-/

set_option linter.unusedSectionVars false

namespace Corgi

namespace RequestChannel

variable {crc : BitVec 32 → Bytes → BitVec 32} {pb : Protobuf}
  {unmarshal : Bytes → Except String PutInitRequest} {δ : Type} {c : RequestChannel δ} {device : δ}
  {u : Upload} {datas : List Bytes} {last : List UploadCall}

/-! ## The responses -/

/-- The meta types of the responses so far. -/
def types (c : RequestChannel δ) : List PayloadMetaType :=
  c.out.map ResponsePayload.metaType

theorem metaType_of_call_put {p : RequestPayload} {data : Bytes} (h : p.call = some (.put data)) :
    p.metaType ∈ [.putObject, .partUpload] := by
  unfold RequestPayload.call at h
  split at h <;> first
    | (rw [‹p.metaType = _›]; decide)
    | cases h

theorem metaType_of_call_complete {p : RequestPayload} (h : p.call = some .complete) :
    p.metaType ∈ [.completePutObject, .completePartUpload] := by
  unfold RequestPayload.call at h
  split at h <;> first
    | (rw [‹p.metaType = _›]; decide)
    | cases h

theorem metaType_payload_eq_success {r : Response} (h : r.payload.metaType = .success) :
    r = .success := by
  cases r with
  | success => rfl
  | _ => cases h

/-- A response `tail` that ends the channel. -/
inductive Final : List ResponsePayload → Prop
  | none : Final []
  | success : Final [⟨.success, none⟩]
  | error (e : RequestError) : Final [⟨.error, some e⟩]

theorem final_payload {r : Response} (h : r ≠ .cont) : Final [r.payload] := by
  cases r with
  | cont => exact absurd rfl h
  | success => exact .success
  | error e => exact .error _

/-- The responses are CONTINUE, and at most one that ends the channel. -/
theorem Phase.out_eq (h : c.Phase unmarshal) : ∃ n tail,
    c.out = List.replicate n (Response.payload .cont) ++ tail ∧ Final tail := by
  cases h with
  | fresh h => exact ⟨0, [], congrArg out h, .none⟩
  | unused h => exact ⟨0, [], congrArg out h, .none⟩
  | refused p e hstart hputs h => exact ⟨0, _, congrArg out h, .error e⟩
  | ready device u datas _ _ _ _ _ hout =>
    exact ⟨datas.length, [], by rw [hout, List.append_nil], .none⟩
  | waiting next device u datas last _ _ _ _ _ _ hout =>
    exact ⟨c.taken, [], by rw [hout, List.append_nil], .none⟩
  | answered device u datas last n r _ _ _ _ _ _ _ hcont _ hout =>
    exact ⟨n, _, hout, final_payload hcont⟩
  | abandoned device u datas ps rest _ _ _ _ _ hrest =>
    rcases hrest with ⟨-, -, hout⟩ | ⟨p, e, -, -, -, hout⟩
    · exact ⟨datas.length, [], by rw [hout, List.append_nil], .none⟩
    · exact ⟨datas.length, _, hout, .error e⟩

/-- Payloads and responses, when every payload but perhaps the last asks for a call. -/
theorem answers_of_asked {ps : List RequestPayload} {datas : List Bytes} {last : List UploadCall}
    {rest : List (Option UploadCall)} (hps : ps.map RequestPayload.call =
      (datas.map UploadCall.put ++ last).map some ++ rest) {n : ℕ} (hn : n ≤ datas.length)
    {tail : List ResponsePayload} (htail : Final tail)
    (hsuccess : tail = [⟨.success, none⟩] → n = datas.length ∧ last = [.complete])
    {j : ℕ} {q : RequestPayload} {r : ResponsePayload} (hq : ps[j]? = some q)
    (hr : (List.replicate n (Response.payload .cont) ++ tail)[j]? = some r) :
    (r.metaType = .cont → q.metaType ∈ [.putObject, .partUpload]) ∧
    (r.metaType = .success → q.metaType ∈ [.completePutObject, .completePartUpload] ∧ j = n) := by
  have hcall : some q.call = ((datas.map UploadCall.put ++ last).map some ++ rest)[j]? := by
    rw [← hps, List.getElem?_map, hq]
    rfl
  rcases Nat.lt_or_ge j n with hj | hj
  · -- a CONTINUE answers a `Put`
    rw [List.getElem?_append_left (by rwa [List.length_replicate]),
      List.getElem?_replicate_of_lt hj] at hr
    obtain rfl := Option.some.inj hr
    have hlt : j < datas.length := by omega
    refine ⟨fun _ => @metaType_of_call_put q datas[j] ?_, nofun⟩
    rw [List.map_append, List.append_assoc, List.getElem?_append_left (by simpa using hlt),
      List.map_map, List.getElem?_map, List.getElem?_eq_getElem hlt] at hcall
    exact Option.some.inj hcall
  · rw [List.getElem?_append_right (by rwa [List.length_replicate]), List.length_replicate] at hr
    obtain ⟨hlt, hr⟩ := List.getElem?_eq_some_iff.mp hr
    cases htail with
    | none => cases hlt
    | success =>
      have hj : j = n := by
        rw [List.length_singleton] at hlt
        omega
      subst hj
      obtain ⟨rfl, rfl⟩ := hsuccess rfl
      rw [List.map_append, List.append_assoc, List.getElem?_append_right (by simp), List.length_map,
        List.length_map, Nat.sub_self] at hcall
      have hcomplete := metaType_of_call_complete (Option.some.inj hcall)
      simp only [Nat.sub_self, List.getElem_cons_zero] at hr
      subst hr
      exact ⟨nofun, fun _ => ⟨hcomplete, rfl⟩⟩
    | error e =>
      rw [List.getElem_singleton] at hr
      subst hr
      exact ⟨nofun, nofun⟩

theorem Asked.map_call {s : ErasureServer δ} {p : RequestPayload} {ps : List RequestPayload}
    {calls : List UploadCall} (h : Asked unmarshal s (p :: ps) calls) :
    ps.map RequestPayload.call = calls.map some := by
  obtain ⟨p', ps', heq, -, hps⟩ := h
  obtain ⟨-, rfl⟩ := List.cons.inj heq
  exact hps

theorem AskedAtOnce.not_starts {s : ErasureServer δ} {p : RequestPayload}
    {ps : List RequestPayload} {calls : List UploadCall}
    (h : AskedAtOnce unmarshal s (p :: ps) calls) : ¬s.Starts unmarshal p := by
  obtain ⟨p', body, heq, hputs, -⟩ := h
  obtain ⟨rfl, -⟩ := List.cons.inj heq
  exact fun hstarts => hstarts.not_puts body hputs

/-- A channel that started an upload has answered every payload, or is at work on the last. -/
theorem Phase.of_starts (h : c.Phase unmarshal) {p : RequestPayload} {ps : List RequestPayload}
    (hprocessed : c.processed = p :: ps) (hstarts : c.server.Starts unmarshal p) :
    ∃ (datas : List Bytes) (last : List UploadCall) (rest : List (Option UploadCall)) (n : ℕ)
      (tail : List ResponsePayload),
      ps.map RequestPayload.call = (datas.map UploadCall.put ++ last).map some ++ rest ∧
      n ≤ datas.length ∧ Final tail ∧
      (tail = [⟨.success, none⟩] → n = datas.length ∧ last = [.complete]) ∧
      c.out = List.replicate n (Response.payload .cont) ++ tail ∧
      (n + tail.length = ps.length ∨
        (∃ next, c.stage = .waiting next) ∧ n + tail.length + 1 = ps.length) := by
  have hlength : ∀ {calls : List UploadCall} {rest}, ps.map RequestPayload.call =
      calls.map some ++ rest → ps.length = calls.length + rest.length := by
    intro calls rest hps
    have hlen := congrArg List.length hps
    rwa [List.length_append, List.length_map, List.length_map] at hlen
  cases h with
  | fresh h => rw [h] at hprocessed; cases hprocessed
  | unused h => rw [h] at hprocessed; cases hprocessed
  | refused p' e hnot hputs h =>
    rw [h] at hprocessed
    obtain ⟨rfl, -⟩ := List.cons.inj hprocessed
    exact absurd hstarts hnot
  | ready device u datas _ _ _ _ hasked hout =>
    rw [hprocessed] at hasked
    have hps : ps.map RequestPayload.call = (datas.map UploadCall.put ++ []).map some ++ [] := by
      rw [hasked.map_call, List.append_nil, List.append_nil]
    refine ⟨datas, [], [], datas.length, [], hps, le_rfl, .none, nofun, ?_, Or.inl ?_⟩
    · rw [hout, List.append_nil]
    · rw [hlength hps]
      simp
  | waiting next device u datas last hstage _ htalks hexpects htaken _ hout =>
    have hasked := hexpects.asked
    rw [hprocessed] at hasked
    have hps := (hasked.resolve_right fun h => h.not_starts hstarts).map_call
    have hle : c.taken ≤ datas.length := by
      rcases htalks.last with rfl | rfl | rfl <;> simp at htaken <;> omega
    refine ⟨datas, last, [], c.taken, [], by rw [hps, List.append_nil], hle, .none, nofun, ?_,
      Or.inr ⟨⟨next, hstage⟩, ?_⟩⟩
    · rw [hout, List.append_nil]
    · rw [hlength (hps.trans (List.append_nil _).symm), List.length_append, List.length_map]
      exact htaken
  | answered device u datas last n r _ _ htalks _ hasked hn _ hcont hsuccess hout =>
    rw [hprocessed] at hasked
    have hps := (hasked.resolve_right fun h => h.not_starts hstarts).map_call
    have hle : n ≤ datas.length := by
      rcases htalks.last with rfl | rfl | rfl <;> simp at hn <;> omega
    refine ⟨datas, last, [], n, [r.payload], by rw [hps, List.append_nil], hle, final_payload hcont,
      fun h => ?_, hout, Or.inl ?_⟩
    · have hr : r = .success := by
        refine metaType_payload_eq_success ?_
        rw [(List.cons.inj h).1]
      obtain rfl := hsuccess hr
      exact ⟨Nat.succ.inj hn, rfl⟩
    · rw [hlength (hps.trans (List.append_nil _).symm), List.length_append, List.length_map]
      exact hn
  | abandoned device u datas ps' rest _ _ _ hasked hprocessed' hrest =>
    obtain ⟨p', ps'', rfl, -, hps'⟩ := hasked
    obtain ⟨rfl, rfl⟩ := List.cons.inj (hprocessed.symm.trans hprocessed')
    have hps : (ps'' ++ rest).map RequestPayload.call =
        (datas.map UploadCall.put ++ []).map some ++ rest.map RequestPayload.call := by
      rw [List.map_append, hps', List.append_nil]
    have hlen := hlength hps
    rw [List.length_append, List.length_map, List.length_map] at hlen
    rcases hrest with ⟨rfl, -, hout⟩ | ⟨q, e, rfl, -, -, hout⟩
    · refine ⟨datas, [], _, datas.length, [], hps, le_rfl, .none, nofun, ?_, Or.inl hlen.symm⟩
      rw [hout, List.append_nil]
    · exact ⟨datas, [], _, datas.length, _, hps, le_rfl, .error e, nofun, hout, Or.inl hlen.symm⟩

theorem Asked.not_puts {s : ErasureServer δ} {p : RequestPayload} {ps : List RequestPayload}
    {calls : List UploadCall} (h : Asked unmarshal s (p :: ps) calls) (body : Bytes) :
    ¬s.Puts unmarshal p body := by
  obtain ⟨p', ps', heq, hstarts, -⟩ := h
  obtain ⟨rfl, -⟩ := List.cons.inj heq
  exact hstarts.not_puts body

theorem metaType_payload {r : Response} (h : r ≠ .cont) :
    r.payload.metaType = .success ∧ r = .success ∨ r.payload.metaType = .error := by
  cases r with
  | cont => exact absurd rfl h
  | success => exact Or.inl ⟨rfl, rfl⟩
  | error e => exact Or.inr rfl

/-- A channel that got the whole upload at once. -/
theorem Phase.of_puts (h : c.Phase unmarshal) {p : RequestPayload} {ps : List RequestPayload}
    {body : Bytes} (hprocessed : c.processed = p :: ps) (hputs : c.server.Puts unmarshal p body) :
    ps = [] ∧ ((c.stage = .returned ∧
      (c.types = [.error] ∨ c.types = [.cont, .success] ∨ c.types = [.cont, .error])) ∨
      (∃ next, c.stage = .waiting next) ∧ (c.types = [] ∨ c.types = [.cont])) := by
  -- one payload asks for one call or for two
  have honce : ∀ {calls : List UploadCall}, Asked unmarshal c.server c.processed calls ∨
      AskedAtOnce unmarshal c.server c.processed calls →
      ps = [] ∧ (calls.length = 1 ∧ .complete ∉ calls ∨ calls.length = 2) := by
    intro calls hasked
    rw [hprocessed] at hasked
    obtain ⟨p', body', heq, -, hcalls⟩ := hasked.resolve_left fun h => h.not_puts body hputs
    obtain ⟨-, rfl⟩ := List.cons.inj heq
    rcases hcalls with rfl | rfl
    · exact ⟨rfl, Or.inl ⟨rfl, by simp⟩⟩
    · exact ⟨rfl, Or.inr rfl⟩
  cases h with
  | fresh h => rw [h] at hprocessed; cases hprocessed
  | unused h => rw [h] at hprocessed; cases hprocessed
  | refused p' e _ hnot h =>
    rw [h] at hprocessed
    obtain ⟨rfl, -⟩ := List.cons.inj hprocessed
    exact absurd hputs (hnot body)
  | ready device u datas _ _ _ _ hasked =>
    rw [hprocessed] at hasked
    exact absurd hputs (hasked.not_puts body)
  | abandoned device u datas ps' rest _ _ _ hasked hprocessed' =>
    obtain ⟨p', ps'', rfl, hstarts, -⟩ := hasked
    obtain ⟨rfl, -⟩ := List.cons.inj (hprocessed.symm.trans hprocessed')
    exact absurd hputs (hstarts.not_puts body)
  | waiting next device u datas last hstage _ _ hexpects htaken _ hout =>
    obtain ⟨rfl, hlen⟩ := honce hexpects.asked
    rw [List.length_append, List.length_map, ← htaken] at hlen
    refine ⟨rfl, Or.inr ⟨⟨next, hstage⟩, ?_⟩⟩
    rw [types, hout]
    rcases hlen with ⟨hlen, -⟩ | hlen
    · rw [Nat.succ.inj hlen]
      exact Or.inl rfl
    · rw [Nat.succ.inj hlen]
      exact Or.inr rfl
  | answered device u datas last n r hstage _ _ _ hasked hn _ hcont hsuccess hout =>
    obtain ⟨rfl, hlen⟩ := honce hasked
    rw [List.length_append, List.length_map, ← hn] at hlen
    refine ⟨rfl, Or.inl ⟨hstage, ?_⟩⟩
    rw [types, hout]
    rcases hlen with ⟨hlen, hnot⟩ | hlen
    · -- the only call is `Put`, and that is not answered with SUCCESS
      rw [Nat.succ.inj hlen]
      rcases metaType_payload hcont with ⟨-, hr⟩ | hr
      · rw [hsuccess hr] at hnot
        exact absurd (List.mem_append_right _ (List.mem_singleton_self _)) hnot
      · exact Or.inl (congrArg (fun t => [t]) hr)
    · rw [Nat.succ.inj hlen]
      rcases metaType_payload hcont with ⟨hr, -⟩ | hr
      · exact Or.inr (Or.inl (congrArg (fun t => [PayloadMetaType.cont, t]) hr))
      · exact Or.inr (Or.inr (congrArg (fun t => [PayloadMetaType.cont, t]) hr))

/-- A channel whose first payload starts nothing. -/
theorem Phase.of_refused (h : c.Phase unmarshal) {p : RequestPayload} {ps : List RequestPayload}
    (hprocessed : c.processed = p :: ps) (hstarts : ¬c.server.Starts unmarshal p)
    (hputs : ∀ body, ¬c.server.Puts unmarshal p body) :
    ps = [] ∧ c.stage = .returned ∧ c.types = [.error] := by
  have hnot : ∀ {calls : List UploadCall}, Asked unmarshal c.server c.processed calls ∨
      AskedAtOnce unmarshal c.server c.processed calls → False := by
    rintro calls (⟨p', ps', heq, h, -⟩ | ⟨p', body, heq, h, -⟩) <;>
      obtain ⟨rfl, -⟩ := List.cons.inj (hprocessed.symm.trans heq)
    · exact hstarts h
    · exact hputs body h
  cases h with
  | fresh h => rw [h] at hprocessed; cases hprocessed
  | unused h => rw [h] at hprocessed; cases hprocessed
  | refused p' e _ _ h =>
    have hps := hprocessed
    rw [h] at hps
    obtain ⟨-, rfl⟩ := List.cons.inj hps
    refine ⟨rfl, congrArg stage h, ?_⟩
    rw [h]
    rfl
  | ready device u datas _ _ _ _ hasked => exact (hnot (Or.inl hasked)).elim
  | waiting next device u datas last _ _ _ hexpects => exact (hnot hexpects.asked).elim
  | answered device u datas last n r _ _ _ _ hasked => exact (hnot hasked).elim
  | abandoned device u datas ps' rest _ _ _ hasked hprocessed' =>
    obtain ⟨p', ps'', rfl, h, -⟩ := hasked
    obtain ⟨rfl, -⟩ := List.cons.inj (hprocessed.symm.trans hprocessed')
    exact absurd h hstarts

theorem types_of_out {n : ℕ} {tail : List ResponsePayload}
    (h : c.out = List.replicate n (Response.payload .cont) ++ tail) :
    c.types = List.replicate n .cont ++ tail.map ResponsePayload.metaType := by
  rw [types, h, List.map_append, List.map_replicate]
  rfl

theorem Phase.types_eq (h : c.Phase unmarshal) : ∃ n tail,
    c.types = List.replicate n .cont ++ tail ∧
      (tail = [] ∨ tail = [.success] ∨ tail = [.error]) := by
  obtain ⟨n, tail, hout, hfinal⟩ := h.out_eq
  refine ⟨n, _, types_of_out hout, ?_⟩
  cases hfinal with
  | none => exact Or.inl rfl
  | success => exact Or.inr (Or.inl rfl)
  | error e => exact Or.inr (Or.inr rfl)

theorem Phase.types_of_nil (h : c.Phase unmarshal) (hnil : c.processed = []) : c.types = [] := by
  have hnot : ∀ {ps calls}, Asked unmarshal c.server ps calls ∨
      AskedAtOnce unmarshal c.server ps calls → ps ≠ [] := by
    rintro ps calls (⟨p, ps', rfl, -⟩ | ⟨p, body, rfl, -⟩) <;> exact List.cons_ne_nil _ _
  cases h with
  | fresh h => rw [h]; rfl
  | unused h => rw [h]; rfl
  | refused p e _ _ h => rw [h] at hnil; cases hnil
  | ready device u datas _ _ _ _ hasked => exact absurd hnil (hnot (Or.inl hasked))
  | waiting next device u datas last _ _ _ hexpects => exact absurd hnil (hnot hexpects.asked)
  | answered device u datas last n r _ _ _ _ hasked => exact absurd hnil (hnot hasked)
  | abandoned device u datas ps rest _ _ _ hasked hprocessed =>
    exact absurd (List.append_eq_nil_iff.mp (hprocessed.symm.trans hnil)).1 (hnot (Or.inl hasked))

theorem Phase.types_of_starts (h : c.Phase unmarshal) {p : RequestPayload}
    {ps : List RequestPayload} (hprocessed : c.processed = p :: ps)
    (hstarts : c.server.Starts unmarshal p) :
    (c.types.length = ps.length ∨
      (∃ next, c.stage = .waiting next) ∧ c.types.length + 1 = ps.length) ∧
    ∀ (j : ℕ) q r, ps[j]? = some q → c.types[j]? = some r →
      (r = .cont → q.metaType ∈ [.putObject, .partUpload]) ∧
      (r = .success → q.metaType ∈ [.completePutObject, .completePartUpload] ∧
        ∀ i < j, c.types[i]? = some .cont) := by
  obtain ⟨datas, last, rest, n, tail, hps, hn, hfinal, hsuccess, hout, hlen⟩ :=
    h.of_starts hprocessed hstarts
  have htypes := types_of_out hout
  refine ⟨?_, fun j q r hq hr => ?_⟩
  · rwa [htypes, List.length_append, List.length_replicate, List.length_map]
  · rw [types, List.getElem?_map, hout] at hr
    obtain ⟨payload, hpayload, rfl⟩ := Option.map_eq_some_iff.mp hr
    obtain ⟨hcont, hcomplete⟩ := answers_of_asked hps hn hfinal hsuccess hq hpayload
    refine ⟨hcont, fun hr => ⟨(hcomplete hr).1, fun i hi => ?_⟩⟩
    rw [(hcomplete hr).2] at hi
    rw [htypes, List.getElem?_append_left (by rwa [List.length_replicate]),
      List.getElem?_replicate_of_lt hi]

/-- How many steps at most the handler takes until it answers. -/
def work (c : RequestChannel δ) : ℕ :=
  (c.h.map fun h => h.2.work).getD 0

/-- A channel that waits for a response can forward it, or the handler is at work. -/
theorem Phase.forward_or_busy (h : c.Phase unmarshal) {next : AfterForward}
    (hstage : c.stage = .waiting next) :
    (∃ c', Step crc pb unmarshal c .forward c') ∨
      ∃ device u, c.h = some (device, u) ∧ u.Sound ∧ u.task ≠ .idle := by
  obtain ⟨device, u, datas, last, -, htalks, -, htaken, -, -⟩ := h.of_waiting hstage
  by_cases hidle : u.task = .idle
  · have hlen := htalks.sound.answered.idle hidle
    rw [htalks.asked_eq, ← htaken] at hlen
    have hlt : c.taken < u.responses.length := by omega
    exact Or.inl ⟨_, device, u, next, _, htalks.h, hstage, List.getElem?_eq_getElem hlt, rfl⟩
  · exact Or.inr ⟨device, u, htalks.h, htalks.sound, hidle⟩

/-! ## What a channel leaves behind -/

/-- The data of the payloads that put some. -/
def putsOf (ps : List RequestPayload) : List Bytes :=
  ps.filterMap fun p => p.call.bind UploadCall.data

/-- The payloads put so much that there was a flush, and then they came to an end or there was
one that is not expected. -/
def Abandoned (c : RequestChannel δ) : Prop :=
  (cutChunks (putsOf c.processed.tail)).1 ≠ [] ∧
    (c.closed = true ∨ ∃ p ∈ c.processed.tail, p.call = none)

theorem putsOf_of_map {ps : List RequestPayload} {datas : List Bytes}
    (h : ps.map RequestPayload.call = (datas.map UploadCall.put).map some) : putsOf ps = datas := by
  have hmap : putsOf ps =
      (ps.map RequestPayload.call).filterMap fun c => c.bind UploadCall.data := by
    rw [putsOf, List.filterMap_map]
    rfl
  rw [hmap, h, List.map_map, List.filterMap_map]
  exact List.filterMap_some

/-- A channel whose `Put` were all answered with CONTINUE holds a token for each flush. -/
theorem Talks.tokens_quiet (htalks : c.Talks device u datas []) (hquiet : c.Quiet u datas) :
    u.released = [] ∧ u.obtained.Perm u.tokens ∧
      u.tokens.length = (cutChunks datas).1.length := by
  rcases htalks.sound.stage.of_open hquiet.idle htalks.open with
    ⟨hholding, hcounts, hproper, -⟩ | ⟨-, -, -, e, he⟩
  · have htokens : u.tokens = u.handler.blockInfoList.map FlushBlockInfo.token := by
      rw [Upload.tokens, hquiet.idle, Handler.tokens]
      refine (List.append_nil _).trans
        (List.filter_eq_self.mpr fun token htoken => decide_eq_true ?_)
      obtain ⟨info, hinfo, rfl⟩ := List.mem_map.mp htoken
      exact (hproper info hinfo).token_ne
    have hbalanced := htalks.sound.balanced
    rw [Upload.Balanced, hholding.released, List.nil_append] at hbalanced
    refine ⟨hholding.released, hbalanced, ?_⟩
    rw [htokens, List.length_map, hcounts.pieces, htalks.putData_eq]
  · have hmem := List.mem_of_getLast? he
    rw [hquiet.responses] at hmem
    cases List.eq_of_mem_replicate hmem

/-- A channel that forwarded an ERROR as the last response holds nothing. -/
theorem Talks.tokens_error (htalks : c.Talks device u datas last) (hidle : u.task = .idle)
    {r : Response} (hr : u.responses.getLast? = some r) (hcont : r ≠ .cont)
    (hsuccess : r ≠ .success) :
    u.tokens = [] ∧ u.obtained.Perm u.released := by
  by_cases hlast : last = []
  · subst hlast
    rcases htalks.sound.stage.of_open hidle htalks.open with ⟨-, -, -, hall⟩ | ⟨-, -, hcleared, -⟩
    · exact absurd (hall r (List.mem_of_getLast? hr)) hcont
    · have htokens : u.tokens = [] := by
        rw [Upload.tokens, hcleared, hidle]
        rfl
      have hbalanced := htalks.sound.balanced
      rw [Upload.Balanced, htokens, List.append_nil] at hbalanced
      exact ⟨htokens, hbalanced⟩
  · obtain ⟨r', hr', -, hback, -⟩ := htalks.sound.of_ended (htalks.ended hlast) hidle
    obtain rfl := Option.some.inj (hr.symm.trans hr')
    exact hback (Or.inl hsuccess)

/-- A channel that has returned without SUCCESS has given back all that its handler obtained,
unless it was abandoned. -/
theorem Phase.returns_all_iff (h : c.Phase unmarshal) (hstage : c.stage = .returned)
    (hsuccess : .success ∉ c.types) :
    (∀ device u, c.h = some (device, u) → u.tokens = [] ∧ u.obtained.Perm u.released) ↔
      ¬c.Abandoned := by
  -- a single payload puts nothing
  have hshort : c.processed.tail = [] → ¬c.Abandoned := fun htail hab => by
    rw [Abandoned, htail] at hab
    exact hab.1 rfl
  cases h with
  | fresh h => cases (congrArg stage h).symm.trans hstage
  | unused h =>
    refine iff_of_true (fun device u hh => ?_) (hshort ?_)
    · cases hh.symm.trans (congrArg RequestChannel.h h)
    · rw [h]
      rfl
  | refused p e _ _ h =>
    refine iff_of_true (fun device u hh => ?_) (hshort ?_)
    · cases hh.symm.trans (congrArg RequestChannel.h h)
    · rw [h]
      rfl
  | ready _ _ _ h => cases h.symm.trans hstage
  | waiting _ _ _ _ _ h => cases h.symm.trans hstage
  | answered device u datas last n r _ hclosed htalks hidle hasked hn hr hcont _ hout =>
    refine iff_of_true (fun device' v hh => ?_) ?_
    · obtain ⟨-, rfl⟩ := Prod.mk.inj (Option.some.inj (hh.symm.trans htalks.h))
      refine htalks.tokens_error hidle hr hcont fun hrs => hsuccess ?_
      rw [types, hout, hrs]
      simp [Response.payload]
    · rcases hasked with ⟨p, ps, hprocessed, -, hps⟩ | ⟨p, body, hprocessed, -⟩
      · rintro ⟨-, h | ⟨q, hq, hnone⟩⟩
        · exact absurd (hclosed.symm.trans h) Bool.false_ne_true
        · rw [hprocessed, List.tail_cons] at hq
          have hmem := List.mem_map_of_mem (f := RequestPayload.call) hq
          rw [hps, hnone] at hmem
          simp at hmem
      · exact hshort (by rw [hprocessed]; rfl)
  | abandoned device u datas ps rest _ htalks hquiet hasked hprocessed hrest =>
    obtain ⟨p, ps', rfl, -, hps⟩ := hasked
    obtain ⟨hreleased, hperm, hlen⟩ := htalks.tokens_quiet hquiet
    have htail : c.processed.tail = ps' ++ rest := by
      rw [hprocessed]
      rfl
    have hputs : putsOf c.processed.tail = datas := by
      have hrest' : putsOf rest = [] := by
        rcases hrest with ⟨rfl, -⟩ | ⟨q, e, rfl, hq, -⟩
        · rfl
        · rw [putsOf, List.filterMap_cons_none (by rw [hq]; rfl), List.filterMap_nil]
      rw [htail, putsOf, List.filterMap_append]
      exact (congrArg₂ (· ++ ·) (putsOf_of_map hps) hrest').trans (List.append_nil _)
    have hends : c.closed = true ∨ ∃ q ∈ c.processed.tail, q.call = none := by
      rcases hrest with ⟨-, h, -⟩ | ⟨q, e, rfl, hq, -⟩
      · exact Or.inl h
      · refine Or.inr ⟨q, ?_, hq⟩
        rw [htail]
        exact List.mem_append_right _ (List.mem_singleton_self q)
    have hiff : c.Abandoned ↔ u.tokens ≠ [] := by
      rw [Abandoned, hputs, and_iff_left hends, ← List.length_pos_iff, ← hlen, List.length_pos_iff]
    rw [hiff, not_not]
    constructor
    · exact fun hall => (hall device u htalks.h).1
    · rintro hnil device' v hh
      obtain ⟨-, rfl⟩ := Prod.mk.inj (Option.some.inj (hh.symm.trans htalks.h))
      rw [hnil] at hperm
      exact ⟨hnil, hreleased ▸ hperm⟩

end RequestChannel

end Corgi
