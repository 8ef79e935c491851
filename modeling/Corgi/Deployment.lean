import Corgi.Workers

/-!
# The client and the server

The workers of a client upload to a process of the server, which may crash and come up again at
any time. A worker gets what a connection has handed out, be it that the connection is gone by then.

`Deployment.delivered` : every upload that the client counts as done is stored by the server under
the names that the client has sent, and is kept from then on, and so are all uploads once
`runUploads` has returned nil.
-/

set_option linter.unusedSectionVars false

namespace Corgi

/-! ## The model -/

/-- A client and a server. -/
structure Deployment where
  host : Host
  pool : Pool
  /-- The states that connections were in. -/
  seen : List (Connection Unit)
  /-- The data of the START payload of each upload that `uploadOnce` has returned from. -/
  sent : List (ℕ × Bytes)

/-- What happens to them. -/
inductive DeploymentEvent
  | host (e : HostEvent)
  /-- A step of the client in which no call of `uploadOnce` returns. -/
  | pool (e : PoolEvent)
  /-- `uploadOnce` returns to the worker `k`. -/
  | uploadOnce (k : ℕ) (rand : Except String (Fin 16 → Byte)) (nano : ℤ)
    (responses : Except String (List TransportPayload))

namespace DeploymentEvent

/-- No write is left in flight. -/
def Waits : DeploymentEvent → Prop
  | .host e => e.Waits
  | _ => True

/-- The event of the server. -/
def ofHost : DeploymentEvent → Option HostEvent
  | .host e => some e
  | _ => none

end DeploymentEvent

namespace Deployment

section

variable (crc : BitVec 32 → Bytes → BitVec 32) (pb : Protobuf) (json : JSONDeleteMark)
  (unmarshal : Bytes → Except String PutInitRequest) (name : String) (n : ℕ) (cfg : ClientConfig)
  (deadline : Bool)

/-- The responses come from a connection to which the upload `id` was sent. -/
def Received (seen : List (Connection Unit)) (id : ℕ) (data : Bytes)
    (payloads : List TransportPayload) : Prop :=
  ∃ x ∈ seen, x.incoming.sent <+: uploadPayloads cfg id data ∧ payloads <+: x.sink.queue.received

/-- Neither has done anything. -/
def initial (db : DB) (disk : Disk) : Deployment :=
  ⟨.initial db disk, .new cfg, [], []⟩

/-- One step. -/
def Step (s : Deployment) : DeploymentEvent → Deployment → Prop
  | .host e, t => Host.Step crc pb json unmarshal name n s.host e t.host ∧ t.pool = s.pool ∧
    t.seen = s.seen ++ t.host.connections ∧ t.sent = s.sent
  | .pool e, t => Pool.Step cfg deadline s.pool e t.pool ∧ (∀ k outcome, e ≠ .uploaded k outcome) ∧
    t.host = s.host ∧ t.seen = s.seen ∧ t.sent = s.sent
  | .uploadOnce k rand nano responses, t => ∃ connected id startData,
    s.pool.workers[k]? = some (.uploading connected id) ∧
    startData = encodeStartPayloadProtoBuf cfg.lun cfg.metaPrefix rand nano id ∧
    (∀ data payloads, startData = .ok data → responses = .ok payloads →
      Received cfg s.seen id data payloads) ∧
    Pool.Step cfg deadline s.pool (.uploaded k (uploadOnce cfg startData responses)) t.pool ∧
    t.host = s.host ∧ t.seen = s.seen ∧
    t.sent = s.sent ++ (startData.toOption.map fun data => (id, data)).toList

end

/-! ## What the client knows -/

variable {crc : BitVec 32 → Bytes → BitVec 32} {pb : Protobuf} {json : JSONDeleteMark}
  {unmarshal : Bytes → Except String PutInitRequest} {name : String} {n : ℕ} {cfg : ClientConfig}
  {deadline : Bool} {s t : Deployment} {db : DB} {disk : Disk}

theorem pool_of_run {events : List DeploymentEvent}
    (h : Run (Step crc pb json unmarshal name n cfg deadline) (initial cfg db disk) events s) :
    ∃ events', Run (Pool.Step cfg deadline) (.new cfg) events' s.pool := by
  refine h.invariant (I := fun s => ∃ events', Run (Pool.Step cfg deadline) (.new cfg) events'
    s.pool) ?_ ⟨[], .nil⟩
  rintro s e t ⟨events', hrun⟩ hstep
  cases e with
  | host e => exact ⟨events', hstep.2.1 ▸ hrun⟩
  | pool e => exact ⟨_, hrun.snoc hstep.1⟩
  | uploadOnce k rand nano responses =>
    obtain ⟨connected, id, startData, -, -, -, hpool, -⟩ := hstep
    exact ⟨_, hrun.snoc hpool⟩

/-- What is behind the upload `id`, whose START payload has the data `data`, when it is counted as
done. -/
def Acknowledged (cfg : ClientConfig) (seen : List (Connection Unit)) (id : ℕ) (data : Bytes) :
    Prop :=
  ∃ payloads, uploadOnce cfg (.ok data) (.ok payloads) = none ∧ Received cfg seen id data payloads

theorem Acknowledged.mono {seen seen' : List (Connection Unit)} {id : ℕ} {data : Bytes}
    (h : Acknowledged cfg seen id data) (hsub : seen ⊆ seen') : Acknowledged cfg seen' id data := by
  obtain ⟨payloads, hok, x, hx, hsent, hgot⟩ := h
  exact ⟨payloads, hok, x, hsub hx, hsent, hgot⟩

/-- What is behind the uploads that are counted as done. -/
structure Attested (crc : BitVec 32 → Bytes → BitVec 32) (pb : Protobuf) (json : JSONDeleteMark)
    (unmarshal : Bytes → Except String PutInitRequest) (name : String) (n : ℕ)
    (cfg : ClientConfig) (db : DB) (disk : Disk) (events : List HostEvent) (s : Deployment) :
    Prop where
  host : Run (Host.Step crc pb json unmarshal name n) (.initial db disk) events s.host
  counted : s.pool.Counted cfg
  seen : ∀ x ∈ s.seen, ∃ before later s', events = before ++ later ∧
    Run (Host.Step crc pb json unmarshal name n) (.initial db disk) before s' ∧
    x ∈ s'.connections ∧ Run (Host.Step crc pb json unmarshal name n) s' later s.host
  /-- What was sent is what the client has encoded, and it was sent for an upload that is over. -/
  sent : ∀ id data, (id, data) ∈ s.sent → id ∈ s.pool.done ++ s.pool.failed.map Prod.fst ∧
    ∃ rand nano, encodeStartPayloadProtoBuf cfg.lun cfg.metaPrefix rand nano id = .ok data
  done : ∀ id ∈ s.pool.done, ∃ data, (id, data) ∈ s.sent
  acknowledged : ∀ id data, (id, data) ∈ s.sent → id ∈ s.pool.done →
    Acknowledged cfg s.seen id data

theorem Attested.host_step {events : List HostEvent}
    (h : s.Attested crc pb json unmarshal name n cfg db disk events) {e : HostEvent}
    (hstep : Step crc pb json unmarshal name n cfg deadline s (.host e) t) :
    t.Attested crc pb json unmarshal name n cfg db disk (events ++ [e]) := by
  obtain ⟨hhost, hpool, hseen, hsent⟩ := hstep
  refine ⟨h.host.snoc hhost, hpool ▸ h.counted, fun x hx => ?_, ?_, ?_, fun id data hmem hid => ?_⟩
  · rw [hseen, List.mem_append] at hx
    rcases hx with hx | hx
    · obtain ⟨before, later, s', rfl, hbefore, hmem, hlater⟩ := h.seen x hx
      exact ⟨before, later ++ [e], s', List.append_assoc _ _ _, hbefore, hmem, hlater.snoc hhost⟩
    · exact ⟨events ++ [e], [], t.host, (List.append_nil _).symm, h.host.snoc hhost, hx, .nil⟩
  · rw [hsent, hpool]
    exact h.sent
  · rw [hsent, hpool]
    exact h.done
  · rw [hsent] at hmem
    rw [hpool] at hid
    exact (h.acknowledged id data hmem hid).mono (hseen ▸ List.subset_append_left _ _)

theorem Attested.pool_step {events : List HostEvent}
    (h : s.Attested crc pb json unmarshal name n cfg db disk events) {e : PoolEvent}
    (hstep : Step crc pb json unmarshal name n cfg deadline s (.pool e) t) :
    t.Attested crc pb json unmarshal name n cfg db disk events := by
  obtain ⟨hpool, hne, hhost, hseen, hsent⟩ := hstep
  obtain ⟨hdone, hfailed⟩ := Pool.Step.frame hpool hne
  refine ⟨hhost ▸ h.host, h.counted.step hpool, fun x hx => hhost ▸ h.seen x (hseen ▸ hx),
    ?_, ?_, ?_⟩
  · rw [hsent, hdone, hfailed]
    exact h.sent
  · rw [hsent, hdone]
    exact h.done
  · rw [hsent, hdone, hseen]
    exact h.acknowledged

theorem Attested.uploadOnce_step {events : List HostEvent}
    (h : s.Attested crc pb json unmarshal name n cfg db disk events) {k : ℕ}
    {rand : Except String (Fin 16 → Byte)} {nano : ℤ}
    {responses : Except String (List TransportPayload)}
    (hstep : Step crc pb json unmarshal name n cfg deadline s
      (.uploadOnce k rand nano responses) t) :
    t.Attested crc pb json unmarshal name n cfg db disk events := by
  obtain ⟨connected, id, startData, hk, hstart, hreceived, hpool, hhost, hseen, hsent⟩ := hstep
  have hnew := h.counted.not_mem hk
  have hmem : ∀ {id' data}, (id', data) ∈ t.sent ↔
      (id', data) ∈ s.sent ∨ id' = id ∧ startData = .ok data := by
    intro id' data
    rw [hsent, List.mem_append]
    cases startData <;> simp [Except.toOption, eq_comm]
  -- The upload was not sent before, since it was neither done nor had it failed.
  have hold : ∀ {id' data}, (id', data) ∈ s.sent → id' ≠ id := by
    rintro id' data hdata rfl
    exact hnew (h.sent id' data hdata).1
  have hover : ∀ {id'}, id' ∈ t.pool.done ++ t.pool.failed.map Prod.fst ↔
      id' ∈ s.pool.done ++ s.pool.failed.map Prod.fst ∨ id' = id := by
    intro id'
    rcases Pool.Step.uploaded hpool hk with ⟨-, hdone, hfailed⟩ | ⟨err, -, hdone, hfailed⟩ <;>
      rw [hdone, hfailed] <;> simp <;> tauto
  have hdone : ∀ {id'}, id' ∈ t.pool.done ↔
      id' ∈ s.pool.done ∨ id' = id ∧ uploadOnce cfg startData responses = none := by
    intro id'
    rcases Pool.Step.uploaded hpool hk with ⟨heq, hdone, -⟩ | ⟨err, heq, hdone, -⟩ <;>
      simp [hdone, heq]
  refine ⟨hhost ▸ h.host, h.counted.step hpool, fun x hx => hhost ▸ h.seen x (hseen ▸ hx), ?_, ?_,
    ?_⟩
  · intro id' data hdata
    rcases hmem.mp hdata with hdata | ⟨rfl, hdata⟩
    · obtain ⟨hid, hencoded⟩ := h.sent id' data hdata
      exact ⟨hover.mpr (Or.inl hid), hencoded⟩
    · exact ⟨hover.mpr (Or.inr rfl), rand, nano, hstart.symm.trans hdata⟩
  · intro id' hid
    rcases hdone.mp hid with hid | ⟨rfl, hok⟩
    · obtain ⟨data, hdata⟩ := h.done id' hid
      exact ⟨data, hmem.mpr (Or.inl hdata)⟩
    · obtain ⟨data, payloads, hdata, -⟩ := ok_of_uploadOnce hok
      exact ⟨data, hmem.mpr (Or.inr ⟨rfl, hdata⟩)⟩
  · intro id' data hdata hid
    rw [hseen]
    rcases hmem.mp hdata with hdata | ⟨rfl, hdata⟩
    · exact h.acknowledged id' data hdata ((hdone.mp hid).resolve_right fun hnot =>
        hold hdata hnot.1)
    · obtain ⟨-, hok⟩ := (hdone.mp hid).resolve_left fun hid =>
        hnew (List.mem_append_left _ hid)
      obtain ⟨-, payloads, -, hpayloads⟩ := ok_of_uploadOnce hok
      rw [hdata, hpayloads] at hok
      exact ⟨payloads, hok, hreceived data payloads hdata hpayloads⟩

theorem attested_of_run {events : List DeploymentEvent}
    (h : Run (Step crc pb json unmarshal name n cfg deadline) (initial cfg db disk) events s) :
    s.Attested crc pb json unmarshal name n cfg db disk
      (events.filterMap DeploymentEvent.ofHost) := by
  refine h.history (I := fun events s => s.Attested crc pb json unmarshal name n cfg db disk
    (events.filterMap DeploymentEvent.ofHost)) ?_ ⟨.nil, Pool.counted_new cfg, by simp [initial],
      by simp [initial], by simp [initial, Pool.new], by simp [initial]⟩
  intro events s e t hs hstep
  rw [List.filterMap_append]
  cases e with
  | host e => exact hs.host_step hstep
  | pool e => exact (List.append_nil _).symm ▸ hs.pool_step hstep
  | uploadOnce k rand nano responses => exact (List.append_nil _).symm ▸ hs.uploadOnce_step hstep

/-- The server keeps the upload `id` under the names that the client has sent for it. -/
def Delivers (pb : Protobuf) (unmarshal : Bytes → Except String PutInitRequest) (cfg : ClientConfig)
    (s : Deployment) (id : ℕ) : Prop :=
  (∃ data, (id, data) ∈ s.sent) ∧ ∀ data, (id, data) ∈ s.sent →
    (∃ rand nano, encodeStartPayloadProtoBuf cfg.lun cfg.metaPrefix rand nano id = .ok data) ∧
    s.host.Keeps pb unmarshal cfg id data

/-- Every upload that the client counts as done is kept by the server under the names that the
client has sent for it, over crashes and restarts and whatever else it does, provided that no write
is left in flight. When `runUploads` has returned nil, these are all. -/
theorem delivered (hn : 0 < n) (hlt : n < 2 ^ 63) (hfresh : Fresh db) (hempty : LooksEmpty db)
    {events : List DeploymentEvent}
    (h : Run (Step crc pb json unmarshal name n cfg deadline) (initial cfg db disk) events s)
    (hwaits : ∀ e ∈ events, e.Waits) :
    (∀ id ∈ s.pool.done, s.Delivers pb unmarshal cfg id) ∧
      (s.pool.result = some none → ∀ id < cfg.requests, s.Delivers pb unmarshal cfg id) := by
  have hattested := attested_of_run h
  have hhost : ∀ e ∈ events.filterMap DeploymentEvent.ofHost, e.Waits := by
    intro e he
    obtain ⟨e', he', heq⟩ := List.mem_filterMap.mp he
    cases e' with
    | host e' => exact Option.some.inj heq ▸ hwaits _ he'
    | pool | uploadOnce => cases heq
  have hdelivers : ∀ id ∈ s.pool.done, s.Delivers pb unmarshal cfg id := by
    intro id hid
    refine ⟨hattested.done id hid, fun data hdata => ⟨(hattested.sent id data hdata).2, ?_⟩⟩
    obtain ⟨payloads, hok, x, hx, hsent, hgot⟩ := hattested.acknowledged id data hdata hid
    obtain ⟨before, later, s', heq, hbefore, hmem, hlater⟩ := hattested.seen x hx
    exact Host.keeps_of_uploadOnce hn hlt hfresh hempty hbefore hlater (heq ▸ hhost) hmem hsent
      hgot hok
  refine ⟨hdelivers, fun hr id hid => hdelivers id ?_⟩
  obtain ⟨events', hpool⟩ := pool_of_run h
  have hperm := Pool.done_perm_of_result (Pool.counted_of_run hpool) (Pool.signals_of_run hpool) hr
  exact hperm.symm.subset (List.mem_range.mpr hid)

/-! ## One upload among many -/

/-- A worker for each of 1044 uploads of a byte. -/
def manyConfig : ClientConfig :=
  { Host.oneByteConfig with
    concurrency := 1044, requests := 1044, concurrency_pos := by decide, requests_pos := by decide }

/-- The first workers are at the first uploads. -/
def dispatched (k : ℕ) : Pool :=
  { Pool.new manyConfig with
    next := k
    workers := (List.range k).map (.uploading true) ++ List.replicate (1044 - k) .connecting }

/-- The next worker has connected. -/
def connected (k : ℕ) : Pool :=
  { dispatched k with
    workers := (List.range k).map (.uploading true) ++
      .idle true :: List.replicate (1044 - (k + 1)) .connecting }

theorem set_workers (k : ℕ) (a b : WorkerStage) (l : List WorkerStage) :
    ((List.range k).map (WorkerStage.uploading true) ++ a :: l).set k b =
      (List.range k).map (WorkerStage.uploading true) ++ b :: l := by
  rw [List.set_append_right _ _ (by simp)]
  simp

theorem getElem?_workers (k : ℕ) (a : WorkerStage) (l : List WorkerStage) :
    ((List.range k).map (WorkerStage.uploading true) ++ a :: l)[k]? = some a := by
  rw [List.getElem?_append_right (by simp)]
  simp

theorem step_connected {k : ℕ} (hk : k < 1044) :
    Pool.Step manyConfig false (dispatched k) (.connect k true) (connected k) := by
  have hlen : 1044 - k = (1044 - (k + 1)) + 1 := by omega
  have hworkers : (dispatched k).workers = (List.range k).map (.uploading true) ++
      .connecting :: List.replicate (1044 - (k + 1)) .connecting := by
    rw [dispatched, hlen, List.replicate_succ]
  refine ⟨rfl, ?_, ?_⟩
  · rw [hworkers]
    exact getElem?_workers _ _ _
  · rw [Pool.setWorker, hworkers, set_workers]
    rfl

theorem step_dispatched {k : ℕ} (hk : k < 1044) :
    Pool.Step manyConfig false (connected k) (.dispatch k) (dispatched (k + 1)) := by
  refine ⟨rfl, rfl, hk, true, getElem?_workers _ _ _, ?_⟩
  rw [Pool.setWorker, connected, set_workers, dispatched, List.range_succ, List.map_append,
    List.append_assoc]
  rfl

theorem exists_run_dispatched : ∀ k ≤ 1044, ∃ events, (∀ e ∈ events, ∀ k o, e ≠ .uploaded k o) ∧
    Run (Pool.Step manyConfig false) (.new manyConfig) events (dispatched k)
  | 0, _ => ⟨[], List.forall_mem_nil _, .nil⟩
  | k + 1, hk => by
    obtain ⟨events, hevents, hrun⟩ := exists_run_dispatched k (by omega)
    refine ⟨_, ?_, (hrun.snoc (step_connected hk)).snoc (step_dispatched hk)⟩
    simp only [List.append_assoc, List.forall_mem_append]
    exact ⟨hevents, by simp, by simp⟩

theorem run_pool {p q : Pool} {events : List PoolEvent}
    (h : Run (Pool.Step cfg deadline) p events q) (hevents : ∀ e ∈ events, ∀ k o, e ≠ .uploaded k o)
    (host : Host) (seen : List (Connection Unit)) (sent : List (ℕ × Bytes)) :
    Run (Step crc pb json unmarshal name n cfg deadline) ⟨host, p, seen, sent⟩ (events.map .pool)
      ⟨host, q, seen, sent⟩ := by
  induction h with
  | nil => exact .nil
  | snoc _ hstep ih =>
    rw [List.map_append]
    exact (ih fun e he => hevents e (List.mem_append_left _ he)).snoc
      ⟨hstep, hevents _ (List.mem_append_right _ (List.mem_singleton_self _)), rfl, rfl, rfl⟩

theorem exists_run_host {a b : Host} {events : List HostEvent}
    (h : Run (Host.Step crc pb json unmarshal name n) a events b) (pool : Pool)
    {seen : List (Connection Unit)} (hseen : a.connections ⊆ seen) (sent : List (ℕ × Bytes)) :
    ∃ seen', b.connections ⊆ seen' ∧ Run (Step crc pb json unmarshal name n cfg deadline)
      ⟨a, pool, seen, sent⟩ (events.map .host) ⟨b, pool, seen', sent⟩ := by
  induction h with
  | nil => exact ⟨seen, hseen, .nil⟩
  | @snoc events b c e _ hstep ih =>
    obtain ⟨seen', -, hrun⟩ := ih
    rw [List.map_append]
    exact ⟨seen' ++ c.connections, List.subset_append_right _ _, hrun.snoc ⟨hstep, rfl, rfl, rfl⟩⟩

/-- The upload 1043, of a zero byte, goes through before a crash. -/
theorem delivered_one_byte : ∃ (events : List DeploymentEvent) (s : Deployment),
    Run (Step crc32Update protobuf (fun _ => none) unmarshalRequest "lun" 1 manyConfig
      false) (initial manyConfig emptyDB fun _ => 0#8) events s ∧
    s.host.connections = [] ∧ s.pool.done = [1043] ∧ s.sent = [(1043, bytesA)] ∧
    s.Delivers protobuf unmarshalRequest manyConfig 1043 := by
  obtain ⟨hostEvents, host, u, hhost, hwaits, hconnections⟩ := Host.exists_run_oneByte
  obtain ⟨later, host', hlater, hwaits', hnone⟩ := Host.exists_run_restart hhost
  obtain ⟨poolEvents, hevents, hpool⟩ := exists_run_dispatched 1044 le_rfl
  obtain ⟨seen, hseen, hrun⟩ := @exists_run_host crc32Update protobuf (fun _ => none)
    unmarshalRequest "lun" 1 manyConfig false _ _ _ hhost (.new manyConfig) []
    (List.nil_subset _) []
  have hrun₁ := hrun.append (run_pool hpool hevents host seen [])
  have hworker : (dispatched 1044).workers[1043]? = some (.uploading true 1043) := by
    rw [dispatched, List.getElem?_append_left (by simp)]
    simp
  have hok : uploadOnce manyConfig (.ok bytesA)
      (.ok (Host.oneByteConnection 2147483645 (Host.storedChannel u)).sink.queue.received) = none :=
    Host.uploadOnce_storedChannel 2147483645 u
  have hstep : Step crc32Update protobuf (fun _ => none) unmarshalRequest "lun" 1
      manyConfig false ⟨host, dispatched 1044, seen, []⟩
      (.uploadOnce 1043 (.ok fun _ => 0xff#8) 1
        (.ok (Host.oneByteConnection 2147483645 (Host.storedChannel u)).sink.queue.received))
      ⟨host, { (dispatched 1044).setWorker 1043 (.idle true) with done := [1043] }, seen,
        [(1043, bytesA)]⟩ := by
    refine ⟨true, 1043, .ok bytesA, hworker, Host.encodeStartPayload_oneByte.symm, ?_,
      ⟨rfl, true, 1043, hworker, .inl rfl, ?_⟩, rfl, rfl, rfl⟩
    · intro data payloads hdata hpayloads
      obtain rfl := Except.ok.inj hdata
      obtain rfl := Except.ok.inj hpayloads
      refine ⟨_, hseen (hconnections ▸ List.mem_singleton_self _), ?_, List.prefix_rfl⟩
      change _ <+: uploadPayloads Host.oneByteConfig 1043 bytesA
      rw [Host.uploadPayloads_oneByte]
      exact List.prefix_rfl
    · rw [hok]
      rfl
  obtain ⟨seen', -, hrun'⟩ := @exists_run_host crc32Update protobuf (fun _ => none)
    unmarshalRequest "lun" 1 manyConfig false _ _ _ hlater _ seen hseen [(1043, bytesA)]
  have hall := (hrun₁.snoc hstep).append hrun'
  refine ⟨_, _, hall, hnone, rfl, rfl, (delivered (by decide) (by decide) fresh_emptyDB
    Host.looksEmpty_emptyDB hall ?_).1 1043 (List.mem_singleton_self _)⟩
  simp only [List.forall_mem_append, List.forall_mem_map]
  exact ⟨⟨⟨hwaits, by simp [DeploymentEvent.Waits]⟩, by simp [DeploymentEvent.Waits]⟩, hwaits'⟩

end Deployment

end Corgi
