import Corgi.Host
import Corgi.Requests
import Corgi.Service

/-!
# The upload client

`aio_upload_client` uploads a pattern of bytes through a connection of its own and checks the
responses.

`Host.keeps_of_uploadOnce` : an upload that the client takes for done is stored under the names
that it asked for, and its bytes are on the disk at any later time, over crashes and restarts.
-/

set_option linter.unusedSectionVars false

namespace Corgi

/-! ## The model -/

/-- What `parseConfig` accepts, as far as uploads depend on it. -/
structure ClientConfig where
  lun : Bytes
  metaPrefix : Bytes
  blockSize : ℕ
  concurrency : ℕ
  requests : ℕ
  chunks : ℕ
  blockSize_pos : 0 < blockSize
  concurrency_pos : 0 < concurrency
  requests_pos : 0 < requests
  chunks_pos : 0 < chunks

/-- The bytes of a pattern, whose state is `x`. -/
def patternBytes : ℕ → BitVec 64 → Bytes
  | 0, _ => []
  | size + 1, x =>
    let x := x ^^^ (x >>> 12)
    let x := x ^^^ (x <<< 25)
    let x := x ^^^ (x >>> 27)
    ((x * 0x2545f4914f6cdd1d#64) >>> 56).setWidth 8 :: patternBytes size x

/-- The content of an upload, which depends on its seed. -/
def makePattern (size : ℕ) (seed : BitVec 64) : Bytes :=
  patternBytes size (seed * 0x9e3779b97f4a7c15#64 + 0xd1b54a32d192ed03#64)

/-- The chunks of the upload `id`. -/
def uploadChunks (cfg : ClientConfig) (id : ℕ) : List Bytes :=
  (List.range cfg.chunks).map fun chunk =>
    makePattern cfg.blockSize (BitVec.ofNat 64 (id * cfg.chunks + chunk))

/-- A payload with a meta type. -/
def newPayload (metaType : PayloadMetaType) (data : Bytes) : TransportPayload :=
  ⟨data, some (ascii metaType.text.toList)⟩

/-- What `uploadOnce` sends. -/
def uploadPayloads (cfg : ClientConfig) (id : ℕ) (startData : Bytes) : List TransportPayload :=
  newPayload .startPutObject startData ::
    ((uploadChunks cfg id).map (newPayload .putObject) ++ [newPayload .completePutObject []])

/-- Why an upload failed. -/
inductive UploadFailure
  | start (err : String)
  | requestChannel (err : String)
  | missingMetadata
  | server (text : Bytes)
  | count (got want : ℕ)
  | response (i : ℕ) (metadata : Bytes)
  | final (metadata : Bytes)
  deriving DecidableEq

/-- The text of the error of upload `id`. -/
def UploadFailure.message (id : ℕ) : UploadFailure → String
  | start err => err
  | requestChannel err => s!"upload {id} request channel: {err}"
  | missingMetadata => s!"upload {id} response missing metadata"
  | server text => s!"upload {id} server error: {textOf text}"
  | count got want => s!"upload {id} got {got} responses, want {want}"
  | response i metadata => s!"upload {id} response {i} = {textOf metadata}, want CONTINUE"
  | final metadata => s!"upload {id} final response = {textOf metadata}, want SUCCESS"

/-- The metadata of a payload, which is empty when it has none. -/
def TransportPayload.metadataUTF8 (p : TransportPayload) : Bytes :=
  p.metadata.getD []

/-- The first check of each response. -/
def checkResponse (p : TransportPayload) : Option UploadFailure :=
  if p.metadata = none then some .missingMetadata
  else if p.metadataUTF8 = ascii PayloadMetaType.error.text.toList then some (.server p.data)
  else none

/-- The response `i` is CONTINUE. -/
def checkContinue (responses : List TransportPayload) (i : ℕ) : Option UploadFailure :=
  let metadata := (responses[i]?.map TransportPayload.metadataUTF8).getD []
  if metadata = ascii PayloadMetaType.cont.text.toList then none else some (.response i metadata)

/-- The checks of `uploadOnce` on the responses. -/
def checkResponses (chunks : ℕ) (responses : List TransportPayload) : Option UploadFailure :=
  (responses.findSome? checkResponse).or <|
    if responses.length ≠ chunks + 1 then some (.count responses.length (chunks + 1))
    else ((List.range chunks).findSome? (checkContinue responses)).or <|
      let metadata := (responses.getLast?.map TransportPayload.metadataUTF8).getD []
      if metadata = ascii PayloadMetaType.success.text.toList then none else some (.final metadata)

/-- `uploadOnce`, with what `encodeStartPayloadProtoBuf` and `BlockSlice` return. -/
def uploadOnce (cfg : ClientConfig) (startData : Except String Bytes)
    (responses : Except String (List TransportPayload)) : Option UploadFailure :=
  match startData, responses with
  | .error err, _ => some (.start err)
  | .ok _, .error err => some (.requestChannel err)
  | .ok _, .ok responses => checkResponses cfg.chunks responses

/-! ## The checks -/

/-- `uploadOnce` returns nil only for what it got. -/
theorem ok_of_uploadOnce {cfg : ClientConfig} {startData : Except String Bytes}
    {responses : Except String (List TransportPayload)}
    (h : uploadOnce cfg startData responses = none) :
    ∃ data payloads, startData = .ok data ∧ responses = .ok payloads := by
  cases startData with
  | error err => cases h
  | ok data =>
    cases responses with
    | error err => cases h
    | ok payloads => exact ⟨data, payloads, rfl, rfl⟩

theorem length_patternBytes : ∀ (size : ℕ) (x : BitVec 64), (patternBytes size x).length = size
  | 0, _ => rfl
  | size + 1, _ => congrArg (· + 1) (length_patternBytes size _)

theorem length_of_mem_uploadChunks {cfg : ClientConfig} {id : ℕ} {data : Bytes}
    (h : data ∈ uploadChunks cfg id) : data.length = cfg.blockSize := by
  obtain ⟨chunk, -, rfl⟩ := List.mem_map.mp h
  exact length_patternBytes _ _

theorem length_uploadChunks (cfg : ClientConfig) (id : ℕ) :
    (uploadChunks cfg id).length = cfg.chunks := by
  rw [uploadChunks, List.length_map, List.length_range]

/-- Metadata that is not empty is there. -/
theorem metadata_of_utf8 {p : TransportPayload} {metadata : Bytes} (hne : metadata ≠ [])
    (h : p.metadataUTF8 = metadata) : p.metadata = some metadata := by
  rw [TransportPayload.metadataUTF8] at h
  cases hp : p.metadata with
  | none => exact absurd (h.symm.trans (by rw [hp]; rfl)) hne
  | some m => rw [← h, hp, Option.getD_some]

/-- The text that tells the client SUCCESS. -/
def successText : Bytes :=
  ascii PayloadMetaType.success.text.toList

/-- The client accepts nothing without a SUCCESS. -/
theorem mem_of_checkResponses {chunks : ℕ} {responses : List TransportPayload}
    (h : checkResponses chunks responses = none) :
    ∃ p ∈ responses, p.metadata = some successText := by
  obtain ⟨-, hrest⟩ := Option.or_eq_none_iff.mp h
  split_ifs at hrest with hlen
  obtain ⟨-, hlast⟩ := Option.or_eq_none_iff.mp hrest
  cases hp : responses.getLast? with
  | none =>
    rw [List.getLast?_eq_none_iff.mp hp] at hlen
    exact absurd (Nat.succ_ne_zero chunks).symm hlen
  | some p =>
    rw [hp] at hlast
    simp only [Option.map_some, Option.getD_some] at hlast
    split_ifs at hlast with hsuccess
    exact ⟨p, List.mem_of_getLast? hp, metadata_of_utf8 (by decide) hsuccess⟩

/-! ## What the client is told -/

theorem decodePayload_newPayload {metaType : PayloadMetaType} (h : metaType ∈ metaTypes)
    (data : Bytes) : decodePayload (newPayload metaType data) = .ok ⟨metaType, data⟩ := by
  cases metaType with
  | other text htext => simp [metaTypes] at h
  | _ => rfl

/-- What the sink has got is a response of the request channel or an error of the reader. -/
theorem Connection.Outlet.mem_emitted {δ : Type} {x : Connection δ} (h : x.Outlet)
    {p : TransportPayload} (hp : p ∈ x.sink.emitted) :
    (∃ r ∈ x.channel.out, p = r.encode) ∨ ∃ err, p = encodePayload .error (some err) := by
  have hout : ∀ {fwd}, x.Forwarded fwd → ∀ r ∈ fwd, r ∈ x.channel.out := by
    intro fwd hfwd r hr
    rw [h.out]
    exact List.mem_append_left _ (x.responses.received_prefix.subset (hfwd.1.subset hr))
  rcases h.emission with ⟨fwd, hfwd, hemitted, -⟩ | ⟨before, after, err, hfwd, hemitted, -⟩ <;>
    rw [hemitted] at hp
  · obtain ⟨r, hr, rfl⟩ := List.mem_map.mp hp
    exact Or.inl ⟨r, hout hfwd r hr, rfl⟩
  · rcases List.mem_append.mp hp with hp | hp
    · obtain ⟨r, hr, rfl⟩ := List.mem_map.mp hp
      exact Or.inl ⟨r, hout hfwd r (List.mem_append_left _ hr), rfl⟩
    · rcases List.mem_cons.mp hp with rfl | hp
      · exact Or.inr ⟨err, rfl⟩
      · obtain ⟨r, hr, rfl⟩ := List.mem_map.mp hp
        exact Or.inl ⟨r, hout hfwd r (List.mem_append_right _ hr), rfl⟩

theorem metadata_error_ne (err : Option String) :
    (encodePayload .error err).metadata ≠ some successText :=
  show some (ascii PayloadMetaType.error.text.toList) ≠ some successText by decide

theorem Response.eq_success {r : Response} (h : r.payload.encode.metadata = some successText) :
    r = .success := by
  cases r with
  | cont => exact absurd h (by decide)
  | success => rfl
  | error e => exact absurd h (metadata_error_ne _)

/-- A request channel that has told SUCCESS. -/
theorem RequestChannel.Phase.of_success {unmarshal : Bytes → Except String PutInitRequest}
    {δ : Type} {c : RequestChannel δ} (h : c.Phase unmarshal) {r : ResponsePayload}
    (hr : r ∈ c.out) (hsuccess : r.encode.metadata = some successText) :
    ∃ device u datas, c.Talks device u datas [.complete] ∧ .success ∈ u.responses ∧
      (Asked unmarshal c.server c.processed (datas.map .put ++ [.complete]) ∨
        AskedAtOnce unmarshal c.server c.processed (datas.map .put ++ [.complete])) := by
  have hcont : ∀ {n : ℕ}, r ∉ List.replicate n (Response.payload .cont) := by
    intro n hmem
    rw [(List.mem_replicate.mp hmem).2] at hsuccess
    exact absurd hsuccess (by decide)
  have herror : ∀ {e : RequestError}, r ∉ [⟨.error, some e⟩] := by
    intro e hmem
    rw [List.mem_singleton.mp hmem] at hsuccess
    exact metadata_error_ne _ hsuccess
  cases h with
  | fresh h =>
    rw [h] at hr
    cases hr
  | unused h =>
    rw [h] at hr
    cases hr
  | refused p e hstart hputs h =>
    rw [h] at hr
    exact absurd hr herror
  | ready device u datas hstage hclosed htalks hquiet hasked hout => exact absurd (hout ▸ hr) hcont
  | waiting next device u datas last hstage hclosed htalks hexpects htaken hresponses hout =>
    exact absurd (hout ▸ hr) hcont
  | answered device u datas last n r' hstage hclosed htalks hidle hasked hn hlast hne hlast' hout =>
    rw [hout] at hr
    rcases List.mem_append.mp hr with hr | hr
    · exact absurd hr hcont
    · obtain rfl := List.mem_singleton.mp hr
      obtain rfl := Response.eq_success hsuccess
      obtain rfl := hlast' rfl
      exact ⟨device, u, datas, htalks, List.mem_of_getLast? hlast, hasked⟩
  | abandoned device u datas ps rest hstage htalks hquiet hasked hprocessed hrest =>
    rcases hrest with ⟨-, -, hout⟩ | ⟨p, e, -, -, -, hout⟩ <;> rw [hout] at hr
    · exact absurd hr hcont
    · rcases List.mem_append.mp hr with hr | hr
      · exact absurd hr hcont
      · exact absurd hr herror

/-- An upload that was completed has put what was put before. -/
theorem RequestChannel.Talks.putData_complete {δ : Type} {c : RequestChannel δ} {device : δ}
    {u : Upload} {datas : List Bytes} (h : c.Talks device u datas [.complete]) :
    u.putData = datas := by
  obtain ⟨req, hcalls⟩ := h.calls
  rw [Upload.putData, hcalls, List.filterMap_cons_none rfl, List.filterMap_append,
    RequestChannel.filterMap_data_map_put]
  exact List.append_nil _

theorem eq_of_put_complete : ∀ {datas chunks : List Bytes},
    datas.map UploadCall.put ++ [.complete] <+: chunks.map UploadCall.put ++ [.complete] →
    datas = chunks
  | [], [], _ => rfl
  | [], chunk :: chunks, h => by
    obtain ⟨rest, h⟩ := h
    cases (List.cons.inj h).1
  | data :: datas, [], h => by
    obtain ⟨rest, h⟩ := h
    cases (List.cons.inj h).1
  | data :: datas, chunk :: chunks, h => by
    obtain ⟨rest, h⟩ := h
    obtain ⟨hhead, htail⟩ := List.cons.inj h
    rw [UploadCall.put.inj hhead, eq_of_put_complete ⟨rest, htail⟩]

/-- A request channel that was asked for all of an upload of the client has got all of it. -/
theorem processed_of_asked {unmarshal : Bytes → Except String PutInitRequest} {δ : Type}
    {server : ErasureServer δ} {cfg : ClientConfig} {id : ℕ} {startData : Bytes}
    {processed : List RequestPayload} {datas : List Bytes}
    (hprocessed : processed.map .ok <+: (uploadPayloads cfg id startData).map decodePayload)
    (hasked : RequestChannel.Asked unmarshal server processed (datas.map .put ++ [.complete]) ∨
      RequestChannel.AskedAtOnce unmarshal server processed (datas.map .put ++ [.complete])) :
    datas = uploadChunks cfg id ∧ processed.head? = some ⟨.startPutObject, startData⟩ := by
  have hdecode : (uploadPayloads cfg id startData).map decodePayload =
      (⟨.startPutObject, startData⟩ :: ((uploadChunks cfg id).map (⟨.putObject, ·⟩) ++
        [⟨.completePutObject, []⟩]) : List RequestPayload).map .ok := by
    have hput : ∀ data, decodePayload (newPayload .putObject data) = .ok ⟨.putObject, data⟩ :=
      decodePayload_newPayload (by simp [metaTypes])
    simp only [uploadPayloads, List.map_cons, List.map_append, List.map_map, List.map_nil,
      Function.comp_def, hput, decodePayload_newPayload (show .startPutObject ∈ metaTypes by
        simp [metaTypes]), decodePayload_newPayload (show .completePutObject ∈ metaTypes by
        simp [metaTypes])]
  rw [hdecode, List.prefix_map_iff_of_injective fun _ _ h => Except.ok.inj h] at hprocessed
  rcases hasked with ⟨p, ps, rfl, -, hps⟩ | ⟨p, body, rfl, ⟨hp, -⟩, -⟩
  · obtain ⟨rfl, hrest⟩ := List.cons_prefix_cons.mp hprocessed
    have hcalls := hrest.map RequestPayload.call
    have hchunks : ((uploadChunks cfg id).map (⟨.putObject, ·⟩) ++
        [⟨.completePutObject, []⟩] : List RequestPayload).map RequestPayload.call =
        ((uploadChunks cfg id).map UploadCall.put ++ [UploadCall.complete]).map some := by
      simp [RequestPayload.call, Function.comp_def]
    rw [hps, hchunks, List.prefix_map_iff_of_injective (Option.some_injective _)] at hcalls
    exact ⟨eq_of_put_complete hcalls, rfl⟩
  · obtain ⟨rfl, -⟩ := List.cons_prefix_cons.mp hprocessed
    cases hp

/-! ## What is flushed -/

theorem dvd_cutChunks {B : ℕ} (chunks : List Bytes) (h : ∀ chunk ∈ chunks, B ∣ chunk.length) :
    (∀ piece ∈ (cutChunks chunks).1, B ∣ piece.length) ∧ B ∣ (cutChunks chunks).2.length := by
  induction chunks using List.reverseRecOn with
  | nil => exact ⟨List.forall_mem_nil _, dvd_zero B⟩
  | append_singleton chunks chunk ih =>
    obtain ⟨hpieces, hrest⟩ := ih fun chunk hc => h chunk (List.mem_append_left _ hc)
    have hchunk : B ∣ ((cutChunks chunks).2 ++ chunk).length := by
      rw [List.length_append]
      exact dvd_add hrest (h chunk (List.mem_append_right _ (List.mem_singleton_self chunk)))
    rw [cutChunks_concat, cutChunk]
    split_ifs
    · refine ⟨fun piece hpiece => ?_, dvd_zero B⟩
      rcases List.mem_append.mp hpiece with hpiece | hpiece
      · exact hpieces piece hpiece
      · exact List.mem_singleton.mp hpiece ▸ hchunk
    · exact ⟨hpieces, hchunk⟩

theorem dvd_of_mem_flushPieces {B : ℕ} {chunks : List Bytes}
    (h : ∀ chunk ∈ chunks, B ∣ chunk.length) {piece : Bytes} (hp : piece ∈ flushPieces chunks) :
    B ∣ piece.length := by
  obtain ⟨hpieces, hrest⟩ := dvd_cutChunks chunks h
  rw [flushPieces] at hp
  split_ifs at hp
  · exact hpieces piece hp
  · rcases List.mem_append.mp hp with hp | hp
    · exact hpieces piece hp
    · exact List.mem_singleton.mp hp ▸ hrest

theorem flushPieces_singleton (chunk : Bytes) : (flushPieces [chunk]).length ≤ 1 := by
  rw [flushPieces, show cutChunks [chunk] = cutChunk ([], []) chunk from rfl, cutChunk]
  split_ifs with hlen hrest hrest
  · simp
  · exact absurd rfl hrest
  · simp
  · simp

/-- Nothing follows a piece that is not made of whole blocks. -/
theorem post_of_uploadChunks {cfg : ClientConfig} {id : ℕ}
    (h : 4096 ∣ cfg.blockSize ∨ cfg.chunks = 1) {pre post : List Bytes} {piece : Bytes}
    (heq : flushPieces (uploadChunks cfg id) = pre ++ piece :: post)
    (hpiece : ¬4096 ∣ piece.length) : post = [] := by
  rcases h with h | h
  · have hmem : piece ∈ flushPieces (uploadChunks cfg id) :=
      heq ▸ List.mem_append_right _ List.mem_cons_self
    refine absurd (dvd_of_mem_flushPieces (fun chunk hc => ?_) hmem) hpiece
    rwa [length_of_mem_uploadChunks hc]
  · obtain ⟨chunk, hchunk⟩ := List.length_eq_one_iff.mp ((length_uploadChunks cfg id).trans h)
    have hlen := flushPieces_singleton chunk
    rw [← hchunk, heq, List.length_append, List.length_cons] at hlen
    exact List.length_eq_zero_iff.mp (by omega)

/-! ## What the client may rely on -/

namespace Host

variable {crc : BitVec 32 → Bytes → BitVec 32} {pb : Protobuf} {json : JSONDeleteMark}
  {unmarshal : Bytes → Except String PutInitRequest} {name : String} {n : ℕ} {s t : Host}
  {cfg : ClientConfig} {id : ℕ} {startData : Bytes}

/-- The upload of a connection that has told its client SUCCESS. -/
theorem stored_of_success {x : Connection Unit} (hx : x.Reached crc pb unmarshal)
    (hsent : x.incoming.sent <+: uploadPayloads cfg id startData) {p : TransportPayload}
    (hp : p ∈ x.sink.emitted) (hsuccess : p.metadata = some successText) :
    ∃ req fileMeta, decodePutInitRequest unmarshal startData = .ok req ∧ fileMeta.Names req ∧
      x.channel.upload.stored = some fileMeta ∧
      x.channel.upload.putData = uploadChunks cfg id := by
  have hrun := hx
  obtain ⟨server, events, hrun, -⟩ := hrun
  obtain ⟨hinlet, houtlet⟩ := Connection.inlet_outlet hrun
  -- the payload is a SUCCESS of the request channel
  obtain ⟨r, hr, rfl⟩ : ∃ r ∈ x.channel.out, p = r.encode := by
    refine (houtlet.mem_emitted hp).resolve_right ?_
    rintro ⟨err, rfl⟩
    exact metadata_error_ne _ hsuccess
  obtain ⟨device, u, datas, htalks, hanswered, hasked⟩ := hx.phase.of_success hr hsuccess
  -- which has processed what the client has sent
  have hprocessed : x.channel.processed.map .ok <+:
      (uploadPayloads cfg id startData).map decodePayload := by
    refine List.IsPrefix.trans ?_ (hinlet.sent_prefix.trans (hsent.map decodePayload))
    rw [hinlet.sent_eq, List.map_append]
    exact List.prefix_append _ _
  obtain ⟨rfl, hhead⟩ := processed_of_asked hprocessed hasked
  obtain ⟨p, ps, req, heq, hasks, hhonest⟩ := hx.serves device u htalks.h
  rw [heq] at hhead
  obtain rfl := Option.some.inj hhead
  obtain ⟨fileMeta, hstored⟩ := Option.ne_none_iff_exists'.mp (hhonest.success hanswered)
  rw [RequestChannel.upload_of_h htalks.h]
  exact ⟨req, fileMeta, hasks.resolve_right fun h => (by cases h.1), hhonest.stored _ hstored,
    hstored, htalks.putData_complete⟩

/-- The upload `id`, whose START payload has the data `startData`, is stored under the names that
it asked for. Its padded pieces are read back, cut to the size of its content, and this is what the
client has sent provided that its blocks are whole or that there is only one. The record is found
under its key until another one is stored there. -/
def Keeps (pb : Protobuf) (unmarshal : Bytes → Except String PutInitRequest) (cfg : ClientConfig)
    (id : ℕ) (startData : Bytes) (t : Host) : Prop :=
  ∃ req fileMeta, decodePutInitRequest unmarshal startData = .ok req ∧ fileMeta.Names req ∧
    ⟨fileMeta, uploadChunks cfg id⟩ ∈ t.archive.stored ∧
    readResults t.archive.disk fileMeta.extents fileMeta.size.toNat =
      .ok (((flushPieces (uploadChunks cfg id)).flatMap (pad 4096 0#8)).take
        (uploadChunks cfg id).flatten.length) ∧
    (4096 ∣ cfg.blockSize ∨ cfg.chunks = 1 →
      readResults t.archive.disk fileMeta.extents fileMeta.size.toNat =
        .ok (uploadChunks cfg id).flatten) ∧
    (t.archive.latest fileMeta.getKey = some ⟨fileMeta, uploadChunks cfg id⟩ → ∃ data,
      t.archive.db.get fileMeta.getKey = .ok (some data) ∧ pb.unmarshal data = .ok fileMeta)

/-- An upload that the client takes for done is kept from then on, provided that no write is left
in flight. -/
theorem keeps_of_uploadOnce (hn : 0 < n) (hlt : n < 2 ^ 63) {db : DB} (hfresh : Fresh db)
    (hempty : LooksEmpty db) {disk : Disk} {events later : List HostEvent}
    (h : Run (Step crc pb json unmarshal name n) (initial db disk) events s)
    (hlater : Run (Step crc pb json unmarshal name n) s later t)
    (hwaits : ∀ e ∈ events ++ later, e.Waits) {x : Connection Unit} (hx : x ∈ s.connections)
    (hsent : x.incoming.sent <+: uploadPayloads cfg id startData)
    {responses : List TransportPayload} (hgot : responses <+: x.sink.queue.received)
    (hok : uploadOnce cfg (.ok startData) (.ok responses) = none) :
    t.Keeps pb unmarshal cfg id startData := by
  obtain ⟨before, hrun, hbefore, hlinked⟩ :=
    exists_run hn hlt hfresh hempty .nil (linked_initial db disk) h
  obtain ⟨after, hrun', hafter, -⟩ := exists_run hn hlt hfresh hempty hrun hlinked hlater
  have hwaits₁ := hbefore fun e he => hwaits e (List.mem_append_left _ he)
  have hwaits₂ := hafter fun e he => hwaits e (List.mem_append_right _ he)
  obtain ⟨p, hp, hsuccess⟩ := mem_of_checkResponses hok
  have hemitted : p ∈ x.sink.emitted := x.sink.queue.received_prefix.subset (hgot.subset hp)
  obtain ⟨req, fileMeta, hreq, hnames, hstored, hdata⟩ :=
    stored_of_success (hlinked.reached x hx) hsent hemitted hsuccess
  obtain ⟨-, -, -, -, -, -, hretains⟩ := Archive.exists_retains hn hlt hfresh hrun hwaits₁
  have hmem := (Archive.stored_prefix_of_run hrun').subset (hretains.acknowledged x.channel.upload
    (hlinked.uploads ▸ List.mem_map_of_mem hx) fileMeta hstored)
  rw [hdata] at hmem
  obtain ⟨hpadded, hread, hget⟩ := Archive.readBack hn hlt hfresh (hrun.append hrun')
    (List.forall_mem_append.mpr ⟨hwaits₁, hwaits₂⟩) hmem
  refine ⟨req, fileMeta, hreq, hnames, hmem, hpadded, fun haligned => hread.mpr ?_, hget⟩
  intro pre piece post heq hpiece
  rw [post_of_uploadChunks haligned heq hpiece]
  exact List.forall_mem_nil _

/-! ## A client that uploads one byte -/

/-- One chunk of one byte. -/
def oneByteConfig : ClientConfig :=
  ⟨[], ascii "aio-upload-client".toList, 1, 1, 1, 1, Nat.one_pos, Nat.one_pos, Nat.one_pos,
    Nat.one_pos⟩

theorem uploadChunks_oneByte : uploadChunks oneByteConfig 1043 = [[0#8]] := by
  decide

/-- The data of the START payload, when all random bits are set. -/
theorem encodeStartPayload_oneByte : encodeStartPayloadProtoBuf oneByteConfig.lun
    oneByteConfig.metaPrefix (.ok fun _ => 0xff#8) 1 1043 = .ok bytesA := by
  decide +kernel

/-- The payloads of an upload whose only byte is zero. -/
def oneBytePayloads : List TransportPayload :=
  [newPayload .startPutObject bytesA, newPayload .putObject [0#8], newPayload .completePutObject []]

theorem uploadPayloads_oneByte : uploadPayloads oneByteConfig 1043 bytesA = oneBytePayloads := by
  rw [uploadPayloads, uploadChunks_oneByte]
  rfl

/-- A connection that has got all payloads, whose client has got all responses so far and asks for
`n` more. -/
def oneByteConnection (n : BitVec 32) (channel : RequestChannel Unit) : Connection Unit :=
  { Connection.new channel.server with
    incoming := ⟨oneBytePayloads, [], false, Nat.zero_le _⟩
    requests := ⟨channel.processed, [], false, Nat.zero_le _⟩
    channel
    responses := ⟨channel.out, [], false, Nat.zero_le _⟩
    sink := ⟨.opened, ⟨channel.out.map ResponsePayload.encode, [], false, Nat.zero_le _⟩, n, none,
      0⟩ }

/-- A value is handed out, and the queue is found empty. -/
def handingEvents : List ConnectionEvent :=
  List.replicate 8 .drain ++ [.leave]

/-- Whoever drains hands out the only value of the queue, and goes on. -/
theorem run_handed {x : Connection Unit} (hp : x.panicked = false) (hlock : ¬x.Locked)
    (hdraining : x.sink.draining = some .asking) (hstat : x.sink.stat = .opened)
    (hone : -1 < (x.sink.n - 1).toInt) (htwo : -1 < (x.sink.n - 1 - 1).toInt)
    {v : TransportPayload} {queue : Chan TransportPayload 256}
    (hrecv : x.sink.queue.recv = some (v, queue)) (hnone : queue.recv = none) :
    Run (Connection.Step crc pb unmarshal) x handingEvents
      { x with
        reader := x.reader.drained
        writer := x.writer.drained
        sink := { x.sink with queue, n := x.sink.n - 1, draining := none } } := by
  have hne : x.sink.n - 1 ≠ -1 := by
    intro heq
    rw [heq] at hone
    exact absurd hone (by decide)
  have hempty : Sink.drain { x.sink with
        queue, n := x.sink.n - 1 - 1, draining := some .polling } .polling =
      { x.sink with queue, n := x.sink.n - 1, draining := some .refused } := by
    rw [Sink.drain_polling_none hnone, BitVec.sub_add_cancel]
  exact .cons (Connection.step_drain .asking hp hdraining nofun (Sink.drain_asking hone)) <|
    .cons (Connection.step_drain .granted hp rfl nofun (Sink.drain_granted hstat)) <|
    .cons (Connection.step_drain .polling hp rfl nofun (Sink.drain_polling hrecv)) <|
    .cons (Connection.step_drain (.handing v) hp rfl nofun rfl) <|
    .cons (Connection.step_drain .asking hp rfl nofun (Sink.drain_asking htwo)) <|
    .cons (Connection.step_drain .granted hp rfl nofun (Sink.drain_granted hstat)) <|
    .cons (Connection.step_drain .polling hp rfl nofun hempty) <|
    .cons (Connection.step_drain .refused hp rfl nofun (Sink.drain_refused hne)) <|
    .cons (Connection.step_leave hp rfl hlock) .nil

/-- What happens up to the last flush. The client asks for as many payloads as it can. -/
def oneByteEvents : List ConnectionEvent :=
  [.request 2147483647, .requestDrain, .drain, .drain, .drain, .drain, .leave,
    .deliver (newPayload .startPutObject bytesA), .take, .send,
    .payload ⟨.startPutObject, bytesA⟩, .deliver (newPayload .putObject [0#8]), .take, .send,
    .payload ⟨.putObject, [0#8]⟩, .forward, .push, .receive, .check, .offer, .writerDrain] ++
  handingEvents ++
  [.deliver (newPayload .completePutObject []), .take, .send, .payload ⟨.completePutObject, []⟩]

theorem run_oneByteEvents : Run (Connection.Step crc32Update protobuf unmarshalRequest)
    (.new Service.oneDevice) oneByteEvents
    (oneByteConnection 2147483646 (Service.closingChannel Server.lastFlush)) := by
  have hput : Run (Connection.Step crc32Update protobuf unmarshalRequest) (.new Service.oneDevice)
      [.request 2147483647, .requestDrain, .drain, .drain, .drain, .drain, .leave,
        .deliver (newPayload .startPutObject bytesA), .take, .send,
        .payload ⟨.startPutObject, bytesA⟩, .deliver (newPayload .putObject [0#8]), .take, .send,
        .payload ⟨.putObject, [0#8]⟩, .forward, .push, .receive, .check, .offer, .writerDrain] _ :=
    .cons ⟨rfl, Or.inl rfl⟩ <|
    .cons ⟨rfl, Or.inl ⟨_, rfl, rfl⟩⟩ <|
    .cons (Connection.step_drain .asking rfl rfl nofun rfl) <|
    .cons (Connection.step_drain .granted rfl rfl nofun rfl) <|
    .cons (Connection.step_drain .polling rfl rfl nofun rfl) <|
    .cons (Connection.step_drain .refused rfl rfl nofun rfl) <|
    .cons (Connection.step_leave rfl rfl nofun) <|
    .cons ⟨rfl, Or.inl ⟨_, rfl, rfl⟩⟩ <|
    .cons ⟨rfl, Or.inr (Or.inl ⟨rfl, rfl, _, _, rfl, rfl⟩)⟩ <|
    .cons ⟨rfl, Or.inr (Or.inl ⟨_, _, rfl, rfl, rfl⟩)⟩ <|
    .cons ⟨rfl, Or.inr (Or.inr (Or.inl ⟨rfl, _, _, rfl, Service.step_startedChannel, rfl⟩))⟩ <|
    .cons ⟨rfl, Or.inl ⟨_, rfl, rfl⟩⟩ <|
    .cons ⟨rfl, Or.inr (Or.inl ⟨rfl, rfl, _, _, rfl, rfl⟩)⟩ <|
    .cons ⟨rfl, Or.inr (Or.inl ⟨_, _, rfl, rfl, rfl⟩)⟩ <|
    .cons ⟨rfl, Or.inr (Or.inr (Or.inl ⟨rfl, _, _, rfl, ⟨Or.inr rfl, rfl⟩, rfl⟩))⟩ <|
    .cons ⟨rfl, Or.inr (Or.inr (Or.inl ⟨rfl, _, ⟨_, _, _, _, rfl, rfl, rfl, rfl⟩, rfl⟩))⟩ <|
    .cons ⟨rfl, Or.inr (Or.inr (Or.inl ⟨_, _, _, rfl, rfl, rfl⟩))⟩ <|
    .cons ⟨rfl, Or.inr (Or.inr (Or.inr (Or.inl ⟨rfl, _, _, rfl, rfl⟩)))⟩ <|
    .cons ⟨rfl, Or.inr (Or.inr (Or.inr (Or.inl ⟨_, rfl, rfl⟩)))⟩ <|
    .cons ⟨rfl, Or.inr (Or.inr (Or.inr (Or.inl ⟨_, rfl, Or.inr ⟨_, rfl, rfl⟩⟩)))⟩ <|
    .cons ⟨rfl, Or.inr (Or.inr (Or.inr (Or.inl ⟨rfl, rfl⟩)))⟩ .nil
  exact (hput.append (run_handed rfl (by rintro (h | h) <;> cases h) rfl rfl (by decide)
    (by decide) rfl rfl)).append <|
    .cons ⟨rfl, Or.inl ⟨_, rfl, rfl⟩⟩ <|
    .cons ⟨rfl, Or.inr (Or.inl ⟨rfl, rfl, _, _, rfl, rfl⟩)⟩ <|
    .cons ⟨rfl, Or.inr (Or.inl ⟨_, _, rfl, rfl, rfl⟩)⟩ <|
    .cons ⟨rfl, Or.inr (Or.inr (Or.inl ⟨rfl, _, _, rfl, Service.step_closingChannel, rfl⟩))⟩ .nil

/-- The request channel when the upload has answered SUCCESS. -/
def storedChannel (u : Upload) : RequestChannel Unit :=
  { Service.closingChannel u with
    stage := .returned
    taken := 2
    out := [Response.payload .cont, Response.payload .success] }

theorem uploadOnce_storedChannel (n : BitVec 32) (u : Upload) :
    uploadOnce oneByteConfig (.ok bytesA)
      (.ok (oneByteConnection n (storedChannel u)).sink.queue.received) = none := by
  change checkResponses 1 [Response.payload .cont |>.encode, Response.payload .success |>.encode]
    = none
  decide

/-- SUCCESS is in the queue of the sink, and the writer drains it. -/
def writtenConnection (n : BitVec 32) (u : Upload) : Connection Unit :=
  { oneByteConnection n (storedChannel u) with
    writer := .draining
    sink := ⟨.opened, ⟨[(Response.payload .cont).encode], [(Response.payload .success).encode],
      false, by decide⟩, n, some .asking, 0⟩ }

theorem run_success {u : Upload} (hu : u.responses = [.cont, .success]) {n : BitVec 32}
    (hone : -1 < (n - 1).toInt) (htwo : -1 < (n - 1 - 1).toInt) :
    Run (Connection.Step crc32Update protobuf unmarshalRequest)
      (oneByteConnection n (Service.closingChannel u))
      ([.forward, .push, .receive, .check, .offer, .writerDrain] ++ handingEvents)
      (oneByteConnection (n - 1) (storedChannel u)) := by
  have hforward : RequestChannel.Step crc32Update protobuf unmarshalRequest
      (Service.closingChannel u) .forward (storedChannel u) :=
    ⟨(), u, .stop, .success, rfl, rfl, by rw [hu]; rfl, rfl⟩
  have hwrite : Run (Connection.Step crc32Update protobuf unmarshalRequest)
      (oneByteConnection n (Service.closingChannel u))
      [.forward, .push, .receive, .check, .offer, .writerDrain] (writtenConnection n u) :=
    .cons ⟨rfl, Or.inr (Or.inr (Or.inl ⟨rfl, _, hforward, rfl⟩))⟩ <|
    .cons ⟨rfl, Or.inr (Or.inr (Or.inl ⟨_, _, _, rfl, rfl, rfl⟩))⟩ <|
    .cons ⟨rfl, Or.inr (Or.inr (Or.inr (Or.inl ⟨rfl, _, _, rfl, rfl⟩)))⟩ <|
    .cons ⟨rfl, Or.inr (Or.inr (Or.inr (Or.inl ⟨_, rfl, rfl⟩)))⟩ <|
    .cons ⟨rfl, Or.inr (Or.inr (Or.inr (Or.inl ⟨_, rfl, Or.inr ⟨_, rfl, rfl⟩⟩)))⟩ <|
    .cons ⟨rfl, Or.inr (Or.inr (Or.inr (Or.inl ⟨rfl, rfl⟩)))⟩ .nil
  have hlock : ¬(writtenConnection n u).Locked := by
    rintro (h | h) <;> cases h
  have hhanded := @run_handed crc32Update protobuf unmarshalRequest (writtenConnection n u) rfl
    hlock rfl rfl hone htwo _ _ rfl rfl
  exact hwrite.append hhanded

/-- What the only connection does. -/
theorem run_connection {archive : Archive} {x y : Connection Unit} {events : List ConnectionEvent}
    (h : Run (Connection.Step crc pb unmarshal) x events y)
    (hevents : ∀ e ∈ events, ∀ event, e ≠ .upload event)
    (huploads : archive.uploads = [x.channel.upload]) :
    Run (Step crc pb json unmarshal name n) ⟨archive, [x]⟩ (events.map (.connection 0))
      ⟨{ archive with uploads := [y.channel.upload] }, [y]⟩ := by
  induction h with
  | nil =>
    rw [← huploads]
    exact .nil
  | snoc _ hstep ih =>
    rw [List.map_append]
    refine (ih fun e he => hevents e (List.mem_append_left _ he)).snoc ⟨?_,
      hevents _ (List.mem_append_right _ (List.mem_singleton_self _)), _, _, rfl, hstep, rfl⟩
    rintro ⟨z, hz, hpanicked⟩
    rw [List.mem_singleton.mp hz, hstep.1] at hpanicked
    cases hpanicked

/-- What the process does to the only connection. -/
theorem step_process {archive archive' : Archive} {x : Connection Unit} {u : Upload}
    {e : ArchiveEvent} (hpanicked : x.panicked = false) (he : ¬e.OfConnection)
    (h : Archive.Step crc pb json name n archive e archive') (hu : archive'.uploads = [u]) :
    Step crc pb json unmarshal name n ⟨archive, [x]⟩ (.process e)
      ⟨archive', [x.withUpload u]⟩ := by
  refine ⟨?_, he, h, by rw [hu]; rfl⟩
  rintro ⟨z, hz, hz'⟩
  rw [List.mem_singleton.mp hz, hpanicked] at hz'
  cases hz'

theorem looksEmpty_emptyDB : LooksEmpty emptyDB :=
  fun _ => rfl

/-- The client uploads a byte. -/
theorem exists_run_oneByte : ∃ (events : List HostEvent) (s : Host) (u : Upload),
    Run (Step crc32Update protobuf (fun _ => none) unmarshalRequest "lun" 1)
      (initial emptyDB fun _ => 0#8) events s ∧ (∀ e ∈ events, e.Waits) ∧
    s.connections = [oneByteConnection 2147483645 (storedChannel u)] := by
  obtain ⟨db, d, d', disk, v, w, u, fileMeta, archive, hopen, hallot, hfull, hcommit, -, huploads,
    -, -, hresponses, -⟩ := Archive.exists_steps_stored
  have hstart : Step crc32Update protobuf (fun _ => none) unmarshalRequest "lun" 1
      (initial emptyDB fun _ => 0#8) (.process .start)
      ⟨⟨db, some d, fun _ => 0#8, [], [], []⟩, []⟩ :=
    ⟨fun ⟨_, hx, _⟩ => absurd hx List.not_mem_nil, id, hopen, rfl⟩
  have haccept : Step crc32Update protobuf (fun _ => none) unmarshalRequest "lun" 1
      ⟨⟨db, some d, fun _ => 0#8, [], [], []⟩, []⟩ (.accept Service.oneDevice)
      ⟨Archive.only db d (fun _ => 0#8) .new, [.new Service.oneDevice]⟩ :=
    ⟨fun ⟨_, hx, _⟩ => absurd hx List.not_mem_nil, ⟨rfl, rfl⟩, rfl⟩
  have hclosing := @run_connection crc32Update protobuf (fun _ => none) unmarshalRequest
    "lun" 1 (Archive.only db d (fun _ => 0#8) .new) _ _ _ run_oneByteEvents
    (by simp [oneByteEvents, handingEvents]) rfl
  have hrun := ((Run.nil.snoc hstart).snoc haccept |>.append hclosing)
    |>.snoc (step_process rfl id hallot rfl)
    |>.snoc (step_process rfl id hfull rfl)
    |>.snoc (step_process rfl id hcommit huploads)
    |>.append (run_connection (run_success hresponses (by decide) (by decide))
      (by simp [handingEvents]) huploads)
  refine ⟨_, _, u, hrun, ?_, rfl⟩
  simp [oneByteEvents, handingEvents, HostEvent.Waits, ArchiveEvent.Waits, Archive.waits_full]

/-- The process crashes and comes up again. -/
theorem exists_run_restart {events : List HostEvent}
    (h : Run (Step crc32Update protobuf (fun _ => none) unmarshalRequest "lun" 1)
      (initial emptyDB fun _ => 0#8) events s) : ∃ (later : List HostEvent) (t : Host),
    Run (Step crc32Update protobuf (fun _ => none) unmarshalRequest "lun" 1) s later t ∧
    (∀ e ∈ later, e.Waits) ∧ t.connections = [] := by
  obtain ⟨before, hbefore, -, -⟩ := exists_run (by decide) (by decide) fresh_emptyDB
    looksEmpty_emptyDB .nil (linked_initial emptyDB fun _ => 0#8) h
  obtain ⟨d, db, hcrash, hrestart⟩ := Archive.exists_steps_restart hbefore
  refine ⟨[.process (.crash s.archive.disk), .process .start],
    ⟨⟨db, some d, s.archive.disk, [], [], s.archive.stored⟩, []⟩, ?_,
    by simp [HostEvent.Waits, ArchiveEvent.Waits], rfl⟩
  refine .cons (t := ⟨⟨s.archive.db, none, s.archive.disk, [], [], s.archive.stored⟩, []⟩)
      ⟨fun _ => ⟨_, rfl⟩, id, hcrash, (List.zipWith_nil_right).symm⟩ <|
    .cons ⟨?_, id, hrestart, rfl⟩ .nil
  rintro ⟨x, hx, -⟩
  exact absurd hx List.not_mem_nil

end Host

end Corgi
