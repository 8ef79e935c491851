import Corgi.Recovery

/-!
# The ledger of an upload

The upload handler once more, one call of the device at a time : what a rollback gives back is
given back token by token, and other uploads may act in between. What the device answers is
part of the event. The lists `obtained` and `released` record every token that `Alloc` returned
and every token that was handed to `RollbackAlloc`.

The calls are those of one upload, `Start`, any number of `Put` and then `Complete` or
`TimeOut`, each made when the one before is answered. `Stage` says where such an upload stands.
-/

namespace Corgi

/-! ## The model -/

/-- The calls of the handler. -/
inductive UploadCall
  | start (req : PutInitRequest)
  | put (data : Bytes)
  | complete
  | timeOut
  deriving DecidableEq, Repr

/-- `Start` is not answered. -/
def UploadCall.isAsked : UploadCall → Bool
  | start _ => false
  | _ => true

/-- What `Put` puts. -/
def UploadCall.data : UploadCall → Option Bytes
  | put data => some data
  | _ => none

/-- What an upload is waiting for. -/
inductive UploadTask
  | idle
  | alloc (buf : Bytes) (respond : Bool)
  | write (buf : Bytes) (results token : List Result) (respond : Bool)
  /-- Tokens are left to give back, and then the response is sent. -/
  | rollback (tokens : List (List Result)) (r : Response)
  | commit (c : Commit)

/-- An upload as its handler sees it, with what it got from the device and gave back. -/
structure Upload where
  handler : Handler
  task : UploadTask
  responses : List Response
  /-- The record that was committed. -/
  stored : Option FileMeta
  calls : List UploadCall
  /-- What `Alloc` returned. -/
  obtained : List (List Result)
  /-- What `RollbackAlloc` was called with. -/
  released : List (List Result)

/-- The calls of the handler, and what the device and the database answer. -/
inductive UploadEvent
  | call (c : UploadCall)
  | alloc (outcome : Except DeviceError (List Result × List Result))
  | write (written : ℕ) (err : Option ChannelError)
  | rollbackAlloc
  /-- The answer to the request, and whether the consumer found a record. -/
  | commit (answer : Option UploadError) (found : Bool)

/-- The record that `Complete` builds, its extents and their total size. -/
def Handler.build (h : Handler) (req : PutInitRequest) : FileMeta × List Result × ℤ :=
  buildFileMetaAndResults req h.fileSize
    (if h.crc32Value ≠ 0#32 then hex8 h.crc32Value else []) h.blockInfoList

/-- The tokens that `rollbackCompletedFlushes` collects. -/
def Handler.tokens (h : Handler) : List (List Result) :=
  (h.blockInfoList.map FlushBlockInfo.token).filter (· ≠ [])

/-- `rollbackCompletedFlushes` takes the tokens out of the list. -/
def Handler.clearTokens (h : Handler) : Handler :=
  { h with blockInfoList := h.blockInfoList.map fun info => { info with token := [] } }

/-- The tokens of what an upload is waiting for. -/
def UploadTask.tokens : UploadTask → List (List Result)
  | idle | alloc _ _ | commit _ => []
  | write _ _ token _ => [token]
  | rollback tokens _ => tokens

namespace Upload

/-- A new handler. -/
def new : Upload :=
  { handler := .new, task := .idle, responses := [], stored := none, calls := [], obtained := [],
    released := [] }

/-- The call is answered with `r`. -/
def respond (u : Upload) (r : Response) : Upload :=
  { u with task := .idle, responses := u.responses ++ [r] }

/-- Give back tokens and then answer. -/
def rollback (u : Upload) (tokens : List (List Result)) (r : Response) : Upload :=
  if tokens = [] then u.respond r else { u with task := .rollback tokens r }

/-- Give back what the flushes got that have succeeded, then answer with `r`. -/
def rollbackCompletedFlushes (u : Upload) (r : Response) : Upload :=
  rollback { u with handler := u.handler.clearTokens } u.handler.tokens r

/-- Start a flush. -/
def flush (u : Upload) (respond : Bool) : Upload :=
  let (handler, buf) := u.handler.startFlush
  { u with handler, task := .alloc buf respond }

/-- A chunk of the file. A full mebibyte is flushed. -/
def put (crc : BitVec 32 → Bytes → BitVec 32) (u : Upload) (data : Bytes) : Upload :=
  if u.handler.initReq = none then u.respond (.error .startMissing)
  else match u.handler.flushErr with
    | some e => u.respond (.error e)
    | none =>
      if u.handler.finalized then u.respond (.error .finalized)
      else if data = [] then u.respond .cont
      else
        let u := { u with handler := u.handler.addChunk crc data }
        if 1048576 ≤ u.handler.pendingLen then u.flush true else u.respond .cont

/-- The rest of `Complete`, after the last flush. -/
def submit (pb : Protobuf) (u : Upload) (req : PutInitRequest) : Upload :=
  match pb.marshal (u.handler.build req).1 with
  | .error text => u.rollbackCompletedFlushes (.error (.marshal text))
  | .ok metaBytes =>
    { u with
      task := .commit ⟨(u.handler.build req).1, metaBytes, (u.handler.build req).2.1,
        (u.handler.build req).2.2, req.noGet⟩ }

/-- The end of the file. What is left is flushed, and the record submitted. -/
def complete (pb : Protobuf) (u : Upload) : Upload :=
  match u.handler.initReq with
  | none => u.respond (.error .startMissing)
  | some req => match u.handler.flushErr with
    | some e =>
      rollbackCompletedFlushes { u with handler := { u.handler with finalized := true } } (.error e)
    | none =>
      if u.handler.finalized then u.respond (.error .finalized)
      else
        let u := { u with handler := { u.handler with finalized := true } }
        if u.handler.fileSize = 0 then u.respond (.error .emptyPayload)
        else if u.handler.pendingLen ≠ 0 then u.flush false
        else u.submit pb req

/-- The channel timed out: the upload is given up. -/
def timeOut (u : Upload) : Upload :=
  rollbackCompletedFlushes
    { u with handler := { u.handler with finalized := true, pendingLen := 0, chunks := [] } }
    (.error .timeout)

/-- A call of the handler. -/
def call (crc : BitVec 32 → Bytes → BitVec 32) (pb : Protobuf) (u : Upload) : UploadCall → Upload
  | .start req => { u with handler := u.handler.start req }
  | .put data => u.put crc data
  | .complete => u.complete pb
  | .timeOut => u.timeOut

/-- A flush failed, and `tokens` is what it has obtained. -/
def fail (u : Upload) (tokens : List (List Result)) (e : UploadError) : Upload :=
  rollback { u with handler := (u.handler.failFlush e).clearTokens } (tokens ++ u.handler.tokens)
    (.error e)

/-- `runFlush`, once `Alloc` has returned. -/
def allocated (u : Upload) (buf : Bytes) (respond : Bool) :
    Except DeviceError (List Result × List Result) → Upload
  | .error e => u.fail [] (.alloc e)
  | .ok (results, token) =>
    { u with task := .write buf results token respond, obtained := u.obtained ++ [token] }

/-- `runFlush`, once `WriteAllocated` has returned, and what `Complete` does after it. -/
def written (pb : Protobuf) (u : Upload) (buf : Bytes) (results token : List Result)
    (respond : Bool) (written : ℕ) (err : Option ChannelError) : Upload :=
  let err := match err with
    | some e => some (.write e)
    | none => if written ≠ buf.length then some (.partialWrite buf.length written) else none
  match err with
  | some e => u.fail [token] e
  | none =>
    let u := { u with handler := u.handler.completeFlush results token }
    if respond then u.respond .cont
    else match u.handler.initReq with
      | none => u
      | some req => u.submit pb req

/-- `Complete`, once the request is answered. -/
def committed (u : Upload) (c : Commit) (answer : Option UploadError) (found : Bool) : Upload :=
  match answer with
  | some e => u.rollbackCompletedFlushes (.error e)
  | none =>
    if found then u.rollbackCompletedFlushes .success
    else respond { u with stored := some c.fileMeta } .success

/-- One call of `RollbackAlloc`. -/
def rolledBack (u : Upload) (token : List Result) (tokens : List (List Result)) (r : Response) :
    Upload :=
  rollback { u with released := u.released ++ [token] } tokens r

/-- A call is made. -/
def called (u : Upload) (c : UploadCall) : Upload :=
  { u with calls := u.calls ++ [c] }

/-- The calls come in order : `Start` first, and nothing after `Complete` or `TimeOut`. -/
def Accepts (u : Upload) : UploadCall → Prop
  | .start _ => u.calls = []
  | _ => u.calls ≠ [] ∧ .complete ∉ u.calls ∧ .timeOut ∉ u.calls

/-- One step. -/
def Step (crc : BitVec 32 → Bytes → BitVec 32) (pb : Protobuf) (u : Upload) :
    UploadEvent → Upload → Prop
  | .call c, u' => u.task = .idle ∧ u.Accepts c ∧
    u' = (u.called c).call crc pb c
  | .alloc outcome, u' => ∃ buf respond, u.task = .alloc buf respond ∧
    u' = u.allocated buf respond outcome
  | .write written err, u' => ∃ buf results token respond,
    u.task = .write buf results token respond ∧
      u' = u.written pb buf results token respond written err
  | .rollbackAlloc, u' => ∃ token tokens r, u.task = .rollback (token :: tokens) r ∧
    u' = u.rolledBack token tokens r
  | .commit answer found, u' => ∃ c, u.task = .commit c ∧ u' = u.committed c answer found

end Upload

/-- What `Alloc` returns is proper. -/
def UploadEvent.Proper : UploadEvent → Prop
  | .alloc (.ok (results, token)) => FlushBlockInfo.Proper ⟨results, token⟩
  | _ => True

/-! ## What a call can do -/

namespace Upload

variable {crc : BitVec 32 → Bytes → BitVec 32} {pb : Protobuf} {u u' : Upload}

/-- No more chunks are taken. -/
def finalize (u : Upload) : Upload :=
  { u with handler := { u.handler with finalized := true } }

theorem put_cases (u : Upload) (data : Bytes) :
    (∃ r, u.put crc data = u.respond r) ∨
    u.put crc data = respond { u with handler := u.handler.addChunk crc data } .cont ∨
    u.put crc data = flush { u with handler := u.handler.addChunk crc data } true := by
  unfold put
  split
  · exact Or.inl ⟨_, rfl⟩
  split
  · exact Or.inl ⟨_, rfl⟩
  split
  · exact Or.inl ⟨_, rfl⟩
  split
  · exact Or.inl ⟨_, rfl⟩
  simp only
  split
  · exact Or.inr (Or.inr rfl)
  · exact Or.inr (Or.inl rfl)

theorem submit_cases (u : Upload) (req : PutInitRequest) :
    (∃ e, u.submit pb req = u.rollbackCompletedFlushes (.error e)) ∨
    ∃ c, u.submit pb req = { u with task := .commit c } := by
  unfold submit
  split
  · exact Or.inl ⟨_, rfl⟩
  · exact Or.inr ⟨_, rfl⟩

theorem complete_cases (u : Upload) :
    (∃ r, u.complete pb = u.respond r) ∨ (∃ r, u.complete pb = u.finalize.respond r) ∨
    (∃ e, u.complete pb = u.finalize.rollbackCompletedFlushes (.error e)) ∨
    u.complete pb = u.finalize.flush false ∨ ∃ req, u.complete pb = u.finalize.submit pb req := by
  unfold complete
  split
  · exact Or.inl ⟨_, rfl⟩
  split
  · exact Or.inr (Or.inr (Or.inl ⟨_, rfl⟩))
  split
  · exact Or.inl ⟨_, rfl⟩
  simp only
  split
  · exact Or.inr (Or.inl ⟨_, rfl⟩)
  split
  · exact Or.inr (Or.inr (Or.inr (Or.inl rfl)))
  · exact Or.inr (Or.inr (Or.inr (Or.inr ⟨_, rfl⟩)))

theorem written_cases (h : u.handler.initReq ≠ none) (buf : Bytes) (results token : List Result)
    (respond : Bool) (n : ℕ) (err : Option ChannelError) :
    (∃ e, u.written pb buf results token respond n err = u.fail [token] e) ∨
    (respond = true ∧ u.written pb buf results token respond n err =
      Upload.respond { u with handler := u.handler.completeFlush results token } .cont) ∨
    respond = false ∧ ∃ req, u.written pb buf results token respond n err =
      submit pb { u with handler := u.handler.completeFlush results token } req := by
  unfold written
  simp only
  split
  · exact Or.inl ⟨_, rfl⟩
  split
  · exact Or.inr (Or.inl ⟨‹_›, rfl⟩)
  split
  · exact absurd ‹_› h
  · exact Or.inr (Or.inr ⟨Bool.eq_false_iff.mpr ‹_›, _, rfl⟩)

theorem committed_cases (u : Upload) (c : Commit) (answer : Option UploadError) (found : Bool) :
    (∃ r, u.committed c answer found = u.rollbackCompletedFlushes r) ∨
    u.committed c answer found = respond { u with stored := some c.fileMeta } .success := by
  unfold committed
  split
  · exact Or.inl ⟨_, rfl⟩
  split
  · exact Or.inl ⟨_, rfl⟩
  · exact Or.inr rfl

/-! ## Every call is answered once -/

/-- From `u` to `u'` the call is answered, or there is more to do. -/
def Answers (u u' : Upload) : Prop :=
  u'.calls = u.calls ∧ ((u'.task = .idle ∧ ∃ r, u'.responses = u.responses ++ [r]) ∨
    u'.task ≠ .idle ∧ u'.responses = u.responses)

theorem answers_respond (u : Upload) (r : Response) : u.Answers (u.respond r) :=
  ⟨rfl, Or.inl ⟨rfl, r, rfl⟩⟩

theorem answers_rollback (u : Upload) (tokens : List (List Result)) (r : Response) :
    u.Answers (u.rollback tokens r) := by
  rw [rollback]
  split_ifs
  · exact u.answers_respond r
  · exact ⟨rfl, Or.inr ⟨nofun, rfl⟩⟩

theorem answers_flush (u : Upload) (respond : Bool) : u.Answers (u.flush respond) :=
  ⟨rfl, Or.inr ⟨nofun, rfl⟩⟩

theorem answers_rollbackCompletedFlushes (u : Upload) (r : Response) :
    u.Answers (u.rollbackCompletedFlushes r) :=
  answers_rollback { u with handler := u.handler.clearTokens } u.handler.tokens r

theorem answers_fail (u : Upload) (tokens : List (List Result)) (e : UploadError) :
    u.Answers (u.fail tokens e) :=
  answers_rollback { u with handler := (u.handler.failFlush e).clearTokens }
    (tokens ++ u.handler.tokens) (.error e)

theorem answers_submit (u : Upload) (req : PutInitRequest) : u.Answers (u.submit pb req) := by
  rcases @submit_cases pb u req with ⟨e, h⟩ | ⟨c, h⟩ <;> rw [h]
  · exact u.answers_rollbackCompletedFlushes _
  · exact ⟨rfl, Or.inr ⟨nofun, rfl⟩⟩

theorem answers_put (u : Upload) (data : Bytes) : u.Answers (u.put crc data) := by
  rcases @put_cases crc u data with ⟨r, h⟩ | h | h <;> rw [h]
  · exact u.answers_respond r
  · exact answers_respond { u with handler := u.handler.addChunk crc data } .cont
  · exact answers_flush { u with handler := u.handler.addChunk crc data } true

theorem answers_complete (u : Upload) : u.Answers (u.complete pb) := by
  rcases @complete_cases pb u with ⟨r, h⟩ | ⟨r, h⟩ | ⟨e, h⟩ | h | ⟨req, h⟩ <;> rw [h]
  · exact u.answers_respond r
  · exact u.finalize.answers_respond r
  · exact u.finalize.answers_rollbackCompletedFlushes _
  · exact u.finalize.answers_flush false
  · exact u.finalize.answers_submit req

theorem answers_timeOut (u : Upload) : u.Answers u.timeOut :=
  answers_rollbackCompletedFlushes
    { u with handler := { u.handler with finalized := true, pendingLen := 0, chunks := [] } } _

theorem answers_allocated (u : Upload) (buf : Bytes) (respond : Bool)
    (outcome : Except DeviceError (List Result × List Result)) :
    u.Answers (u.allocated buf respond outcome) := by
  cases outcome with
  | error e => exact u.answers_fail [] _
  | ok results => exact ⟨rfl, Or.inr ⟨nofun, rfl⟩⟩

theorem answers_written (h : u.handler.initReq ≠ none) (buf : Bytes) (results token : List Result)
    (respond : Bool) (n : ℕ) (err : Option ChannelError) :
    u.Answers (u.written pb buf results token respond n err) := by
  rcases @written_cases pb u h buf results token respond n err with
    ⟨e, h⟩ | ⟨-, h⟩ | ⟨-, req, h⟩ <;> rw [h]
  · exact u.answers_fail [token] _
  · exact answers_respond { u with handler := u.handler.completeFlush results token } .cont
  · exact answers_submit { u with handler := u.handler.completeFlush results token } req

theorem answers_committed (u : Upload) (c : Commit) (answer : Option UploadError) (found : Bool) :
    u.Answers (u.committed c answer found) := by
  rcases u.committed_cases c answer found with ⟨r, h⟩ | h <;> rw [h]
  · exact u.answers_rollbackCompletedFlushes r
  · exact answers_respond { u with stored := some c.fileMeta } .success

theorem answers_rolledBack (u : Upload) (token : List Result) (tokens : List (List Result))
    (r : Response) : u.Answers (u.rolledBack token tokens r) :=
  answers_rollback { u with released := u.released ++ [token] } tokens r

/-- How many of the calls are to be answered. -/
def asked (u : Upload) : ℕ :=
  u.calls.countP UploadCall.isAsked

/-- Every call but the one in progress is answered, and once. -/
structure Answered (u : Upload) : Prop where
  idle : u.task = .idle → u.responses.length = u.asked
  busy : u.task ≠ .idle → u.responses.length + 1 = u.asked

theorem Answers.answered (h : u.Answers u') (hn : u.responses.length + 1 = u.asked) :
    u'.Answered := by
  obtain ⟨hcalls, ⟨hidle, r, hr⟩ | ⟨hbusy, hr⟩⟩ := h
  · refine ⟨fun _ => ?_, fun h => absurd hidle h⟩
    rw [asked, hcalls, hr, List.length_append]
    exact hn
  · refine ⟨fun h => absurd h hbusy, fun _ => ?_⟩
    rw [asked, hcalls, hr]
    exact hn

/-! ## Where an upload stands -/

/-- `Start` was called and neither `Complete` nor `TimeOut`. -/
def Open (u : Upload) : Prop :=
  u.calls ≠ [] ∧ .complete ∉ u.calls ∧ .timeOut ∉ u.calls

/-- The last call was made. -/
def Ended (u : Upload) : Prop :=
  .complete ∈ u.calls ∨ .timeOut ∈ u.calls

/-- The data of the calls of `Put`. -/
def putData (u : Upload) : List Bytes :=
  u.calls.filterMap UploadCall.data

/-- A handler that has taken `datas` without a failure : one flush for each piece. -/
structure Counts (h : Handler) (datas : List Bytes) : Prop where
  started : h.initReq ≠ none
  flushErr : h.flushErr = none
  finalized : h.finalized = false
  pieces : h.blockInfoList.length = (cutChunks datas).1.length
  pending : h.pendingLen = (cutChunks datas).2.length
  fileSize : h.fileSize = datas.flatten.length

/-- What a call may be answered after a rollback : an error, or that a record was found. -/
def Settles (u : Upload) (r : Response) : Prop :=
  (u.Open ∧ u.handler.flushErr ≠ none ∧ ∃ e, r = .error e) ∨
    u.Ended ∧ r ≠ .cont ∧ (r = .success → .complete ∈ u.calls)

/-- What holds of every upload that was started. -/
structure Started (u : Upload) : Prop where
  initReq : u.handler.initReq ≠ none
  stored : u.stored = none

/-- Nothing was given back so far. -/
structure Holding (u : Upload) : Prop extends Started u where
  flushErr : u.handler.flushErr = none
  released : u.released = []

theorem Started.congr (h : u.Started) (hreq : u'.handler.initReq = u.handler.initReq)
    (hstored : u'.stored = u.stored) : u'.Started :=
  ⟨hreq ▸ h.initReq, hstored.trans h.stored⟩

theorem Holding.congr (h : u.Holding) (hreq : u'.handler.initReq = u.handler.initReq)
    (hstored : u'.stored = u.stored) (herr : u'.handler.flushErr = u.handler.flushErr)
    (hreleased : u'.released = u.released) : u'.Holding :=
  ⟨h.toStarted.congr hreq hstored, herr.trans h.flushErr, hreleased.trans h.released⟩

/-- Where an upload stands. -/
inductive Stage (u : Upload) : Prop
  | fresh (h : u = .new)
  /-- Every `Put` so far was answered with CONTINUE. -/
  | active (hopen : u.Open) (hidle : u.task = .idle) (hholding : u.Holding)
    (hcounts : Counts u.handler u.putData) (hproper : ∀ info ∈ u.handler.blockInfoList, info.Proper)
    (hresponses : ∀ r ∈ u.responses, r = .cont)
  /-- The entry of the flush in progress is the last one. -/
  | flushing (respond : Bool) (hcalls : if respond then u.Open ∧ Counts u.handler u.putData
      else .complete ∈ u.calls)
    (htask : (∃ buf, u.task = .alloc buf respond) ∨ ∃ buf results token,
      u.task = .write buf results token respond ∧ FlushBlockInfo.Proper ⟨results, token⟩)
    (hholding : u.Holding) (infos : List FlushBlockInfo)
    (hinfos : u.handler.blockInfoList = infos ++ [⟨[], []⟩]) (hproper : ∀ info ∈ infos, info.Proper)
    (hresponses : ∀ r ∈ u.responses, r = .cont)
  | committing (c : Commit) (htask : u.task = .commit c) (hcalls : .complete ∈ u.calls)
    (hholding : u.Holding) (hproper : ∀ info ∈ u.handler.blockInfoList, info.Proper)
    (hblocks : c.fileMeta.blocks = infoBlocks u.handler.blockInfoList)
  | rollingBack (tokens : List (List Result)) (r : Response) (htask : u.task = .rollback tokens r)
    (hne : tokens ≠ []) (hstarted : u.Started) (hcleared : u.handler.tokens = [])
    (hsettles : u.Settles r)
  /-- Everything was given back. -/
  | settled (r : Response) (hidle : u.task = .idle) (hlast : u.responses.getLast? = some r)
    (hstarted : u.Started) (hcleared : u.handler.tokens = []) (hsettles : u.Settles r)
  /-- The record is stored, and nothing was given back. -/
  | kept (fileMeta : FileMeta) (hidle : u.task = .idle)
    (hlast : u.responses.getLast? = some .success) (hcalls : .complete ∈ u.calls)
    (hstored : u.stored = some fileMeta) (hreleased : u.released = [])
    (hproper : ∀ info ∈ u.handler.blockInfoList, info.Proper)
    (hblocks : fileMeta.blocks = infoBlocks u.handler.blockInfoList)

theorem not_ended_of_open (h : u.Open) : ¬u.Ended :=
  fun hend => hend.elim h.2.1 h.2.2

theorem tokens_clearTokens (h : Handler) : h.clearTokens.tokens = [] := by
  rw [Handler.tokens, Handler.clearTokens, List.map_map, List.filter_eq_nil_iff]
  intro token htoken
  obtain ⟨info, -, rfl⟩ := List.mem_map.mp htoken
  simp

theorem stage_rollback (tokens : List (List Result)) {r : Response} (hstarted : u.Started)
    (hcleared : u.handler.tokens = []) (hsettles : u.Settles r) : (u.rollback tokens r).Stage := by
  rw [rollback]
  split_ifs with hnil
  · exact .settled r rfl List.getLast?_concat (hstarted.congr rfl rfl) hcleared hsettles
  · exact .rollingBack tokens r rfl hnil (hstarted.congr rfl rfl) hcleared hsettles

theorem stage_rollbackCompletedFlushes {r : Response} (hstarted : u.Started)
    (hsettles : u.Settles r) : (u.rollbackCompletedFlushes r).Stage :=
  stage_rollback _ (hstarted.congr rfl rfl) (tokens_clearTokens u.handler) hsettles

/-- A flush that fails. -/
theorem stage_fail (tokens : List (List Result)) (e : UploadError) (hstarted : u.Started)
    (hcalls : u.Open ∨ .complete ∈ u.calls) : (u.fail tokens e).Stage := by
  refine stage_rollback _ (hstarted.congr rfl rfl) (tokens_clearTokens _) ?_
  rcases hcalls with hopen | hcomplete
  · refine Or.inl ⟨hopen, ?_, e, rfl⟩
    change u.handler.flushErr.or (some e) ≠ none
    cases u.handler.flushErr <;> simp
  · exact Or.inr ⟨Or.inl hcomplete, nofun, nofun⟩

theorem stage_submit (req : PutInitRequest) (hholding : u.Holding)
    (hcalls : .complete ∈ u.calls) (hproper : ∀ info ∈ u.handler.blockInfoList, info.Proper) :
    (u.submit pb req).Stage := by
  unfold submit
  split
  · exact stage_rollbackCompletedFlushes hholding.toStarted
      (Or.inr ⟨Or.inl hcalls, nofun, nofun⟩)
  · exact .committing _ rfl hcalls (hholding.congr rfl rfl rfl rfl) hproper
      (blocks_buildFileMeta req _ _ hproper)

/-! ## The calls -/

/-- One more chunk, when it is not empty. -/
theorem Counts.addChunk {h : Handler} {datas : List Bytes} (hc : Counts h datas) (data : Bytes) :
    ((h.addChunk crc data).pendingLen = ((cutChunks datas).2 ++ data).length) ∧
      (h.addChunk crc data).fileSize = (datas ++ [data]).flatten.length := by
  rw [List.length_append, ← hc.pending, List.flatten_append, List.length_append, ← hc.fileSize,
    List.flatten_singleton]
  exact ⟨rfl, rfl⟩

theorem stage_put_active {data : Bytes} (hopen : u.Open) (hholding : u.Holding)
    {datas : List Bytes} (hcounts : Counts u.handler datas) (hdata : u.putData = datas ++ [data])
    (hproper : ∀ info ∈ u.handler.blockInfoList, info.Proper)
    (hresponses : ∀ r ∈ u.responses, r = .cont) : (u.put crc data).Stage := by
  have hcont : ∀ r ∈ u.responses ++ [.cont], r = .cont := by
    intro r hr
    rcases List.mem_append.mp hr with hr | hr
    · exact hresponses r hr
    · exact List.mem_singleton.mp hr
  obtain ⟨hpending, hsize⟩ := @Counts.addChunk crc _ _ hcounts data
  unfold put
  rw [if_neg hholding.initReq, hholding.flushErr]
  simp only
  rw [hcounts.finalized, if_neg Bool.false_ne_true]
  split
  · -- an empty chunk changes nothing
    rename_i hnil
    subst hnil
    refine .active hopen rfl (hholding.congr rfl rfl rfl rfl) ?_ hproper hcont
    change Counts u.handler u.putData
    rw [hdata]
    exact ⟨hcounts.started, hcounts.flushErr, hcounts.finalized,
      by rw [cutChunks_concat_nil, hcounts.pieces], by rw [cutChunks_concat_nil, hcounts.pending],
      by rw [hcounts.fileSize, List.flatten_append]; simp⟩
  split
  · rename_i hfull
    refine .flushing true ⟨hopen, ?_⟩ (Or.inl ⟨_, rfl⟩) (hholding.congr rfl rfl rfl rfl)
      u.handler.blockInfoList rfl hproper hresponses
    change Counts (u.handler.addChunk crc data).startFlush.1 u.putData
    have hcut : cutChunks (datas ++ [data]) =
        ((cutChunks datas).1 ++ [(cutChunks datas).2 ++ data], []) := by
      rw [cutChunks_concat, cutChunk, if_pos (hpending ▸ hfull)]
    rw [hdata]
    refine ⟨hcounts.started, hcounts.flushErr, hcounts.finalized, ?_, by rw [hcut]; rfl, hsize⟩
    change (u.handler.blockInfoList ++ [(⟨[], []⟩ : FlushBlockInfo)]).length = _
    rw [hcut, List.length_append, List.length_append, hcounts.pieces]
    rfl
  · rename_i hfull
    refine .active hopen rfl (hholding.congr rfl rfl rfl rfl) ?_ hproper hcont
    change Counts (u.handler.addChunk crc data) u.putData
    have hcut : cutChunks (datas ++ [data]) =
        ((cutChunks datas).1, (cutChunks datas).2 ++ data) := by
      rw [cutChunks_concat, cutChunk, if_neg (hpending ▸ hfull)]
    rw [hdata]
    exact ⟨hcounts.started, hcounts.flushErr, hcounts.finalized, by rw [hcut]; exact hcounts.pieces,
      by rw [hcut]; exact hpending, hsize⟩

theorem stage_complete_active (hcalls : .complete ∈ u.calls) (hholding : u.Holding)
    {datas : List Bytes} (hcounts : Counts u.handler datas)
    (hproper : ∀ info ∈ u.handler.blockInfoList, info.Proper)
    (hresponses : ∀ r ∈ u.responses, r = .cont) : (u.complete pb).Stage := by
  obtain ⟨req, hreq⟩ := Option.ne_none_iff_exists'.mp hholding.initReq
  unfold complete
  rw [hreq, hholding.flushErr]
  simp only
  rw [hcounts.finalized, if_neg Bool.false_ne_true]
  split
  · -- nothing was put, so nothing was flushed
    rename_i hzero
    have hnil : u.handler.blockInfoList = [] := by
      have hflat := flatten_cutChunks datas
      rw [List.length_eq_zero_iff.mp (hcounts.fileSize.symm.trans hzero)] at hflat
      refine List.length_eq_zero_iff.mp (hcounts.pieces.trans (List.length_eq_zero_iff.mpr ?_))
      refine List.eq_nil_iff_forall_not_mem.mpr fun piece hpiece => ?_
      exact ne_nil_of_mem_cutChunks datas piece hpiece
        (List.flatten_eq_nil_iff.mp (List.append_eq_nil_iff.mp hflat).1 piece hpiece)
    refine .settled _ rfl List.getLast?_concat ⟨hholding.initReq, hholding.stored⟩ ?_
      (Or.inr ⟨Or.inl hcalls, nofun, nofun⟩)
    change Handler.tokens { u.handler with finalized := true } = []
    rw [Handler.tokens, hnil]
    rfl
  split
  · exact .flushing false hcalls (Or.inl ⟨_, rfl⟩) (hholding.congr rfl rfl rfl rfl)
      u.handler.blockInfoList rfl hproper hresponses
  · exact stage_submit req (hholding.congr rfl rfl rfl rfl) hcalls hproper

/-- After a flush has failed `Put` only tells so. -/
theorem put_of_flushErr {data : Bytes} {e : UploadError} (hreq : u.handler.initReq ≠ none)
    (he : u.handler.flushErr = some e) : u.put crc data = u.respond (.error e) := by
  unfold put
  rw [if_neg hreq, he]

/-- Between two calls of an open upload. -/
theorem Stage.of_open (h : u.Stage) (hidle : u.task = .idle) (hopen : u.Open) :
    (u.Holding ∧ Counts u.handler u.putData ∧ (∀ info ∈ u.handler.blockInfoList, info.Proper) ∧
      ∀ r ∈ u.responses, r = .cont) ∨
    u.Started ∧ u.handler.flushErr ≠ none ∧ u.handler.tokens = [] ∧
      ∃ e, u.responses.getLast? = some (.error e) := by
  cases h with
  | fresh h => exact absurd (congrArg Upload.calls h) hopen.1
  | active _ _ hholding hcounts hproper hresponses =>
    exact Or.inl ⟨hholding, hcounts, hproper, hresponses⟩
  | flushing respond _ htask =>
    rcases htask with ⟨buf, htask⟩ | ⟨buf, results, token, htask, -⟩ <;>
      exact absurd (hidle.symm.trans htask) nofun
  | committing c htask => exact absurd (hidle.symm.trans htask) nofun
  | rollingBack tokens r htask => exact absurd (hidle.symm.trans htask) nofun
  | settled r _ hlast hstarted hcleared hsettles =>
    rcases hsettles with ⟨-, herr, e, rfl⟩ | ⟨hended, -⟩
    · exact Or.inr ⟨hstarted, herr, hcleared, e, hlast⟩
    · exact absurd hended (not_ended_of_open hopen)
  | kept fileMeta _ _ hcalls => exact absurd hcalls hopen.2.1

/-- Only `Complete` is answered with SUCCESS. -/
theorem Stage.complete_of_success (h : u.Stage) (hidle : u.task = .idle)
    (hlast : u.responses.getLast? = some .success) : .complete ∈ u.calls := by
  cases h with
  | fresh h => rw [h] at hlast; cases hlast
  | active _ _ _ _ _ hresponses => cases hresponses _ (List.mem_of_getLast? hlast)
  | flushing respond _ htask =>
    rcases htask with ⟨buf, htask⟩ | ⟨buf, results, token, htask, -⟩ <;>
      exact absurd (hidle.symm.trans htask) nofun
  | committing c htask => exact absurd (hidle.symm.trans htask) nofun
  | rollingBack tokens r htask => exact absurd (hidle.symm.trans htask) nofun
  | settled r _ hr _ _ hsettles =>
    cases hlast.symm.trans hr
    rcases hsettles with ⟨-, -, e, h⟩ | ⟨-, -, h⟩
    · cases h
    · exact h rfl
  | kept fileMeta _ _ hcalls => exact hcalls

/-- Before `Start`. -/
theorem Stage.of_nil (h : u.Stage) (hnil : u.calls = []) : u = .new := by
  have hopen : ¬u.Open := fun h => h.1 hnil
  have hcomplete : .complete ∉ u.calls := by
    rw [hnil]
    exact List.not_mem_nil
  have hsettles : ∀ r, ¬u.Settles r := by
    rintro r (⟨h, -⟩ | ⟨h | h, -⟩)
    · exact hopen h
    · exact hcomplete h
    · rw [hnil] at h
      exact List.not_mem_nil h
  cases h with
  | fresh h => exact h
  | active h => exact absurd h hopen
  | flushing respond hcalls =>
    cases respond with
    | true => exact absurd hcalls.1 hopen
    | false => exact absurd hcalls hcomplete
  | committing c _ hcalls => exact absurd hcalls hcomplete
  | rollingBack tokens r _ _ _ _ h => exact absurd h (hsettles r)
  | settled r _ _ _ _ h => exact absurd h (hsettles r)
  | kept fileMeta _ _ hcalls => exact absurd hcalls hcomplete

theorem mem_called (u : Upload) (c : UploadCall) : c ∈ (u.called c).calls :=
  List.mem_append_right _ (List.mem_singleton_self c)

theorem Open.called_put (h : u.Open) (data : Bytes) : (u.called (.put data)).Open := by
  refine ⟨List.append_ne_nil_of_left_ne_nil h.1 _, fun hmem => ?_, fun hmem => ?_⟩ <;>
    rcases List.mem_append.mp hmem with hmem | hmem
  · exact h.2.1 hmem
  · cases List.mem_singleton.mp hmem
  · exact h.2.2 hmem
  · cases List.mem_singleton.mp hmem

theorem stage_call (h : u.Stage) (hidle : u.task = .idle) {c : UploadCall} (hacc : u.Accepts c) :
    ((u.called c).call crc pb c).Stage := by
  cases c with
  | start req =>
    obtain rfl := h.of_nil hacc
    exact .active ⟨by simp [call, called, new], by simp [call, called, new],
      by simp [call, called, new]⟩ rfl ⟨⟨nofun, rfl⟩, rfl, rfl⟩ ⟨nofun, rfl, rfl, rfl, rfl, rfl⟩
      nofun nofun
  | put data =>
    have hopen := Open.called_put hacc data
    rcases h.of_open hidle hacc with ⟨hholding, hcounts, hproper, hresponses⟩ |
      ⟨hstarted, herr, hcleared, -⟩
    · refine stage_put_active hopen (hholding.congr rfl rfl rfl rfl) hcounts ?_ hproper hresponses
      rw [putData, called, List.filterMap_append]
      rfl
    · obtain ⟨e, he⟩ := Option.ne_none_iff_exists'.mp herr
      rw [call, put_of_flushErr (u := u.called (.put data)) hstarted.initReq he]
      exact .settled (.error e) rfl List.getLast?_concat (hstarted.congr rfl rfl) hcleared
        (Or.inl ⟨hopen, herr, e, rfl⟩)
  | complete =>
    have hcalls := u.mem_called .complete
    rcases h.of_open hidle hacc with ⟨hholding, hcounts, hproper, hresponses⟩ |
      ⟨hstarted, herr, hcleared, -⟩
    · exact stage_complete_active hcalls (hholding.congr rfl rfl rfl rfl) hcounts hproper hresponses
    · obtain ⟨e, he⟩ := Option.ne_none_iff_exists'.mp herr
      obtain ⟨req, hreq⟩ := Option.ne_none_iff_exists'.mp hstarted.initReq
      have he' : (u.called .complete).handler.flushErr = some e := he
      have hreq' : (u.called .complete).handler.initReq = some req := hreq
      rw [call, complete, hreq', he']
      exact stage_rollbackCompletedFlushes (hstarted.congr rfl rfl)
        (Or.inr ⟨Or.inl hcalls, nofun, nofun⟩)
  | timeOut =>
    have hstarted : u.Started := (h.of_open hidle hacc).elim (fun h => h.1.toStarted) fun h => h.1
    exact stage_rollbackCompletedFlushes (hstarted.congr rfl rfl)
      (Or.inr ⟨Or.inr (u.mem_called .timeOut), nofun, nofun⟩)

/-! ## The device's answers -/

/-- During a flush. -/
theorem Stage.of_flushing (h : u.Stage) {respond : Bool}
    (htask : (∃ buf, u.task = .alloc buf respond) ∨
      ∃ buf results token, u.task = .write buf results token respond) :
    (if respond then u.Open ∧ Counts u.handler u.putData else .complete ∈ u.calls) ∧ u.Holding ∧
    (∃ infos, u.handler.blockInfoList = infos ++ [⟨[], []⟩] ∧ ∀ info ∈ infos, info.Proper) ∧
    (∀ r ∈ u.responses, r = .cont) ∧
    ∀ buf results token, u.task = .write buf results token respond →
      FlushBlockInfo.Proper ⟨results, token⟩ := by
  have hne : ∀ task, u.task = task → (∀ buf, task ≠ .alloc buf respond) →
      (∀ buf results token, task ≠ .write buf results token respond) → False := by
    rintro task rfl h₁ h₂
    rcases htask with ⟨buf, h⟩ | ⟨buf, results, token, h⟩
    · exact h₁ buf h
    · exact h₂ buf results token h
  cases h with
  | flushing respond' hcalls htask' hholding infos hinfos hinfo hresponses =>
    obtain rfl : respond' = respond := by
      rcases htask with ⟨_, h⟩ | ⟨_, _, _, h⟩ <;>
        rcases htask' with ⟨_, h'⟩ | ⟨_, _, _, h', -⟩ <;> cases h.symm.trans h' <;> rfl
    refine ⟨hcalls, hholding, ⟨infos, hinfos, hinfo⟩, hresponses, fun buf results token h => ?_⟩
    rcases htask' with ⟨_, h'⟩ | ⟨_, _, _, h', hproper⟩ <;> cases h.symm.trans h'
    exact hproper
  | fresh h => exact (hne .idle (congrArg Upload.task h) nofun nofun).elim
  | active _ hidle => exact (hne _ hidle nofun nofun).elim
  | committing c hc => exact (hne _ hc nofun nofun).elim
  | rollingBack tokens r hr => exact (hne _ hr nofun nofun).elim
  | settled r hidle => exact (hne _ hidle nofun nofun).elim
  | kept fileMeta hidle => exact (hne _ hidle nofun nofun).elim

theorem stage_allocated {buf : Bytes} {respond : Bool} (h : u.Stage)
    (htask : u.task = .alloc buf respond)
    {outcome : Except DeviceError (List Result × List Result)}
    (hproper : UploadEvent.Proper (.alloc outcome)) : (u.allocated buf respond outcome).Stage := by
  obtain ⟨hcalls, hholding, ⟨infos, hinfos, hinfo⟩, hresponses, -⟩ :=
    h.of_flushing (Or.inl ⟨buf, htask⟩)
  cases outcome with
  | error e =>
    refine stage_fail [] _ hholding.toStarted ?_
    cases respond with
    | true => exact Or.inl hcalls.1
    | false => exact Or.inr hcalls
  | ok res =>
    exact .flushing respond hcalls (Or.inr ⟨buf, res.1, res.2, rfl, hproper⟩)
      (hholding.congr rfl rfl rfl rfl) infos hinfos hinfo hresponses

theorem stage_written {buf : Bytes} {results token : List Result} {respond : Bool} (h : u.Stage)
    (htask : u.task = .write buf results token respond) (n : ℕ) (err : Option ChannelError) :
    (u.written pb buf results token respond n err).Stage := by
  obtain ⟨hcalls, hholding, ⟨infos, hinfos, hinfo⟩, hresponses, hproper⟩ :=
    h.of_flushing (Or.inr ⟨buf, results, token, htask⟩)
  have hlist : (u.handler.completeFlush results token).blockInfoList =
      infos ++ [⟨results, token⟩] := by
    rw [Handler.completeFlush, hinfos, List.dropLast_concat]
  have hall : ∀ info ∈ (u.handler.completeFlush results token).blockInfoList, info.Proper := by
    rw [hlist]
    intro info hmem
    rcases List.mem_append.mp hmem with hmem | hmem
    · exact hinfo info hmem
    · rw [List.mem_singleton.mp hmem]
      exact hproper buf results token htask
  rcases @written_cases pb u hholding.initReq buf results token respond n err with
    ⟨e, h⟩ | ⟨hrespond, h⟩ | ⟨hrespond, req, h⟩ <;> rw [h]
  · refine stage_fail [token] _ hholding.toStarted ?_
    cases respond with
    | true => exact Or.inl hcalls.1
    | false => exact Or.inr hcalls
  · rw [if_pos hrespond] at hcalls
    obtain ⟨hopen, hcounts⟩ := hcalls
    refine .active hopen rfl (hholding.congr rfl rfl rfl rfl) ⟨hcounts.started, hcounts.flushErr,
      hcounts.finalized, ?_, hcounts.pending, hcounts.fileSize⟩ hall fun r hr => ?_
    · refine Eq.trans (congrArg List.length hlist) (Eq.trans ?_ hcounts.pieces)
      rw [hinfos, List.length_append, List.length_append]
      rfl
    · rcases List.mem_append.mp hr with hr | hr
      · exact hresponses r hr
      · exact List.mem_singleton.mp hr
  · rw [if_neg (Bool.eq_false_iff.mp hrespond)] at hcalls
    exact stage_submit req (hholding.congr rfl rfl rfl rfl) hcalls hall

/-- While the record is committed. -/
theorem Stage.of_committing {c : Commit} (h : u.Stage) (htask : u.task = .commit c) :
    u.Holding ∧ .complete ∈ u.calls ∧ (∀ info ∈ u.handler.blockInfoList, info.Proper) ∧
      c.fileMeta.blocks = infoBlocks u.handler.blockInfoList := by
  cases h with
  | committing c' htask' hcalls hholding hproper hblocks =>
    cases htask.symm.trans htask'
    exact ⟨hholding, hcalls, hproper, hblocks⟩
  | fresh h => subst h; cases htask
  | active _ hidle => cases hidle.symm.trans htask
  | flushing respond _ htask' =>
    rcases htask' with ⟨_, h⟩ | ⟨_, _, _, h, -⟩ <;> cases h.symm.trans htask
  | rollingBack tokens r hr => cases hr.symm.trans htask
  | settled r hidle => cases hidle.symm.trans htask
  | kept fileMeta hidle => cases hidle.symm.trans htask

theorem stage_committed {c : Commit} (h : u.Stage) (htask : u.task = .commit c)
    (answer : Option UploadError) (found : Bool) : (u.committed c answer found).Stage := by
  obtain ⟨hholding, hcalls, hproper, hblocks⟩ := h.of_committing htask
  unfold committed
  split
  · exact stage_rollbackCompletedFlushes hholding.toStarted (Or.inr ⟨Or.inl hcalls, nofun, nofun⟩)
  split
  · exact stage_rollbackCompletedFlushes hholding.toStarted
      (Or.inr ⟨Or.inl hcalls, nofun, fun _ => hcalls⟩)
  · exact .kept c.fileMeta rfl List.getLast?_concat hcalls rfl hholding.released hproper hblocks

/-- During a rollback. -/
theorem Stage.of_rollback {tokens : List (List Result)} {r : Response} (h : u.Stage)
    (htask : u.task = .rollback tokens r) :
    tokens ≠ [] ∧ u.Started ∧ u.handler.tokens = [] ∧ u.Settles r := by
  cases h with
  | rollingBack tokens' r' htask' hne hstarted hcleared hsettles =>
    cases htask.symm.trans htask'
    exact ⟨hne, hstarted, hcleared, hsettles⟩
  | fresh h => subst h; cases htask
  | active _ hidle => cases hidle.symm.trans htask
  | flushing respond _ htask' =>
    rcases htask' with ⟨_, h⟩ | ⟨_, _, _, h, -⟩ <;> cases h.symm.trans htask
  | committing c hc => cases hc.symm.trans htask
  | settled r hidle => cases hidle.symm.trans htask
  | kept fileMeta hidle => cases hidle.symm.trans htask

theorem stage_rolledBack {token : List Result} {tokens : List (List Result)} {r : Response}
    (h : u.Stage) (htask : u.task = .rollback (token :: tokens) r) :
    (u.rolledBack token tokens r).Stage := by
  obtain ⟨-, hstarted, hcleared, hsettles⟩ := h.of_rollback htask
  exact stage_rollback tokens (hstarted.congr rfl rfl) hcleared hsettles

/-- Every step leads from a stage to a stage. -/
theorem Stage.step (h : u.Stage) {e : UploadEvent} (he : e.Proper) (hstep : Step crc pb u e u') :
    u'.Stage := by
  cases e with
  | call c =>
    obtain ⟨hidle, hacc, rfl⟩ := hstep
    exact stage_call h hidle hacc
  | alloc outcome =>
    obtain ⟨buf, respond, htask, rfl⟩ := hstep
    exact stage_allocated h htask he
  | write n err =>
    obtain ⟨buf, results, token, respond, htask, rfl⟩ := hstep
    exact stage_written h htask n err
  | rollbackAlloc =>
    obtain ⟨token, tokens, r, htask, rfl⟩ := hstep
    exact stage_rolledBack h htask
  | commit answer found =>
    obtain ⟨c, htask, rfl⟩ := hstep
    exact stage_committed h htask answer found

end Upload

end Corgi
