import Corgi.Channel
import Corgi.Node

/-!
# The upload handler

The model of `AioUploadServerHandler` as a state machine. `Put` collects chunks until a
mebibyte is pending and then flushes them : it allocates extents, writes the padded data to
them and answers. `Complete` flushes what is left, builds the record and submits it to the
group commit. A failure rolls back what the upload has allocated. The calls are made one
after another, each once the one before is answered. Between any two steps other uploads may
act on the device, its disk and the database, but do not touch the blocks that this upload
holds (`Session.Others`).
-/

namespace Corgi

/-- The errors an upload is answered with. -/
inductive UploadError
  | startMissing
  | finalized
  | emptyPayload
  | timeout
  | alloc (e : DeviceError)
  | write (e : ChannelError)
  | partialWrite (need written : ℕ)
  | marshal (text : String)
  | noProcessor (lun : Bytes)
  | commit (e : BatchError)
  deriving DecidableEq, Repr

/-- The text of the error. -/
def UploadError.message : UploadError → String
  | startMissing => "start request is missing"
  | finalized => "upload is already finalized"
  | emptyPayload => "empty put payload"
  | timeout => "channel timeout"
  | alloc e => e.message
  | write e => e.message
  | partialWrite need written => s!"partial aio write: need={need} written={written}"
  | marshal text => text
  | noProcessor lun => s!"BatchPebble: no processor registered for lun {strconvQuote lun}"
  | commit e => e.message

/-- What the handler answers to a call. -/
inductive Response
  | cont
  | success
  | error (e : UploadError)
  deriving DecidableEq, Repr

/-- The state of `AioUploadServerHandler`. -/
structure Handler where
  initReq : Option PutInitRequest
  chunks : List Bytes
  pendingLen : ℕ
  fileSize : ℕ
  crc32Value : BitVec 32
  /-- One entry for each flush that was started. The entry of a flush that has not
  succeeded is empty. -/
  blockInfoList : List FlushBlockInfo
  flushErr : Option UploadError
  finalized : Bool

namespace Handler

/-- A handler that was not started. -/
def new : Handler :=
  { initReq := none, chunks := [], pendingLen := 0, fileSize := 0, crc32Value := 0#32,
    blockInfoList := [], flushErr := none, finalized := false }

/-- The chunks stay. -/
def start (h : Handler) (req : PutInitRequest) : Handler :=
  { h with
    initReq := some req, pendingLen := 0, fileSize := 0, crc32Value := 0#32, blockInfoList := [],
    flushErr := none, finalized := false }

/-- `copy(buf[cursor:], chunk)`. -/
def copyAt (buf : Bytes) (cursor : ℕ) (chunk : Bytes) : Bytes :=
  buf.take cursor ++ (chunk ++ (buf.drop cursor).drop chunk.length).take (buf.length - cursor)

/-- Copy the chunks one after another. -/
def copyChunks (buf : Bytes) (chunks : List Bytes) : Bytes :=
  (chunks.foldl (fun (buf, cursor) chunk =>
    (copyAt buf cursor chunk, cursor + chunk.length)) (buf, 0)).1

/-- The pending chunks in a zeroed buffer of whole blocks. -/
def startFlush (h : Handler) : Handler × Bytes :=
  let buf := newAlignedBlockBuffer (alignBlockSize h.pendingLen)
  ({ h with
      chunks := [], pendingLen := 0, blockInfoList := h.blockInfoList ++ [⟨[], []⟩] },
    copyChunks buf h.chunks)

/-- The flush that was started last has succeeded. -/
def completeFlush (h : Handler) (results token : List Result) : Handler :=
  { h with blockInfoList := h.blockInfoList.dropLast ++ [⟨results, token⟩] }

/-- The first error stays. -/
def failFlush (h : Handler) (e : UploadError) : Handler :=
  { h with flushErr := h.flushErr.or (some e) }

/-- Give back the tokens of all flushes. -/
def rollbackCompletedFlushes (h : Handler) (d : BlockDevice) : Handler × BlockDevice :=
  ({ h with blockInfoList := h.blockInfoList.map fun info => { info with token := [] } },
    (h.blockInfoList.map FlushBlockInfo.token).foldl BlockDevice.rollbackAlloc d)

/-- Take a chunk. -/
def addChunk (crc : BitVec 32 → Bytes → BitVec 32) (h : Handler) (data : Bytes) : Handler :=
  { h with
    crc32Value := crc h.crc32Value data
    chunks := h.chunks ++ [data]
    pendingLen := h.pendingLen + data.length
    fileSize := h.fileSize + data.length }

end Handler

/-- `crc32.Update` with the table of the IEEE polynomial, one bit at a time. -/
def crc32Update (crc : BitVec 32) (data : Bytes) : BitVec 32 :=
  ~~~data.foldl (fun v b => Nat.repeat (fun v =>
    if v.getLsbD 0 then v >>> 1 ^^^ 0xEDB88320#32 else v >>> 1) 8 (v ^^^ b.setWidth 32)) (~~~crc)

example : crc32Update 0#32 (ascii ['1', '2', '3', '4', '5', '6', '7', '8', '9']) =
    0xCBF43926#32 := by
  decide +kernel

/-- `%08x`. -/
def hex8 (v : BitVec 32) : Bytes :=
  (List.range 8).reverse.map fun i =>
    let d := v.toNat / 16 ^ i % 16
    BitVec.ofNat 8 (if d < 10 then 48 + d else 87 + d)

/-- What an upload is waiting for. `respond` says that the flush was started by `Put`. -/
inductive Phase
  | idle
  | alloc (buf : Bytes) (respond : Bool)
  | write (buf : Bytes) (results token : List Result) (respond : Bool)
  | commit (c : Commit)

/-- An upload and what it shares with others. -/
structure Session where
  handler : Handler
  phase : Phase
  device : BlockDevice
  disk : Disk
  db : DB
  /-- The responses so far, oldest first. -/
  responses : List Response
  /-- The record that was committed. -/
  stored : Option FileMeta

/-- The calls of the handler, what its flushes and its request do, and what others do. -/
inductive SessionEvent
  | start (req : PutInitRequest)
  | put (data : Bytes)
  | complete
  | timeOut
  | flushAlloc
  | flushWrite (outcome : Segment → SubmitOutcome) (ctx : Context)
  | commit (before after : List Commit) (outcome : Option BatchError)
  | noProcessor
  | others (device : BlockDevice) (disk : Disk) (db : DB)

/-- The calls that are made on the handler. -/
def SessionEvent.isCall : SessionEvent → Bool
  | start _ | put _ | complete | timeOut => true
  | _ => false

namespace Session

/-- Before `Start`. -/
def new (device : BlockDevice) (disk : Disk) (db : DB) : Session :=
  { handler := .new, phase := .idle, device, disk, db, responses := [], stored := none }

/-- The call is answered with `r`. -/
def respond (s : Session) (r : Response) : Session :=
  { s with phase := .idle, responses := s.responses ++ [r] }

/-- Roll back and answer with an error. -/
def abort (s : Session) (e : UploadError) : Session :=
  let (handler, device) := s.handler.rollbackCompletedFlushes s.device
  respond { s with handler, device } (.error e)

/-- Start a flush. -/
def flush (s : Session) (respond : Bool) : Session :=
  let (handler, buf) := s.handler.startFlush
  { s with handler, phase := .alloc buf respond }

/-- A chunk of the file. A full mebibyte is flushed. -/
def put (crc : BitVec 32 → Bytes → BitVec 32) (s : Session) (data : Bytes) : Session :=
  if s.handler.initReq = none then s.respond (.error .startMissing)
  else match s.handler.flushErr with
    | some e => s.respond (.error e)
    | none =>
      if s.handler.finalized then s.respond (.error .finalized)
      else if data = [] then s.respond .cont
      else
        let s := { s with handler := s.handler.addChunk crc data }
        if 1048576 ≤ s.handler.pendingLen then s.flush true else s.respond .cont

/-- The rest of `Complete`, after the last flush : build the record and submit it. -/
def submit (pb : Protobuf) (s : Session) (req : PutInitRequest) : Session :=
  let h := s.handler
  let etag := if h.crc32Value ≠ 0#32 then hex8 h.crc32Value else []
  let (fileMeta, results, totalSize) :=
    buildFileMetaAndResults req h.fileSize etag h.blockInfoList
  match pb.marshal fileMeta with
  | .error text => s.abort (.marshal text)
  | .ok metaBytes =>
    { s with phase := .commit { fileMeta, metaBytes, results, totalSize, noGet := req.noGet } }

/-- The end of the file. What is left is flushed, and the record submitted. -/
def complete (pb : Protobuf) (s : Session) : Session :=
  match s.handler.initReq with
  | none => s.respond (.error .startMissing)
  | some req => match s.handler.flushErr with
    | some e => abort { s with handler := { s.handler with finalized := true } } e
    | none =>
      if s.handler.finalized then s.respond (.error .finalized)
      else
        let s := { s with handler := { s.handler with finalized := true } }
        if s.handler.fileSize = 0 then s.respond (.error .emptyPayload)
        else if s.handler.pendingLen ≠ 0 then s.flush false
        else s.submit pb req

/-- The channel timed out: the upload is given up. -/
def timeOut (s : Session) : Session :=
  abort { s with handler := { s.handler with finalized := true, pendingLen := 0, chunks := [] } }
    .timeout

/-- A flush failed. `Complete` waits for the flush and then rolls back and answers as `Put`
does. -/
def fail (s : Session) (e : UploadError) : Session :=
  abort { s with handler := s.handler.failFlush e } e

/-- The first half of `runFlush`. -/
def flushAlloc (s : Session) (buf : Bytes) (respond : Bool) : Session :=
  match s.device.alloc buf.length with
  | (device, .error e) => fail { s with device } (.alloc e)
  | (device, .ok (results, token)) =>
    { s with device, phase := .write buf results token respond }

/-- The second half of `runFlush`, and what `Complete` does after it. -/
def flushWrite (pb : Protobuf) (s : Session) (outcome : Segment → SubmitOutcome) (ctx : Context)
    (buf : Bytes) (results token : List Result) (respond : Bool) : Session :=
  let (disk, written, err) := writeAllocated outcome ctx s.disk buf results
  let s := { s with disk }
  let err := match err with
    | some e => some (.write e)
    | none => if written ≠ buf.length then some (.partialWrite buf.length written) else none
  match err with
  | some e => fail { s with device := s.device.rollbackAlloc token } e
  | none =>
    let s := { s with handler := s.handler.completeFlush results token }
    if respond then s.respond .cont
    else match s.handler.initReq with
      | none => s
      | some req => s.submit pb req

/-- The answer of the group commit, the upload's request standing between those of
others. -/
def commit (json : JSONDeleteMark) (s : Session) (before after : List Commit)
    (outcome : Option BatchError) (c : Commit) : Session :=
  let o := Corgi.flush json s.db [] ((before ++ c :: after).map (commitRequest json)) outcome
  let s := { s with db := o.after }
  match (o.answers[before.length]?).join with
  | some e => s.abort (.commit e)
  | none =>
    if o.outputs[before.length]? = some (some true) then
      let (handler, device) := s.handler.rollbackCompletedFlushes s.device
      respond { s with handler, device } .success
    else respond { s with stored := some c.fileMeta } .success

/-- The blocks that the upload holds. -/
def held (s : Session) : List ℕ :=
  infoBlocks s.handler.blockInfoList ++ match s.phase with
    | .write _ _ token _ => blocksOf token
    | _ => []

/-- What others may do meanwhile : the allocator stays sound, and what the upload holds
stays allocated and keeps its bytes. -/
structure Others (s : Session) (device : BlockDevice) (disk : Disk) : Prop where
  inv : device.allocator.Inv
  total : device.allocator.total = s.device.allocator.total
  allocated : ∀ b ∈ s.held, device.allocator.isFree b = false
  bytes : ∀ a, a / 4096 ∈ s.held → disk a = s.disk a

/-- One step. -/
def Step (crc : BitVec 32 → Bytes → BitVec 32) (pb : Protobuf) (json : JSONDeleteMark)
    (s : Session) : SessionEvent → Session → Prop
  | .start req, t => s.phase = .idle ∧ t = { s with handler := s.handler.start req }
  | .put data, t => s.phase = .idle ∧ t = s.put crc data
  | .complete, t => s.phase = .idle ∧ t = s.complete pb
  | .timeOut, t => s.phase = .idle ∧ t = s.timeOut
  | .flushAlloc, t => ∃ buf respond, s.phase = .alloc buf respond ∧ t = s.flushAlloc buf respond
  | .flushWrite outcome ctx, t => ∃ buf results token respond,
    s.phase = .write buf results token respond ∧
      -- A flush of `Put` has a context that is never cancelled.
      (respond = true → ctx = none) ∧
      t = s.flushWrite pb outcome ctx buf results token respond
  | .commit before after outcome, t => ∃ c, s.phase = .commit c ∧
    t = s.commit json before after outcome c
  | .noProcessor, t => ∃ c, s.phase = .commit c ∧
    t = s.abort (.noProcessor (if c.fileMeta.lun = [] then ascii s.device.name.toList
      else c.fileMeta.lun))
  | .others device disk db, t => s.Others device disk ∧ t = { s with device, disk, db }

end Session

end Corgi
