import Corgi.Upload

/-!
# Payloads

The payloads of the object upload protocol. A request carries a meta type and data, a response
a meta type and an error. The data of START is a marshalled `PutInitRequest`. The data of
PUT_AND_COMPLETE is the length of one as a number of eight bytes, then the request and then the
body.
-/

namespace Corgi

/-- The texts that are a meta type of the protocol. -/
def metaTypeTexts : List String :=
  ["ERROR", "SUCCESS", "CONTINUE", "START_PUT_OBJECT", "PUT_OBJECT", "COMPLETE_PUT_OBJECT",
    "PUT_AND_COMPLETE_PUT_OBJECT", "START_PART_UPLOAD", "PART_UPLOAD", "COMPLETE_PART_UPLOAD",
    "START_BATCH_PUT", "CP_SST_FILE", "START_FILE_ASYNC_CHANNEL"]

/-- What a payload is for. -/
inductive PayloadMetaType
  | error
  | success
  | cont
  | startPutObject
  | putObject
  | completePutObject
  | putAndCompleteObject
  | startPartUpload
  | partUpload
  | completePartUpload
  | startBatchPut
  | cpSSFile
  | startFileAsync
  /-- Any other text. -/
  | other (text : String) (h : text ∉ metaTypeTexts)
  deriving DecidableEq

/-- The meta type on the wire. -/
def PayloadMetaType.text : PayloadMetaType → String
  | error => "ERROR"
  | success => "SUCCESS"
  | cont => "CONTINUE"
  | startPutObject => "START_PUT_OBJECT"
  | putObject => "PUT_OBJECT"
  | completePutObject => "COMPLETE_PUT_OBJECT"
  | putAndCompleteObject => "PUT_AND_COMPLETE_PUT_OBJECT"
  | startPartUpload => "START_PART_UPLOAD"
  | partUpload => "PART_UPLOAD"
  | completePartUpload => "COMPLETE_PART_UPLOAD"
  | startBatchPut => "START_BATCH_PUT"
  | cpSSFile => "CP_SST_FILE"
  | startFileAsync => "START_FILE_ASYNC_CHANNEL"
  | other text _ => text

/-- A payload that the server takes. -/
structure RequestPayload where
  metaType : PayloadMetaType
  data : Bytes

/-- The errors of a response. -/
inductive RequestError
  | tooShort (length : ℕ)
  | startLength (startLen length : ℕ)
  | emptyRequest
  | unmarshal (text : String)
  | noDevice (lun : Bytes)
  | ignored (metaType : PayloadMetaType)
  | unsupportedFirst (metaType : PayloadMetaType)
  | missingHandler
  | unexpected (metaType : PayloadMetaType)
  | timeout
  | upload (e : UploadError)

/-- The text of the error. -/
def RequestError.message : RequestError → String
  | tooShort length => s!"{PayloadMetaType.text .putAndCompleteObject} payload too short: {length}"
  | startLength startLen length =>
    s!"{PayloadMetaType.text .putAndCompleteObject} start metadata length {startLen}" ++
      s!" exceeds payload size {length}"
  | emptyRequest => "empty PutInitRequest payload"
  | unmarshal text => s!"unmarshal PutInitRequest failed: {text}"
  | noDevice lun => s!"missing block device for lun {strconvQuote lun}"
  | ignored metaType => s!"meta type {metaType.text} ignored in object mode"
  | unsupportedFirst metaType => s!"unsupported first meta type: {metaType.text}"
  | missingHandler => "missing upload handler"
  | unexpected metaType => s!"unexpected meta type: {metaType.text}"
  | timeout => "channel timeout"
  | upload e => e.message

/-- A payload that the server answers with. -/
structure ResponsePayload where
  metaType : PayloadMetaType
  err : Option RequestError

/-! ## Decoding -/

section

variable (unmarshal : Bytes → Except String PutInitRequest)

/-- The request in the data of a payload, which must not be empty. -/
def decodePutInitRequest (data : Bytes) : Except RequestError PutInitRequest :=
  if data.length = 0 then .error .emptyRequest
  else match unmarshal data with
    | .error text => .error (.unmarshal text)
    | .ok req => .ok req

/-- The request after its length in eight bytes, and the content that follows. -/
def decodePutAndComplete (data : Bytes) : Except RequestError (PutInitRequest × Bytes) :=
  if data.length < 8 then .error (.tooShort data.length)
  else
    let startLen := leNat (data.take 8)
    if data.length - 8 < startLen then .error (.startLength startLen data.length)
    else match decodePutInitRequest unmarshal ((data.drop 8).take startLen) with
      | .error e => .error e
      | .ok start => .ok (start, data.drop (8 + startLen))

end

/-- The response of the handler as it is forwarded. -/
def Response.payload : Response → ResponsePayload
  | .cont => ⟨.cont, none⟩
  | .success => ⟨.success, none⟩
  | .error e => ⟨.error, some (.upload e)⟩

end Corgi
