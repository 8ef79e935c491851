import Corgi.Device

/-!
# File metadata

The record an upload leaves, the keys it is written and looked up under, the binary layout
that the reader expects, and the consumers that `Complete` submits : `consumer0` stages the
bitmap masks of the upload's extents, the record and the counters in one batch, `consumer`
does so unless the key it looks up is there.

`exec_consumer` says what a consumer does to the database. A record goes to a key that
starts with `#` and is looked up under one that starts with `meta/file/`, which no upload
writes (`applyAll_ops_fileMetaKey`).
-/

namespace Corgi

/-! ## Records and keys -/

/-- The request that starts an upload, without the fields that nothing reads. -/
structure PutInitRequest where
  lun : Bytes
  fileName : Bytes
  metaKey : Bytes
  noGet : Bool
  deriving DecidableEq, Repr

/-- The record of a stored file. -/
structure FileMeta where
  metaKey : Bytes
  fileName : Bytes
  lun : Bytes
  etag : Bytes
  size : ℤ
  offset : List ℤ
  len : List ℤ
  deriving DecidableEq, Repr

/-- Protobuf marshalling of records. All that is assumed of it is that unmarshalling
inverts it. -/
structure Protobuf where
  marshal : FileMeta → Except String Bytes
  unmarshal : Bytes → Except String FileMeta
  unmarshal_marshal : ∀ {fileMeta data}, marshal fileMeta = .ok data →
    unmarshal data = .ok fileMeta

/-- The first byte of the key of a record, a `#`. -/
def pebbleFileMetaPrefix : Byte :=
  35#8

/-- The key of the number of files. -/
def pebbleFileSystemFileNum : Bytes :=
  ascii ['.', '2', '.', 'n', 'u', 'm']

/-- The key of the size of the volume. -/
def pebbleFileSystemSize : Bytes :=
  ascii ['.', '2', '.', 's', 'i', 'z', 'e']

/-- The key of the size in use. -/
def pebbleFileSystemUsedSize : Bytes :=
  ascii ['.', '2', '.', 'u', 's', 'e', 'd']

/-- The key of a file's record : the second component of a path, or the whole of a plain
name. -/
def getFileMetaKey (fileName : Bytes) : Bytes :=
  match fileName.splitOn 47#8 with
  | _ :: part :: _ => pebbleFileMetaPrefix :: part
  | _ => pebbleFileMetaPrefix :: fileName

/-- The key that the record is stored under. -/
def FileMeta.getKey (fileMeta : FileMeta) : Bytes :=
  getFileMetaKey fileMeta.fileName

/-- The key that a record is looked up under. -/
def fileMetaKey (metaKey : Bytes) : Bytes :=
  ascii ['m', 'e', 't', 'a', '/', 'f', 'i', 'l', 'e', '/'] ++ metaKey

/-- The eight bytes of an `int64`, least significant first. -/
def toByte (c : ℤ) : Bytes :=
  leBytes 8 (c % 2 ^ 64).toNat

/-! ## The binary layout -/

/-- The errors of the binary format. -/
inductive CodecError
  | eof
  | unexpectedEOF
  | sizeMismatch
  deriving DecidableEq, Repr

/-- The text of the error. -/
def CodecError.message : CodecError → String
  | eof => "EOF"
  | unexpectedEOF => "unexpected EOF"
  | sizeMismatch => "offset/len size mismatch"

/-- A string after its length. -/
def writeString (s : Bytes) : Bytes :=
  leBytes 4 s.length ++ s

/-- A record in the binary format. There is a length for each offset, or it fails. -/
def encodeFileMetaBinary (m : FileMeta) : Except CodecError Bytes :=
  if m.offset.length ≠ m.len.length then .error .sizeMismatch
  else .ok (writeString m.metaKey ++ writeString m.fileName ++ writeString m.lun ++
    writeString m.etag ++ toByte m.size ++ leBytes 4 m.offset.length ++
    (m.offset.zip m.len).flatMap fun extent => toByte extent.1 ++ toByte extent.2)

/-- What reads from a reader, as a function of the bytes that are left. -/
abbrev Decoder (α : Type) := StateT Bytes (Except CodecError) α

/-- `binary.Read` of `w` bytes. -/
def readUint (w : ℕ) : Decoder ℕ := fun data =>
  if data = [] then .error .eof
  else if data.length < w then .error .unexpectedEOF
  else .ok (leNat (data.take w), data.drop w)

/-- A signed number of eight bytes. -/
def readInt64 : Decoder ℤ := do
  let n ← readUint 8
  return (BitVec.ofNat 64 n).toInt

/-- The reader returns what is left when that is less than asked for, and the rest of the
buffer stays zero. With nothing left it fails, even when nothing is asked for. -/
def readString : Decoder Bytes := do
  let n ← readUint 4
  fun data =>
    if data = [] then .error .eof
    else .ok (data.take n ++ List.replicate (n - data.length) 0#8, data.drop n)

/-- Pairs of an offset and a length. -/
def readExtents : ℕ → Decoder (List ℤ × List ℤ)
  | 0 => pure ([], [])
  | n + 1 => do
    let o ← readInt64
    let l ← readInt64
    let (offset, len) ← readExtents n
    return (o :: offset, l :: len)

/-- Read a record in the binary format. What follows it is not looked at. -/
def decodeFileMetaBinary (data : Bytes) : Except CodecError FileMeta := do
  let decode : Decoder FileMeta := do
    let metaKey ← readString
    let fileName ← readString
    let lun ← readString
    let etag ← readString
    let size ← readInt64
    let n ← readUint 4
    let (offset, len) ← readExtents n
    return { metaKey, fileName, lun, etag, size, offset, len }
  return (← decode.run data).1

/-- The errors of `queryFileMeta`. -/
inductive QueryError
  | read (e : MergeError)
  | notFound (metaKey : Bytes)
  | decode (e : CodecError)
  deriving DecidableEq, Repr

/-- The text of the error. -/
def QueryError.message : QueryError → String
  | read e => e.message
  | notFound metaKey => s!"file meta not found: {textOf metaKey}"
  | decode e => e.message

/-- Look up the record of a file. -/
def queryFileMeta (db : DB) (metaKey : Bytes) : Except QueryError FileMeta :=
  match db.get (fileMetaKey metaKey) with
  | .error e => .error (.read e)
  | .ok v =>
    if v.getD [] = [] then .error (.notFound metaKey)
    else match decodeFileMetaBinary (v.getD []) with
      | .error e => .error (.decode e)
      | .ok m => .ok m

/-! ## The commit of an upload -/

/-- What a flush of an upload left. -/
structure FlushBlockInfo where
  /-- The extents in bytes. -/
  results : List Result
  /-- The extents in blocks, until they are rolled back. -/
  token : List Result
  deriving DecidableEq, Repr

/-- The extents of all flushes, in order. -/
def flattenBlockResults (blockInfoList : List FlushBlockInfo) : List Result :=
  blockInfoList.flatMap FlushBlockInfo.results

/-- The record of an upload, its extents and their total size. -/
def buildFileMetaAndResults (req : PutInitRequest) (total : ℤ) (etag : Bytes)
    (blockInfoList : List FlushBlockInfo) : FileMeta × List Result × ℤ :=
  let results := flattenBlockResults blockInfoList
  ({ metaKey := req.metaKey
     fileName := req.fileName
     lun := req.lun
     etag
     size := total
     offset := results.map Result.offset
     len := results.map Result.size },
    results, (results.map Result.size).sum)

/-- What `Complete` hands to its consumers. -/
structure Commit where
  fileMeta : FileMeta
  metaBytes : Bytes
  results : List Result
  totalSize : ℤ
  noGet : Bool

/-- Stage an upload. -/
def consumer0 (json : JSONDeleteMark) (c : Commit) : BatchProg Unit := do
  persistAllocBatch c.results
  WriteBatch.put json c.fileMeta.getKey c.metaBytes
  WriteBatch.merge pebbleFileSystemFileNum (toByte 1)
  WriteBatch.merge pebbleFileSystemSize (toByte c.fileMeta.size)
  WriteBatch.merge pebbleFileSystemUsedSize (toByte c.totalSize)

/-- Stage an upload unless its record is found. The result is `exists`. -/
def consumer (json : JSONDeleteMark) (c : Commit) : BatchProg Bool :=
  if c.noGet then do
    consumer0 json c
    return false
  else do
    let oldValue ← WriteBatch.getFromBatchAndDB (fileMetaKey c.fileMeta.metaKey)
    match oldValue with
    | none =>
      consumer0 json c
      return false
    | some _ => return true

/-- The request of `CustomizeOperateData`. -/
def commitRequest (json : JSONDeleteMark) (c : Commit) : BatchRequest Bool where
  type := .customizeOperate
  consumer := some (consumer json c)
  keys := []
  values := []
  lowPriority := false

/-! ## What a commit does -/

/-- The writes of `consumer0`. -/
def Commit.ops (c : Commit) : List BatchOp :=
  c.results.flatMap (spaceOps true) ++ [.set c.fileMeta.getKey c.metaBytes,
    .merge pebbleFileSystemFileNum (toByte 1),
    .merge pebbleFileSystemSize (toByte c.fileMeta.size),
    .merge pebbleFileSystemUsedSize (toByte c.totalSize)]

theorem getFileMetaKey_eq_cons (fileName : Bytes) :
    ∃ name, getFileMetaKey fileName = pebbleFileMetaPrefix :: name := by
  unfold getFileMetaKey
  split <;> exact ⟨_, rfl⟩

theorem put_getFileMetaKey (json : JSONDeleteMark) (fileName value : Bytes) :
    WriteBatch.put json (getFileMetaKey fileName) value =
      Prog.put (.set (getFileMetaKey fileName) value) := by
  obtain ⟨name, hname⟩ := getFileMetaKey_eq_cons fileName
  rw [hname]
  rfl

theorem exec_consumer0 (json : JSONDeleteMark) {c : Commit} (h : ∀ r ∈ c.results, r.Aligned)
    (db : DB) : (consumer0 json c).exec mossMergeValues db = (db.applyAll c.ops, .ok ()) := by
  rw [consumer0, Prog.exec_bind, exec_persistAllocBatch h, FileMeta.getKey, put_getFileMetaKey,
    Commit.ops, Store.applyAll_append]
  rfl

/-- The key that starts with `#`, the bitmap keys and the counters : all that an upload
writes. -/
theorem key_of_mem_ops {c : Commit} {op : BatchOp} (h : op ∈ c.ops) :
    (∃ i, op.key = familySpaceKey i) ∨ op.key = c.fileMeta.getKey ∨
      op.key = pebbleFileSystemFileNum ∨ op.key = pebbleFileSystemSize ∨
      op.key = pebbleFileSystemUsedSize := by
  rw [Commit.ops, List.mem_append] at h
  rcases h with h | h
  · obtain ⟨r, -, hr⟩ := List.mem_flatMap.mp h
    exact Or.inl (key_of_mem_spaceOps hr)
  · right
    fin_cases h
    · exact Or.inl rfl
    · exact Or.inr (Or.inl rfl)
    · exact Or.inr (Or.inr (Or.inl rfl))
    · exact Or.inr (Or.inr (Or.inr rfl))

/-- Every key that an upload writes starts with `#` or `.`. -/
theorem head_of_mem_ops {c : Commit} {op : BatchOp} (h : op ∈ c.ops) :
    op.key.head? = some pebbleFileMetaPrefix ∨ op.key.head? = some 46#8 := by
  obtain ⟨name, hname⟩ := getFileMetaKey_eq_cons c.fileMeta.fileName
  rcases key_of_mem_ops h with ⟨i, h⟩ | h | h | h | h
  · exact Or.inr (by rw [h]; rfl)
  · exact Or.inl (by rw [h, FileMeta.getKey, hname]; rfl)
  all_goals exact Or.inr (by rw [h]; rfl)

theorem head_fileMetaKey (metaKey : Bytes) : (fileMetaKey metaKey).head? = some 109#8 :=
  rfl

/-- No upload writes a key that records are looked up under. -/
theorem applyAll_ops_fileMetaKey (db : DB) (cs : List Commit) (metaKey : Bytes) :
    db.applyAll (cs.flatMap Commit.ops) (fileMetaKey metaKey) = db (fileMetaKey metaKey) := by
  refine Store.applyAll_of_forall_ne db fun op hop heq => ?_
  obtain ⟨c, -, hc⟩ := List.mem_flatMap.mp hop
  have hhead := head_of_mem_ops hc
  rw [← heq, head_fileMetaKey] at hhead
  exact absurd hhead (by decide)

/-- Whether a commit finds the record it looks for. -/
def Commit.found (db : DB) (c : Commit) : Bool :=
  !c.noGet && match db.get (fileMetaKey c.fileMeta.metaKey) with
    | .ok (some _) => true
    | _ => false

theorem isObjectKey_fileMetaKey (metaKey : Bytes) : isObjectKey (fileMetaKey metaKey) = false :=
  rfl

theorem exec_getFromBatchAndDB {key : Bytes} (h : isObjectKey key = false) (db : DB) :
    (WriteBatch.getFromBatchAndDB key).exec mossMergeValues db =
      (db, (db.get key).mapError .read) := by
  rw [WriteBatch.getFromBatchAndDB, h, if_neg Bool.false_ne_true, WriteBatch.exec_getCopy]

/-- The lookup of a commit fails. -/
def Commit.Unreadable (db : DB) (c : Commit) : Prop :=
  c.noGet = false ∧ ∃ e, db.get (fileMetaKey c.fileMeta.metaKey) = .error e

theorem exec_consumer (json : JSONDeleteMark) {c : Commit} (h : ∀ r ∈ c.results, r.Aligned)
    (db : DB) :
    (c.Unreadable db ∧ ∃ e, (consumer json c).exec mossMergeValues db = (db, .error e)) ∨
    (consumer json c).exec mossMergeValues db =
      (if c.found db then db else db.applyAll c.ops, .ok (c.found db)) := by
  rw [consumer, Commit.found, Commit.Unreadable]
  cases hget : c.noGet with
  | true =>
    right
    rw [if_pos rfl, Prog.exec_bind, exec_consumer0 json h]
    rfl
  | false =>
    rw [if_neg Bool.false_ne_true, Prog.exec_bind]
    rw [exec_getFromBatchAndDB (isObjectKey_fileMetaKey _)]
    cases db.get (fileMetaKey c.fileMeta.metaKey) with
    | error e => exact Or.inl ⟨⟨rfl, e, rfl⟩, _, rfl⟩
    | ok v =>
      right
      cases v with
      | some v => rfl
      | none =>
        change ((consumer0 json c >>= fun _ => pure false) : BatchProg Bool).exec _ _ = _
        rw [Prog.exec_bind, exec_consumer0 json h]
        rfl

/-! ## A group of commits -/

/-- A record that is not there is not found. -/
theorem Commit.lookup_of_nil {db : DB} {c : Commit}
    (h : db (fileMetaKey c.fileMeta.metaKey) = []) : ¬c.Unreadable db ∧ c.found db = false := by
  have hget := DB.get_of_nil h
  refine ⟨?_, ?_⟩
  · rintro ⟨-, e, he⟩
    rw [hget] at he
    exact absurd he (by simp)
  · rw [Commit.found, hget, Bool.and_false]

theorem found_applyAll_ops (db : DB) (cs : List Commit) (c : Commit) :
    c.found (db.applyAll (cs.flatMap Commit.ops)) = c.found db := by
  rw [Commit.found, Commit.found, DB.get_congr (applyAll_ops_fileMetaKey db cs _)]

theorem unreadable_applyAll_ops (db : DB) (cs : List Commit) (c : Commit) :
    c.Unreadable (db.applyAll (cs.flatMap Commit.ops)) ↔ c.Unreadable db := by
  rw [Commit.Unreadable, Commit.Unreadable, DB.get_congr (applyAll_ops_fileMetaKey db cs _)]

/-- Commits that do not fail write the records that are not found. -/
theorem execAll_commits (json : JSONDeleteMark) (db : DB) : ∀ (cs done : List Commit),
    (∀ c ∈ cs, ∀ r ∈ c.results, r.Aligned) →
    ((∃ c ∈ cs, c.Unreadable db) ∧ ∃ e, (execAll json (cs.map (commitRequest json))
      (db.applyAll (done.flatMap Commit.ops))).2 = .error e) ∨
    execAll json (cs.map (commitRequest json)) (db.applyAll (done.flatMap Commit.ops)) =
      (db.applyAll ((done ++ cs.filter (!·.found db)).flatMap Commit.ops),
        .ok (cs.map fun c => some (c.found db)))
  | [], done, _ => Or.inr (by rw [List.filter_nil, List.append_nil]; rfl)
  | c :: cs, done, h => by
    have hc := exec_consumer json (h c List.mem_cons_self) (db.applyAll (done.flatMap Commit.ops))
    rw [found_applyAll_ops, unreadable_applyAll_ops] at hc
    rw [List.map_cons, execAll, handleRequest, commitRequest, handleCustomizeOperate,
      Prog.exec_bind]
    rcases hc with ⟨hbad, e, hc⟩ | hc
    · exact Or.inl ⟨⟨c, List.mem_cons_self, hbad⟩, e, by rw [hc]⟩
    · rw [hc]
      simp only [Prog.exec_pure]
      have ih := execAll_commits json db cs (if c.found db then done else done ++ [c])
        fun c' h' => h c' (List.mem_cons_of_mem _ h')
      have hdone : (if c.found db then db.applyAll (done.flatMap Commit.ops)
          else (db.applyAll (done.flatMap Commit.ops)).applyAll c.ops) =
          db.applyAll ((if c.found db then done else done ++ [c]).flatMap Commit.ops) := by
        split_ifs
        · rfl
        · rw [List.flatMap_append, Store.applyAll_append, List.flatMap_singleton]
      rw [hdone]
      rcases ih with ⟨⟨c', hc', hbad⟩, e, ih⟩ | ih
      · refine Or.inl ⟨⟨c', List.mem_cons_of_mem _ hc', hbad⟩, ?_⟩
        generalize execAll json (cs.map (commitRequest json)) _ = x at ih
        obtain ⟨db', res⟩ := x
        simp only at ih
        subst ih
        exact ⟨e, rfl⟩
      · right
        rw [ih]
        simp only [List.map_cons]
        congr 3
        rw [List.filter_cons]
        cases c.found db <;> simp

theorem flushOrder_commits (json : JSONDeleteMark) (cs : List Commit) :
    flushOrder (cs.map (commitRequest json)) = cs.map (commitRequest json) := by
  rw [flushOrder, List.filter_eq_self.mpr, List.filter_eq_nil_iff.mpr, List.append_nil]
  · rintro req hreq
    obtain ⟨c, -, rfl⟩ := List.mem_map.mp hreq
    exact Bool.false_ne_true
  · rintro req hreq
    obtain ⟨c, -, rfl⟩ := List.mem_map.mp hreq
    rfl

/-- A group of uploads is dropped, or it writes those whose record is not found. -/
theorem flush_commits (json : JSONDeleteMark) (db : DB) {cs : List Commit}
    (h : ∀ c ∈ cs, ∀ r ∈ c.results, r.Aligned) (commit : Option BatchError) :
    let o := flush json db [] (cs.map (commitRequest json)) commit
    (o.committed = none ∧ o.after = db ∧ (commit ≠ none ∨ ∃ c ∈ cs, c.Unreadable db) ∧
      ∃ e, o.answers = cs.map fun _ => some e) ∨
    (o.committed.isSome ∧ o.after = db.applyAll ((cs.filter (!·.found db)).flatMap Commit.ops) ∧
      o.outputs = cs.map (fun c => some (c.found db)) ∧ o.answers = cs.map fun _ => none) := by
  have hexec := execAll_commits json db cs [] h
  rw [List.flatMap_nil, List.nil_append] at hexec
  change (_ ∧ ∃ e, (execAll json _ db).2 = _) ∨ execAll json _ db = _ at hexec
  rw [← flushOrder_commits json cs] at hexec
  cases commit with
  | some e =>
    obtain ⟨h1, h2, e, h3⟩ := @flush_of_error _ json db _ (some e) (Or.inl (by simp))
    exact Or.inl ⟨h2, h1, Or.inl (by simp), e, by rw [h3, List.map_map]; rfl⟩
  | none =>
    rcases hexec with ⟨hbad, hexec⟩ | hexec
    · obtain ⟨h1, h2, e, h3⟩ := @flush_of_error _ json db _ none (Or.inr hexec)
      exact Or.inl ⟨h2, h1, Or.inr hbad, e, by rw [h3, List.map_map]; rfl⟩
    · obtain ⟨h1, h2, h3, h4⟩ := flush_of_ok json hexec
      exact Or.inr ⟨by rw [h2]; rfl, h1, h3, by rw [h4, List.map_map]; rfl⟩

end Corgi
