import Corgi.Codec
import Corgi.Protowire

/-!
# The messages on the wire

`proto.Marshal` and `proto.Unmarshal` of the messages of `object.pb.go`. A message is marshalled
field by field in the order of the numbers, and a field with its zero value is left out. What is
unmarshalled is read field by field, in any order, over what was read before. A field of another
number or of a type that it does not have is skipped.

`unmarshalFileMeta_append` : a record that follows other data is merged into what that data was
read as. In particular a record is read back, also after fields that are not known.

`protobuf` : the marshalling that the rest of the development is stated for.
-/

namespace Corgi

/-! ## The model -/

/-- The errors `errDecode` and `errInvalidUTF8`. -/
inductive ProtoError
  | decode
  | invalidUTF8
  deriving DecidableEq, Repr

/-- Only the first error has a prefix. In one half of the builds its space is a non-breaking
one. -/
def ProtoError.message : ProtoError → String
  | decode => "proto: cannot parse invalid wire-format data"
  | invalidUTF8 => "string field contains invalid UTF-8"

/-- A reader in a message, which fails with an error of the library. -/
abbrev ConsumeField (α : Type) := StateT Bytes (Except ProtoError) α

/-- A reader of the wire format in a message. -/
def Consume.decode {α : Type} (d : Consume α) : ConsumeField α :=
  withErr (fun _ => ProtoError.decode) d

/-- How a field of the messages `M` is written and read. -/
structure FieldCoder (M : Type) where
  num : ℕ
  marshal : M → Except ProtoError Bytes
  /-- Nothing for a type that the field does not have. -/
  unmarshal : WireType → Option (M → ConsumeField M)
  /-- What `proto.Merge` does to the first message. -/
  merge : M → M → M

/-- The conversion to `uint64`. -/
def uint64 (v : ℤ) : ℕ :=
  (v % 2 ^ 64).toNat

/-- The conversion to `int64`. -/
def int64 (v : ℕ) : ℤ :=
  (BitVec.ofNat 64 v).toInt

section

variable {M : Type}

/-- `coderStringNoZeroValidateUTF8`. -/
def stringField (num : ℕ) (get : M → Bytes) (set : M → Bytes → M) : FieldCoder M where
  num := num
  marshal m :=
    if get m = [] then .ok []
    else if utf8Valid (get m) then
      .ok (appendVarint (encodeTag num .bytes) ++ appendBytes (get m))
    else .error .invalidUTF8
  unmarshal
    | .bytes => some fun m => do
      let v ← consumeBytes.decode
      if utf8Valid v then return set m v else throw .invalidUTF8
    | _ => none
  merge dst src := if get src = [] then dst else set dst (get src)

/-- What `consumeInt64` and `consumeBool` share: one number is read and stored. -/
def consumeNumber (store : M → ℕ → M) : WireType → Option (M → ConsumeField M)
  | .varint => some fun m => do
    let v ← consumeVarint.decode
    return store m v
  | _ => none

/-- `coderInt64NoZero`. -/
def int64Field (num : ℕ) (get : M → ℤ) (set : M → ℤ → M) : FieldCoder M where
  num := num
  marshal m :=
    if get m = 0 then .ok []
    else .ok (appendVarint (encodeTag num .varint) ++ appendVarint (uint64 (get m)))
  unmarshal := consumeNumber fun m v => set m (int64 v)
  merge dst src := if get src = 0 then dst else set dst (get src)

/-- `coderBoolNoZero`. -/
def boolField (num : ℕ) (get : M → Bool) (set : M → Bool → M) : FieldCoder M where
  num := num
  marshal m :=
    if get m = false then .ok []
    else .ok (appendVarint (encodeTag num .varint) ++ appendVarint 1)
  unmarshal := consumeNumber fun m v => set m (v != 0)
  merge dst src := if get src = false then dst else set dst (get src)

/-- `coderInt64PackedSlice`. It is read unpacked too. -/
def packedField (num : ℕ) (get : M → List ℤ) (set : M → List ℤ → M) : FieldCoder M where
  num := num
  marshal m :=
    if get m = [] then .ok []
    else
      let vals := (get m).map uint64
      .ok (appendVarint (encodeTag num .bytes) ++ appendVarint (vals.map sizeVarint).sum ++
        vals.flatMap appendVarint)
  unmarshal
    | .bytes => some fun m => do
      let v ← consumeBytes.decode
      match consumeVarints v with
      | .error _ => throw .decode
      | .ok vals => return set m (get m ++ vals.map int64)
    | .varint => some fun m => do
      let v ← consumeVarint.decode
      return set m (get m ++ [int64 v])
    | _ => none
  merge dst src := set dst (get dst ++ get src)

/-- `marshalAppendPointer`. -/
def marshalFields : List (FieldCoder M) → M → Except ProtoError Bytes
  | [], _ => .ok []
  | f :: fields, m => do
    let data ← f.marshal m
    let rest ← marshalFields fields m
    return data ++ rest

/-- `proto.Merge`, field by field. -/
def mergeFields (fields : List (FieldCoder M)) (dst src : M) : M :=
  fields.foldl (fun dst f => f.merge dst src) dst

/-- What follows a tag. -/
def unmarshalTagged (fields : List (FieldCoder M)) (m : M) (tag : ℕ) : ConsumeField M :=
  if tag / 8 < 1 ∨ 2 ^ 29 ≤ tag / 8 then throw .decode
  else if WireType.ofTag tag = .endGroup then throw .decode
  else match (fields.find? (·.num = tag / 8)).bind (·.unmarshal (.ofTag tag)) with
    | some unmarshal => unmarshal m
    | none => (consumeFieldValue (tag / 8) (.ofTag tag)).decode >>= fun _ => pure m

/-- One field of `unmarshalPointerEager`. -/
def unmarshalField (fields : List (FieldCoder M)) (m : M) : ConsumeField M :=
  consumeVarint.decode >>= unmarshalTagged fields m

end

/-- The fields of a request. Its `replace` and `recover`, which no one reads, are skipped. -/
def putInitRequestFields : List (FieldCoder PutInitRequest) :=
  [stringField 1 (·.lun) fun m v => { m with lun := v },
    stringField 2 (·.fileName) fun m v => { m with fileName := v },
    stringField 3 (·.metaKey) fun m v => { m with metaKey := v },
    boolField 4 (·.noGet) fun m v => { m with noGet := v }]

/-- The fields of a record. -/
def fileMetaFields : List (FieldCoder FileMeta) :=
  [stringField 1 (·.lun) fun m v => { m with lun := v },
    stringField 2 (·.fileName) fun m v => { m with fileName := v },
    stringField 3 (·.etag) fun m v => { m with etag := v },
    int64Field 4 (·.size) fun m v => { m with size := v },
    packedField 5 (·.offset) fun m v => { m with offset := v },
    packedField 6 (·.len) fun m v => { m with len := v },
    stringField 7 (·.metaKey) fun m v => { m with metaKey := v }]

/-- A request without fields. -/
def emptyPutInitRequest : PutInitRequest :=
  ⟨[], [], [], false⟩

/-- A record without fields. -/
def emptyFileMeta : FileMeta :=
  ⟨[], [], [], [], 0, [], []⟩

/-! ## Fields that are read back -/

namespace FieldCoder

variable {M : Type}

/-- Its number is one of a field, and it reads the same whatever follows. -/
structure Lawful (f : FieldCoder M) : Prop where
  num_pos : 0 < f.num
  num_lt : f.num < 2 ^ 29
  reads : ∀ {typ c}, f.unmarshal typ = some c → ∀ m, Reads (c m)

/-- What is written for `m` is read as what merges it. -/
def ReadsBack (f : FieldCoder M) (m : M) : Prop :=
  ∀ data, f.marshal m = .ok data → (data = [] ∧ ∀ dst, f.merge dst m = dst) ∨
    ∃ typ c body, typ ≠ .endGroup ∧ f.unmarshal typ = some c ∧
      data = appendVarint (encodeTag f.num typ) ++ body ∧
      ∀ dst rest, (c dst).run (body ++ rest) = .ok (f.merge dst m, rest)

end FieldCoder

section

variable {M : Type} {num : ℕ}

theorem lawful_stringField (hpos : 0 < num) (hlt : num < 2 ^ 29) (get : M → Bytes)
    (set : M → Bytes → M) : (stringField num get set).Lawful := by
  refine ⟨hpos, hlt, fun {typ c} hc m => ?_⟩
  cases typ <;> cases hc
  refine (reads_consumeBytes.withErr _).bind fun v => ?_
  split_ifs
  · exact .pure _
  · exact .throw _

theorem lawful_of_consumeNumber {f : FieldCoder M} (hpos : 0 < f.num) (hlt : f.num < 2 ^ 29)
    {store : M → ℕ → M} (hread : f.unmarshal = consumeNumber store) : f.Lawful := by
  refine ⟨hpos, hlt, fun {typ c} hc m => ?_⟩
  rw [hread] at hc
  cases typ <;> cases hc
  exact (reads_consumeVarint.withErr _).bind fun v => .pure _

theorem lawful_packedField (hpos : 0 < num) (hlt : num < 2 ^ 29) (get : M → List ℤ)
    (set : M → List ℤ → M) : (packedField num get set).Lawful := by
  refine ⟨hpos, hlt, fun {typ c} hc m => ?_⟩
  cases typ <;> cases hc
  · exact (reads_consumeVarint.withErr _).bind fun v => .pure _
  · refine (reads_consumeBytes.withErr _).bind fun v => ?_
    cases consumeVarints v with
    | error e => exact .throw _
    | ok vals => exact .pure _

theorem readsBack_stringField (num : ℕ) {get : M → Bytes} (set : M → Bytes → M) {m : M}
    (h : (get m).length < 2 ^ 64) : (stringField num get set).ReadsBack m := by
  intro data hdata
  change (if _ then _ else _) = _ at hdata
  split_ifs at hdata with hnil hvalid <;> cases hdata
  · exact .inl ⟨rfl, fun dst => if_pos hnil⟩
  refine .inr ⟨.bytes, _, appendBytes (get m), by decide, rfl, rfl, fun dst rest => ?_⟩
  refine run_bind_eq_ok.mpr ⟨get m, rest, withErr_eq_ok.mpr (consumeBytes_appendBytes h rest), ?_⟩
  change (if utf8Valid (get m) = true then _ else _ : ConsumeField M).run rest =
    .ok (if get m = [] then dst else set dst (get m), rest)
  rw [if_pos hvalid, if_neg hnil]
  rfl

theorem uint64_lt (v : ℤ) : uint64 v < 2 ^ 64 := by
  rw [uint64]
  omega

theorem int64_uint64 {v : ℤ} (h : IsInt64 v) : int64 (uint64 v) = v :=
  toInt_ofNat_of_isInt64 h

theorem readsBack_int64Field (num : ℕ) {get : M → ℤ} (set : M → ℤ → M) {m : M}
    (h : IsInt64 (get m)) : (int64Field num get set).ReadsBack m := by
  intro data hdata
  change (if _ then _ else _) = _ at hdata
  split_ifs at hdata with hzero <;> cases hdata
  · exact .inl ⟨rfl, fun dst => if_pos hzero⟩
  refine .inr ⟨.varint, _, appendVarint (uint64 (get m)), by decide, rfl, rfl,
    fun dst rest => ?_⟩
  refine run_bind_eq_ok.mpr ⟨uint64 (get m), rest,
    withErr_eq_ok.mpr (consumeVarint_appendVarint (uint64_lt _) rest), ?_⟩
  change Except.ok (set dst (int64 (uint64 (get m))), rest) =
    .ok (if get m = 0 then dst else set dst (get m), rest)
  rw [int64_uint64 h, if_neg hzero]

theorem readsBack_boolField (num : ℕ) (get : M → Bool) (set : M → Bool → M) (m : M) :
    (boolField num get set).ReadsBack m := by
  intro data hdata
  change (if _ then _ else _) = _ at hdata
  split_ifs at hdata with hfalse <;> cases hdata
  · exact .inl ⟨rfl, fun dst => if_pos hfalse⟩
  refine .inr ⟨.varint, _, appendVarint 1, by decide, rfl, rfl, fun dst rest => ?_⟩
  refine run_bind_eq_ok.mpr ⟨1, rest,
    withErr_eq_ok.mpr (consumeVarint_appendVarint (by decide) rest), ?_⟩
  change Except.ok (set dst true, rest) =
    .ok (if get m = false then dst else set dst (get m), rest)
  rw [if_neg hfalse, Bool.eq_true_of_not_eq_false hfalse]

theorem sum_sizeVarint {vals : List ℕ} (h : ∀ v ∈ vals, v < 2 ^ 64) :
    (vals.map sizeVarint).sum = (vals.flatMap appendVarint).length := by
  rw [List.length_flatMap]
  exact congrArg List.sum (List.map_congr_left fun v hv => sizeVarint_eq (h v hv))

theorem length_flatMap_appendVarint_le {vals : List ℕ} (h : ∀ v ∈ vals, v < 2 ^ 64) :
    (vals.flatMap appendVarint).length ≤ 10 * vals.length := by
  rw [List.length_flatMap, Nat.mul_comm, ← smul_eq_mul, ← @List.length_map _ _ vals]
  refine List.sum_le_card_nsmul _ _ ?_
  rw [List.forall_mem_map]
  intro v hv
  have hlog : Nat.log2 v < 64 := by
    rcases Nat.eq_zero_or_pos v with rfl | hpos
    · decide
    · exact (Nat.log2_lt (by omega)).mpr (h v hv)
  have hv := h v hv
  rw [appendVarint, length_varintBytes (by omega)]
  omega

theorem readsBack_packedField (num : ℕ) {get : M → List ℤ} {set : M → List ℤ → M}
    (hset : ∀ m, set m (get m) = m) {m : M} (hlen : (get m).length < 2 ^ 60)
    (h : ∀ v ∈ get m, IsInt64 v) : (packedField num get set).ReadsBack m := by
  intro data hdata
  change (if _ then _ else _) = _ at hdata
  split_ifs at hdata with hnil <;> cases hdata
  · refine .inl ⟨rfl, fun dst => ?_⟩
    change set dst (get dst ++ get m) = dst
    rw [hnil, List.append_nil, hset]
  have hvals : ∀ v ∈ (get m).map uint64, v < 2 ^ 64 :=
    List.forall_mem_map.mpr fun v _ => uint64_lt v
  refine .inr ⟨.bytes, _, appendBytes (((get m).map uint64).flatMap appendVarint), by decide, rfl,
    ?_, fun dst rest => ?_⟩
  · rw [sum_sizeVarint hvals, List.append_assoc]
    rfl
  have hbody : (((get m).map uint64).flatMap appendVarint).length < 2 ^ 64 := by
    have hle := length_flatMap_appendVarint_le hvals
    rw [List.length_map] at hle
    omega
  have hback : ((get m).map uint64).map int64 = get m := by
    rw [List.map_map]
    exact (List.map_congr_left fun v hv => int64_uint64 (h v hv)).trans (List.map_id _)
  refine run_bind_eq_ok.mpr ⟨_, rest, withErr_eq_ok.mpr (consumeBytes_appendBytes hbody rest), ?_⟩
  rw [consumeVarints_flatMap hvals]
  change Except.ok (set dst (get dst ++ ((get m).map uint64).map int64), rest) = _
  rw [hback]
  rfl

/-! ## Messages that are read back -/

variable {fields : List (FieldCoder M)}

theorem reads_unmarshalTagged (h : ∀ f ∈ fields, f.Lawful) (m : M) (tag : ℕ) :
    Reads (unmarshalTagged fields m tag) := by
  unfold unmarshalTagged
  split_ifs
  · exact .throw _
  · exact .throw _
  split
  · next c hc =>
    obtain ⟨f, hf, hc⟩ := Option.bind_eq_some_iff.mp hc
    exact (h f (List.mem_of_find?_eq_some hf)).reads hc m
  · exact ((reads_consumeFieldValueD _ _ _).withErr _).bind fun _ => .pure _

theorem reads_unmarshalField (h : ∀ f ∈ fields, f.Lawful) (m : M) :
    Reads (unmarshalField fields m) :=
  (reads_consumeVarint.withErr _).bind (reads_unmarshalTagged h m)

theorem shortens_unmarshalField (h : ∀ f ∈ fields, f.Lawful) (m : M) :
    Shortens (unmarshalField fields m) :=
  (shortens_consumeVarint.withErr _).bind (reads_unmarshalTagged h m)

/-- A field of the message is read by its coder. -/
theorem run_unmarshalField {f : FieldCoder M} (hf : fields.find? (·.num = f.num) = some f)
    (hlawful : f.Lawful) {typ : WireType} {c : M → ConsumeField M} (htyp : typ ≠ .endGroup)
    (hc : f.unmarshal typ = some c) (dst : M) (data : Bytes) :
    (unmarshalField fields dst).run (appendVarint (encodeTag f.num typ) ++ data) =
      (c dst).run data := by
  have htag : consumeVarint.decode.run (appendVarint (encodeTag f.num typ) ++ data) =
      .ok (encodeTag f.num typ, data) :=
    withErr_eq_ok.mpr (consumeVarint_appendVarint
      (encodeTag_lt (hlawful.num_lt.trans (by decide)) typ) data)
  have hpos := hlawful.num_pos
  have hlt := hlawful.num_lt
  rw [unmarshalField, StateT.run_bind, htag]
  change (unmarshalTagged fields dst (encodeTag f.num typ)).run data = _
  rw [unmarshalTagged, encodeTag_div, ofTag_encodeTag, if_neg (by omega), if_neg htyp, hf]
  change (match f.unmarshal typ with | some c => c dst | none => _ : ConsumeField M).run data = _
  rw [hc]

theorem marshalFields_cons {f : FieldCoder M} {fs : List (FieldCoder M)} {m : M} {data : Bytes}
    (h : marshalFields (f :: fs) m = .ok data) : ∃ first others, f.marshal m = .ok first ∧
      marshalFields fs m = .ok others ∧ data = first ++ others := by
  rw [marshalFields] at h
  cases hfirst : f.marshal m with
  | error e =>
    rw [hfirst] at h
    cases h
  | ok first =>
    cases hothers : marshalFields fs m with
    | error e =>
      rw [hfirst, hothers] at h
      cases h
    | ok others =>
      rw [hfirst, hothers] at h
      exact ⟨first, others, rfl, rfl, (Except.ok.inj h).symm⟩

/-- What was marshalled is merged into what was read before. -/
theorem readAll_marshalFields (hlawful : ∀ f ∈ fields, f.Lawful) (rest : Bytes) {m : M} :
    ∀ {fs : List (FieldCoder M)} {data : Bytes} (dst : M),
    (∀ f ∈ fs, fields.find? (·.num = f.num) = some f ∧ f.ReadsBack m) →
    marshalFields fs m = .ok data →
    readAll (unmarshalField fields) dst (data ++ rest) =
      readAll (unmarshalField fields) (mergeFields fs dst m) rest
  | [], data, dst, _, h => by
    cases h
    rfl
  | f :: fs, data, dst, hfs, h => by
    obtain ⟨⟨hf, hback⟩, hfs⟩ := List.forall_mem_cons.mp hfs
    obtain ⟨first, others, hfirst, hothers, rfl⟩ := marshalFields_cons h
    rw [List.append_assoc]
    refine Eq.trans ?_ (readAll_marshalFields hlawful rest (f.merge dst m) hfs hothers)
    rcases hback first hfirst with ⟨rfl, hmerge⟩ | ⟨typ, c, body, htyp, hc, rfl, hread⟩
    · rw [hmerge]
      rfl
    · refine readAll_of_step (shortens_unmarshalField hlawful) ?_
      rw [List.append_assoc, run_unmarshalField hf
        (hlawful f (List.mem_of_find?_eq_some hf)) htyp hc]
      exact hread dst _

/-- Data that was read, and a message that was marshalled after it. -/
theorem readAll_append_marshalFields {zero dst m : M} {before data : Bytes}
    (hfields : ∀ f ∈ fields, fields.find? (·.num = f.num) = some f ∧ f.Lawful ∧ f.ReadsBack m)
    (hbefore : readAll (unmarshalField fields) zero before = .ok dst)
    (hdata : marshalFields fields m = .ok data) :
    readAll (unmarshalField fields) zero (before ++ data) = .ok (mergeFields fields dst m) := by
  have hlawful : ∀ f ∈ fields, f.Lawful := fun f hf => (hfields f hf).2.1
  have hmerge := readAll_marshalFields hlawful [] dst
    (fun f hf => ⟨(hfields f hf).1, (hfields f hf).2.2⟩) hdata
  rw [List.append_nil] at hmerge
  rw [readAll_append (shortens_unmarshalField hlawful) (reads_unmarshalField hlawful) data hbefore,
    hmerge]
  rfl

end

/-! ## Requests -/

/-- `proto.Marshal` of a request. -/
def marshalPutInitRequest (m : PutInitRequest) : Except ProtoError Bytes :=
  marshalFields putInitRequestFields m

/-- `proto.Unmarshal` into a new request. -/
def unmarshalPutInitRequest (data : Bytes) : Except ProtoError PutInitRequest :=
  readAll (unmarshalField putInitRequestFields) emptyPutInitRequest data

/-- The sizes are those of what fits in memory. -/
def PutInitRequest.Fits (m : PutInitRequest) : Prop :=
  m.lun.length < 2 ^ 63 ∧ m.fileName.length < 2 ^ 63 ∧ m.metaKey.length < 2 ^ 63

instance (m : PutInitRequest) : Decidable m.Fits :=
  inferInstanceAs (Decidable (_ ∧ _))

theorem putInitRequestFields_spec {m : PutInitRequest} (h : m.Fits) : ∀ f ∈ putInitRequestFields,
    putInitRequestFields.find? (·.num = f.num) = some f ∧ f.Lawful ∧ f.ReadsBack m := by
  obtain ⟨hlun, hname, hkey⟩ := h
  simp only [putInitRequestFields, List.forall_mem_cons]
  exact ⟨⟨rfl, lawful_stringField (by decide) (by decide) _ _,
      readsBack_stringField _ _ (hlun.trans (by decide))⟩,
    ⟨rfl, lawful_stringField (by decide) (by decide) _ _,
      readsBack_stringField _ _ (hname.trans (by decide))⟩,
    ⟨rfl, lawful_stringField (by decide) (by decide) _ _,
      readsBack_stringField _ _ (hkey.trans (by decide))⟩,
    ⟨rfl, lawful_of_consumeNumber (by decide) (by decide) rfl, readsBack_boolField _ _ _ _⟩,
    List.forall_mem_nil _⟩

theorem unmarshal_marshalPutInitRequest {m : PutInitRequest} {data : Bytes} (hfits : m.Fits)
    (h : marshalPutInitRequest m = .ok data) : unmarshalPutInitRequest data = .ok m := by
  have hread : unmarshalPutInitRequest ([] ++ data) =
      .ok (mergeFields putInitRequestFields emptyPutInitRequest m) :=
    readAll_append_marshalFields (putInitRequestFields_spec hfits) rfl h
  rw [List.nil_append] at hread
  rw [hread]
  obtain ⟨lun, fileName, metaKey, noGet⟩ := m
  simp only [mergeFields, putInitRequestFields, List.foldl_cons, List.foldl_nil, stringField,
    boolField, emptyPutInitRequest]
  split_ifs <;> simp_all

/-! ## Records -/

/-- `proto.Marshal` of a record. -/
def marshalFileMeta (m : FileMeta) : Except ProtoError Bytes :=
  marshalFields fileMetaFields m

/-- `proto.Unmarshal` into a new record. -/
def unmarshalFileMeta (data : Bytes) : Except ProtoError FileMeta :=
  readAll (unmarshalField fileMetaFields) emptyFileMeta data

instance : DecidablePred IsInt64 :=
  fun c => inferInstanceAs (Decidable (-2 ^ 63 ≤ c ∧ c < 2 ^ 63))

/-- The numbers are `int64` values and the sizes those of what fits in memory. -/
def FileMeta.Fits (m : FileMeta) : Prop :=
  (∀ v ∈ [m.lun, m.fileName, m.etag, m.metaKey], v.length < 2 ^ 63) ∧ IsInt64 m.size ∧
    ∀ l ∈ [m.offset, m.len], l.length < 2 ^ 60 ∧ ∀ v ∈ l, IsInt64 v

instance (m : FileMeta) : Decidable m.Fits :=
  inferInstanceAs (Decidable (_ ∧ _))

theorem fileMetaFields_spec {m : FileMeta} (h : m.Fits) : ∀ f ∈ fileMetaFields,
    fileMetaFields.find? (·.num = f.num) = some f ∧ f.Lawful ∧ f.ReadsBack m := by
  obtain ⟨htexts, hsize, hlists⟩ := h
  simp only [List.forall_mem_cons] at htexts hlists
  obtain ⟨hlun, hname, hetag, hkey, -⟩ := htexts
  obtain ⟨⟨hcount, hoffset⟩, ⟨hcount', hlen⟩, -⟩ := hlists
  simp only [fileMetaFields, List.forall_mem_cons]
  exact ⟨⟨rfl, lawful_stringField (by decide) (by decide) _ _,
      readsBack_stringField _ _ (hlun.trans (by decide))⟩,
    ⟨rfl, lawful_stringField (by decide) (by decide) _ _,
      readsBack_stringField _ _ (hname.trans (by decide))⟩,
    ⟨rfl, lawful_stringField (by decide) (by decide) _ _,
      readsBack_stringField _ _ (hetag.trans (by decide))⟩,
    ⟨rfl, lawful_of_consumeNumber (by decide) (by decide) rfl, readsBack_int64Field _ _ hsize⟩,
    ⟨rfl, lawful_packedField (by decide) (by decide) _ _,
      readsBack_packedField _ (fun _ => rfl) hcount hoffset⟩,
    ⟨rfl, lawful_packedField (by decide) (by decide) _ _,
      readsBack_packedField _ (fun _ => rfl) hcount' hlen⟩,
    ⟨rfl, lawful_stringField (by decide) (by decide) _ _,
      readsBack_stringField _ _ (hkey.trans (by decide))⟩,
    List.forall_mem_nil _⟩

/-- The strings of the second record replace those of the first unless they are empty, so does
its size unless it is 0, and its extents come after those of the first. -/
def FileMeta.merge (dst src : FileMeta) : FileMeta where
  metaKey := if src.metaKey = [] then dst.metaKey else src.metaKey
  fileName := if src.fileName = [] then dst.fileName else src.fileName
  lun := if src.lun = [] then dst.lun else src.lun
  etag := if src.etag = [] then dst.etag else src.etag
  size := if src.size = 0 then dst.size else src.size
  offset := dst.offset ++ src.offset
  len := dst.len ++ src.len

theorem mergeFields_fileMeta (dst src : FileMeta) :
    mergeFields fileMetaFields dst src = dst.merge src := by
  simp only [mergeFields, fileMetaFields, List.foldl_cons, List.foldl_nil, stringField, int64Field,
    packedField, FileMeta.merge]
  split_ifs <;> rfl

/-- A value merged into the zero value. -/
theorem ite_eq_self {α : Type} [DecidableEq α] (a b : α) : (if a = b then b else a) = a := by
  split_ifs with h
  · exact h.symm
  · rfl

theorem FileMeta.merge_empty (m : FileMeta) : emptyFileMeta.merge m = m := by
  simp only [FileMeta.merge, emptyFileMeta, List.nil_append, ite_eq_self]

theorem unmarshalFileMeta_append {m m' : FileMeta} {before data : Bytes} (hfits : m.Fits)
    (hbefore : unmarshalFileMeta before = .ok m') (hdata : marshalFileMeta m = .ok data) :
    unmarshalFileMeta (before ++ data) = .ok (m'.merge m) := by
  rw [← mergeFields_fileMeta]
  exact readAll_append_marshalFields (fileMetaFields_spec hfits) hbefore hdata

theorem unmarshal_marshalFileMeta {m : FileMeta} {data : Bytes} (hfits : m.Fits)
    (h : marshalFileMeta m = .ok data) : unmarshalFileMeta data = .ok m := by
  have hread : unmarshalFileMeta ([] ++ data) = .ok (emptyFileMeta.merge m) :=
    unmarshalFileMeta_append hfits rfl h
  rwa [List.nil_append, FileMeta.merge_empty] at hread

theorem exists_marshalFields_iff {M : Type} {m : M} : ∀ {fields : List (FieldCoder M)},
    (∃ data, marshalFields fields m = .ok data) ↔ ∀ f ∈ fields, ∃ data, f.marshal m = .ok data
  | [] => ⟨fun _ => List.forall_mem_nil _, fun _ => ⟨[], rfl⟩⟩
  | f :: fields => by
    rw [List.forall_mem_cons, ← exists_marshalFields_iff]
    constructor
    · rintro ⟨data, h⟩
      obtain ⟨first, others, hfirst, hothers, -⟩ := marshalFields_cons h
      exact ⟨⟨first, hfirst⟩, others, hothers⟩
    · rintro ⟨⟨first, hfirst⟩, others, hothers⟩
      refine ⟨first ++ others, ?_⟩
      rw [marshalFields, hfirst, hothers]
      rfl

theorem exists_marshal_stringField_iff {M : Type} (num : ℕ) (get : M → Bytes)
    (set : M → Bytes → M) (m : M) :
    (∃ data, (stringField num get set).marshal m = .ok data) ↔ utf8Valid (get m) = true := by
  simp only [stringField]
  split_ifs with hnil hvalid
  · rw [hnil]
    exact ⟨fun _ => rfl, fun _ => ⟨[], rfl⟩⟩
  · exact ⟨fun _ => hvalid, fun _ => ⟨_, rfl⟩⟩
  · simp [hvalid]

/-- Only a string that is not UTF-8 keeps a record from being marshalled. -/
theorem exists_marshalFileMeta_iff (m : FileMeta) : (∃ data, marshalFileMeta m = .ok data) ↔
    ∀ v ∈ [m.lun, m.fileName, m.etag, m.metaKey], utf8Valid v = true := by
  have hsize : ∃ data, (int64Field 4 FileMeta.size fun m v => { m with size := v }).marshal m =
      .ok data := by
    simp only [int64Field]
    split_ifs <;> exact ⟨_, rfl⟩
  have hlist (num : ℕ) (get : FileMeta → List ℤ) (set : FileMeta → List ℤ → FileMeta) :
      ∃ data, (packedField num get set).marshal m = .ok data := by
    simp only [packedField]
    split_ifs <;> exact ⟨_, rfl⟩
  rw [marshalFileMeta, exists_marshalFields_iff]
  simp [fileMetaFields, exists_marshal_stringField_iff, hsize, hlist]

/-- A record is marshalled if its strings are UTF-8, and it is read back. After other data it is
merged into what was read there, so that fields that are not known do no harm. -/
theorem fileMeta_wire {m : FileMeta} (hfits : m.Fits) :
    ((∃ data, marshalFileMeta m = .ok data) ↔
      ∀ v ∈ [m.lun, m.fileName, m.etag, m.metaKey], utf8Valid v = true) ∧
    ∀ data, marshalFileMeta m = .ok data → unmarshalFileMeta data = .ok m ∧
      ∀ before m', unmarshalFileMeta before = .ok m' →
        unmarshalFileMeta (before ++ data) = .ok (m'.merge m) :=
  ⟨exists_marshalFileMeta_iff m, fun _ h => ⟨unmarshal_marshalFileMeta hfits h,
    fun _ _ hbefore => unmarshalFileMeta_append hfits hbefore h⟩⟩

/-- A group of another message's field, and a record with two extents. -/
theorem fileMeta_wire_group :
    let m : FileMeta := ⟨ascii ['k'], ascii ['/', 'f'], [], [], 4097, [4096, 12288], [4096, 4096]⟩
    let before : Bytes := [0x83#8, 0x01#8, 0x08#8, 0x05#8, 0x84#8, 0x01#8]
    m.Fits ∧ ∃ data, marshalFileMeta m = .ok data ∧ unmarshalFileMeta before = .ok emptyFileMeta ∧
      unmarshalFileMeta (before ++ data) = .ok m := by
  intro m before
  have hfits : m.Fits := by decide
  obtain ⟨hok, hread⟩ := fileMeta_wire hfits
  obtain ⟨data, hdata⟩ := hok.mpr (by decide)
  have hbefore : unmarshalFileMeta before = .ok emptyFileMeta := by decide
  refine ⟨hfits, data, hdata, hbefore, ?_⟩
  rw [(hread data hdata).2 before _ hbefore, FileMeta.merge_empty]

/-- The marshalling of records that the rest of the development is stated for. -/
def protobuf : Protobuf where
  marshal m :=
    if m.Fits then (marshalFileMeta m).mapError ProtoError.message else .error "not a message"
  unmarshal data := (unmarshalFileMeta data).mapError ProtoError.message
  unmarshal_marshal := by
    intro m data h
    split_ifs at h with hfits
    cases hdata : marshalFileMeta m with
    | error e =>
      rw [hdata] at h
      cases h
    | ok data' =>
      rw [hdata] at h
      cases h
      rw [unmarshal_marshalFileMeta hfits hdata]
      rfl

theorem protobuf_marshal_iff {m : FileMeta} {data : Bytes} :
    protobuf.marshal m = .ok data ↔ m.Fits ∧ marshalFileMeta m = .ok data := by
  change (if m.Fits then (marshalFileMeta m).mapError ProtoError.message
    else .error "not a message") = _ ↔ _
  split_ifs with hfits
  · cases marshalFileMeta m <;> simp [Except.mapError, hfits]
  · simp [hfits]

/-- `proto.Marshal` of a request. -/
def marshalRequest (req : PutInitRequest) : Except String Bytes :=
  (marshalPutInitRequest req).mapError ProtoError.message

/-- `proto.Unmarshal` of a request. -/
def unmarshalRequest (data : Bytes) : Except String PutInitRequest :=
  (unmarshalPutInitRequest data).mapError ProtoError.message

end Corgi
