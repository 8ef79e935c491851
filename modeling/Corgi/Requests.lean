import Corgi.Messages
import Corgi.Payload

/-!
# The start request

What the client sends first, and what the server makes of it. The client names a file by a random
identifier, so that the key of its record has 122 random bits.

`start_request` : the request is marshalled exactly when the texts of the configuration are UTF-8,
the server reads the request that the client made, and two requests have one key exactly when
their random bits are the same.
-/

namespace Corgi

/-! ## The model -/

/-- `hex.Encode`. -/
def hexEncode (b : Bytes) : Bytes :=
  b.flatMap fun x => [hexDigit (x.toNat / 16), hexDigit (x.toNat % 16)]

/-- The version and the variant are set. -/
def stampUUID (b : Fin 16 → Byte) : Fin 16 → Byte :=
  let b := Function.update b 6 ((b 6 &&& 0x0f#8) ||| 0x40#8)
  Function.update b 8 ((b 8 &&& 0x3f#8) ||| 0x80#8)

/-- The five groups of digits, with hyphens between them. -/
def formatUUID (b : Bytes) : Bytes :=
  hexEncode (b.take 4) ++ 45#8 :: hexEncode ((b.drop 4).take 2) ++
    45#8 :: hexEncode ((b.drop 6).take 2) ++ 45#8 :: hexEncode ((b.drop 8).take 2) ++
    45#8 :: hexEncode ((b.drop 10).take 6)

/-- `newUUIDV4`, with what `rand.Read` gives. -/
def newUUIDV4 (rand : Except String (Fin 16 → Byte)) : Except String Bytes :=
  rand.map fun b => formatUUID (List.ofFn (stampUUID b))

/-- `%d`. -/
def formatInt (v : ℤ) : Bytes :=
  if v < 0 then 45#8 :: decimal 1 v.natAbs else decimal 1 v.natAbs

/-- The request of upload `id`, with the identifier in the name and the time in the key. -/
def startRequest (lun metaPrefix uuid : Bytes) (nano : ℤ) (id : ℕ) : PutInitRequest where
  lun := lun
  fileName := ascii "/9698_bk1_".toList ++ uuid
  metaKey := metaPrefix ++ 45#8 :: formatInt nano ++ 45#8 :: formatInt id
  noGet := false

/-- With the random bytes and the time. -/
def encodeStartPayloadProtoBuf (lun metaPrefix : Bytes) (rand : Except String (Fin 16 → Byte))
    (nano : ℤ) (id : ℕ) : Except String Bytes :=
  match newUUIDV4 rand with
  | .error err => .error ("generate uuid: " ++ err)
  | .ok uuid =>
    match marshalPutInitRequest (startRequest lun metaPrefix uuid nano id) with
    | .error err => .error ("marshal PutInitRequest: " ++ err.message)
    | .ok data => .ok data

/-! ## Texts -/

theorem isASCII_decimal (width n : ℕ) : IsASCII (decimal width n) := by
  refine List.forall_mem_map.mpr fun d hd => ?_
  have hlt : d < 10 := by
    rw [List.mem_reverse, List.mem_append] at hd
    rcases hd with hd | hd
    · exact Nat.digits_lt_base (by decide) hd
    · rw [List.eq_of_mem_replicate hd]
      decide
  rw [BitVec.toNat_ofNat]
  omega

theorem isASCII_formatInt (v : ℤ) : IsASCII (formatInt v) := by
  unfold formatInt
  split_ifs
  · exact .cons (by decide) (isASCII_decimal _ _)
  · exact isASCII_decimal _ _

theorem toNat_hexDigit {d : ℕ} (h : d < 16) :
    (hexDigit d).toNat = if d < 10 then 48 + d else 87 + d := by
  rw [hexDigit, BitVec.toNat_ofNat]
  split_ifs <;> omega

theorem mem_hexEncode {b : Bytes} {x : Byte} (h : x ∈ hexEncode b) : ∃ d < 16, x = hexDigit d := by
  obtain ⟨y, -, hy⟩ := List.mem_flatMap.mp h
  have := y.isLt
  rcases List.mem_pair.mp hy with rfl | rfl
  · exact ⟨_, by omega, rfl⟩
  · exact ⟨_, Nat.mod_lt _ (by decide), rfl⟩

/-! ## Identifiers -/

theorem hexDigit_injective {d d' : ℕ} (hd : d < 16) (hd' : d' < 16)
    (h : hexDigit d = hexDigit d') : d = d' := by
  have hnat := congrArg BitVec.toNat h
  rw [toNat_hexDigit hd, toNat_hexDigit hd'] at hnat
  split_ifs at hnat <;> omega

theorem hexEncode_injective : ∀ {b b' : Bytes}, hexEncode b = hexEncode b' → b = b'
  | [], [], _ => rfl
  | [], _ :: _, h => by cases h
  | _ :: _, [], h => by cases h
  | x :: b, x' :: b', h => by
    obtain ⟨hhigh, hrest⟩ := List.cons.inj h
    obtain ⟨hlow, hrest⟩ := List.cons.inj hrest
    have hx := x.isLt
    have hx' := x'.isLt
    have hdiv := hexDigit_injective (by omega) (by omega) hhigh
    have hmod := hexDigit_injective (Nat.mod_lt _ (by decide)) (Nat.mod_lt _ (by decide)) hlow
    rw [BitVec.eq_of_toNat_eq (show x.toNat = x'.toNat by omega), hexEncode_injective hrest]

theorem hexDigit_ne {d : ℕ} (h : d < 16) : hexDigit d ≠ 45#8 ∧ hexDigit d ≠ 47#8 ∧
    (hexDigit d).toNat < 0x80 := by
  have hnat := toNat_hexDigit h
  refine ⟨fun heq => ?_, fun heq => ?_, ?_⟩
  · rw [heq] at hnat
    split_ifs at hnat <;> simp at hnat <;> omega
  · rw [heq] at hnat
    split_ifs at hnat <;> simp at hnat <;> omega
  · rw [hnat]
    split_ifs <;> omega

theorem hexEncode_append (b b' : Bytes) : hexEncode (b ++ b') = hexEncode b ++ hexEncode b' :=
  List.flatMap_append

theorem filter_hexEncode (b : Bytes) : (hexEncode b).filter (· ≠ 45#8) = hexEncode b := by
  refine List.filter_eq_self.mpr fun x hx => ?_
  obtain ⟨d, hd, rfl⟩ := mem_hexEncode hx
  simpa using (hexDigit_ne hd).1

theorem mem_formatUUID {b : Bytes} {x : Byte} (h : x ∈ formatUUID b) :
    x = 45#8 ∨ ∃ d < 16, x = hexDigit d := by
  simp only [formatUUID, List.mem_append, List.mem_cons] at h
  rcases h with (((h | h | h) | h | h) | h | h) | h | h
  all_goals first | exact .inl h | exact .inr (mem_hexEncode h)

/-- Without the dashes, the digits are those of all bytes. -/
theorem filter_formatUUID {b : Bytes} (h : b.length = 16) :
    (formatUUID b).filter (· ≠ 45#8) = hexEncode b := by
  have hparts : b.take 4 ++ (b.drop 4).take 2 ++ (b.drop 6).take 2 ++ (b.drop 8).take 2 ++
      (b.drop 10).take 6 = b := by
    rw [← List.take_add, ← List.take_add, ← List.take_add, ← List.take_add,
      List.take_of_length_le h.le]
  have hdash : ∀ c : Bytes, (45#8 :: hexEncode c).filter (· ≠ 45#8) = hexEncode c := fun c => by
    rw [List.filter_cons_of_neg (by decide), filter_hexEncode]
  conv_rhs => rw [← hparts]
  simp only [formatUUID, List.filter_append, hexEncode_append, hdash, filter_hexEncode]

theorem formatUUID_injective {b b' : Fin 16 → Byte}
    (h : formatUUID (List.ofFn b) = formatUUID (List.ofFn b')) : b = b' := by
  have hhex := filter_formatUUID (@List.length_ofFn _ _ b)
  rw [h, filter_formatUUID List.length_ofFn] at hhex
  exact List.ofFn_injective (hexEncode_injective hhex).symm

/-- The bits of two identifiers that are random. -/
def SameBits (b b' : Fin 16 → Byte) : Prop :=
  (∀ i, i ≠ 6 → i ≠ 8 → b i = b' i) ∧ b 6 &&& 0x0f#8 = b' 6 &&& 0x0f#8 ∧
    b 8 &&& 0x3f#8 = b' 8 &&& 0x3f#8

theorem stampUUID_eq_iff {b b' : Fin 16 → Byte} : stampUUID b = stampUUID b' ↔ SameBits b b' := by
  have h6 : ∀ x : Byte, ((x &&& 0x0f#8) ||| 0x40#8) &&& 0x0f#8 = x &&& 0x0f#8 := by decide
  have h8 : ∀ x : Byte, ((x &&& 0x3f#8) ||| 0x80#8) &&& 0x3f#8 = x &&& 0x3f#8 := by decide
  have hat : ∀ c : Fin 16 → Byte, stampUUID c 6 = (c 6 &&& 0x0f#8) ||| 0x40#8 ∧
      stampUUID c 8 = (c 8 &&& 0x3f#8) ||| 0x80#8 ∧ ∀ i, i ≠ 6 → i ≠ 8 → stampUUID c i = c i := by
    intro c
    refine ⟨rfl, rfl, fun i hi hi' => ?_⟩
    rw [stampUUID, Function.update_of_ne hi', Function.update_of_ne hi]
  constructor
  · intro h
    refine ⟨fun i hi hi' => ?_, ?_, ?_⟩
    · rw [← (hat b).2.2 i hi hi', h, (hat b').2.2 i hi hi']
    · rw [← h6 (b 6), ← (hat b).1, h, (hat b').1, h6]
    · rw [← h8 (b 8), ← (hat b).2.1, h, (hat b').2.1, h8]
  · rintro ⟨hrest, hsix, height⟩
    funext i
    by_cases hi : i = 6
    · rw [hi, (hat b).1, (hat b').1, hsix]
    by_cases hi' : i = 8
    · rw [hi', (hat b).2.1, (hat b').2.1, height]
    · rw [(hat b).2.2 i hi hi', (hat b').2.2 i hi hi', hrest i hi hi']

/-! ## The request -/

theorem exists_marshalPutInitRequest_iff (m : PutInitRequest) :
    (∃ data, marshalPutInitRequest m = .ok data) ↔
      ∀ v ∈ [m.lun, m.fileName, m.metaKey], utf8Valid v = true := by
  have hbool : ∀ num (get : PutInitRequest → Bool) set,
      ∃ data, (boolField num get set).marshal m = .ok data := by
    intro num get set
    simp only [boolField]
    split_ifs <;> exact ⟨_, rfl⟩
  rw [marshalPutInitRequest, exists_marshalFields_iff]
  simp [putInitRequestFields, exists_marshal_stringField_iff, hbool]

/-- The key is the name of the file without the slash. -/
theorem getFileMetaKey_startRequest (lun metaPrefix : Bytes) (b : Bytes) (nano : ℤ) (id : ℕ) :
    getFileMetaKey (startRequest lun metaPrefix (formatUUID b) nano id).fileName =
      ascii "#9698_bk1_".toList ++ formatUUID b := by
  have hslash : ∀ x ∈ ascii "9698_bk1_".toList ++ formatUUID b, (x == 47#8) = false := by
    refine List.forall_mem_append.mpr ⟨by decide, fun x hx => ?_⟩
    rcases mem_formatUUID hx with rfl | ⟨d, hd, rfl⟩
    · decide
    · simpa using (hexDigit_ne hd).2.1
  have hsplit : (startRequest lun metaPrefix (formatUUID b) nano id).fileName.splitOn 47#8 =
      [[], ascii "9698_bk1_".toList ++ formatUUID b] := by
    change List.splitOnP (· == 47#8) (47#8 :: (ascii "9698_bk1_".toList ++ formatUUID b)) = _
    rw [List.splitOnP_cons_eq_if_modifyHead, if_pos (by decide), List.splitOnP_eq_singleton hslash]
  rw [getFileMetaKey, hsplit]
  rfl

theorem isASCII_formatUUID (b : Bytes) : IsASCII (formatUUID b) := by
  intro x hx
  rcases mem_formatUUID hx with rfl | ⟨d, hd, rfl⟩
  · decide
  · exact (hexDigit_ne hd).2.2

/-- The names that the client makes up are texts. -/
theorem utf8Valid_startRequest (lun metaPrefix : Bytes) (b : Bytes) (nano : ℤ) (id : ℕ) :
    utf8Valid (startRequest lun metaPrefix (formatUUID b) nano id).fileName = true ∧
    utf8Valid (startRequest lun metaPrefix (formatUUID b) nano id).metaKey =
      utf8Valid metaPrefix := by
  constructor
  · exact utf8Valid_of_isASCII (.append (by decide) (isASCII_formatUUID b))
  · change utf8Valid (metaPrefix ++ 45#8 :: formatInt nano ++ 45#8 :: formatInt id) = _
    rw [List.append_assoc]
    exact isSome_runes_append (.append (.cons (by decide) (isASCII_formatInt _))
      (.cons (by decide) (isASCII_formatInt _))) metaPrefix

theorem encodeStartPayloadProtoBuf_eq_ok {lun metaPrefix : Bytes}
    {rand : Except String (Fin 16 → Byte)} {nano : ℤ} {id : ℕ} {data : Bytes} :
    encodeStartPayloadProtoBuf lun metaPrefix rand nano id = .ok data ↔
      ∃ b uuid, rand = .ok b ∧ uuid = formatUUID (List.ofFn (stampUUID b)) ∧
        newUUIDV4 rand = .ok uuid ∧
        marshalPutInitRequest (startRequest lun metaPrefix uuid nano id) = .ok data := by
  cases rand with
  | error err => simp [encodeStartPayloadProtoBuf, newUUIDV4, Except.map]
  | ok b =>
    have huuid : newUUIDV4 (.ok b) = .ok (formatUUID (List.ofFn (stampUUID b))) := rfl
    rw [encodeStartPayloadProtoBuf, huuid]
    simp only
    constructor
    · intro h
      refine ⟨b, _, rfl, rfl, rfl, ?_⟩
      split at h
      · cases h
      · rename_i hmarshal
        exact hmarshal.trans (congrArg Except.ok (Except.ok.inj h))
    · rintro ⟨b', uuid, hb, rfl, -, hmarshal⟩
      obtain rfl := Except.ok.inj hb
      rw [hmarshal]

/-- The start request on the wire, of texts that fit in memory. It is sent exactly if there are
random bytes and the texts of the configuration are UTF-8. What the server reads is the request
that the client made, its record gets the key with the identifier, and it shares this key with
another request, of whatever client, exactly if all of their random bits are the same. -/
theorem start_request {lun metaPrefix : Bytes} {rand : Except String (Fin 16 → Byte)} {nano : ℤ}
    {id : ℕ} (hfits : ∀ uuid, newUUIDV4 rand = .ok uuid →
      (startRequest lun metaPrefix uuid nano id).Fits) :
    ((∃ data, encodeStartPayloadProtoBuf lun metaPrefix rand nano id = .ok data) ↔
      (∃ b, rand = .ok b) ∧ utf8Valid lun = true ∧ utf8Valid metaPrefix = true) ∧
    (∀ data, encodeStartPayloadProtoBuf lun metaPrefix rand nano id = .ok data →
      ∃ uuid, newUUIDV4 rand = .ok uuid ∧
        decodePutInitRequest (fun data => (unmarshalPutInitRequest data).mapError
          ProtoError.message) data = .ok (startRequest lun metaPrefix uuid nano id)) ∧
    ∀ b uuid, rand = .ok b → newUUIDV4 rand = .ok uuid →
      getFileMetaKey (startRequest lun metaPrefix uuid nano id).fileName =
        ascii "#9698_bk1_".toList ++ uuid ∧
      ∀ lun' metaPrefix' b' uuid' nano' id', newUUIDV4 (.ok b') = .ok uuid' →
        (getFileMetaKey (startRequest lun' metaPrefix' uuid' nano' id').fileName =
          getFileMetaKey (startRequest lun metaPrefix uuid nano id).fileName ↔ SameBits b' b) := by
  simp only [encodeStartPayloadProtoBuf_eq_ok]
  refine ⟨?_, ?_, ?_⟩
  · constructor
    · rintro ⟨data, b, uuid, hrand, rfl, -, hdata⟩
      obtain ⟨-, hkey⟩ := utf8Valid_startRequest lun metaPrefix (List.ofFn (stampUUID b)) nano id
      have htexts := (exists_marshalPutInitRequest_iff _).mp ⟨data, hdata⟩
      simp only [List.forall_mem_cons, hkey] at htexts
      exact ⟨⟨b, hrand⟩, htexts.1, htexts.2.2.1⟩
    · rintro ⟨⟨b, rfl⟩, hlun, hprefixed⟩
      obtain ⟨hname, hkey⟩ :=
        utf8Valid_startRequest lun metaPrefix (List.ofFn (stampUUID b)) nano id
      obtain ⟨data, hdata⟩ := (exists_marshalPutInitRequest_iff (startRequest lun metaPrefix
        (formatUUID (List.ofFn (stampUUID b))) nano id)).mpr (by
          simp only [List.forall_mem_cons, hname, hkey]
          exact ⟨hlun, trivial, hprefixed, List.forall_mem_nil _⟩)
      exact ⟨data, b, _, rfl, rfl, rfl, hdata⟩
  · rintro data ⟨b, uuid, hrand, rfl, huuid, hdata⟩
    refine ⟨_, huuid, ?_⟩
    have hread := unmarshal_marshalPutInitRequest (hfits _ huuid) hdata
    have hne : data.length ≠ 0 := by
      intro hnil
      rw [List.length_eq_zero_iff.mp hnil] at hread
      exact absurd (congrArg PutInitRequest.fileName (Except.ok.inj hread)) (by
        simp [emptyPutInitRequest, startRequest, ascii])
    rw [decodePutInitRequest, if_neg hne, hread]
    rfl
  · rintro b uuid rfl huuid
    obtain rfl := Except.ok.inj huuid
    refine ⟨getFileMetaKey_startRequest _ _ _ _ _, fun lun' metaPrefix' b' uuid' nano' id' h => ?_⟩
    obtain rfl := Except.ok.inj h
    rw [getFileMetaKey_startRequest, getFileMetaKey_startRequest, List.append_cancel_left_eq,
      ← stampUUID_eq_iff]
    exact ⟨formatUUID_injective, fun h => congrArg (fun c => formatUUID (List.ofFn c)) h⟩

/-- A request that is sent, and one whose volume is no text. -/
theorem start_request_one :
    let rand : Except String (Fin 16 → Byte) := .ok fun _ => 0xff#8
    (∃ data, encodeStartPayloadProtoBuf [] (ascii ['m']) rand 1 0 = .ok data ∧
      decodePutInitRequest (fun data => (unmarshalPutInitRequest data).mapError
        ProtoError.message) data = .ok ⟨[],
          ascii "/9698_bk1_ffffffff-ffff-4fff-bfff-ffffffffffff".toList, ascii "m-1-0".toList,
          false⟩) ∧
    ¬∃ data, encodeStartPayloadProtoBuf [0xff#8] (ascii ['m']) rand 1 0 = .ok data := by
  intro rand
  have huuid : newUUIDV4 rand = .ok (ascii "ffffffff-ffff-4fff-bfff-ffffffffffff".toList) := by
    decide
  have hfits : ∀ lun : Bytes, lun.length < 2 → ∀ uuid, newUUIDV4 rand = .ok uuid →
      (startRequest lun (ascii ['m']) uuid 1 0).Fits := by
    intro lun hlun uuid h
    obtain rfl := Except.ok.inj (huuid.symm.trans h)
    have hnames : (startRequest [] (ascii ['m']) (ascii
        "ffffffff-ffff-4fff-bfff-ffffffffffff".toList) 1 0).Fits := by
      unfold PutInitRequest.Fits
      decide
    exact ⟨hlun.trans (by decide), hnames.2⟩
  constructor
  · obtain ⟨hok, hread, -⟩ := start_request (hfits [] (by decide))
    obtain ⟨data, hdata⟩ := hok.mpr ⟨⟨_, rfl⟩, by decide, by decide⟩
    obtain ⟨uuid, huuid', hdecode⟩ := hread data hdata
    obtain rfl := Except.ok.inj (huuid.symm.trans huuid')
    exact ⟨data, hdata, hdecode.trans (congrArg Except.ok (by decide))⟩
  · intro hdata
    obtain ⟨-, hlun, -⟩ := (start_request (hfits [0xff#8] (by decide))).1.mp hdata
    exact absurd hlun (by decide)

end Corgi
