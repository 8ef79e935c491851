import Corgi.Messages
import Corgi.ReadBack
import Corgi.Records

/-!
# The dump tool

`peppledump` prints the records of a database without knowing their messages. A value that is
length-prefixed may be a string or a list of packed numbers, and it is taken for a string when
nine tenths of it can be printed.

`formatProtoWireObject_marshalFileMeta` : of a record whose extents are made of whole blocks, the
extents are printed as the lists that they are, since a number that is a multiple of the block
size begins with a byte that no UTF-8 text begins with.

`Peppledump.run_fst` : a dump with a prefix prints the keys with this prefix, and no others.

`Node.dump_files` : of a node, a dump of the keys with `#` prints the files that are stored.
-/

set_option linter.unusedSectionVars false

namespace Corgi

/-! ## The model -/

/-- The runes that count as printable. -/
def isPrintable (r : ℕ) : Bool :=
  r == 10 || r == 13 || r == 9 || (0x20 ≤ r && r != 0x7f)

/-- UTF-8 text of which at least 90 percent are printable. -/
def isPrintableUTF8 (b : Bytes) : Bool :=
  match runes b with
  | none => false
  | some rs => rs ≠ [] && 90 ≤ rs.countP isPrintable * 100 / rs.length

/-- The numbers, if the bytes are no text and nothing but varints. -/
def tryPackedVarints (b : Bytes) : Option (List ℕ) :=
  if b = [] ∨ isPrintableUTF8 b then none
  else match consumeVarints b with
    | .error _ => none
    | .ok vals => some vals

/-- The numbers in brackets. -/
def formatUint64Array (vals : List ℕ) : String :=
  "[" ++ ",".intercalate (vals.map toString) ++ "]"

/-- The errors of `formatProtoWireValue`. -/
inductive ValueError
  | wire (err : WireError)
  | unsupported (typ : WireType)
  deriving DecidableEq, Repr

/-- The errors of `formatProtoWireObject`. -/
inductive DumpError
  | tag (err : WireError)
  | field (num : ℕ) (err : ValueError)
  deriving DecidableEq, Repr

/-- The text of `ParseError`. -/
def WireError.message : WireError → String
  | truncated => "unexpected EOF"
  | fieldNumber => "proto: invalid field number"
  | overflow => "proto: variable length integer overflow"
  | reserved => "proto: cannot parse reserved wire type"
  | endGroup => "proto: mismatching end group marker"
  | recursionDepth => "proto: parse error"

/-- The text of the error. -/
def ValueError.message : ValueError → String
  | wire err => err.message
  | unsupported typ => "unsupported wire type " ++ toString typ.toNat

/-- The text of the error. -/
def DumpError.message : DumpError → String
  | tag err => err.message
  | field num err => "field " ++ toString num ++ ": " ++ err.message

section

variable (quote : Bytes → String)

/-- A value of the type `BytesType`. -/
def formatLengthPrefixed (v : Bytes) : String :=
  if isPrintableUTF8 v then quote v
  else match tryPackedVarints v with
    | some vals => formatUint64Array vals
    | none => "<bytes len=" ++ toString v.length ++ ">"

/-- `strconv.Quote` is a parameter. -/
def formatProtoWireValue : WireType → StateT Bytes (Except ValueError) String
  | .varint => toString <$> withErr .wire consumeVarint
  | .fixed32 => toString <$> withErr .wire (consumeFixed 4)
  | .fixed64 => toString <$> withErr .wire (consumeFixed 8)
  | .bytes => formatLengthPrefixed quote <$> withErr .wire consumeBytes
  | typ => throw (.unsupported typ)

/-- One field as it is printed. -/
def formatField (num : ℕ) (value : String) : String :=
  toString num ++ ":" ++ value

/-- One round of the loop of `formatProtoWireObject`. -/
def formatProtoWireField (written : List String) : StateT Bytes (Except DumpError) (List String) :=
  withErr .tag consumeTag >>= fun (num, typ) =>
    withErr (.field num) (formatProtoWireValue quote typ) >>= fun value =>
      pure (written ++ [formatField num value])

/-- The fields in braces. -/
def formatObject (fields : List String) : String :=
  "\x7b" ++ ",".intercalate fields ++ "\x7d"

/-- A message as text, whatever its fields are. -/
def formatProtoWireObject (data : Bytes) : Except DumpError String :=
  (readAll (formatProtoWireField quote) [] data).map formatObject

/-- The line of one entry of the database. -/
def printProtoWire (k v : Bytes) : String :=
  match formatProtoWireObject quote v with
  | .error err =>
    "key=" ++ quote k ++ " value=\x7bdecode_error:" ++ quote (ascii err.message.toList) ++ "\x7d\n"
  | .ok text => "key=" ++ quote k ++ " value=" ++ text ++ "\n"

end

/-! ## Numbers that are not taken for text -/

theorem runes_zero (rest : Bytes) : runes (0#8 :: rest) = (runes rest).map (0 :: ·) := by
  rw [runes.eq_def]
  rfl

/-- No character begins with this byte. -/
theorem runes_of_continuation (rest : Bytes) : runes (0x80#8 :: rest) = none := by
  rw [runes.eq_def]
  rcases rest with _ | ⟨b, _ | ⟨c, _ | ⟨d, rest⟩⟩⟩ <;> rfl

/-- Packed multiples of 128 are no text, unless all are 0. -/
theorem runes_flatMap_appendVarint : ∀ {vals : List ℕ}, (∀ v ∈ vals, 128 ∣ v) →
    runes (vals.flatMap appendVarint) = none ∨
      runes (vals.flatMap appendVarint) = some (List.replicate vals.length 0)
  | [], _ => .inr rfl
  | v :: vals, h => by
    obtain ⟨hv, hvals⟩ := List.forall_mem_cons.mp h
    rw [List.flatMap_cons]
    by_cases hzero : v = 0
    · subst hzero
      rw [show appendVarint 0 = [0#8] from rfl, List.singleton_append, runes_zero]
      rcases runes_flatMap_appendVarint hvals with hnone | hsome
      · exact .inl (by rw [hnone]; rfl)
      · exact .inr (by rw [hsome]; rfl)
    · obtain ⟨rest, hrest⟩ := appendVarint_of_dvd hv hzero
      rw [hrest, List.cons_append]
      exact .inl (runes_of_continuation _)

theorem isPrintableUTF8_flatMap {vals : List ℕ} (h : ∀ v ∈ vals, 128 ∣ v) :
    isPrintableUTF8 (vals.flatMap appendVarint) = false := by
  rw [isPrintableUTF8]
  rcases runes_flatMap_appendVarint h with hnone | hsome
  · rw [hnone]
  · rw [hsome]
    have hcount : (List.replicate vals.length 0).countP isPrintable = 0 := by
      rw [List.countP_eq_zero]
      intro r hr
      rw [List.eq_of_mem_replicate hr]
      decide
    simp [hcount]

/-- They are printed as a list. -/
theorem formatLengthPrefixed_flatMap (quote : Bytes → String) {vals : List ℕ} (hne : vals ≠ [])
    (h : ∀ v ∈ vals, 128 ∣ v) (hlt : ∀ v ∈ vals, v < 2 ^ 64) :
    formatLengthPrefixed quote (vals.flatMap appendVarint) = formatUint64Array vals := by
  have hprintable := isPrintableUTF8_flatMap h
  have hnil : vals.flatMap appendVarint ≠ [] := by
    obtain ⟨v, vals, rfl⟩ := List.exists_cons_of_ne_nil hne
    rw [List.flatMap_cons]
    exact List.append_ne_nil_of_left_ne_nil (varintBytes_ne_nil 9 v) _
  rw [formatLengthPrefixed, hprintable, if_neg Bool.false_ne_true, tryPackedVarints, if_neg (by
    rw [hprintable]
    exact fun h => h.elim hnil Bool.false_ne_true), consumeVarints_flatMap hlt]

/-! ## Messages -/

section

variable {M : Type} (quote : Bytes → String)

theorem Reads.map {σ ε α β : Type} {d : StateT (List σ) (Except ε) α} (h : Reads d) (f : α → β) :
    Reads (f <$> d) := by
  rw [map_eq_pure_bind]
  exact h.bind fun _ => .pure _

theorem reads_formatProtoWireValue (typ : WireType) : Reads (formatProtoWireValue quote typ) := by
  cases typ with
  | varint => exact (reads_consumeVarint.withErr _).map _
  | fixed32 => exact ((reads_consumeFixed 4).withErr _).map _
  | fixed64 => exact ((reads_consumeFixed 8).withErr _).map _
  | bytes => exact (reads_consumeBytes.withErr _).map _
  | startGroup | endGroup | reserved6 | reserved7 => exact .throw _

theorem shortens_formatProtoWireField (written : List String) :
    Shortens (formatProtoWireField quote written) :=
  (shortens_consumeTag.withErr _).bind fun _ =>
    ((reads_formatProtoWireValue quote _).withErr _).bind fun _ => .pure _

/-- How a field of a marshalled message is printed, nothing if it is left out. -/
def FieldCoder.ShownAs (f : FieldCoder M) (m : M) (text : Option String) : Prop :=
  ∀ data, f.marshal m = .ok data → (data = [] ∧ text = none) ∨
    ∃ typ body value, data = appendVarint (encodeTag f.num typ) ++ body ∧ text = some value ∧
      ∀ rest, (formatProtoWireValue quote typ).run (body ++ rest) = .ok (value, rest)

/-- How a message is printed, by what its fields are printed as. -/
def shownFields (fs : List (FieldCoder M)) (texts : List (Option String)) : List String :=
  (List.zipWith (fun f text => text.map (formatField f.num)) fs texts).reduceOption

theorem readAll_formatProtoWireField {m : M} :
    ∀ {fs : List (FieldCoder M)} {texts : List (Option String)} {data : Bytes}
      (written : List String),
    List.Forall₂ (fun f text => f.Lawful ∧ f.ShownAs quote m text) fs texts →
    marshalFields fs m = .ok data →
    readAll (formatProtoWireField quote) written data = .ok (written ++ shownFields fs texts)
  | _, _, data, written, .nil, h => by
    cases h
    rw [shownFields, List.zipWith_nil_left]
    exact congrArg Except.ok (List.append_nil _).symm
  | f :: fs, text :: texts, data, written, .cons ⟨hlawful, hshown⟩ hfs, h => by
    obtain ⟨first, others, hfirst, hothers, rfl⟩ := marshalFields_cons h
    rcases hshown first hfirst with ⟨rfl, rfl⟩ | ⟨typ, body, value, rfl, rfl, hvalue⟩
    · have hrest := readAll_formatProtoWireField written hfs hothers
      exact hrest
    · have hstep : (formatProtoWireField quote written).run
          (appendVarint (encodeTag f.num typ) ++ body ++ others) =
          .ok (written ++ [formatField f.num value], others) := by
        rw [List.append_assoc]
        refine run_bind_eq_ok.mpr ⟨(f.num, typ), body ++ others, withErr_eq_ok.mpr
          (consumeTag_encodeTag hlawful.num_pos (hlawful.num_lt.trans (by decide)) typ _), ?_⟩
        exact run_bind_eq_ok.mpr ⟨value, others, withErr_eq_ok.mpr (hvalue others), rfl⟩
      rw [readAll_of_step (shortens_formatProtoWireField quote) hstep,
        readAll_formatProtoWireField _ hfs hothers, List.append_assoc]
      rfl

theorem shownAs_stringField (num : ℕ) {get : M → Bytes} (set : M → Bytes → M) {m : M}
    (h : (get m).length < 2 ^ 64) : (stringField num get set).ShownAs quote m
      (if get m = [] then none else some (formatLengthPrefixed quote (get m))) := by
  intro data hdata
  simp only [stringField] at hdata
  split_ifs at hdata ⊢ with hnil hvalid <;> cases hdata
  · exact .inl ⟨rfl, rfl⟩
  · refine .inr ⟨.bytes, appendBytes (get m), _, rfl, rfl, fun rest => ?_⟩
    rw [formatProtoWireValue, map_eq_pure_bind]
    exact run_bind_eq_ok.mpr ⟨get m, rest,
      withErr_eq_ok.mpr (consumeBytes_appendBytes h rest), rfl⟩

theorem shownAs_int64Field (num : ℕ) (get : M → ℤ) (set : M → ℤ → M) (m : M) :
    (int64Field num get set).ShownAs quote m
      (if get m = 0 then none else some (toString (uint64 (get m)))) := by
  intro data hdata
  simp only [int64Field] at hdata
  split_ifs at hdata ⊢ with hzero <;> cases hdata
  · exact .inl ⟨rfl, rfl⟩
  · refine .inr ⟨.varint, appendVarint (uint64 (get m)), _, rfl, rfl, fun rest => ?_⟩
    rw [formatProtoWireValue, map_eq_pure_bind]
    exact run_bind_eq_ok.mpr ⟨uint64 (get m), rest,
      withErr_eq_ok.mpr (consumeVarint_appendVarint (uint64_lt _) rest), rfl⟩

theorem shownAs_packedField (num : ℕ) {get : M → List ℤ} (set : M → List ℤ → M) {m : M}
    (hlen : (get m).length < 2 ^ 60) (h : ∀ v ∈ get m, 128 ∣ v) :
    (packedField num get set).ShownAs quote m
      (if get m = [] then none else some (formatUint64Array ((get m).map uint64))) := by
  intro data hdata
  simp only [packedField] at hdata
  split_ifs at hdata ⊢ with hnil <;> cases hdata
  · exact .inl ⟨rfl, rfl⟩
  have hvals : ∀ v ∈ (get m).map uint64, v < 2 ^ 64 :=
    List.forall_mem_map.mpr fun v _ => uint64_lt v
  have hdvd : ∀ v ∈ (get m).map uint64, 128 ∣ v := by
    rw [List.forall_mem_map]
    intro v hv
    have hv := h v hv
    rw [uint64]
    omega
  have hne : (get m).map uint64 ≠ [] := by simpa using hnil
  have hbody : (((get m).map uint64).flatMap appendVarint).length < 2 ^ 64 := by
    have hle := length_flatMap_appendVarint_le hvals
    rw [List.length_map] at hle
    omega
  refine .inr ⟨.bytes, appendBytes (((get m).map uint64).flatMap appendVarint), _, ?_, rfl,
    fun rest => ?_⟩
  · rw [sum_sizeVarint hvals, List.append_assoc]
    rfl
  · rw [formatProtoWireValue, map_eq_pure_bind, ← formatLengthPrefixed_flatMap quote hne hdvd hvals]
    exact run_bind_eq_ok.mpr ⟨_, rest, withErr_eq_ok.mpr (consumeBytes_appendBytes hbody rest), rfl⟩

end

/-! ## Records -/

/-- What is printed of the fields of a record. -/
def shownTexts (quote : Bytes → String) (m : FileMeta) : List (Option String) :=
  let text := fun (v : Bytes) => if v = [] then none else some (formatLengthPrefixed quote v)
  let list := fun (l : List ℤ) =>
    if l = [] then none else some (formatUint64Array (l.map uint64))
  [text m.lun, text m.fileName, text m.etag,
    if m.size = 0 then none else some (toString (uint64 m.size)), list m.offset, list m.len,
    text m.metaKey]

/-- What is printed of a record : its fields that are not empty, with the extents as lists. -/
def shownFileMeta (quote : Bytes → String) (m : FileMeta) : String :=
  formatObject (shownFields fileMetaFields (shownTexts quote m))

theorem shownAs_fileMetaFields (quote : Bytes → String) {m : FileMeta} (hfits : m.Fits)
    (h : ∀ l ∈ [m.offset, m.len], ∀ v ∈ l, 128 ∣ v) :
    List.Forall₂ (fun f text => f.Lawful ∧ f.ShownAs quote m text) fileMetaFields
      (shownTexts quote m) := by
  obtain ⟨htexts, -, hlists⟩ := hfits
  simp only [List.forall_mem_cons] at htexts hlists h
  obtain ⟨hlun, hname, hetag, hkey, -⟩ := htexts
  obtain ⟨⟨hcount, -⟩, ⟨hcount', -⟩, -⟩ := hlists
  obtain ⟨hoffset, hlen, -⟩ := h
  refine .cons ⟨lawful_stringField (by decide) (by decide) _ _,
    shownAs_stringField quote _ _ (hlun.trans (by decide))⟩ <|
    .cons ⟨lawful_stringField (by decide) (by decide) _ _,
      shownAs_stringField quote _ _ (hname.trans (by decide))⟩ <|
    .cons ⟨lawful_stringField (by decide) (by decide) _ _,
      shownAs_stringField quote _ _ (hetag.trans (by decide))⟩ <|
    .cons ⟨lawful_of_consumeNumber (by decide) (by decide) rfl, shownAs_int64Field quote _ _ _ _⟩ <|
    .cons ⟨lawful_packedField (by decide) (by decide) _ _,
      shownAs_packedField quote _ _ hcount hoffset⟩ <|
    .cons ⟨lawful_packedField (by decide) (by decide) _ _,
      shownAs_packedField quote _ _ hcount' hlen⟩ <|
    .cons ⟨lawful_stringField (by decide) (by decide) _ _,
      shownAs_stringField quote _ _ (hkey.trans (by decide))⟩ .nil

theorem formatProtoWireObject_marshalFileMeta (quote : Bytes → String) {m : FileMeta}
    {data : Bytes} (hfits : m.Fits) (h : ∀ l ∈ [m.offset, m.len], ∀ v ∈ l, 128 ∣ v)
    (hdata : marshalFileMeta m = .ok data) :
    formatProtoWireObject quote data = .ok (shownFileMeta quote m) := by
  rw [formatProtoWireObject,
    readAll_formatProtoWireField quote [] (shownAs_fileMetaFields quote hfits h) hdata]
  rfl

/-! ## The loop over the keys -/

/-- What an iterator goes through : the keys that are there, in order, each with its value or with
the error that merging its operands ends in. -/
structure Iterates (db : DB) (entries : List (Bytes × Except MergeError Bytes)) : Prop where
  sorted : entries.Pairwise (·.1 < ·.1)
  mem : ∀ key value, (key, value) ∈ entries ↔ db.get key = value.map some

namespace Peppledump

section

variable (pre : Bytes) (limit : ℤ) (print : Bytes → Bytes → String)

/-- The loop of `run`, with the lines printed so far. -/
def runFrom : List String → List (Bytes × Except MergeError Bytes) →
    List String × Option MergeError
  | printed, [] => (printed, none)
  -- The iterator merges the operands of the key that it comes to.
  | printed, (_, .error e) :: _ => (printed, some e)
  | printed, (k, .ok v) :: rest =>
    if pre ≠ [] ∧ ¬pre <+: k then (printed, none)
    else if 0 < limit ∧ limit ≤ (printed.length + 1 : ℕ) then (printed ++ [print k v], none)
    else runFrom (printed ++ [print k v]) rest

/-- The lines that are printed, and the error of the iterator. -/
def run (entries : List (Bytes × Except MergeError Bytes)) : List String × Option MergeError :=
  runFrom pre limit print [] (if pre = [] then entries else entries.dropWhile (·.1 < pre))

/-- At most `limit`, where a limit is set. -/
def upTo {α : Type} (l : List α) : List α :=
  if 0 < limit then l.take limit.toNat else l

end

variable {pre : Bytes} {limit : ℤ} {print : Bytes → Bytes → String}

theorem not_lt_of_prefix {k : Bytes} (h : pre <+: k) : ¬k < pre :=
  h.le

/-- Behind a key that comes after the prefix and does not have it, no key has it. -/
theorem not_prefix_of_lt : ∀ {pre k k' : Bytes}, ¬k < pre → ¬pre <+: k → k < k' → ¬pre <+: k'
  | [], _, _, _, hpre, _ => absurd List.nil_prefix hpre
  | _ :: _, [], _, hge, _, _ => absurd (List.nil_lt_cons _ _) hge
  | _ :: _, _ :: _, [], _, _, hlt => absurd hlt (List.not_lt_nil _)
  | p :: pre, a :: k, b :: k', hge, hpre, hlt => by
    intro hprefixed
    obtain ⟨rfl, hrest⟩ := List.cons_prefix_cons.mp hprefixed
    rw [List.cons_lt_cons_iff, not_or] at hge
    rcases List.cons_lt_cons_iff.mp hlt with hab | ⟨rfl, hk⟩
    · exact hge.1 hab
    · exact not_prefix_of_lt (fun h => hge.2 ⟨rfl, h⟩)
        (fun h => hpre (List.cons_prefix_cons.mpr ⟨rfl, h⟩)) hk hrest

/-- From the first key that is not before the prefix on, none is. -/
theorem not_lt_of_mem_dropWhile : ∀ {entries : List (Bytes × Except MergeError Bytes)},
    entries.Pairwise (·.1 < ·.1) → ∀ x ∈ entries.dropWhile (·.1 < pre), ¬x.1 < pre
  | [], _, _, hx => absurd hx List.not_mem_nil
  | a :: entries, hsorted, x, hx => by
    obtain ⟨hfirst, hsorted⟩ := List.pairwise_cons.mp hsorted
    by_cases ha : a.1 < pre
    · rw [List.dropWhile_cons_of_pos (by simpa using ha)] at hx
      exact not_lt_of_mem_dropWhile hsorted x hx
    · rw [List.dropWhile_cons_of_neg (by simpa using ha)] at hx
      rcases List.mem_cons.mp hx with rfl | hx
      · exact ha
      · exact fun hlt => ha (List.lt_trans (hfirst x hx) hlt)

theorem filter_dropWhile (entries : List (Bytes × Except MergeError Bytes)) :
    (entries.dropWhile (·.1 < pre)).filter (pre <+: ·.1) = entries.filter (pre <+: ·.1) := by
  induction entries with
  | nil => rfl
  | cons a entries ih =>
    by_cases ha : a.1 < pre
    · rw [List.dropWhile_cons_of_pos (by simpa using ha), ih, List.filter_cons_of_neg]
      simpa using fun h => not_lt_of_prefix h ha
    · rw [List.dropWhile_cons_of_neg (by simpa using ha)]

/-- What the loop prints, when the keys with the prefix have values. -/
theorem runFrom_fst : ∀ {entries : List (Bytes × Except MergeError Bytes)}
    {hits : List (Bytes × Bytes)} {printed : List String}, entries.Pairwise (·.1 < ·.1) →
    (∀ x ∈ entries, ¬x.1 < pre) →
    entries.filter (pre <+: ·.1) = hits.map (fun x => (x.1, .ok x.2)) →
    (0 < limit → (printed.length : ℤ) < limit) →
    (runFrom pre limit print printed entries).1 = printed ++
      (if 0 < limit then hits.take (limit.toNat - printed.length) else hits).map
        fun x => print x.1 x.2
  | [], hits, printed, _, _, hhits, _ => by
    obtain rfl := List.map_eq_nil_iff.mp hhits.symm
    simp [runFrom]
  | (k, value) :: entries, hits, printed, hsorted, hge, hhits, hlimit => by
    obtain ⟨hfirst, hrest⟩ := List.pairwise_cons.mp hsorted
    obtain ⟨hk, hbehind⟩ := List.forall_mem_cons.mp hge
    by_cases hpre : pre <+: k
    · rw [List.filter_cons_of_pos (by simpa using hpre)] at hhits
      obtain ⟨⟨k', v⟩, later, rfl, heq, hlater⟩ := List.map_eq_cons_iff.mp hhits.symm
      obtain ⟨rfl, rfl⟩ := Prod.mk.inj heq
      rw [runFrom, if_neg (fun h => h.2 hpre)]
      split_ifs with hend hset hset
      · rw [show limit.toNat - printed.length = 1 by omega]
        rfl
      · exact absurd hend.1 hset
      · have hroom : ((printed ++ [print k' v]).length : ℤ) < limit := by
          rw [List.length_append, List.length_singleton]
          omega
        rw [runFrom_fst hrest hbehind hlater.symm fun _ => hroom, if_pos hset, List.append_assoc,
          List.length_append, List.length_singleton,
          show limit.toNat - printed.length = limit.toNat - (printed.length + 1) + 1 by
            have := hlimit hset
            omega]
        rfl
      · rw [runFrom_fst hrest hbehind hlater.symm (fun h => absurd h hset), if_neg hset,
          List.append_assoc]
        rfl
    · have hnone : entries.filter (pre <+: ·.1) = [] :=
        List.filter_eq_nil_iff.mpr fun x hx => by
          simpa using not_prefix_of_lt hk hpre (hfirst x hx)
      rw [List.filter_cons_of_neg (by simpa using hpre), hnone] at hhits
      obtain rfl := List.map_eq_nil_iff.mp hhits.symm
      have hset : pre ≠ [] := fun h => hpre (h ▸ List.nil_prefix)
      cases value with
      | error e => simp [runFrom]
      | ok v => simp [runFrom, hset, hpre]

/-- A dump with a prefix prints the keys with this prefix in order, up to the limit, when these
have values. What comes behind them may be broken. -/
theorem run_fst {entries : List (Bytes × Except MergeError Bytes)} {hits : List (Bytes × Bytes)}
    (hsorted : entries.Pairwise (·.1 < ·.1))
    (hhits : entries.filter (pre <+: ·.1) = hits.map fun x => (x.1, .ok x.2)) :
    (run pre limit print entries).1 = (upTo limit hits).map fun x => print x.1 x.2 := by
  have hlimit : 0 < limit → (([] : List String).length : ℤ) < limit := fun h => h
  rw [run]
  split_ifs with hnil
  · rw [runFrom_fst hsorted (fun x _ => by rw [hnil]; exact List.not_lt_nil _) hhits hlimit]
    rfl
  · rw [runFrom_fst (hsorted.sublist (List.dropWhile_sublist _)) (not_lt_of_mem_dropWhile hsorted)
      ((filter_dropWhile entries).trans hhits) hlimit]
    rfl

theorem upTo_map {α β : Type} (f : α → β) (l : List α) :
    upTo limit (l.map f) = (upTo limit l).map f := by
  unfold upTo
  split_ifs
  · rw [List.map_take]
  · rfl

theorem mem_of_mem_upTo {α : Type} {l : List α} {x : α} (h : x ∈ upTo limit l) : x ∈ l := by
  unfold upTo at h
  split_ifs at h
  · exact List.mem_of_mem_take h
  · exact h

end Peppledump

/-! ## Databases that can be gone through -/

/-- Only finitely many keys are there. -/
def DB.IsFinite (db : DB) : Prop :=
  {key | db key ≠ []}.Finite

namespace DB.IsFinite

variable {db db' : DB}

theorem applyAll (h : db.IsFinite) (ops : List BatchOp) : IsFinite (db.applyAll ops) := by
  refine (h.union (ops.map WriteOp.key).finite_toSet).subset fun key hkey => ?_
  by_contra hnot
  rw [Set.mem_union, not_or] at hnot
  have hops : ∀ op ∈ ops, key ≠ op.key := fun op hop heq =>
    hnot.2 (List.mem_map.mpr ⟨op, hop, heq.symm⟩)
  exact hkey ((Store.applyAll_of_forall_ne db hops).trans (not_not.mp hnot.1))

theorem tryInitBlockSpace {json : JSONDeleteMark} {size done : ℕ} (h : db.IsFinite)
    (hinit : tryInitBlockSpace json size done db = .ok db') : db'.IsFinite := by
  unfold Corgi.tryInitBlockSpace at hinit
  split at hinit
  · cases hinit
  · obtain rfl := Except.ok.inj hinit
    exact h
  · obtain rfl := Except.ok.inj hinit
    rw [foldl_flush_initRequest]
    exact h.applyAll _

theorem newBlockDevice {json : JSONDeleteMark} {name : String} {size : ℕ} {d : BlockDevice}
    (h : db.IsFinite) (hnew : newBlockDevice json name size db = .ok (d, db')) :
    db'.IsFinite := by
  unfold Corgi.newBlockDevice at hnew
  obtain ⟨db₁, hinit, hload⟩ := exists_of_bind_eq_ok hnew
  obtain ⟨a, -, heq⟩ := exists_of_bind_eq_ok hload
  obtain ⟨-, rfl⟩ := Prod.mk.inj (Except.ok.inj heq)
  exact h.tryInitBlockSpace hinit

/-- A key that is there is read with a value or an error. -/
theorem exists_value (db : DB) (key : Bytes) :
    ∃ value, ∀ value', db.get key = Except.map some value' ↔ db key ≠ [] ∧ value = value' := by
  cases hkey : db key with
  | nil =>
    refine ⟨.ok [], fun value' => ?_⟩
    rw [DB.get, Store.get, hkey]
    cases value' <;> simp [Except.map]
  | cons v operands =>
    refine ⟨operands.foldlM (mossMergeValues key) v, fun value' => ?_⟩
    rw [DB.get, Store.get, hkey]
    simp only
    generalize operands.foldlM (mossMergeValues key) v = value
    cases value <;> cases value' <;> simp [Except.map]

theorem exists_iterates (h : db.IsFinite) : ∃ entries, Iterates db entries := by
  choose value hvalue using exists_value db
  have hfinite : {key | db key ≠ []}.Finite := h
  let keys := hfinite.toFinset.toList.mergeSort fun a b => decide (a ≤ b)
  have hkeys : ∀ key, key ∈ keys ↔ db key ≠ [] := fun key => by
    rw [List.mem_mergeSort, Finset.mem_toList, Set.Finite.mem_toFinset]
    rfl
  have hnodup : keys.Nodup :=
    (List.mergeSort_perm _ _).nodup_iff.mpr (Finset.nodup_toList _)
  have hle : keys.Pairwise (· ≤ ·) := by
    simpa using @List.pairwise_mergeSort _ (fun a b : Bytes => decide (a ≤ b))
      (fun a b c hab hbc => by simpa using List.le_trans (by simpa using hab) (by simpa using hbc))
      (fun a b => by simpa using List.le_total a b) hfinite.toFinset.toList
  refine ⟨keys.map fun key => (key, value key), ?_, fun key value' => ?_⟩
  · rw [List.pairwise_map]
    exact (hle.and hnodup).imp fun h => Std.lt_of_le_of_ne h.1 h.2
  · rw [hvalue, ← hkeys, List.mem_map]
    constructor
    · rintro ⟨k, hk, heq⟩
      obtain ⟨rfl, rfl⟩ := Prod.mk.inj heq
      exact ⟨hk, rfl⟩
    · rintro ⟨hk, rfl⟩
      exact ⟨key, hk, rfl⟩

end DB.IsFinite

/-! ## The files of a node -/

theorem exists_map_eq {α β : Type} {p : β → Prop} {f : β → α} : ∀ {l : List α},
    (∀ x ∈ l, ∃ y, p y ∧ f y = x) → ∃ l' : List β, l = l'.map f ∧ ∀ y ∈ l', p y
  | [], _ => ⟨[], rfl, fun _ h => absurd h List.not_mem_nil⟩
  | x :: l, h => by
    obtain ⟨⟨y, hy, rfl⟩, hrest⟩ := List.forall_mem_cons.mp h
    obtain ⟨l', rfl, hl'⟩ := exists_map_eq hrest
    exact ⟨y :: l', rfl, List.forall_mem_cons.mpr ⟨hy, hl'⟩⟩

/-- The line that is printed for a file. -/
def shownLine (quote : Bytes → String) (key : Bytes) (m : FileMeta) : String :=
  "key=" ++ quote key ++ " value=" ++ shownFileMeta quote m ++ "\n"

namespace Node

variable {U : Type} [DecidableEq U] {json : JSONDeleteMark} {pb : Protobuf} {name : String}
  {n : ℕ} {s t : Node U}

/-- The extents of records are made of whole blocks. -/
def Aligned (s : Node U) : Prop :=
  ∀ f ∈ s.committed, ∀ l ∈ [f.offset, f.len], ∀ v ∈ l, (128 : ℤ) ∣ v

theorem Inv.aligned_fileMeta (h : Inv n s) (c : Completion U) :
    ∀ l ∈ [(s.commitOf c).fileMeta.offset, (s.commitOf c).fileMeta.len], ∀ v ∈ l,
      (128 : ℤ) ∣ v := by
  have hresults : ∀ r ∈ (s.commitOf c).results, (128 : ℤ) ∣ r.offset ∧ (128 : ℤ) ∣ r.size := by
    rw [(h.results_commitOf c).1]
    intro r hr
    obtain ⟨r, -, rfl⟩ := List.mem_map.mp hr
    exact ⟨Dvd.dvd.mul_left (by decide) _, Dvd.dvd.mul_left (by decide) _⟩
  simp only [List.forall_mem_cons, List.not_mem_nil, false_imp_iff, implies_true, and_true]
  exact ⟨List.forall_mem_map.mpr fun r hr => (hresults r hr).1,
    List.forall_mem_map.mpr fun r hr => (hresults r hr).2⟩

theorem aligned_of_run (hn : 0 < n) (hlt : n < 2 ^ 63) {db : DB} (hfresh : Fresh db)
    {events : List (NodeEvent U)}
    (h : Run (Step json pb name n) (Node.initial U db) events s) : s.Aligned := by
  suffices hboth : Inv n s ∧ s.Aligned from hboth.2
  refine h.invariant (I := fun s => Inv n s ∧ s.Aligned) (fun t e u ht hstep => ?_)
    ⟨Inv.initial hfresh, fun _ hf => absurd hf List.not_mem_nil⟩
  obtain ⟨hinv, ⟨hcommitted, -⟩ | ⟨stored, rfl, -, -⟩⟩ := ht.1.step hn hlt hstep
  · refine ⟨hinv, fun f hf => ht.2 f (hcommitted ▸ hf)⟩
  · refine ⟨hinv, fun f hf => ?_⟩
    rcases List.mem_append.mp hf with hf | hf
    · exact ht.2 f hf
    · obtain ⟨c, -, rfl⟩ := List.mem_map.mp hf
      exact ht.1.aligned_fileMeta c

theorem isFinite_of_run (hn : 0 < n) (hlt : n < 2 ^ 63) {db : DB} (hfresh : Fresh db)
    (hfinite : db.IsFinite) {events : List (NodeEvent U)}
    (h : Run (Step json pb name n) (Node.initial U db) events s) : s.db.IsFinite := by
  suffices hboth : Inv n s ∧ s.db.IsFinite from hboth.2
  refine h.invariant (I := fun s => Inv n s ∧ s.db.IsFinite) (fun s e t hs hstep => ?_)
    ⟨Inv.initial hfresh, hfinite⟩
  obtain ⟨hinv, hdb⟩ := hs
  refine ⟨(hinv.step hn hlt hstep).1, ?_⟩
  cases e with
  | start =>
    obtain ⟨-, d, db, hnew, rfl⟩ := hstep
    exact hdb.newBlockDevice hnew
  | startCrash done =>
    obtain ⟨-, db, hinit, rfl⟩ := hstep
    exact hdb.tryInitBlockSpace hinit
  | alloc u size =>
    obtain ⟨d, hd, -⟩ := id hstep
    obtain ⟨-, heq, -⟩ := hinv.alloc hd hstep
    rwa [heq]
  | rollbackAlloc u info =>
    obtain ⟨-, heq, -⟩ := hinv.rollbackAlloc hlt hstep
    rwa [heq]
  | commit group outcome =>
    obtain ⟨-, -, -, rfl⟩ := hstep
    obtain ⟨stored, -, heq, -⟩ := hinv.afterCommit json group outcome
    rw [heq]
    exact hdb.applyAll _
  | crash =>
    obtain rfl := hstep
    exact hdb

theorem Ledger.get_record (h : Ledger pb s) (name : Bytes) :
    s.db.get (pebbleFileMetaPrefix :: name) =
      .ok ((s.latest (pebbleFileMetaPrefix :: name)).map pb.data) := by
  rw [DB.get, Store.get, h.records]
  cases s.latest (pebbleFileMetaPrefix :: name) <;> rfl

/-- What is printed of a record that is stored. -/
theorem printProtoWire_data (quote : Bytes → String) (hledger : Ledger protobuf s)
    (haligned : s.Aligned) {key : Bytes} {f : FileMeta} (hlatest : s.latest key = some f) :
    printProtoWire quote key (protobuf.data f) = shownLine quote key f := by
  obtain ⟨hmem, -⟩ := getKey_of_latest hlatest
  obtain ⟨hfits, hdata⟩ := protobuf_marshal_iff.mp (hledger.marshalled f hmem)
  rw [printProtoWire, formatProtoWireObject_marshalFileMeta quote hfits (haligned f hmem) hdata]
  rfl

/-- The keys with `#` are those of the files. -/
theorem Ledger.exists_files (h : Ledger pb s)
    {entries : List (Bytes × Except MergeError Bytes)} (hentries : Iterates s.db entries) :
    ∃ files : List (Bytes × FileMeta),
      entries.filter ([pebbleFileMetaPrefix] <+: ·.1) =
        files.map (fun x => (x.1, .ok (pb.data x.2))) ∧
      ∀ key f, (key, f) ∈ files ↔ s.latest key = some f := by
  have hfile : ∀ x ∈ entries.filter ([pebbleFileMetaPrefix] <+: ·.1),
      ∃ y : Bytes × FileMeta, s.latest y.1 = some y.2 ∧ (y.1, .ok (pb.data y.2)) = x := by
    rintro ⟨key, value⟩ hx
    obtain ⟨hmem, hpre⟩ := List.mem_filter.mp hx
    obtain ⟨name, rfl⟩ : [pebbleFileMetaPrefix] <+: key := by simpa using hpre
    have hget := ((hentries.mem _ _).mp hmem).symm.trans (h.get_record name)
    cases value with
    | error e => cases hget
    | ok data =>
      obtain ⟨f, hf, rfl⟩ := Option.map_eq_some_iff.mp (Except.ok.inj hget).symm
      exact ⟨(pebbleFileMetaPrefix :: name, f), hf, rfl⟩
  obtain ⟨files, hfiles, hlatest⟩ := exists_map_eq hfile
  refine ⟨files, hfiles, fun key f => ⟨fun hmem => hlatest _ hmem, fun hf => ?_⟩⟩
  obtain ⟨-, hkey⟩ := getKey_of_latest hf
  obtain ⟨name, hname⟩ := getFileMetaKey_eq_cons f.fileName
  obtain rfl : key = pebbleFileMetaPrefix :: name := hkey.symm.trans hname
  have hget := h.get_record name
  rw [hf] at hget
  have hmem : (pebbleFileMetaPrefix :: name, .ok (pb.data f)) ∈
      entries.filter ([pebbleFileMetaPrefix] <+: ·.1) :=
    List.mem_filter.mpr ⟨(hentries.mem _ _).mpr hget, by simp⟩
  rw [hfiles] at hmem
  obtain ⟨y, hy, heq⟩ := List.mem_map.mp hmem
  obtain ⟨hkey', -⟩ := Prod.mk.inj heq
  have hyf := hlatest y hy
  rw [hkey', hf] at hyf
  rw [← hkey', Option.some.inj hyf]
  exact hy

/-- The record of a file of one block. -/
def oneBlockFile : FileMeta :=
  ⟨requestA.metaKey, requestA.fileName, requestA.lun, [], 4096, [0], [4096]⟩

/-- A file of one block is committed on a device of one block. -/
theorem exists_run_oneBlockFile : ∃ (events : List (NodeEvent ℕ)) (s : Node ℕ),
    Run (Step (fun _ => none) protobuf "lun" 1) (Node.initial ℕ emptyDB) events s ∧
      s.committed = [oneBlockFile] := by
  obtain ⟨t, hrun, hinv, hup, hidle, hcommitted, hnil⟩ :=
    @exists_start ℕ _ 1 (fun _ => none) protobuf "lun" (by decide) (by decide)
  obtain ⟨d, hd⟩ := Option.ne_none_iff_exists'.mp hup
  obtain ⟨htotal, howns⟩ := hinv.owns d hd
  have hfree : d.allocator.isFree 0 = true := by
    by_contra hfree
    have hmem := (howns.mem_iff 0).mpr ⟨by rw [htotal]; decide, Bool.eq_false_iff.mpr hfree⟩
    rw [pendingBlocks, committedBlocks, hidle, hcommitted] at hmem
    exact absurd hmem (Multiset.notMem_zero 0)
  obtain ⟨d', results, token, halloc, hproper, -, -, hblocks, -⟩ :=
    BlockDevice.alloc_one_block (howns.inv (by rw [htotal]; decide)) htotal hfree
  obtain rfl := eq_of_blocksOf hproper.pos hblocks
  obtain rfl : results = [⟨0, 4096⟩] := hproper.results_eq
  let s₁ : Node ℕ := { t with device := some d', pending := [(0, ⟨[⟨0, 4096⟩], [⟨0, 1⟩]⟩)] }
  have hstep : Step (fun _ => none) protobuf "lun" 1 t (.alloc 0 4096) s₁ := by
    refine ⟨d, hd, ?_⟩
    rw [halloc, hidle]
    rfl
  have hinv₁ := (hinv.step (by decide) (by decide) hstep).1
  obtain ⟨data, hdata⟩ := (exists_marshalFileMeta_iff oneBlockFile).mpr (by decide +kernel)
  have hmarshal : protobuf.marshal oneBlockFile = .ok data :=
    protobuf_marshal_iff.mpr ⟨by decide +kernel, hdata⟩
  obtain ⟨stored, -, heq, hstored⟩ := hinv₁.afterCommit (fun _ => none)
    [⟨0, requestA, 4096, [], data⟩] none
  obtain rfl := hstored rfl (by simpa using hnil _)
  have hcommit : Step (fun _ => none) protobuf "lun" 1 s₁
      (.commit [⟨0, requestA, 4096, [], data⟩] none)
      (s₁.store [⟨0, requestA, 4096, [], data⟩]) := by
    refine ⟨rfl, List.nodup_singleton _, fun c hc => ?_, heq.symm⟩
    rw [List.mem_singleton.mp hc]
    exact ⟨by simp [infos, s₁], hmarshal⟩
  refine ⟨_, _, (hrun.snoc hstep).snoc hcommit, ?_⟩
  change t.committed ++ _ = _
  rw [hcommitted]
  rfl

theorem isFinite_emptyDB : emptyDB.IsFinite :=
  Set.finite_empty.subset fun _ h => h rfl

end Node

end Corgi
