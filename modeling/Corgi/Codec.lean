import Corgi.Decoders
import Corgi.Metadata

/-!
# The binary layout of a record

`decodeFileMetaBinary` against `encodeFileMetaBinary`. A string is read by one call of the
reader, which returns less than asked for when less is left and then leaves nothing, so that a
string is read back only when something follows it (`decodes_readString`). In a record a number
follows every string, and no number is read from nothing.

`fileMeta_codec` : a record is read back from its encoding whatever follows, what is read is the
beginning of the data, and a strict beginning of an encoding is rejected.
-/

namespace Corgi

/-- The values of an `int64`. -/
def IsInt64 (c : ℤ) : Prop :=
  -2 ^ 63 ≤ c ∧ c < 2 ^ 63

/-- The records that the layout has room for. The numbers are `int64` values. -/
structure FileMeta.Encodable (m : FileMeta) : Prop where
  metaKey : m.metaKey.length < 2 ^ 32
  fileName : m.fileName.length < 2 ^ 32
  lun : m.lun.length < 2 ^ 32
  etag : m.etag.length < 2 ^ 32
  size : IsInt64 m.size
  count : m.offset.length < 2 ^ 32
  length_eq : m.offset.length = m.len.length
  offset : ∀ c ∈ m.offset, IsInt64 c
  len : ∀ c ∈ m.len, IsInt64 c

/-! ## The readers -/

theorem decodes_readUint {w : ℕ} (hw : 0 < w) :
    Decodes (fun _ => True) (readUint w) (leBytes w) (· < 256 ^ w) := by
  constructor
  · intro n rest hn _
    have hlen := length_leBytes w n
    have hne : leBytes w n ++ rest ≠ [] := by
      refine List.append_ne_nil_of_left_ne_nil (List.ne_nil_of_length_pos ?_) rest
      omega
    change readUint w (leBytes w n ++ rest) = _
    rw [readUint, if_neg hne, if_neg (by rw [List.length_append]; omega), List.take_left' hlen,
      List.drop_left' hlen, leNat_leBytes, Nat.mod_eq_of_lt hn]
  · intro data n rest hrun _
    change readUint w data = _ at hrun
    unfold readUint at hrun
    split_ifs at hrun with h1 h2
    cases hrun
    have hlen : (data.take w).length = w := by
      rw [List.length_take]
      omega
    have hlt := leNat_lt (data.take w)
    have hback := leBytes_leNat (data.take w)
    rw [hlen] at hlt hback
    exact ⟨hlt, by rw [hback, List.take_append_drop]⟩

theorem toInt_ofNat_of_isInt64 {c : ℤ} (h : IsInt64 c) :
    (BitVec.ofNat 64 (c % 2 ^ 64).toNat).toInt = c := by
  obtain ⟨h1, h2⟩ := h
  rw [BitVec.toInt_ofNat', Int.bmod_def]
  split_ifs <;> omega

theorem decodes_readInt64 : Decodes (fun _ => True) readInt64 toByte IsInt64 := by
  have hmap := (decodes_readUint (w := 8) (by decide)).map
    (f := fun n => (BitVec.ofNat 64 n).toInt) (g := fun c => (c % 2 ^ 64).toNat) fun n hn => by
      rw [BitVec.toInt_ofNat', Int.bmod_def]
      split_ifs <;> omega
  rw [map_eq_pure_bind] at hmap
  refine hmap.congr fun c => ⟨fun hc => ⟨toInt_ofNat_of_isInt64 hc, by omega⟩, fun hc => ?_⟩
  have h1 := BitVec.le_toInt (BitVec.ofNat 64 (c % 2 ^ 64).toNat)
  have h2 := BitVec.toInt_lt (x := BitVec.ofNat 64 (c % 2 ^ 64).toNat)
  rw [hc.1] at h1 h2
  exact ⟨h1, h2⟩

theorem decodes_readString :
    Decodes (· ≠ []) readString writeString fun s => s.length < 2 ^ 32 := by
  have hn := decodes_readUint (w := 4) (by decide)
  constructor
  · intro s rest hs hrest
    rw [readString, writeString, List.append_assoc, run_bind_eq_ok]
    refine ⟨s.length, s ++ rest, hn.decode (by omega) trivial, ?_⟩
    change (if s ++ rest = [] then _ else _) = _
    rw [if_neg (List.append_ne_nil_of_right_ne_nil s hrest), List.take_left, List.drop_left,
      List.length_append, Nat.sub_eq_zero_of_le (Nat.le_add_right _ _), List.replicate_zero,
      List.append_nil]
  · intro data s rest hrun hrest
    rw [readString, run_bind_eq_ok] at hrun
    obtain ⟨n, mid, hread, hbytes⟩ := hrun
    obtain ⟨hlt, rfl⟩ := hn.encode hread trivial
    change (if mid = [] then _ else _) = _ at hbytes
    split_ifs at hbytes with hmid
    cases hbytes
    -- something is left, so the reader had all that was asked for
    have hle : n < mid.length := by
      by_contra hge
      exact hrest (List.drop_eq_nil_of_le (by omega))
    have hlen : (mid.take n).length = n := by
      rw [List.length_take]
      omega
    rw [Nat.sub_eq_zero_of_le hle.le, List.replicate_zero, List.append_nil, writeString, hlen,
      List.append_assoc, List.take_append_drop]
    exact ⟨by omega, rfl⟩

/-- The extents of a record. -/
def encodeExtents (p : List ℤ × List ℤ) : Bytes :=
  (p.1.zip p.2).flatMap fun extent => toByte extent.1 ++ toByte extent.2

theorem decodes_readExtents : ∀ n : ℕ, Decodes (fun _ => True) (readExtents n) encodeExtents
    fun p => p.1.length = n ∧ p.2.length = n ∧ (∀ c ∈ p.1, IsInt64 c) ∧ ∀ c ∈ p.2, IsInt64 c
  | 0 => by
    constructor
    · rintro ⟨offset, len⟩ rest ⟨h1, h2, -⟩ -
      obtain rfl := List.length_eq_zero_iff.mp h1
      obtain rfl := List.length_eq_zero_iff.mp h2
      rfl
    · intro data p rest hrun _
      cases hrun
      exact ⟨⟨rfl, rfl, nofun, nofun⟩, rfl⟩
  | n + 1 => by
    have hread := (decodes_readInt64.prod (decodes_readInt64.prod (decodes_readExtents n)
      fun _ _ => trivial) fun _ _ => trivial).map
        (f := fun q => (q.1 :: q.2.2.1, q.2.1 :: q.2.2.2))
        (g := fun p => (p.1.headD 0, p.2.headD 0, p.1.tail, p.2.tail)) fun _ _ => rfl
    have heq : readExtents (n + 1) = (fun q => (q.1 :: q.2.2.1, q.2.1 :: q.2.2.2)) <$>
        (readInt64 >>= fun o => (fun q => (o, q)) <$>
          (readInt64 >>= fun l => (fun p => (l, p)) <$> readExtents n)) := by
      simp only [readExtents, map_eq_pure_bind, bind_assoc, pure_bind]
    rw [← heq] at hread
    constructor
    · rintro ⟨offset, len⟩ rest ⟨h1, h2, h3, h4⟩ hrest
      obtain ⟨o, offset, rfl⟩ := List.exists_cons_of_length_eq_add_one h1
      obtain ⟨l, len, rfl⟩ := List.exists_cons_of_length_eq_add_one h2
      rw [List.forall_mem_cons] at h3 h4
      have hdec := @hread.decode (o :: offset, l :: len) rest
        ⟨rfl, h3.1, h4.1, Nat.succ.inj h1, Nat.succ.inj h2, h3.2, h4.2⟩ trivial
      rw [← hdec]
      simp [encodeExtents]
    · intro data p rest hrun _
      obtain ⟨⟨hp, h3, h4, h1, h2, h5, h6⟩, rfl⟩ := hread.encode hrun trivial
      rw [← hp]
      refine ⟨⟨congrArg (· + 1) h1, congrArg (· + 1) h2, List.forall_mem_cons.mpr ⟨h3, h5⟩,
        List.forall_mem_cons.mpr ⟨h4, h6⟩⟩, ?_⟩
      simp [encodeExtents]

/-! ## Records -/

/-- The fields of a record in the order of the layout. -/
abbrev FileMetaFields := Bytes × Bytes × Bytes × Bytes × ℤ × List ℤ × List ℤ

/-- The record with these fields. -/
def FileMeta.ofFields (q : FileMetaFields) : FileMeta :=
  ⟨q.1, q.2.1, q.2.2.1, q.2.2.2.1, q.2.2.2.2.1, q.2.2.2.2.2.1, q.2.2.2.2.2.2⟩

/-- The fields of a record in the order of the format. -/
def FileMeta.fields (m : FileMeta) : FileMetaFields :=
  (m.metaKey, m.fileName, m.lun, m.etag, m.size, m.offset, m.len)

/-- The readers that `decodeFileMetaBinary` calls in a row. -/
def readFileMeta : Decoder FileMeta :=
  FileMeta.ofFields <$> (readString >>= fun metaKey => (fun q => (metaKey, q)) <$>
    (readString >>= fun fileName => (fun q => (fileName, q)) <$>
      (readString >>= fun lun => (fun q => (lun, q)) <$>
        (readString >>= fun etag => (fun q => (etag, q)) <$>
          (readInt64 >>= fun size => (fun p => (size, p)) <$> (readUint 4 >>= readExtents))))))

theorem decodeFileMetaBinary_eq (data : Bytes) :
    decodeFileMetaBinary data = (readFileMeta.run data).map Prod.fst := by
  unfold readFileMeta decodeFileMetaBinary
  simp only [map_eq_pure_bind, bind_assoc, pure_bind]
  rfl

/-- The bytes of a record. -/
def encodeFields (m : FileMeta) : Bytes :=
  writeString m.metaKey ++ (writeString m.fileName ++ (writeString m.lun ++
    (writeString m.etag ++ (toByte m.size ++ (leBytes 4 m.offset.length ++
      encodeExtents (m.offset, m.len))))))

theorem encodeFileMetaBinary_eq {m : FileMeta} (h : m.offset.length = m.len.length) :
    encodeFileMetaBinary m = .ok (encodeFields m) := by
  unfold encodeFileMetaBinary encodeFields
  rw [if_neg (not_not.mpr h)]
  simp only [List.append_assoc]
  rfl

theorem leBytes_append_ne_nil {w : ℕ} (hw : 0 < w) (n : ℕ) (rest : Bytes) :
    leBytes w n ++ rest ≠ [] :=
  List.append_ne_nil_of_left_ne_nil
    (List.ne_nil_of_length_pos (by rw [length_leBytes]; exact hw)) rest

theorem writeString_append_ne_nil (s rest : Bytes) : writeString s ++ rest ≠ [] := by
  rw [writeString, List.append_assoc]
  exact leBytes_append_ne_nil (by decide) _ _

theorem decodes_readFileMeta :
    Decodes (fun _ => True) readFileMeta encodeFields FileMeta.Encodable := by
  have hextents := (decodes_readUint (w := 4) (by decide)).bind (g := fun p => p.1.length)
    (v := fun p : List ℤ × List ℤ => p.1.length = p.2.length ∧ (∀ c ∈ p.1, IsInt64 c) ∧
      ∀ c ∈ p.2, IsInt64 c)
    (fun n => (decodes_readExtents n).congr fun p => and_congr_right fun hp => by
      rw [hp, eq_comm]) fun _ _ => trivial
  have hsize := decodes_readInt64.prod hextents fun _ _ => trivial
  have hetag := decodes_readString.prod hsize fun _ _ => by
    rw [List.append_assoc]
    exact leBytes_append_ne_nil (by decide) _ _
  have hlun := decodes_readString.prod hetag fun _ _ => by
    rw [List.append_assoc]
    exact writeString_append_ne_nil _ _
  have hfileName := decodes_readString.prod hlun fun _ _ => by
    rw [List.append_assoc]
    exact writeString_append_ne_nil _ _
  have hmetaKey := decodes_readString.prod hfileName fun _ _ => by
    rw [List.append_assoc]
    exact writeString_append_ne_nil _ _
  refine (hmetaKey.map (f := FileMeta.ofFields) (g := FileMeta.fields) fun _ _ => rfl).congr
    fun m => ⟨fun h => ?_, fun h => ?_⟩
  · exact ⟨rfl, h.metaKey, h.fileName, h.lun, h.etag, h.size, h.count, h.length_eq, h.offset,
      h.len⟩
  · obtain ⟨-, h1, h2, h3, h4, h5, h6, h7, h8, h9⟩ := h
    exact ⟨h1, h2, h3, h4, h5, h6, h7, h8, h9⟩

theorem decodeFileMetaBinary_eq_ok {data : Bytes} {m : FileMeta} :
    decodeFileMetaBinary data = .ok m ↔ ∃ rest, readFileMeta.run data = .ok (m, rest) := by
  rw [decodeFileMetaBinary_eq]
  cases readFileMeta.run data with
  | error e => exact ⟨nofun, fun ⟨_, h⟩ => nomatch h⟩
  | ok r =>
    obtain ⟨m', rest⟩ := r
    constructor
    · intro h
      cases h
      exact ⟨rest, rfl⟩
    · rintro ⟨_, h⟩
      cases h
      rfl

/-- The codec is exact : a record that the layout has room for is read back from its encoding
with anything after it, whatever is read stands encoded at the beginning of the data, and a
strict beginning of an encoding is rejected. -/
theorem fileMeta_codec :
    (∀ m : FileMeta, m.Encodable → ∃ code, encodeFileMetaBinary m = .ok code ∧
      (∀ t, decodeFileMetaBinary (code ++ t) = .ok m) ∧
      ∀ data, data <+: code → data ≠ code → ∃ e, decodeFileMetaBinary data = .error e) ∧
    ∀ data m, decodeFileMetaBinary data = .ok m →
      m.Encodable ∧ ∃ code t, encodeFileMetaBinary m = .ok code ∧ data = code ++ t := by
  have hexact := decodes_readFileMeta
  refine ⟨fun m hm => ?_, fun data m h => ?_⟩
  · refine ⟨encodeFields m, encodeFileMetaBinary_eq hm.length_eq, fun t => ?_,
      fun data hle hne => ?_⟩
    · exact decodeFileMetaBinary_eq_ok.mpr ⟨t, hexact.decode hm trivial⟩
    · obtain ⟨e, he⟩ := hexact.reject hm hle hne
      exact ⟨e, by rw [decodeFileMetaBinary_eq, he]; rfl⟩
  · obtain ⟨t, hrun⟩ := decodeFileMetaBinary_eq_ok.mp h
    obtain ⟨hm, rfl⟩ := hexact.encode hrun trivial
    exact ⟨hm, encodeFields m, t, encodeFileMetaBinary_eq hm.length_eq, rfl⟩

/-- With empty strings, and cut in its last extent. -/
theorem fileMeta_codec_cut : ∃ code,
    encodeFileMetaBinary ⟨[], [], [], [], -1, [4096], [8192]⟩ = .ok code ∧
    decodeFileMetaBinary (code ++ [7#8]) = .ok ⟨[], [], [], [], -1, [4096], [8192]⟩ ∧
    ∃ e, decodeFileMetaBinary (code.take 43) = .error e := by
  obtain ⟨code, hcode, hback, hcut⟩ := fileMeta_codec.1 ⟨[], [], [], [], -1, [4096], [8192]⟩
    ⟨by decide, by decide, by decide, by decide, by unfold IsInt64; decide, by decide, rfl,
      by unfold IsInt64; decide, by unfold IsInt64; decide⟩
  refine ⟨code, hcode, hback _, hcut _ (List.take_prefix _ _) fun heq => ?_⟩
  have hlen := congrArg List.length heq
  cases hcode
  revert hlen
  decide

end Corgi
