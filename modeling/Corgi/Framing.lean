import Corgi.Payload
import Corgi.ReadBack

/-!
# Framing of PUT_AND_COMPLETE

The client's `encodePutAndCompletePayload` puts the length of the marshalled request in front
of it and the body behind it. The server's decoder reads that length from the payload of any
client, as an unsigned word that becomes an `int` before two slices are taken with it. Here the
decoder is modelled with these conversions, and with slices that fail outside of the payload.

No slice fails, and the result is that of `decodePutAndComplete`, which computes with numbers
(`decodePutAndComplete64_eq`). `putAndComplete_framing` : what the client sends is decoded to
the request and the body, and a payload is refused exactly if its length or its request is not
right.
-/

namespace Corgi

/-! ## The model -/

/-- The slice `data[lo:hi]`. -/
def slice (data : Bytes) (lo hi : ℤ) : Option Bytes :=
  if 0 ≤ lo ∧ lo ≤ hi ∧ hi ≤ data.length then some ((data.take hi.toNat).drop lo.toNat) else none

/-- A length of eight bytes, that many bytes and the body. -/
def frame (startBytes body : Bytes) : Bytes :=
  leBytes 8 startBytes.length ++ startBytes ++ body

/-- The client's payload. -/
def encodePutAndCompletePayload (marshal : PutInitRequest → Except String Bytes)
    (start : PutInitRequest) (body : Bytes) : Except String Bytes :=
  match marshal start with
  | .error text => .error s!"marshal PutInitRequest: {text}"
  | .ok startBytes => .ok (frame startBytes body)

/-- The decoder with the conversions and sums of its integers. Without a value a slice is out
of range. -/
def decodePutAndComplete64 (unmarshal : Bytes → Except String PutInitRequest) (data : Bytes) :
    Option (Except RequestError (PutInitRequest × Bytes)) :=
  if data.length < 8 then some (.error (.tooShort data.length))
  else do
    let head ← slice data 0 8
    let startLen64 : Word := BitVec.ofNat 64 (leNat head)
    if BitVec.ofInt 64 (wrap64 (data.length - 8)) < startLen64 then
      some (.error (.startLength startLen64.toNat data.length))
    else
      let startLen := startLen64.toInt
      let startBytes ← slice data 8 (wrap64 (8 + startLen))
      let body ← slice data (wrap64 (8 + startLen)) data.length
      match decodePutInitRequest unmarshal startBytes with
      | .error e => some (.error e)
      | .ok start => some (.ok (start, body))

/-! ## No slice is out of range -/

theorem slice_of_le {data : Bytes} {lo hi : ℕ} (hlo : lo ≤ hi) (hhi : hi ≤ data.length) :
    slice data lo hi = some ((data.take hi).drop lo) := by
  rw [slice, if_pos (by omega), Int.toNat_natCast, Int.toNat_natCast]

/-- The length that the payload says, as a word. -/
theorem toNat_startLen64 {data : Bytes} (h : 8 ≤ data.length) :
    (BitVec.ofNat 64 (leNat (data.take 8))).toNat = leNat (data.take 8) := by
  have hlt := leNat_lt (data.take 8)
  rw [List.length_take, Nat.min_eq_left h] at hlt
  rw [BitVec.toNat_ofNat, Nat.mod_eq_of_lt (by omega)]

/-- The unsigned comparison is that of the numbers. -/
theorem ofInt_wrap64_lt_iff {data : Bytes} (h : 8 ≤ data.length) (hint : data.length < 2 ^ 63)
    (w : Word) : BitVec.ofInt 64 (wrap64 (data.length - 8)) < w ↔ data.length - 8 < w.toNat := by
  have hleft : (data.length : ℤ) - 8 = (data.length - 8 : ℕ) := by omega
  rw [hleft, wrap64_of_lt (by omega) (by omega), BitVec.ofInt_natCast, BitVec.lt_def,
    BitVec.toNat_ofNat, Nat.mod_eq_of_lt (by omega)]

/-- The decoder with machine integers returns, on every payload, what the one with numbers
does. -/
theorem decodePutAndComplete64_eq (unmarshal : Bytes → Except String PutInitRequest)
    {data : Bytes} (hint : data.length < 2 ^ 63) :
    decodePutAndComplete64 unmarshal data = some (decodePutAndComplete unmarshal data) := by
  rw [decodePutAndComplete64, decodePutAndComplete]
  by_cases hshort : data.length < 8
  · rw [if_pos hshort, if_pos hshort]
  · rw [if_neg hshort, if_neg hshort]
    have hhead : slice data 0 8 = some (data.take 8) :=
      slice_of_le (Nat.zero_le 8) (Nat.le_of_not_lt hshort)
    have hword := toNat_startLen64 (Nat.le_of_not_lt hshort)
    simp only [hhead, Option.bind_eq_bind, Option.bind_some,
      ofInt_wrap64_lt_iff (Nat.le_of_not_lt hshort) hint, hword]
    by_cases hlong : data.length - 8 < leNat (data.take 8)
    · rw [if_pos hlong, if_pos hlong]
    · -- The length fits the payload, so it is no negative `int` and the sum does not overflow.
      have hstart : wrap64 (8 + (BitVec.ofNat 64 (leNat (data.take 8))).toInt) =
          (8 + leNat (data.take 8) : ℕ) := by
        rw [BitVec.toInt_eq_toNat_of_lt (by omega), hword, wrap64_of_lt (by omega) (by omega),
          Nat.cast_add, Nat.cast_ofNat]
      have hslice : slice data 8 (8 + leNat (data.take 8) : ℕ) =
          some ((data.drop 8).take (leNat (data.take 8))) := by
        rw [List.take_drop]
        exact slice_of_le (Nat.le_add_right 8 _) (by omega)
      have hbody : slice data (8 + leNat (data.take 8) : ℕ) data.length =
          some (data.drop (8 + leNat (data.take 8))) := by
        rw [slice_of_le (by omega) (Nat.le_refl _), List.take_length]
      rw [if_neg hlong, if_neg hlong, hstart, hslice, hbody]
      cases hdecode : decodePutInitRequest unmarshal ((data.drop 8).take (leNat (data.take 8))) with
      | error e => simp only [Option.bind_some, hdecode]
      | ok start => simp only [Option.bind_some, hdecode]

/-! ## What is accepted -/

theorem decodePutInitRequest_error_iff (unmarshal : Bytes → Except String PutInitRequest)
    (data : Bytes) : (∃ e, decodePutInitRequest unmarshal data = .error e) ↔
      data.length = 0 ∨ ∃ text, unmarshal data = .error text := by
  rw [decodePutInitRequest]
  split_ifs with hempty
  · exact iff_of_true ⟨_, rfl⟩ (Or.inl hempty)
  · cases unmarshal data with
    | error text => exact iff_of_true ⟨_, rfl⟩ (Or.inr ⟨text, rfl⟩)
    | ok req => exact iff_of_false (by simp) (by simp [hempty])

/-- A payload is refused for its length, for the length it says or for its request. -/
theorem decodePutAndComplete_error_iff (unmarshal : Bytes → Except String PutInitRequest)
    (data : Bytes) : (∃ e, decodePutAndComplete unmarshal data = .error e) ↔
      data.length < 8 ∨ leNat (data.take 8) = 0 ∨ data.length - 8 < leNat (data.take 8) ∨
        ∃ text, unmarshal ((data.drop 8).take (leNat (data.take 8))) = .error text := by
  rw [decodePutAndComplete]
  by_cases hshort : data.length < 8
  · rw [if_pos hshort]
    exact iff_of_true ⟨_, rfl⟩ (Or.inl hshort)
  · rw [if_neg hshort]
    simp only
    by_cases hlong : data.length - 8 < leNat (data.take 8)
    · rw [if_pos hlong]
      exact iff_of_true ⟨_, rfl⟩ (Or.inr (Or.inr (Or.inl hlong)))
    · have hrequest := decodePutInitRequest_error_iff unmarshal
        ((data.drop 8).take (leNat (data.take 8)))
      have hlength : ((data.drop 8).take (leNat (data.take 8))).length = leNat (data.take 8) := by
        rw [List.length_take, List.length_drop]
        omega
      rw [hlength] at hrequest
      simp only [hshort, hlong, false_or, ← hrequest]
      cases decodePutInitRequest unmarshal ((data.drop 8).take (leNat (data.take 8))) with
      | error e => exact iff_of_true ⟨e, rfl⟩ ⟨e, rfl⟩
      | ok start => exact iff_of_false (by simp) (by simp)

theorem length_frame (startBytes body : Bytes) :
    (frame startBytes body).length = 8 + startBytes.length + body.length := by
  rw [frame, List.length_append, List.length_append, length_leBytes]

theorem leNat_take_frame {startBytes : Bytes} (h : startBytes.length < 2 ^ 64) (body : Bytes) :
    leNat ((frame startBytes body).take 8) = startBytes.length := by
  rw [frame, List.append_assoc, List.take_left' (length_leBytes _ _), leNat_leBytes,
    Nat.mod_eq_of_lt (by omega)]

theorem drop_frame (startBytes body : Bytes) : (frame startBytes body).drop 8 =
    startBytes ++ body := by
  rw [frame, List.append_assoc, List.drop_left' (length_leBytes _ _)]

/-- What is framed is decoded. -/
theorem decodePutAndComplete_frame {unmarshal : Bytes → Except String PutInitRequest}
    {start : PutInitRequest} {startBytes : Bytes} (hstart : unmarshal startBytes = .ok start)
    (hne : startBytes ≠ []) (hlen : startBytes.length < 2 ^ 64) (body : Bytes) :
    decodePutAndComplete unmarshal (frame startBytes body) = .ok (start, body) := by
  have hpos : 0 < startBytes.length := List.length_pos_iff.mpr hne
  have hlength := length_frame startBytes body
  have hrequest : decodePutInitRequest unmarshal startBytes = .ok start := by
    rw [decodePutInitRequest, if_neg hpos.ne', hstart]
  rw [decodePutAndComplete, if_neg (by omega)]
  simp only [leNat_take_frame hlen, ← List.drop_drop, drop_frame, List.take_left, List.drop_left,
    hrequest]
  rw [if_neg (by omega)]

/-- The framing of a request and a body. Lengths are those of slices, which an `int` holds. -/
theorem putAndComplete_framing (marshal : PutInitRequest → Except String Bytes)
    (unmarshal : Bytes → Except String PutInitRequest) :
    (∀ start startBytes body, marshal start = .ok startBytes → unmarshal startBytes = .ok start →
      startBytes ≠ [] → 8 + startBytes.length + body.length < 2 ^ 63 →
      ∃ data, encodePutAndCompletePayload marshal start body = .ok data ∧
        decodePutAndComplete64 unmarshal data = some (.ok (start, body))) ∧
    ∀ data : Bytes, data.length < 2 ^ 63 →
      ∃ result, decodePutAndComplete64 unmarshal data = some result ∧
        ((∃ e, result = .error e) ↔
          data.length < 8 ∨ leNat (data.take 8) = 0 ∨ data.length - 8 < leNat (data.take 8) ∨
            ∃ text, unmarshal ((data.drop 8).take (leNat (data.take 8))) = .error text) := by
  refine ⟨fun start startBytes body hmarshal hunmarshal hne hint => ?_, fun data hint => ?_⟩
  · refine ⟨frame startBytes body, by rw [encodePutAndCompletePayload, hmarshal], ?_⟩
    rw [decodePutAndComplete64_eq unmarshal (by rw [length_frame]; exact hint),
      decodePutAndComplete_frame hunmarshal hne (by omega)]
  · exact ⟨_, decodePutAndComplete64_eq unmarshal hint,
      decodePutAndComplete_error_iff unmarshal data⟩

/-- A request with names and a body of two bytes go through. A length of `2 ^ 64 - 1` is refused. -/
theorem putAndComplete_framing_two_bytes :
    (∃ data, encodePutAndCompletePayload marshalRequest requestA [1#8, 2#8] = .ok data ∧
      decodePutAndComplete64 unmarshalRequest data = some (.ok (requestA, [1#8, 2#8]))) ∧
    ∃ result, decodePutAndComplete64 unmarshalRequest (List.replicate 9 0xff#8) = some result ∧
      ∃ e, result = .error e := by
  obtain ⟨hround, hrefused⟩ := putAndComplete_framing marshalRequest unmarshalRequest
  constructor
  · refine hround requestA bytesA [1#8, 2#8] ?_ unmarshal_bytesA (by simp [bytesA])
      (by decide +kernel)
    rw [marshalRequest, marshal_requestA]
    rfl
  · obtain ⟨result, hresult, hiff⟩ := hrefused (List.replicate 9 0xff#8) (by decide)
    exact ⟨result, hresult, hiff.mpr (Or.inr (Or.inr (Or.inl (by decide))))⟩

end Corgi
