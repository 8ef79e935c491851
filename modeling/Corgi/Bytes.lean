import Mathlib.Data.Nat.Digits.Lemmas
import Mathlib.Data.List.GetD
import Mathlib.Tactic.Ring

/-!
# Byte strings

Text and quoted text, fixed-width little-endian numbers, zero-padded decimal numbers, and the
bits of a byte string counted from the most significant bit of its first byte.
-/

namespace Corgi

/-- A `byte`. -/
abbrev Byte := BitVec 8

/-- A `[]byte`, or the bytes of a `string`. -/
abbrev Bytes := List Byte

/-- The bytes of an ASCII text. -/
def ascii (s : List Char) : Bytes :=
  s.map fun c => BitVec.ofNat 8 c.toNat

/-- A byte string as text. -/
def textOf (s : Bytes) : String :=
  String.ofList (s.map fun b => Char.ofNat b.toNat)

/-- A digit of a number to the base 16. -/
def hexDigit (d : ℕ) : Byte :=
  BitVec.ofNat 8 (if d < 10 then 48 + d else 87 + d)

/-- One byte in quotes. A byte from `0x80` on stays as it is, which is right for the runes
that are printable. -/
def quoteByte (b : Byte) : Bytes :=
  if b = 34#8 ∨ b = 92#8 then [92#8, b]
  else if 32 ≤ b.toNat ∧ b ≠ 127#8 then [b]
  else if 7 ≤ b.toNat ∧ b.toNat ≤ 13 then
    [92#8, (ascii "abtnvfr".toList).getD (b.toNat - 7) 0#8]
  else [92#8, 120#8, hexDigit (b.toNat / 16), hexDigit (b.toNat % 16)]

/-- `strconv.Quote`, which is also what `%q` writes. -/
def strconvQuote (s : Bytes) : String :=
  textOf (34#8 :: s.flatMap quoteByte ++ [34#8])

example : strconvQuote [97#8, 10#8, 34#8, 1#8] = "\"a\\n\\\"\\x01\"" := by
  decide

/-! ## Little-endian numbers -/

/-- The `w` low bytes of `n`, least significant first. -/
def leBytes : ℕ → ℕ → Bytes
  | 0, _ => []
  | w + 1, n => BitVec.ofNat 8 n :: leBytes w (n / 256)

/-- The number with the given bytes. -/
def leNat : Bytes → ℕ
  | [] => 0
  | b :: bs => b.toNat + 256 * leNat bs

theorem length_leBytes : ∀ w n : ℕ, (leBytes w n).length = w
  | 0, _ => rfl
  | w + 1, n => by rw [leBytes, List.length_cons, length_leBytes w]

theorem leNat_leBytes : ∀ w n : ℕ, leNat (leBytes w n) = n % 256 ^ w
  | 0, n => by rw [leBytes, leNat, pow_zero, Nat.mod_one]
  | w + 1, n => by
    rw [leBytes, leNat, leNat_leBytes w, BitVec.toNat_ofNat, pow_succ' 256 w, Nat.mod_mul]

theorem leNat_lt : ∀ bs : Bytes, leNat bs < 256 ^ bs.length
  | [] => Nat.one_pos
  | b :: bs => by
    have hb := b.isLt
    have hbs := leNat_lt bs
    rw [leNat, List.length_cons, pow_succ']
    omega

theorem leBytes_leNat : ∀ bs : Bytes, leBytes bs.length (leNat bs) = bs
  | [] => rfl
  | b :: bs => by
    have hb := b.isLt
    have hdiv : leNat (b :: bs) / 256 = leNat bs := by
      rw [leNat]
      omega
    have hmod : BitVec.ofNat 8 (leNat (b :: bs)) = b := by
      rw [leNat, ← BitVec.toNat_inj, BitVec.toNat_ofNat]
      omega
    rw [List.length_cons, leBytes, hdiv, hmod, leBytes_leNat bs]

/-! ## Decimal numbers -/

/-- The decimal digits of `n`, padded with zeros to at least `width`. -/
def decimal (width n : ℕ) : Bytes :=
  let digits := Nat.digits 10 n
  ((digits ++ List.replicate (width - digits.length) 0).reverse).map fun d =>
    BitVec.ofNat 8 (48 + d)

/-- Padded or not, a decimal number determines its value. -/
theorem decimal_injective (width : ℕ) : Function.Injective (decimal width) := by
  have hdigit : ∀ n, ∀ d ∈ Nat.digits 10 n ++
      List.replicate (width - (Nat.digits 10 n).length) 0, d < 10 := by
    intro n d hd
    rcases List.mem_append.mp hd with hd | hd
    · exact Nat.digits_lt_base (by decide) hd
    · rw [List.eq_of_mem_replicate hd]
      decide
  have hback : ∀ n,
      Nat.ofDigits 10 (((decimal width n).map fun b => b.toNat - 48).reverse) = n := by
    intro n
    have hmap : ((decimal width n).map fun b => b.toNat - 48).reverse = Nat.digits 10 n ++
        List.replicate (width - (Nat.digits 10 n).length) 0 := by
      rw [decimal, ← List.map_reverse, ← List.map_reverse, List.reverse_reverse, List.map_map]
      refine (List.map_congr_left fun d hd => ?_).trans (List.map_id _)
      have hlt := hdigit n d hd
      simp only [Function.comp_apply, BitVec.toNat_ofNat, id]
      omega
    rw [hmap, Nat.ofDigits_append, Nat.ofDigits_digits, Nat.ofDigits_replicate_zero,
      Nat.mul_zero,
      Nat.add_zero]
  intro m n h
  rw [← hback m, ← hback n, h]

/-! ## Bits, most significant first -/

/-- Bit `j` of a byte string, the high bit of its first byte being bit 0. -/
def msbBit (v : Bytes) (j : ℕ) : Bool :=
  (v.getD (j / 8) 0#8).getLsbD (7 - j % 8)

theorem msbBit_map_range (f : ℕ → Byte) {n j : ℕ} (h : j < 8 * n) :
    msbBit ((List.range n).map f) j = (f (j / 8)).getLsbD (7 - j % 8) := by
  rw [msbBit, List.getD_eq_getElem _ _ (by rw [List.length_map, List.length_range]; omega),
    List.getElem_map, List.getElem_range]

theorem msbBit_set {v : Bytes} {i : ℕ} (hi : i < v.length) (b : Byte) (j : ℕ) :
    msbBit (v.set i b) j = if j / 8 = i then b.getLsbD (7 - j % 8) else msbBit v j := by
  rw [msbBit, List.getD_eq_getElem?_getD, List.getElem?_set]
  split_ifs with h1 h2 h3
  · rfl
  all_goals first | omega | skip
  rw [msbBit, List.getD_eq_getElem?_getD]

theorem msbBit_take {v : Bytes} {n j : ℕ} (h : j < 8 * n) : msbBit (v.take n) j = msbBit v j := by
  rw [msbBit, msbBit, List.getD_eq_getElem?_getD, List.getElem?_take_of_lt (by omega),
    List.getD_eq_getElem?_getD]

theorem msbBit_append_left {u v : Bytes} {j : ℕ} (h : j < 8 * u.length) :
    msbBit (u ++ v) j = msbBit u j := by
  rw [msbBit, msbBit, List.getD_append _ _ _ _ (by omega)]

theorem msbBit_replicate (n : ℕ) (b : Byte) {j : ℕ} (h : j < 8 * n) :
    msbBit (List.replicate n b) j = b.getLsbD (7 - j % 8) := by
  rw [msbBit, List.getD_replicate _ (by omega)]

/-- The bits determine the bytes. -/
theorem eq_of_msbBit {u v : Bytes} (hlen : u.length = v.length)
    (h : ∀ j < 8 * u.length, msbBit u j = msbBit v j) : u = v := by
  refine List.ext_getElem hlen fun i hu hv => BitVec.eq_of_getLsbD_eq fun k hk => ?_
  have hj := h (8 * i + (7 - k)) (by omega)
  rw [msbBit, msbBit, show (8 * i + (7 - k)) / 8 = i by omega,
    show 7 - (8 * i + (7 - k)) % 8 = k by omega, List.getD_eq_getElem _ _ hu,
    List.getD_eq_getElem _ _ hv] at hj
  exact hj

end Corgi
