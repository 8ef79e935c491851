import Mathlib.Data.Nat.Bitwise
import Mathlib.Tactic

/-!
# Lists of 64-bit words as bit arrays and as arrays of 2-bit entries

Bit `i` of a list of words is bit `i % 64` of word `i / 64`, counted from the least
significant bit (`bitAt`). A list of words is also an array of 2-bit entries, 32 a word
(`entryAt`); an update of one entry (`setEntry`) leaves the others alone
(`entryOf_setEntry`), and a word is determined by its entries (`eq_of_entryOf_eq`).

`onesCount64` and `trailingZeros64` count set bits and the zeros below the lowest one.
-/

namespace Corgi

/-- A `uint64`. -/
abbrev Word := BitVec 64

/-! ## Counting bits -/

/-- The number of set bits of a word. -/
def onesCount64 (w : Word) : ℕ :=
  (List.range 64).countP w.getLsbD

/-- The number of zero bits below the lowest set bit, 64 for the zero word. -/
def trailingZeros64 (w : Word) : ℕ :=
  w.ctz.toNat

theorem getLsbD_trailingZeros64 {w : Word} (h : w ≠ 0#64) : w.getLsbD (trailingZeros64 w) = true :=
  BitVec.getLsbD_true_ctz_of_ne_zero h

theorem getLsbD_of_lt_trailingZeros64 {w : Word} {i : ℕ} (h : i < trailingZeros64 w) :
    w.getLsbD i = false :=
  BitVec.getLsbD_false_of_lt_ctz h

theorem trailingZeros64_zero : trailingZeros64 0#64 = 64 := by
  decide +kernel

theorem trailingZeros64_le (w : Word) : trailingZeros64 w ≤ 64 := by
  by_contra h
  by_cases hw : w = 0#64
  · rw [hw, trailingZeros64_zero] at h
    exact h le_rfl
  · have := getLsbD_trailingZeros64 hw
    rw [BitVec.getLsbD_of_ge _ _ (by omega)] at this
    exact Bool.false_ne_true this

/-- Below 64 the count of trailing zeros is the position of a set bit. -/
theorem getLsbD_trailingZeros64_of_lt {w : Word} (h : trailingZeros64 w < 64) :
    w.getLsbD (trailingZeros64 w) = true := by
  refine getLsbD_trailingZeros64 fun hw => ?_
  rw [hw, trailingZeros64_zero] at h
  exact lt_irrefl _ h

/-! ## Masks -/

theorem getLsbD_lowMask {k : ℕ} (hk : k < 64) (i : ℕ) :
    ((1#64 <<< k) - 1).getLsbD i = decide (i < k) := by
  have hpow : 2 ^ k < 2 ^ 64 := Nat.pow_lt_pow_right (by decide) hk
  have hpos : 0 < 2 ^ k := Nat.two_pow_pos k
  have h : ((1#64 <<< k) - 1).toNat = 2 ^ k - 1 := by
    have h1 : (1#64 <<< k).toNat = 2 ^ k := by
      rw [BitVec.toNat_shiftLeft, Nat.shiftLeft_eq, Nat.mod_eq_of_lt (by simpa using hpow)]
      simp
    rw [BitVec.toNat_sub, h1, show (1 : Word).toNat = 1 from rfl]
    omega
  rw [BitVec.getLsbD, h, Nat.testBit_two_pow_sub_one]

theorem getLsbD_not_zero {i : ℕ} (hi : i < 64) : (~~~0#64).getLsbD i = true := by
  rw [BitVec.getLsbD_not, BitVec.getLsbD_zero]
  simp [hi]

/-! ## Bit arrays -/

/-- Bit `i` of a list of words. -/
def bitAt (l : List Word) (i : ℕ) : Bool :=
  (l.getD (i / 64) 0#64).getLsbD (i % 64)

theorem bitAt_of_length_le {l : List Word} {i : ℕ} (h : l.length * 64 ≤ i) :
    bitAt l i = false := by
  rw [bitAt, List.getD_eq_default _ _ (by omega)]
  simp

theorem bitAt_set {l : List Word} {k : ℕ} (hk : k < l.length) (w : Word) (i : ℕ) :
    bitAt (l.set k w) i = if i / 64 = k then w.getLsbD (i % 64) else bitAt l i := by
  unfold bitAt
  rw [List.getD_eq_getElem?_getD, List.getElem?_set, List.getD_eq_getElem?_getD]
  split_ifs with h1 h2 h3 <;> first | rfl | omega

theorem getLsbD_getD (l : List Word) (k : ℕ) {j : ℕ} (hj : j < 64) :
    (l.getD k 0#64).getLsbD j = bitAt l (64 * k + j) := by
  rw [bitAt, Nat.mul_add_div (by decide), Nat.mul_add_mod, Nat.div_eq_of_lt hj,
    Nat.mod_eq_of_lt hj, Nat.add_zero]

/-! ## Two-bit entries -/

/-- Entry `p` of a word. -/
def entryOf (w : Word) (p : ℕ) : Word :=
  (w >>> (2 * p)) &&& 3

/-- `w` with entry `p` replaced by `v`. -/
def setEntry (w : Word) (p : ℕ) (v : Word) : Word :=
  (w &&& ~~~((3 : Word) <<< (2 * p))) ||| (v <<< (2 * p))

/-- Entry `e` of a list of words, 32 entries a word. -/
def entryAt (l : List Word) (e : ℕ) : Word :=
  entryOf (l.getD (e / 32) 0#64) (e % 32)

theorem getLsbD_three (i : ℕ) : (3 : Word).getLsbD i = decide (i < 2) := by
  simpa using getLsbD_lowMask (k := 2) (by decide) i

theorem getLsbD_entryOf (w : Word) (p i : ℕ) :
    (entryOf w p).getLsbD i = (decide (i < 2) && w.getLsbD (2 * p + i)) := by
  rw [entryOf, BitVec.getLsbD_and, BitVec.getLsbD_ushiftRight, getLsbD_three, Bool.and_comm]

theorem entryOf_setEntry {p q : ℕ} (hp : p < 32) (hq : q < 32) (w : Word) {v : Word}
    (hv : entryOf v 0 = v) :
    entryOf (setEntry w p v) q = if q = p then v else entryOf w q := by
  have hv' : ∀ i, 2 ≤ i → v.getLsbD i = false := by
    intro i hi
    rw [← hv, getLsbD_entryOf]
    simp [show ¬i < 2 by omega]
  refine BitVec.eq_of_getLsbD_eq fun i hi => ?_
  rw [getLsbD_entryOf, setEntry, BitVec.getLsbD_or, BitVec.getLsbD_and, BitVec.getLsbD_not,
    BitVec.getLsbD_shiftLeft, BitVec.getLsbD_shiftLeft, getLsbD_three]
  by_cases h2 : i < 2
  · have h64 : 2 * q + i < 64 := by omega
    rcases lt_trichotomy q p with h | h | h
    · simp [h2, h64, h.ne, getLsbD_entryOf, show 2 * q + i < 2 * p by omega]
    · subst h
      simp [h2, h64]
    · simp [h2, h64, h.ne', getLsbD_entryOf, show ¬2 * q + i < 2 * p by omega,
        show ¬2 * q + i - 2 * p < 2 by omega, hv' (2 * q + i - 2 * p) (by omega)]
  · split_ifs
    · simp [h2, hv' i (by omega)]
    · simp [h2, getLsbD_entryOf]

theorem entryOf_zero (p : ℕ) : entryOf 0#64 p = 0#64 := by
  refine BitVec.eq_of_getLsbD_eq fun i _ => ?_
  simp [getLsbD_entryOf]

theorem entryOf_allOnes {p : ℕ} (hp : p < 32) : entryOf (~~~0#64) p = 3 := by
  refine BitVec.eq_of_getLsbD_eq fun i _ => ?_
  rw [getLsbD_entryOf, getLsbD_three]
  by_cases h : i < 2
  · rw [getLsbD_not_zero (by omega), Bool.and_true]
  · simp [h]

theorem eq_of_entryOf_eq {w w' : Word} (h : ∀ p < 32, entryOf w p = entryOf w' p) : w = w' := by
  refine BitVec.eq_of_getLsbD_eq fun i hi => ?_
  have hbit := congrArg (fun v => BitVec.getLsbD v (i % 2)) (h (i / 2) (by omega))
  simpa [getLsbD_entryOf, Nat.div_add_mod, show i % 2 ≤ 1 by omega] using hbit

theorem entryAt_mul_add (l : List Word) (k : ℕ) {p : ℕ} (hp : p < 32) :
    entryAt l (k * 32 + p) = entryOf (l.getD k 0#64) p := by
  rw [entryAt, show (k * 32 + p) / 32 = k by omega, show (k * 32 + p) % 32 = p by omega]

/-- Setting entry `e` of a list of words changes that entry only. -/
theorem entryAt_set {l : List Word} {e : ℕ} (he : e / 32 < l.length) {v : Word}
    (hv : entryOf v 0 = v) (e' : ℕ) :
    entryAt (l.set (e / 32) (setEntry (l.getD (e / 32) 0#64) (e % 32) v)) e' =
      if e' = e then v else entryAt l e' := by
  have hm : ∀ e : ℕ, e % 32 < 32 := fun e => Nat.mod_lt _ (by decide)
  by_cases hd : e' / 32 = e / 32
  · have hget : (l.set (e / 32) (setEntry (l.getD (e / 32) 0#64) (e % 32) v)).getD (e' / 32) 0#64 =
        setEntry (l.getD (e / 32) 0#64) (e % 32) v := by
      rw [hd, List.getD_eq_getElem _ _ (by simpa using he), List.getElem_set_self]
    rw [entryAt, hget, entryOf_setEntry (hm e) (hm e') _ hv, entryAt, hd]
    by_cases h : e' = e
    · simp [h]
    · rw [if_neg h, if_neg (by omega)]
  · have hget : (l.set (e / 32) (setEntry (l.getD (e / 32) 0#64) (e % 32) v)).getD (e' / 32) 0#64 =
        l.getD (e' / 32) 0#64 := by
      rw [List.getD_eq_getElem?_getD, List.getElem?_set_ne (Ne.symm hd),
        ← List.getD_eq_getElem?_getD]
    rw [entryAt, hget, if_neg fun h => hd (by rw [h]), entryAt]

/-! ## Lists of words with the same bits, or the same entries -/

theorem eq_of_getD_eq {l l' : List Word} (hlen : l.length = l'.length)
    (h : ∀ k, l.getD k 0#64 = l'.getD k 0#64) : l = l' := by
  refine List.ext_getElem hlen fun k hk hk' => ?_
  rw [← List.getD_eq_getElem l 0#64 hk, h, List.getD_eq_getElem]

theorem eq_of_bitAt_eq {l l' : List Word} (hlen : l.length = l'.length)
    (h : ∀ i, bitAt l i = bitAt l' i) : l = l' := by
  refine eq_of_getD_eq hlen fun k => BitVec.eq_of_getLsbD_eq fun j hj => ?_
  rw [getLsbD_getD _ _ hj, getLsbD_getD _ _ hj, h]

theorem eq_of_entryAt_eq {l l' : List Word} (hlen : l.length = l'.length)
    (h : ∀ e, entryAt l e = entryAt l' e) : l = l' := by
  refine eq_of_getD_eq hlen fun k => eq_of_entryOf_eq fun p hp => ?_
  rw [← entryAt_mul_add _ _ hp, ← entryAt_mul_add _ _ hp, h]

end Corgi
