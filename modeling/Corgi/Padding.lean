import Mathlib.Data.List.Basic
import Mathlib.Data.Nat.ModEq

/-!
# Concatenations padded piece by piece

Pieces are padded one by one to a multiple of a block size and concatenated. Cutting the
result to the length of the pieces gives their concatenation if and only if everything
after a piece that needed padding is padding itself (`take_flatMap_pad`).
-/

namespace Corgi

variable {α : Type*} (B : ℕ) (z : α)

/-- Pad with `z` to a multiple of `B`. -/
def pad (l : List α) : List α :=
  l ++ List.replicate ((B - l.length % B) % B) z

variable {B z}

theorem pad_of_dvd {l : List α} (h : B ∣ l.length) : pad B z l = l := by
  rw [pad, Nat.mod_eq_zero_of_dvd h, Nat.sub_zero, Nat.mod_self, List.replicate_zero,
    List.append_nil]

theorem dvd_length_pad (hB : 0 < B) (l : List α) : B ∣ (pad B z l).length := by
  by_cases h : B ∣ l.length
  · rwa [pad_of_dvd h]
  · have hr := Nat.pos_of_ne_zero fun h0 => h (Nat.dvd_of_mod_eq_zero h0)
    have hlt := Nat.mod_lt l.length hB
    rw [pad, List.length_append, List.length_replicate, Nat.mod_eq_of_lt (by omega)]
    refine ⟨l.length / B + 1, ?_⟩
    have hdiv := Nat.div_add_mod l.length B
    rw [Nat.mul_succ]
    omega

/-- What stands in the padded concatenation is padding or comes from the same place of the
pieces or an earlier one. -/
theorem getElem?_flatMap_pad {b : α} : ∀ (fs : List (List α)) (j : ℕ),
    (fs.flatMap (pad B z))[j]? = some b → b = z ∨ ∃ i ≤ j, fs.flatten[i]? = some b
  | [], _, h => by simp at h
  | f :: fs, j, h => by
    rw [List.flatMap_cons, pad, List.append_assoc] at h
    rw [List.flatten_cons]
    by_cases h1 : j < f.length
    · rw [List.getElem?_append_left h1] at h
      exact Or.inr ⟨j, le_rfl, by rw [List.getElem?_append_left h1, h]⟩
    rw [List.getElem?_append_right (Nat.le_of_not_lt h1)] at h
    by_cases h2 : j - f.length < (List.replicate ((B - f.length % B) % B) z).length
    · rw [List.getElem?_append_left h2] at h
      exact Or.inl (List.eq_of_mem_replicate (List.mem_of_getElem? h))
    rw [List.getElem?_append_right (Nat.le_of_not_lt h2)] at h
    rcases getElem?_flatMap_pad fs _ h with h | ⟨i, hi, h⟩
    · exact Or.inl h
    · refine Or.inr ⟨f.length + i, by omega, ?_⟩
      rw [List.getElem?_append_right (Nat.le_add_right _ _), Nat.add_sub_cancel_left, h]

theorem length_flatten_le : ∀ fs : List (List α),
    fs.flatten.length ≤ (fs.flatMap (pad B z)).length
  | [] => le_rfl
  | f :: fs => by
    have ih := length_flatten_le fs
    rw [List.flatten_cons, List.flatMap_cons, List.length_append, List.length_append, pad,
      List.length_append]
    omega

/-- Behind padding, the pieces come out right only if they are all padding. -/
theorem take_replicate_append {k : ℕ} (hk : 0 < k) (fs : List (List α)) :
    (List.replicate k z ++ fs.flatMap (pad B z)).take fs.flatten.length = fs.flatten ↔
      ∀ b ∈ fs.flatten, b = z := by
  constructor
  · intro h
    -- Element `i` is padding, or an element before it.
    have hall : ∀ (i : ℕ) (b : α), fs.flatten[i]? = some b → b = z := by
      intro i
      induction i using Nat.strong_induction_on with
      | h i ih =>
        intro b hb
        obtain ⟨hi, -⟩ := List.getElem?_eq_some_iff.mp hb
        rw [← h, List.getElem?_take_of_lt hi] at hb
        by_cases hik : i < (List.replicate k z).length
        · rw [List.getElem?_append_left hik] at hb
          exact List.eq_of_mem_replicate (List.mem_of_getElem? hb)
        · rw [List.getElem?_append_right (Nat.le_of_not_lt hik)] at hb
          rcases getElem?_flatMap_pad fs _ hb with hb | ⟨i', hi', hb⟩
          · exact hb
          · rw [List.length_replicate] at hik hi'
            exact ih i' (by omega) b hb
    intro b hb
    obtain ⟨i, hi⟩ := List.mem_iff_getElem?.mp hb
    exact hall i b hi
  · intro hall
    have hpad : ∀ b ∈ List.replicate k z ++ fs.flatMap (pad B z), b = z := by
      intro b hb
      rcases List.mem_append.mp hb with hb | hb
      · exact List.eq_of_mem_replicate hb
      · obtain ⟨j, hj⟩ := List.mem_iff_getElem?.mp hb
        rcases getElem?_flatMap_pad fs j hj with hb | ⟨i, -, hi⟩
        · exact hb
        · exact hall b (List.mem_of_getElem? hi)
    have hlen : fs.flatten.length ≤ (List.replicate k z ++ fs.flatMap (pad B z)).length := by
      rw [List.length_append]
      exact (length_flatten_le fs).trans (Nat.le_add_left _ _)
    rw [List.eq_replicate_iff.mpr ⟨rfl, hpad⟩, List.take_replicate, Nat.min_eq_left hlen,
      ← List.eq_replicate_iff.mpr ⟨rfl, hall⟩]

/-- The pieces are recovered from their padded concatenation if and only if nothing but
padding follows a piece that is not a multiple of `B` long. -/
theorem take_flatMap_pad (hB : 0 < B) : ∀ fs : List (List α),
    (fs.flatMap (pad B z)).take fs.flatten.length = fs.flatten ↔
      ∀ pre f post, fs = pre ++ f :: post → ¬B ∣ f.length → ∀ b ∈ post.flatten, b = z
  | [] => by simp
  | f :: fs => by
    have hcut : ((f :: fs).flatMap (pad B z)).take (f :: fs).flatten.length =
        (f :: fs).flatten ↔
        (List.replicate ((B - f.length % B) % B) z ++ fs.flatMap (pad B z)).take
          fs.flatten.length = fs.flatten := by
      rw [List.flatMap_cons, List.flatten_cons, List.length_append, pad, List.append_assoc,
        List.take_length_add_append, List.append_cancel_left_eq]
    rw [hcut]
    by_cases hf : B ∣ f.length
    · rw [Nat.mod_eq_zero_of_dvd hf, Nat.sub_zero, Nat.mod_self, List.replicate_zero,
        List.nil_append, take_flatMap_pad hB fs]
      constructor
      · intro h pre g post hsplit hg
        cases pre with
        | nil =>
          obtain ⟨rfl, -⟩ := List.cons.inj hsplit
          exact absurd hf hg
        | cons p pre => exact h pre g post (List.cons.inj hsplit).2 hg
      · exact fun h pre g post hsplit => h (f :: pre) g post (by rw [hsplit]; rfl)
    · have hk : 0 < (B - f.length % B) % B := by
        have hr := Nat.pos_of_ne_zero fun h0 => hf (Nat.dvd_of_mod_eq_zero h0)
        have hlt := Nat.mod_lt f.length hB
        rw [Nat.mod_eq_of_lt (by omega)]
        omega
      rw [take_replicate_append hk]
      constructor
      · intro h pre g post hsplit _ b hb
        cases pre with
        | nil =>
          obtain ⟨-, rfl⟩ := List.cons.inj hsplit
          exact h b hb
        | cons p pre =>
          obtain rfl : fs = pre ++ g :: post := (List.cons.inj hsplit).2
          rw [List.flatten_append, List.flatten_cons] at h
          exact h b (List.mem_append_right _ (List.mem_append_right _ hb))
      · exact fun h => h [] f fs rfl hf

end Corgi
