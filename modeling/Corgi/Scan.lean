import Mathlib.Tactic

/-!
# Searches for the first position of a predicate

`FindsFirst p pos good lo hi x` says that the search result `x` is right for the first
position of `p` in `[lo, hi)` : `none` if there is none, else a `good` value whose
position is the first one. Searches of adjacent intervals compose
(`FindsFirst.append`), so a loop over consecutive intervals searches their union
(`FindsFirst.findSome?`).
-/

namespace Corgi

/-- `x` is the outcome of a search for the first position of `p` in `[lo, hi)`. -/
def FindsFirst {α : Type*} (p : ℕ → Bool) (pos : α → ℕ) (good : α → Prop) (lo hi : ℕ) :
    Option α → Prop
  | none => ∀ b, lo ≤ b → b < hi → p b = false
  | some r => lo ≤ pos r ∧ pos r < hi ∧ p (pos r) = true ∧
      (∀ b, lo ≤ b → b < pos r → p b = false) ∧ good r

namespace FindsFirst

variable {α : Type*} {p : ℕ → Bool} {pos : α → ℕ} {good : α → Prop} {lo mid hi : ℕ}

theorem empty (h : hi ≤ lo) : FindsFirst p pos good lo hi none :=
  fun b h₁ h₂ => absurd (lt_of_le_of_lt h₁ h₂) (by omega)

theorem append {x y : Option α} (hx : FindsFirst p pos good lo mid x)
    (hy : FindsFirst p pos good mid hi y) (h₁ : lo ≤ mid) (h₂ : mid ≤ hi) :
    FindsFirst p pos good lo hi (x.or y) := by
  cases x with
  | some r =>
    obtain ⟨h3, h4, h5⟩ := hx
    exact ⟨h3, by omega, h5⟩
  | none =>
    cases y with
    | none =>
      intro b h3 h4
      rcases Nat.lt_or_ge b mid with hb | hb
      · exact hx b h3 hb
      · exact hy b hb h4
    | some r =>
      obtain ⟨h3, h4, h5, h6, h7⟩ := hy
      refine ⟨by omega, h4, h5, fun b h8 h9 => ?_, h7⟩
      rcases Nat.lt_or_ge b mid with hb | hb
      · exact hx b h8 hb
      · exact h6 b hb h9

/-- A loop that searches `[bound i, bound (i + 1))` at each `i` searches the union. -/
theorem findSome? {bound : ℕ → ℕ} (hb : Monotone bound) (f : ℕ → Option α) :
    ∀ (n s : ℕ), (∀ i, s ≤ i → i < s + n →
      FindsFirst p pos good (bound i) (bound (i + 1)) (f i)) →
      FindsFirst p pos good (bound s) (bound (s + n)) ((List.range' s n).findSome? f)
  | 0, s, _ => empty le_rfl
  | n + 1, s, h => by
    have ih := findSome? hb f n (s + 1) fun i h₁ h₂ => h i (by omega) (by omega)
    rw [show s + 1 + n = s + (n + 1) by omega] at ih
    have hcons := append (h s le_rfl (by omega)) ih (hb (by omega)) (hb (by omega))
    rw [List.range'_succ, List.findSome?_cons]
    cases hf : f s with
    | none => simpa [hf] using hcons
    | some r => simpa [hf] using hcons

theorem of_eq {x : Option α} {lo' hi' : ℕ} (h : FindsFirst p pos good lo' hi' x) (hlo : lo' = lo)
    (hhi : hi' = hi) : FindsFirst p pos good lo hi x := by
  subst hlo hhi
  exact h

/-- Positions where `p` fails may be left out of the search. -/
theorem extend {x : Option α} (h : FindsFirst p pos good lo mid x) (hm : mid ≤ hi)
    (hp : ∀ b, mid ≤ b → b < hi → p b = false) : FindsFirst p pos good lo hi x := by
  cases x with
  | none =>
    intro b h₁ h₂
    rcases Nat.lt_or_ge b mid with hb | hb
    · exact h b h₁ hb
    · exact hp b hb h₂
  | some r =>
    obtain ⟨h₁, h₂, h₃⟩ := h
    exact ⟨h₁, by omega, h₃⟩

end FindsFirst

end Corgi
