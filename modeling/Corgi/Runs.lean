import Mathlib.Data.List.Basic

/-!
# Runs and loops

A run of a labelled transition relation follows a list of events. What the first state
satisfies and every step keeps holds in every state a run reaches (`Run.invariant`), also
when it speaks of the events so far (`Run.history`). A relation to another system whose runs
match the steps is kept along runs (`Run.simulate`). What steps of one kind lower bounds
their number (`Run.countP_add_le`). A loop over a range that may fail has a
loop invariant in the same sense, and does not fail when no iteration does (`foldlM_range`).
-/

namespace Corgi

variable {σ ε : Type*} {step : σ → ε → σ → Prop} {s t u : σ}

/-- A run from `s` with the events listed, oldest first. -/
inductive Run (step : σ → ε → σ → Prop) (s : σ) : List ε → σ → Prop
  | nil : Run step s [] s
  | snoc {events : List ε} {t u : σ} {e : ε} :
    Run step s events t → step t e u → Run step s (events ++ [e]) u

namespace Run

/-- The invariant rule. -/
theorem invariant {I : σ → Prop} (hstep : ∀ t e u, I t → step t e u → I u) {events : List ε}
    (h : Run step s events t) (hs : I s) : I t := by
  induction h with
  | nil => exact hs
  | snoc _ he ih => exact hstep _ _ _ ih he

/-- The invariant rule for what depends on the events so far. -/
theorem history {I : List ε → σ → Prop}
    (hstep : ∀ events t e u, I events t → step t e u → I (events ++ [e]) u) {events : List ε}
    (h : Run step s events t) (hs : I [] s) : I events t := by
  induction h with
  | nil => exact hs
  | snoc _ he ih => exact hstep _ _ _ _ ih he

theorem mono {step' : σ → ε → σ → Prop} (hstep : ∀ t e u, step t e u → step' t e u)
    {events : List ε} (h : Run step s events t) : Run step' s events t := by
  induction h with
  | nil => exact .nil
  | snoc _ he ih => exact ih.snoc (hstep _ _ _ he)

theorem append {events events' : List ε} (h : Run step s events t) (h' : Run step t events' u) :
    Run step s (events ++ events') u := by
  induction h' with
  | nil => rwa [List.append_nil]
  | snoc _ he ih =>
    rw [← List.append_assoc]
    exact ih.snoc he

theorem cons {e : ε} {events : List ε} (he : step s e t) (h : Run step t events u) :
    Run step s (e :: events) u :=
  append (@snoc _ _ step s [] s _ e nil he) h

/-- What every step of one system is matched by in another, runs are matched by. -/
theorem simulate {τ φ : Type*} {step' : τ → φ → τ → Prop} {R : σ → τ → Prop}
    (hstep : ∀ s e t s', R s s' → step s e t → ∃ events t', Run step' s' events t' ∧ R t t')
    {events : List ε} (h : Run step s events t) {s' : τ} (hs : R s s') :
    ∃ events' t', Run step' s' events' t' ∧ R t t' := by
  induction h with
  | nil => exact ⟨[], s', .nil, hs⟩
  | snoc _ he ih =>
    obtain ⟨events₁, t₁, hrun₁, hR₁⟩ := ih
    obtain ⟨events₂, t₂, hrun₂, hR₂⟩ := hstep _ _ _ _ hR₁ he
    exact ⟨_, t₂, hrun₁.append hrun₂, hR₂⟩

/-- What steps of one kind lower and no step raises bounds their number in a run. -/
theorem countP_add_le {μ : σ → ℕ} {p : ε → Bool}
    (hstep : ∀ t e u, step t e u → μ u + (p e).toNat ≤ μ t) {events : List ε}
    (h : Run step s events t) : events.countP p + μ t ≤ μ s := by
  induction h with
  | nil => simp
  | @snoc events t u e _ he ih =>
    have hcount : (events ++ [e]).countP p = events.countP p + (p e).toNat := by
      cases hp : p e <;> simp [hp]
    have hle := hstep _ _ _ he
    omega

end Run

theorem bind_of_ok {α β : Type} {x : Except ε α} {a : α} (h : x = .ok a) (f : α → Except ε β) :
    (x >>= f) = f a := by
  rw [h]
  rfl

/-- The rule for loops whose iterations succeed under the invariant. -/
theorem foldlM_range {f : σ → ℕ → Except ε σ} {I : ℕ → σ → Prop} (h₀ : I 0 s) : ∀ {n : ℕ},
    (∀ k < n, ∀ t, I k t → ∃ u, f t k = .ok u ∧ I (k + 1) u) →
    ∃ t, (List.range n).foldlM f s = .ok t ∧ I n t
  | 0, _ => ⟨s, rfl, h₀⟩
  | n + 1, h => by
    obtain ⟨t, ht, hI⟩ := foldlM_range h₀ (n := n) fun k hk => h k (by omega)
    obtain ⟨u, hu, hI'⟩ := h n (by omega) t hI
    refine ⟨u, ?_, hI'⟩
    rw [List.range_succ, List.foldlM_append, ht]
    change [n].foldlM f t = .ok u
    rw [List.foldlM_cons, hu]
    rfl

theorem takeWhile_range (c : ℕ) : ∀ n : ℕ,
    (List.range n).takeWhile (fun k => decide (k < c)) = List.range (min n c)
  | 0 => by simp
  | n + 1 => by
    rw [List.range_succ, List.takeWhile_append, takeWhile_range c n]
    rcases Nat.lt_or_ge n c with h | h
    · rw [Nat.min_eq_left (Nat.le_of_lt h), if_pos rfl, Nat.min_eq_left h, List.range_succ,
        List.takeWhile_cons_of_pos (by simpa using h), List.takeWhile_nil]
    · rw [Nat.min_eq_right h, Nat.min_eq_right (by omega)]
      split_ifs with hc
      · rw [List.takeWhile_cons_of_neg (by simpa using h), List.append_nil]
        rw [List.length_range, List.length_range] at hc
        rw [hc]
      · rfl

end Corgi
