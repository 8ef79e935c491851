import Mathlib.Data.List.Infix

/-!
# Looking for a word without going back

A matcher counts the symbols of a word `p` that it has just read. On a symbol that is not
the next one of `p` it starts over with the symbol after it, so that it also drops the
beginning of `p` that may lie in what it has read (`search`).

What it reads before it finds `p` is a series of attempts that break off, each the first
symbols of `p` and then one that does not continue them (`FailedAttempts`). It finds `p`
exactly where such a series ends (`search_eq_some_iff`), and nothing in a series itself
(`search_of_failedAttempts`).
-/

namespace Corgi

variable {α : Type*}

/-- `u` is a series of attempts at `p` that break off. -/
inductive FailedAttempts (p : List α) : List α → Prop
  | nil : FailedAttempts p []
  /-- The first `k` symbols, and then one that is not the next. -/
  | attempt {k : ℕ} (hk : k < p.length) {c : α} (hc : p[k]? ≠ some c) {u : List α}
      (h : FailedAttempts p u) : FailedAttempts p (p.take k ++ c :: u)

namespace FailedAttempts

variable {p u v : List α}

theorem append (hu : FailedAttempts p u) (hv : FailedAttempts p v) : FailedAttempts p (u ++ v) := by
  induction hu with
  | nil => exact hv
  | attempt hk hc _ ih =>
    rw [List.append_assoc, List.cons_append]
    exact .attempt hk hc ih

/-- Symbols that do not begin `p`. -/
theorem of_forall_ne (hp : p ≠ []) (h : ∀ c ∈ u, p[0]? ≠ some c) : FailedAttempts p u := by
  induction u with
  | nil => exact .nil
  | cons c u ih =>
    rw [List.forall_mem_cons] at h
    exact .attempt (List.length_pos_iff.mpr hp) h.1 (ih h.2)

end FailedAttempts

variable [DecidableEq α]

/-- What follows the first match of `p` that is found, the last `matched` symbols read being
the first ones of `p`. -/
def search (p : List α) : List α → ℕ → Option (List α)
  | [], _ => none
  | d :: data, matched =>
    if p[matched]? = some d then
      if matched + 1 = p.length then some data else search p data (matched + 1)
    else search p data 0

section

variable {p data rest u : List α}

theorem length_le_of_search : ∀ {data : List α} {matched : ℕ},
    search p data matched = some rest → rest.length ≤ data.length
  | [], _, h => nomatch h
  | d :: data, matched, h => by
    rw [search] at h
    split_ifs at h with hd hlast
    · obtain rfl := Option.some.inj h
      exact Nat.le_succ _
    · exact (length_le_of_search h).trans (Nat.le_succ _)
    · exact (length_le_of_search h).trans (Nat.le_succ _)

/-- Reading on in an attempt. -/
theorem search_take_append {k : ℕ} (hk : k < p.length) : ∀ j ≤ k,
    search p ((p.take k).drop j ++ data) j = search p data k := by
  intro j hj
  induction hj using Nat.decreasingInduction with
  | self => rw [List.drop_eq_nil_of_le (List.length_take_le k p), List.nil_append]
  | of_succ j hj ih =>
    have hlt : j < (p.take k).length := by
      rw [List.length_take]
      omega
    have hget : p[j]? = some ((p.take k)[j]) := by
      rw [List.getElem_take, List.getElem?_eq_getElem]
    rw [List.drop_eq_getElem_cons hlt, List.cons_append, search, if_pos hget, if_neg (by omega), ih]

/-- An attempt that breaks off leaves no trace. -/
theorem search_attempt {k : ℕ} (hk : k < p.length) {c : α} (hc : p[k]? ≠ some c) :
    search p (p.take k ++ c :: data) 0 = search p data 0 := by
  have hread := @search_take_append α _ p (c :: data) k hk 0 (Nat.zero_le k)
  rw [List.drop_zero] at hread
  rw [hread, search, if_neg hc]

theorem search_failedAttempts_append (h : FailedAttempts p u) :
    search p (u ++ data) 0 = search p data 0 := by
  induction h with
  | nil => rfl
  | attempt hk hc _ ih => rw [List.append_assoc, List.cons_append, search_attempt hk hc, ih]

theorem search_of_failedAttempts (h : FailedAttempts p u) : search p u 0 = none := by
  have hread := @search_failedAttempts_append α _ p [] u h
  rwa [List.append_nil] at hread

/-- At the word itself it is found. -/
theorem search_word (hp : p ≠ []) : search p (p ++ data) 0 = some data := by
  have hlast : p.length - 1 < p.length := by
    have := List.length_pos_iff.mpr hp
    omega
  have hread := @search_take_append α _ p (p[p.length - 1] :: data) _ hlast 0 (Nat.zero_le _)
  have hsplit : p.take (p.length - 1) ++ p[p.length - 1] :: data = p ++ data := by
    rw [List.append_cons, List.take_append_getElem, Nat.sub_add_cancel, List.take_length]
    omega
  rw [List.drop_zero, hsplit] at hread
  rw [hread, search, if_pos (List.getElem?_eq_getElem hlast), if_pos (by omega)]

/-- What was read before a match. The induction keeps the attempt at hand in front. -/
theorem exists_of_search (hp : p ≠ []) : ∀ {data : List α} {matched : ℕ}, matched < p.length →
    search p data matched = some rest →
    ∃ u, FailedAttempts p u ∧ p.take matched ++ data = u ++ p ++ rest
  | [], _, _, h => nomatch h
  | d :: data, matched, hlt, h => by
    rw [search] at h
    split_ifs at h with hd hlast
    · obtain rfl := Option.some.inj h
      refine ⟨[], .nil, ?_⟩
      obtain ⟨hlt', hget⟩ := List.getElem?_eq_some_iff.mp hd
      rw [List.nil_append, ← hget, List.append_cons, List.take_append_getElem, hlast,
        List.take_length]
    · obtain ⟨u, hu, heq⟩ := exists_of_search hp (by omega) h
      refine ⟨u, hu, ?_⟩
      obtain ⟨hlt', hget⟩ := List.getElem?_eq_some_iff.mp hd
      rw [← heq, ← hget, List.append_cons, List.take_append_getElem]
    · obtain ⟨u, hu, heq⟩ := exists_of_search hp (List.length_pos_iff.mpr hp) h
      rw [List.take_zero, List.nil_append] at heq
      refine ⟨p.take matched ++ d :: u, .attempt hlt hd hu, ?_⟩
      rw [heq]
      simp only [List.append_assoc, List.cons_append]

/-- The word is found exactly where a series of attempts that break off ends. -/
theorem search_eq_some_iff (hp : p ≠ []) :
    search p data 0 = some rest ↔ ∃ u, FailedAttempts p u ∧ data = u ++ p ++ rest := by
  constructor
  · exact exists_of_search hp (List.length_pos_iff.mpr hp)
  · rintro ⟨u, hu, rfl⟩
    rw [List.append_assoc, search_failedAttempts_append hu, search_word hp]

end

end Corgi
