import Mathlib

/-!
# Lists of stages

Goroutines that run at once are a list of the stages that they are in, and a step of one of them
replaces its entry. What the entries hold together changes by that entry alone
(`perm_filterMap_set`), and so does a sum over them (`sum_map_set`).
-/

namespace Corgi

/-- What the entries hold, when one of them is replaced. -/
theorem perm_filterMap_set {α β : Type*} (f : α → Option β) {l : List α} {k : ℕ} {a : α}
    (h : l[k]? = some a) (b : α) :
    ((f a).toList ++ (l.set k b).filterMap f).Perm ((f b).toList ++ l.filterMap f) := by
  obtain ⟨hlt, rfl⟩ := List.getElem?_eq_some_iff.mp h
  obtain ⟨l₁, l₂, heq, -, hset⟩ := @List.exists_of_set _ k b l hlt
  have hsplit : ∀ a : α, ((l₁ ++ a :: l₂).filterMap f).Perm
      ((f a).toList ++ (l₁ ++ l₂).filterMap f) := by
    intro a
    rw [List.filterMap_append, List.filterMap_append]
    refine List.Perm.trans (List.Perm.of_eq ?_) (List.perm_append_comm_assoc _ _ _)
    cases h : f a <;> simp [h]
  have hl : (l.filterMap f).Perm ((f l[k]).toList ++ (l₁ ++ l₂).filterMap f) := by
    have hl := hsplit l[k]
    rwa [← heq] at hl
  rw [hset]
  exact ((hsplit b).append_left _).trans
    ((List.perm_append_comm_assoc _ _ _).trans (hl.symm.append_left _))

/-- The sum over the entries, when one of them is replaced. -/
theorem sum_map_set {α : Type*} (f : α → ℕ) {l : List α} {k : ℕ} {a : α} (h : l[k]? = some a)
    (b : α) : ((l.set k b).map f).sum + f a = (l.map f).sum + f b := by
  obtain ⟨hlt, rfl⟩ := List.getElem?_eq_some_iff.mp h
  obtain ⟨l₁, l₂, heq, -, hset⟩ := @List.exists_of_set _ k b l hlt
  have hl : (l.map f).sum = (l₁.map f).sum + (f l[k] + (l₂.map f).sum) := by
    nth_rewrite 1 [heq]
    simp
  rw [hset, hl]
  simp
  omega

theorem mem_set_or {α : Type*} {l : List α} {k : ℕ} {a : α} (h : l[k]? = some a) (b : α) :
    b ∈ l.set k b ∧ ∀ v ∈ l, v = a ∨ v ∈ l.set k b := by
  obtain ⟨hlt, rfl⟩ := List.getElem?_eq_some_iff.mp h
  obtain ⟨l₁, l₂, heq, -, hset⟩ := @List.exists_of_set _ k b l hlt
  rw [hset]
  refine ⟨by simp, fun v hv => ?_⟩
  rw [heq] at hv
  simp only [List.mem_append, List.mem_cons] at hv ⊢
  tauto

end Corgi
