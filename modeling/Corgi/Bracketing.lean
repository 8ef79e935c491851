import Mathlib.Data.List.Basic
import Mathlib.Order.Basic

/-!
# Bracketings of a fallible operation

A sequence of operands is combined by a binary operation that may fail, in any order
that keeps the operands in sequence. A statement about the combination of a sequence
that holds of single operands and carries over when two neighbouring combinations are
combined holds of every bracketing, and no bracketing fails (`Bracketing.eval_spec`).

An operation that keeps the left operand unless the right one is greater picks the earliest
of the greatest operands, however they are bracketed (`Bracketing.eval_earliestMax`).
-/

namespace Corgi

/-- A bracketing of a sequence of operands. -/
inductive Bracketing (α : Type*)
  | leaf (a : α)
  | node (l r : Bracketing α)

namespace Bracketing

variable {α ε : Type*}

/-- The operands, in sequence. -/
def leaves : Bracketing α → List α
  | leaf a => [a]
  | node l r => l.leaves ++ r.leaves

/-- Combine the operands as bracketed. -/
def eval (op : α → α → Except ε α) : Bracketing α → Except ε α
  | leaf a => .ok a
  | node l r => do op (← l.eval op) (← r.eval op)

/-- Combine from the left. -/
def ofLeft : α → List α → Bracketing α
  | a, l => l.foldl (fun t b => node t (leaf b)) (leaf a)

theorem leaves_ne_nil : ∀ t : Bracketing α, t.leaves ≠ []
  | leaf _ => List.cons_ne_nil _ _
  | node l _ => fun h => leaves_ne_nil l (List.append_eq_nil_iff.mp h).1

theorem leaves_foldl (l : List α) : ∀ t : Bracketing α,
    (l.foldl (fun t b => node t (leaf b)) t).leaves = t.leaves ++ l := by
  induction l with
  | nil => simp
  | cons b l ih =>
    intro t
    rw [List.foldl_cons, ih, leaves, leaves, List.append_assoc, List.singleton_append]

theorem leaves_ofLeft (a : α) (l : List α) : (ofLeft a l).leaves = a :: l :=
  leaves_foldl l (leaf a)

theorem eval_foldl (op : α → α → Except ε α) (l : List α) : ∀ t : Bracketing α,
    (l.foldl (fun t b => node t (leaf b)) t).eval op = t.eval op >>= fun a => l.foldlM op a := by
  induction l with
  | nil => intro t; simp
  | cons b l ih =>
    intro t
    rw [List.foldl_cons, ih, eval, eval]
    cases t.eval op <;> rfl

/-- Combining from the left is a loop. -/
theorem eval_ofLeft (op : α → α → Except ε α) (a : α) (l : List α) :
    (ofLeft a l).eval op = l.foldlM op a :=
  eval_foldl op l (leaf a)

theorem exists_of_eval_node {op : α → α → Except ε α} {l r : Bracketing α} {v : α}
    (h : (node l r).eval op = .ok v) :
    ∃ a b, l.eval op = .ok a ∧ r.eval op = .ok b ∧ op a b = .ok v := by
  rw [eval] at h
  cases hl : l.eval op with
  | error e => rw [hl] at h; cases h
  | ok a =>
    cases hr : r.eval op with
    | error e => rw [hl, hr] at h; cases h
    | ok b =>
      rw [hl, hr] at h
      exact ⟨a, b, rfl, rfl, h⟩

/-- The rule for bracketings. `good` is what is known of the sequence, `Rep l v` says that
`v` stands for the combination of `l`. -/
theorem eval_spec {op : α → α → Except ε α} {good : List α → Prop} {Rep : List α → α → Prop}
    (hsplit : ∀ l₁ l₂, good (l₁ ++ l₂) → good l₁ ∧ good l₂) (hleaf : ∀ a, good [a] → Rep [a] a)
    (hnode : ∀ l₁ l₂ v₁ v₂, l₁ ≠ [] → l₂ ≠ [] → good (l₁ ++ l₂) → Rep l₁ v₁ → Rep l₂ v₂ →
      ∃ v, op v₁ v₂ = .ok v ∧ Rep (l₁ ++ l₂) v) :
    ∀ t : Bracketing α, good t.leaves → ∃ v, t.eval op = .ok v ∧ Rep t.leaves v
  | leaf a, h => ⟨a, rfl, hleaf a h⟩
  | node l r, h => by
    obtain ⟨hl, hr⟩ := hsplit _ _ h
    obtain ⟨v₁, he₁, hv₁⟩ := eval_spec hsplit hleaf hnode l hl
    obtain ⟨v₂, he₂, hv₂⟩ := eval_spec hsplit hleaf hnode r hr
    obtain ⟨v, he, hv⟩ := hnode _ _ _ _ l.leaves_ne_nil r.leaves_ne_nil h hv₁ hv₂
    exact ⟨v, by rw [eval, he₁, he₂]; exact he, hv⟩

end Bracketing

/-! ## Sequences with a first operand of another kind -/

variable {α : Type*} {p q : α → Prop}

/-- The first operand is a `p`, the others are `q`s. -/
def Led (p q : α → Prop) (l : List α) : Prop :=
  (∀ v ∈ l.head?, p v) ∧ ∀ v ∈ l.tail, q v

theorem Led.split (hpq : ∀ v, q v → p v) {l₁ l₂ : List α} (h : Led p q (l₁ ++ l₂)) :
    Led p q l₁ ∧ Led p q l₂ ∧ (l₁ ≠ [] → ∀ v ∈ l₂, q v) := by
  obtain ⟨hhead, htail⟩ := h
  cases l₁ with
  | nil => exact ⟨⟨by simp, by simp⟩, ⟨hhead, htail⟩, by simp⟩
  | cons b l₁ =>
    have hright : ∀ v ∈ l₂, q v := fun v hv => htail v (List.mem_append_right _ hv)
    refine ⟨⟨hhead, fun v hv => htail v (List.mem_append_left _ hv)⟩,
      ⟨fun v hv => ?_, fun v hv => ?_⟩, fun _ => hright⟩
    · exact hpq v (hright v (List.mem_of_mem_head? hv))
    · exact hright v (List.mem_of_mem_tail hv)

/-! ## The earliest of the greatest -/

section EarliestMax

variable {β ε : Type*} [Preorder β] {key : α → β} {l l₁ l₂ : List α} {v w : α}

/-- The operands before `v` have smaller keys, and those after it have no greater ones. -/
def EarliestMax (key : α → β) (l : List α) (v : α) : Prop :=
  ∃ before after, l = before ++ v :: after ∧ (∀ w ∈ before, key w < key v) ∧
    ∀ w ∈ after, key w ≤ key v

namespace EarliestMax

theorem singleton (key : α → β) (v : α) : EarliestMax key [v] v :=
  ⟨[], [], rfl, by simp, by simp⟩

theorem mem (h : EarliestMax key l v) : v ∈ l := by
  obtain ⟨before, after, rfl, -, -⟩ := h
  exact List.mem_append_right _ List.mem_cons_self

theorem le (h : EarliestMax key l v) (hw : w ∈ l) : key w ≤ key v := by
  obtain ⟨before, after, rfl, hbefore, hafter⟩ := h
  rcases List.mem_append.mp hw with hw | hw
  · exact (hbefore w hw).le
  · rcases List.mem_cons.mp hw with rfl | hw
    · exact le_rfl
    · exact hafter w hw

/-- The one of the operands on the left stays unless a greater one follows. -/
theorem append_left (h₁ : EarliestMax key l₁ v) (h₂ : EarliestMax key l₂ w)
    (hle : key w ≤ key v) : EarliestMax key (l₁ ++ l₂) v := by
  obtain ⟨before, after, rfl, hbefore, hafter⟩ := h₁
  refine ⟨before, after ++ l₂, by simp, hbefore, List.forall_mem_append.mpr ⟨hafter, ?_⟩⟩
  exact fun u hu => (h₂.le hu).trans hle

theorem append_right (h₁ : EarliestMax key l₁ v) (h₂ : EarliestMax key l₂ w)
    (hlt : key v < key w) : EarliestMax key (l₁ ++ l₂) w := by
  obtain ⟨before, after, rfl, hbefore, hafter⟩ := h₂
  refine ⟨l₁ ++ before, after, by simp, List.forall_mem_append.mpr ⟨?_, hbefore⟩, hafter⟩
  exact fun u hu => (h₁.le hu).trans_lt hlt

end EarliestMax

/-- An operation that keeps the left operand unless the right one has the greater key picks
the earliest of the greatest in every bracketing. -/
theorem Bracketing.eval_earliestMax {op : α → α → Except ε α}
    (hop : ∀ v w, p v → p w →
      (key w ≤ key v ∧ op v w = .ok v) ∨ (key v < key w ∧ op v w = .ok w)) (t : Bracketing α)
    (h : ∀ v ∈ t.leaves, p v) : ∃ v, t.eval op = .ok v ∧ EarliestMax key t.leaves v := by
  refine @eval_spec _ _ op (fun l => ∀ v ∈ l, p v) (EarliestMax key) ?_ ?_ ?_ t h
  · exact fun l₁ l₂ hg => List.forall_mem_append.mp hg
  · exact fun v _ => .singleton key v
  · intro l₁ l₂ v₁ v₂ _ _ hg h₁ h₂
    have hg' := List.forall_mem_append.mp hg
    rcases hop v₁ v₂ (hg'.1 v₁ h₁.mem) (hg'.2 v₂ h₂.mem) with ⟨hle, hv⟩ | ⟨hlt, hv⟩
    · exact ⟨v₁, hv, h₁.append_left h₂ hle⟩
    · exact ⟨v₂, hv, h₁.append_right h₂ hlt⟩

end EarliestMax

end Corgi
