import Mathlib.Data.List.Basic

/-!
# Edits of a bit

An edit sets a bit, clears it or leaves it. Two edits are combined before the bit is known
by `Edit.comp` : equal ones are one, and a set and a clear cancel in either order.

Combining is right exactly when a cancelled pair leaves the bit as it was
(`Edit.act_comp_iff`). So it is for edits each of which changes the bit it touches
(`Edit.composes_effective`), and for edits that all do the same (`Edit.composes_uniform`).
Under such a condition an edit combined in any way stands for the sequence it was combined
from (`Edit.Stands.comp`).
-/

namespace Corgi

/-- What happens to a bit. -/
inductive Edit
  | keep
  | set
  | clear
  deriving DecidableEq, Repr

namespace Edit

/-- Apply an edit. -/
def act : Edit → Bool → Bool
  | keep, b => b
  | set, _ => true
  | clear, _ => false

/-- Combine an edit with a later one. -/
def comp : Edit → Edit → Edit
  | keep, f => f
  | e, keep => e
  | set, set => set
  | clear, clear => clear
  | set, clear => keep
  | clear, set => keep

/-- Apply edits in order. -/
def actAll (b : Bool) (edits : List Edit) : Bool :=
  edits.foldl (fun b e => e.act b) b

theorem actAll_append (b : Bool) (l l' : List Edit) :
    actAll b (l ++ l') = actAll (actAll b l) l' :=
  List.foldl_append

/-- When combining first and applying after is applying twice. -/
theorem act_comp_iff (e f : Edit) (b : Bool) : (e.comp f).act b = f.act (e.act b) ↔
    (e = set → f = clear → b = false) ∧ (e = clear → f = set → b = true) := by
  cases e <;> cases f <;> cases b <;> decide

/-! ## Conditions under which edits combine -/

/-- Each edit meets `ok` with the bit it finds. -/
def Each (ok : Edit → Bool → Prop) : Bool → List Edit → Prop
  | _, [] => True
  | b, e :: edits => ok e b ∧ Each ok (e.act b) edits

/-- Edits that meet `ok` combine, and so do what they combine to. -/
def Composes (ok : Edit → Bool → Prop) : Prop :=
  ∀ e f b, ok e b → ok f (e.act b) → ok (e.comp f) b ∧ (e.comp f).act b = f.act (e.act b)

/-- The edit changes the bit or does not touch it. -/
def Effective (e : Edit) (b : Bool) : Prop :=
  e = keep ∨ e.act b = !b

/-- The edit is `e₀` or does not touch the bit. -/
def Uniform (e₀ e : Edit) (_ : Bool) : Prop :=
  e = keep ∨ e = e₀

instance (e : Edit) (b : Bool) : Decidable (e.Effective b) :=
  inferInstanceAs (Decidable (_ ∨ _))

instance (e₀ e : Edit) (b : Bool) : Decidable (Uniform e₀ e b) :=
  inferInstanceAs (Decidable (_ ∨ _))

variable {ok : Edit → Bool → Prop}

instance decidableEach [∀ e b, Decidable (ok e b)] :
    ∀ (b : Bool) (edits : List Edit), Decidable (Each ok b edits)
  | _, [] => isTrue trivial
  | b, e :: edits =>
    have := @decidableEach _ (e.act b) edits
    inferInstanceAs (Decidable (_ ∧ _))

theorem composes_effective : Composes Effective := by
  intro e f b he hf
  revert he hf
  cases e <;> cases f <;> cases b <;> decide

theorem composes_uniform (e₀ : Edit) : Composes (Uniform e₀) := by
  intro e f b he hf
  revert he hf
  cases e₀ <;> cases e <;> cases f <;> cases b <;> decide

theorem each_append {l' : List Edit} : ∀ {l : List Edit} {b : Bool},
    Each ok b (l ++ l') ↔ Each ok b l ∧ Each ok (actAll b l) l'
  | [], _ => (iff_of_eq (true_and _)).symm
  | e :: l, b => by
    rw [List.cons_append, Each, each_append, Each, and_assoc]
    rfl

theorem each_of_forall : ∀ {l : List Edit} {b : Bool}, (∀ e ∈ l, ∀ b, ok e b) → Each ok b l
  | [], _, _ => trivial
  | e :: _, b, h => ⟨h e List.mem_cons_self b,
      each_of_forall fun e he => h e (List.mem_cons_of_mem _ he)⟩

/-- Edits that set the bit or leave it. -/
theorem actAll_of_set : ∀ {l : List Edit}, (∀ e ∈ l, e = keep ∨ e = set) → ∀ b,
    actAll b l = (b || decide (set ∈ l))
  | [], _, b => by simp [actAll]
  | e :: l, h, b => by
    change actAll (e.act b) l = _
    rw [actAll_of_set fun f hf => h f (List.mem_cons_of_mem _ hf)]
    rcases h e List.mem_cons_self with rfl | rfl <;> simp [act]

/-- Effective edits flip the bit as often as they touch it. -/
theorem actAll_of_effective : ∀ {l : List Edit} {b : Bool}, Each Effective b l →
    actAll b l = (b ^^ decide (l.countP (· ≠ keep) % 2 = 1))
  | [], b, _ => by simp [actAll]
  | e :: l, b, h => by
    obtain ⟨he, hl⟩ := h
    change actAll (e.act b) l = _
    rw [actAll_of_effective hl, List.countP_cons]
    rcases he with rfl | he
    · simp [act]
    · rcases Nat.mod_two_eq_zero_or_one (l.countP (· ≠ keep)) with hm | hm <;>
        cases e <;> cases b <;> simp_all [act, Nat.add_mod]

/-- Where the edits `l` meet `ok`, `e` does and has their effect. -/
def Stands (ok : Edit → Bool → Prop) (l : List Edit) (e : Edit) : Prop :=
  ∀ b, Each ok b l → ok e b ∧ e.act b = actAll b l

theorem stands_singleton (e : Edit) : Stands ok [e] e :=
  fun _ h => ⟨h.1, rfl⟩

theorem Stands.comp (hok : Composes ok) {l l' : List Edit} {e e' : Edit} (h : Stands ok l e)
    (h' : Stands ok l' e') : Stands ok (l ++ l') (e.comp e') := by
  intro b hb
  obtain ⟨hl, hl'⟩ := each_append.mp hb
  obtain ⟨he, hact⟩ := h b hl
  rw [← hact] at hl'
  obtain ⟨he', hact'⟩ := h' _ hl'
  obtain ⟨hcomp, hcompact⟩ := hok e e' b he he'
  exact ⟨hcomp, by rw [hcompact, hact', hact, actAll_append]⟩

end Edit

end Corgi
