import Mathlib.Logic.Function.Basic
import Corgi.Bracketing

/-!
# Indexed write batches over a store with merge operands

A store keeps for each key the value last set and the merge operands after it, and folds
them when the key is read. A batch is a list of writes, read through to the store below
it. A program acts on a batch by reading and writing, and may fail.

Running a program on a batch over a store is the same as running it directly on the
store with the batch applied (`Prog.run_eq_exec`).
-/

namespace Corgi

variable {K V ε δ α β : Type}

/-! ## Stores -/

/-- For each key what is stored, oldest first : the value last set or nothing, and the
merge operands since. -/
abbrev Store (K V : Type) := K → List V

/-- A write. -/
inductive WriteOp (K V : Type)
  | set (key : K) (value : V)
  | delete (key : K)
  | merge (key : K) (value : V)
  deriving DecidableEq, Repr

/-- The key a write is to. -/
def WriteOp.key : WriteOp K V → K
  | set key _ => key
  | delete key => key
  | merge key _ => key

/-- What a write makes of what is stored under its key. -/
def WriteOp.act : WriteOp K V → List V → List V
  | set _ value, _ => [value]
  | delete _, _ => []
  | merge _ value, l => l ++ [value]

section

variable [DecidableEq K]

/-- The store after one operation. -/
def Store.apply (s : Store K V) (op : WriteOp K V) : Store K V :=
  Function.update s op.key (op.act (s op.key))

/-- Apply writes in order. -/
def Store.applyAll (s : Store K V) (ops : List (WriteOp K V)) : Store K V :=
  ops.foldl Store.apply s

theorem Store.applyAll_append (s : Store K V) (ops ops' : List (WriteOp K V)) :
    s.applyAll (ops ++ ops') = (s.applyAll ops).applyAll ops' :=
  List.foldl_append

theorem Store.apply_of_ne (s : Store K V) {op : WriteOp K V} {k : K} (h : k ≠ op.key) :
    s.apply op k = s k :=
  Function.update_of_ne h _ _

theorem Store.applyAll_of_forall_ne {k : K} : ∀ {ops : List (WriteOp K V)} (s : Store K V),
    (∀ op ∈ ops, k ≠ op.key) → s.applyAll ops k = s k
  | [], _, _ => rfl
  | op :: ops, s, h => by
    rw [applyAll, List.foldl_cons]
    exact (applyAll_of_forall_ne _ fun op' h' => h op' (List.mem_cons_of_mem _ h')).trans
      (s.apply_of_ne (h op List.mem_cons_self))

/-- What is stored stays when nothing is deleted. -/
theorem Store.ne_nil_applyAll {k : K} : ∀ {ops : List (WriteOp K V)} {s : Store K V},
    (∀ op ∈ ops, ∀ k, op ≠ .delete k) → s k ≠ [] → s.applyAll ops k ≠ []
  | [], _, _, hs => hs
  | op :: ops, s, h, hs => by
    rw [applyAll, List.foldl_cons]
    refine ne_nil_applyAll (fun op' h' => h op' (List.mem_cons_of_mem _ h')) ?_
    by_cases hk : k = op.key
    · subst hk
      rw [apply, Function.update_self]
      cases op with
      | set key value => exact List.cons_ne_nil _ _
      | delete key => exact absurd rfl (h (.delete key) List.mem_cons_self key)
      | merge key value => exact List.append_ne_nil_of_right_ne_nil _ (List.cons_ne_nil _ _)
    · rwa [s.apply_of_ne hk]

/-- Merges add operands. -/
theorem Store.exists_applyAll_merges {P : V → Prop} {k : K} : ∀ {ops : List (WriteOp K V)}
    (s : Store K V), (∀ op ∈ ops, ∃ key v, op = .merge key v ∧ P v) →
    ∃ operands, s.applyAll ops k = s k ++ operands ∧ ∀ v ∈ operands, P v
  | [], s, _ => ⟨[], (List.append_nil _).symm, by simp⟩
  | op :: ops, s, h => by
    obtain ⟨key, v, rfl, hv⟩ := h op List.mem_cons_self
    obtain ⟨operands, heq, hP⟩ := exists_applyAll_merges (s.apply (.merge key v))
      fun op' h' => h op' (List.mem_cons_of_mem _ h')
    by_cases hk : k = key
    · subst hk
      refine ⟨v :: operands, heq.trans ?_, List.forall_mem_cons.mpr ⟨hv, hP⟩⟩
      rw [apply, WriteOp.key, WriteOp.act, Function.update_self, List.append_assoc,
        List.singleton_append]
    · exact ⟨operands, heq.trans (by rw [s.apply_of_ne hk]), hP⟩

/-- What is stored under a key depends only on what was. -/
theorem Store.applyAll_congr {k : K} : ∀ (ops : List (WriteOp K V)) {s s' : Store K V},
    s k = s' k → s.applyAll ops k = s'.applyAll ops k
  | [], _, _, h => h
  | op :: ops, s, s', h => by
    refine applyAll_congr ops ?_
    by_cases hk : k = op.key
    · subst hk
      rw [apply, apply, Function.update_self, Function.update_self, h]
    · rw [s.apply_of_ne hk, s'.apply_of_ne hk, h]

end

/-- Read a key : fold its operands, oldest to newest. -/
def Store.get (merge : K → V → V → Except ε V) (s : Store K V) (key : K) :
    Except ε (Option V) :=
  match s key with
  | [] => .ok none
  | v :: operands => (operands.foldlM (merge key) v).map some

/-- What reading a key may give when neighbouring operands may have been merged before. -/
def Store.Reads (merge : K → V → V → Except ε V) (s : Store K V) (key : K)
    (r : Except ε (Option V)) : Prop :=
  (s key = [] ∧ r = .ok none) ∨
    ∃ t : Bracketing V, t.leaves = s key ∧ r = (t.eval (merge key)).map some

theorem Store.reads_get (merge : K → V → V → Except ε V) (s : Store K V) (key : K) :
    s.Reads merge key (s.get merge key) := by
  rw [Reads, get]
  cases s key with
  | nil => exact Or.inl ⟨rfl, rfl⟩
  | cons v vs =>
    exact Or.inr ⟨.ofLeft v vs, Bracketing.leaves_ofLeft v vs, by rw [Bracketing.eval_ofLeft]⟩

/-! ## Programs -/

/-- A program that acts through a batch. -/
inductive Prog (K V ε δ α : Type)
  | pure (a : α)
  | fail (e : δ)
  | get (key : K) (next : Except ε (Option V) → Prog K V ε δ α)
  | write (op : WriteOp K V) (next : Prog K V ε δ α)

namespace Prog

/-- Go on with `f` after a program that has not failed. -/
def bind : Prog K V ε δ α → (α → Prog K V ε δ β) → Prog K V ε δ β
  | .pure a, f => f a
  | .fail e, _ => .fail e
  | .get key next, f => .get key fun v => (next v).bind f
  | .write op next, f => .write op (next.bind f)

instance : Monad (Prog K V ε δ) where
  pure := .pure
  bind := .bind

/-- A single write. -/
def put (op : WriteOp K V) : Prog K V ε δ Unit :=
  .write op (.pure ())

/-- Run one program after another on each element. -/
def forEach (l : List β) (f : β → Prog K V ε δ Unit) : Prog K V ε δ Unit :=
  l.foldr (fun b p => f b >>= fun _ => p) (.pure ())

variable [DecidableEq K] (merge : K → V → V → Except ε V)

/-- Run directly on a store. -/
def exec : Prog K V ε δ α → Store K V → Store K V × Except δ α
  | .pure a, s => (s, .ok a)
  | .fail e, s => (s, .error e)
  | .get key next, s => (next (s.get merge key)).exec s
  | .write op next, s => next.exec (s.apply op)

/-- Run on a batch over a store. -/
def run : Prog K V ε δ α → Store K V → List (WriteOp K V) → List (WriteOp K V) × Except δ α
  | .pure a, _, b => (b, .ok a)
  | .fail e, _, b => (b, .error e)
  | .get key next, s, b => (next ((s.applyAll b).get merge key)).run s b
  | .write op next, s, b => next.run s (b ++ [op])

/-- An indexed batch reads its own writes : staging a program's writes and applying them
later is running the program. -/
theorem run_eq_exec : ∀ (p : Prog K V ε δ α) (s : Store K V) (b : List (WriteOp K V)),
    s.applyAll (p.run merge s b).1 = (p.exec merge (s.applyAll b)).1 ∧
      (p.run merge s b).2 = (p.exec merge (s.applyAll b)).2
  | .pure _, _, _ => ⟨rfl, rfl⟩
  | .fail _, _, _ => ⟨rfl, rfl⟩
  | .get key next, s, b => run_eq_exec (next ((s.applyAll b).get merge key)) s b
  | .write op next, s, b => by
    have h := run_eq_exec next s (b ++ [op])
    rw [Store.applyAll_append] at h
    exact h

variable {merge}

@[simp] theorem exec_pure (a : α) (s : Store K V) :
    (Pure.pure a : Prog K V ε δ α).exec merge s = (s, .ok a) :=
  rfl

@[simp] theorem exec_get (key : K) (next : Except ε (Option V) → Prog K V ε δ α)
    (s : Store K V) : (Prog.get key next).exec merge s = (next (s.get merge key)).exec merge s :=
  rfl

theorem exec_bind : ∀ (p : Prog K V ε δ α) (f : α → Prog K V ε δ β) (s : Store K V),
    (p >>= f).exec merge s = match p.exec merge s with
      | (t, .ok a) => (f a).exec merge t
      | (t, .error e) => (t, .error e)
  | .pure _, _, _ => rfl
  | .fail _, _, _ => rfl
  | .get key next, f, s => exec_bind (next (s.get merge key)) f s
  | .write op next, f, s => exec_bind next f (s.apply op)

/-- Programs that each apply their writes, one after another. -/
theorem exec_forEach {f : β → Prog K V ε δ Unit} {writes : β → List (WriteOp K V)} :
    ∀ {l : List β} (_ : ∀ b ∈ l, ∀ s, (f b).exec merge s = (s.applyAll (writes b), .ok ()))
      (s : Store K V), (forEach l f).exec merge s = (s.applyAll (l.flatMap writes), .ok ())
  | [], _, _ => rfl
  | b :: l, h, s => by
    rw [forEach, List.foldr_cons, exec_bind, h b List.mem_cons_self s, List.flatMap_cons,
      Store.applyAll_append]
    exact exec_forEach (fun b' h' => h b' (List.mem_cons_of_mem _ h')) _

end Prog

end Corgi
