import Mathlib.Data.Finmap
import Mathlib.Algebra.BigOperators.Group.Multiset.Defs
import Mathlib.Data.Multiset.Bind

/-!
# Sums over finite maps

A finite map from names to states says where each party of a system stands. `total f` adds
up what `f` says of each, in any commutative monoid : how many parties are in some state, or
the multiset of what they hold. When one entry changes, the total changes by what `f` says of
that entry (`total_insert_of_lookup`), so a law of conservation over all parties is a
statement about the one that moves.
-/

namespace Corgi

variable {α : Type*} {β : α → Type*} {M : Type*} [AddCommMonoid M]

/-- The sum of `f` over the entries. -/
def total (f : ∀ a, β a → M) (m : Finmap β) : M :=
  (m.entries.map fun e => f e.1 e.2).sum

variable [DecidableEq α] {m : Finmap β} {a : α} {b : β a}

theorem total_insert_of_notMem (f : ∀ a, β a → M) (h : a ∉ m) :
    total f (m.insert a b) = f a b + total f m := by
  rw [total, Finmap.entries_insert_of_notMem h, Multiset.map_cons, Multiset.sum_cons, total]

theorem insert_erase (b' : β a) : (m.erase a).insert a b' = m.insert a b' := by
  refine Finmap.ext_lookup fun x => ?_
  by_cases hx : x = a
  · subst hx
    rw [Finmap.lookup_insert, Finmap.lookup_insert]
  · rw [Finmap.lookup_insert_of_ne _ hx, Finmap.lookup_insert_of_ne _ hx,
      Finmap.lookup_erase_ne hx]

theorem insert_of_lookup (h : m.lookup a = some b) : m.insert a b = m := by
  refine Finmap.ext_lookup fun x => ?_
  by_cases hx : x = a
  · subst hx
    rw [Finmap.lookup_insert, h]
  · rw [Finmap.lookup_insert_of_ne _ hx]

theorem entries_of_lookup (h : m.lookup a = some b) :
    m.entries = ⟨a, b⟩ ::ₘ (m.erase a).entries := by
  rw [← Finmap.entries_insert_of_notMem Finmap.notMem_erase_self, insert_erase,
    insert_of_lookup h]

theorem total_of_lookup (f : ∀ a, β a → M) (h : m.lookup a = some b) :
    total f m = f a b + total f (m.erase a) := by
  rw [total, entries_of_lookup h, Multiset.map_cons, Multiset.sum_cons, total]

/-- The entry of `a` changes from `b` to `b'`. -/
theorem total_insert_of_lookup (f : ∀ a, β a → M) (h : m.lookup a = some b) (b' : β a) :
    total f (m.insert a b') + f a b = total f m + f a b' := by
  rw [total_of_lookup f h, ← insert_erase b',
    total_insert_of_notMem f Finmap.notMem_erase_self, add_right_comm, add_comm (f a b'),
    add_right_comm, add_comm (f a b)]

theorem mem_entries_iff {e : Sigma β} : e ∈ m.entries ↔ m.lookup e.1 = some e.2 := by
  induction m using Finmap.induction_on with
  | H l => exact AList.mem_lookup_iff.symm

/-- What is there after an erasure was there before. -/
theorem lookup_of_erase {x : α} {c : β x} (h : (m.erase a).lookup x = some c) :
    m.lookup x = some c := by
  have hne : x ≠ a := by
    rintro rfl
    rw [Finmap.lookup_erase] at h
    exact absurd h nofun
  rwa [Finmap.lookup_erase_ne hne] at h

theorem keys_insert_of_notMem (h : a ∉ m) (b' : β a) :
    (m.insert a b').keys.val = a ::ₘ m.keys.val := by
  have hkeys : (m.insert a b').keys = insert a m.keys := by
    ext x
    rw [Finmap.mem_keys, Finmap.mem_insert, Finset.mem_insert, Finmap.mem_keys]
  rw [hkeys, Finset.insert_val_of_notMem (mt Finmap.mem_keys.mp h)]

theorem keys_of_mem (h : a ∈ m) : m.keys.val = a ::ₘ (m.erase a).keys.val := by
  rw [Finmap.keys_erase, Finset.erase_val, Multiset.cons_erase (Finmap.mem_keys.mpr h)]

section Multiset

variable {γ : Type*}

/-- What the parties hold together is what one of them holds. -/
theorem mem_total {f : ∀ a, β a → Multiset γ} {x : γ} :
    x ∈ total f m ↔ ∃ a b, m.lookup a = some b ∧ x ∈ f a b := by
  rw [total, ← Multiset.join, ← Multiset.bind, Multiset.mem_bind]
  constructor
  · rintro ⟨e, he, hx⟩
    exact ⟨e.1, e.2, mem_entries_iff.mp he, hx⟩
  · rintro ⟨a, b, hab, hx⟩
    exact ⟨⟨a, b⟩, mem_entries_iff.mpr hab, hx⟩

variable (p : ∀ a, β a → Prop) [∀ a b, Decidable (p a b)]

/-- The names of the parties of which `p` holds. -/
def names (m : Finmap β) : Multiset α :=
  total (fun a b => if p a b then {a} else 0) m

theorem names_insert_of_notMem (h : a ∉ m) (hp : ¬p a b) : names p (m.insert a b) = names p m := by
  rw [names, total_insert_of_notMem _ h, if_neg hp, zero_add, names]

theorem mem_names {x : α} : x ∈ names p m ↔ ∃ b, m.lookup x = some b ∧ p x b := by
  rw [names, mem_total]
  constructor
  · rintro ⟨a, b, hab, hx⟩
    split_ifs at hx with hp
    · obtain rfl := Multiset.mem_singleton.mp hx
      exact ⟨b, hab, hp⟩
    · exact absurd hx (Multiset.notMem_zero x)
  · rintro ⟨b, hb, hp⟩
    exact ⟨x, b, hb, by rw [if_pos hp]; exact Multiset.mem_singleton_self x⟩

theorem nodup_names : (names p m).Nodup := by
  rw [Multiset.nodup_iff_count_le_one]
  intro a
  have hrest : Multiset.count a (names p (m.erase a)) = 0 := by
    refine Multiset.count_eq_zero.mpr fun ha => ?_
    obtain ⟨b, hb, -⟩ := (mem_names p).mp ha
    rw [Finmap.lookup_erase] at hb
    exact absurd hb nofun
  cases hb : m.lookup a with
  | none =>
    rw [Multiset.count_eq_zero.mpr]
    · exact Nat.zero_le 1
    · intro ha
      obtain ⟨b, hb', -⟩ := (mem_names p).mp ha
      exact absurd (hb.symm.trans hb') nofun
  | some b =>
    rw [names, total_of_lookup _ hb, Multiset.count_add, ← names, hrest]
    split_ifs
    · rw [Multiset.count_singleton_self]
    · rw [Multiset.count_zero]
      exact Nat.zero_le 1

end Multiset

end Corgi
