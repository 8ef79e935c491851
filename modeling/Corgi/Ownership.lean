import Mathlib.Algebra.BigOperators.Group.Finset.Basic
import Corgi.NextFit
import Corgi.Runs

/-!
# Ownership of blocks

`Owns a m` says that the allocated blocks of `a` are exactly the members of `m`, each
counted once. An allocation adds the blocks it returns (`Owns.allocate`), and blocks that
are owned can be given back in any cut (`Owns.release`).

Clients that share one allocator and release only what they hold therefore never hold a
block twice, and what is available and what is held add up to the whole device, in every
interleaving of their calls (`exclusive_ownership`). Each method is one step, since it
holds the allocator's lock.
-/

set_option linter.unusedSectionVars false

namespace Corgi

namespace AllocatorV3

/-- The allocated blocks of `a` are the members of `m`, each owned once. -/
structure Owns (a : AllocatorV3) (m : Multiset ℕ) : Prop where
  inv : 0 < a.total → a.Inv
  nodup : m.Nodup
  mem_iff : ∀ b, b ∈ m ↔ b < a.total ∧ a.isFree b = false
  available : a.available + m.card = a.total

variable {a : AllocatorV3} {m : Multiset ℕ}

/-- The blocks that are not free, as a multiset, are as many as `available` leaves. -/
theorem Inv.owns (h : a.Inv) (hnodup : m.Nodup)
    (hmem : ∀ b, b ∈ m ↔ b < a.total ∧ a.isFree b = false) : Owns a m := by
  refine ⟨fun _ => h, hnodup, hmem, ?_⟩
  have hm : m = ((List.range a.total).filter fun b => !a.isFree b : List ℕ) := by
    refine (Multiset.Nodup.ext hnodup ?_).mpr fun b => ?_
    · exact Multiset.coe_nodup.mpr (List.nodup_range.filter _)
    · rw [hmem, Multiset.mem_coe, List.mem_filter, List.mem_range, Bool.not_eq_true']
  have hcount := countP_add_countP_not a.isFree (List.range a.total)
  rw [List.length_range] at hcount
  rw [hm, Multiset.coe_card, ← List.countP_eq_length_filter, h.available_eq, freeCount]
  exact_mod_cast hcount

theorem owns_newAllocatorV3 (n : ℕ) : Owns (newAllocatorV3 n) 0 := by
  rcases Nat.eq_zero_or_pos n with rfl | hn
  · exact ⟨fun h => absurd h (by decide), Multiset.nodup_zero, fun b => by simp [newAllocatorV3],
      rfl⟩
  · refine (inv_newAllocatorV3 hn).owns Multiset.nodup_zero fun b => ?_
    rw [total_newAllocatorV3 hn, isFree_newAllocatorV3 hn, decide_eq_false_iff_not]
    simp

theorem Owns.total_pos (h : Owns a m) {want : ℤ} (h₁ : 1 ≤ want) (h₂ : want ≤ a.available) :
    0 < a.total := by
  have := h.available
  omega

/-- A successful allocation adds the blocks it returns, and they are new. -/
theorem Owns.allocate (h : Owns a m) {want : ℤ} {results : List Result}
    (hok : (a.allocate want).2 = .ok results) :
    Owns (a.allocate want).1 (m + blocksOf results) ∧ (a.allocate want).1.total = a.total ∧
      (∀ r ∈ results, a.Contains r) ∧ ((blocksOf results).length : ℤ) = want := by
  have hw : 1 ≤ want ∧ want ≤ a.available := by
    by_contra hw
    obtain ⟨e, he, -⟩ := allocate_of_not_le hw
    rw [he] at hok
    simp at hok
  have hinv := h.inv (h.total_pos hw.1 hw.2)
  obtain ⟨results', hok', ha⟩ := allocate_of_le hinv hw.1 hw.2
  obtain rfl : results' = results := Except.ok.inj (hok'.symm.trans hok)
  have hfree : ∀ b ∈ blocksOf results', a.isFree b = true := fun b hb => by
    rw [ha.blocks] at hb
    exact free_of_mem_nextFit hb
  have hlt : ∀ b ∈ blocksOf results', b < a.total := fun b hb => by
    obtain ⟨r, hr, hb⟩ := mem_blocksOf.mp hb
    exact (ha.contains r hr).lt_total hb
  have hlen : ((blocksOf results').length : ℤ) = want := by
    rw [ha.blocks, length_nextBlocks hinv _ (by omega)]
    omega
  refine ⟨(ha.inv hinv).owns ?_ fun b => ?_, ha.total, ha.contains, hlen⟩
  · rw [Multiset.nodup_add]
    refine ⟨h.nodup, ?_, ?_⟩
    · rw [Multiset.coe_nodup, ha.blocks]
      exact nodup_nextFit hinv.lastPos_lt.le _ _
    · rw [Multiset.disjoint_left]
      intro b hb hb'
      have hf := hfree b (Multiset.mem_coe.mp hb')
      rw [((h.mem_iff b).mp hb).2] at hf
      exact Bool.false_ne_true hf
  · rw [Multiset.mem_add, h.mem_iff, Multiset.mem_coe, ha.total, ha.isFree,
      Bool.and_eq_false_iff, decide_eq_false_iff_not, not_not]
    constructor
    · rintro (⟨h1, h2⟩ | h1)
      · exact ⟨h1, Or.inl h2⟩
      · exact ⟨hlt b h1, Or.inr h1⟩
    · rintro ⟨h1, h2 | h2⟩
      · exact Or.inl ⟨h1, h2⟩
      · exact Or.inr h2

theorem Owns.allocate_error (h : Owns a m) {want : ℤ} {e : AllocError}
    (herr : (a.allocate want).2 = .error e) : (a.allocate want).1 = a := by
  by_cases hw : 1 ≤ want ∧ want ≤ a.available
  · obtain ⟨results, hok, -⟩ := allocate_of_le (h.inv (h.total_pos hw.1 hw.2)) hw.1 hw.2
    rw [hok] at herr
    simp at herr
  · obtain ⟨e', he, -⟩ := allocate_of_not_le hw
    rw [he]

/-- Extents that cover owned blocks, each once, are released. -/
theorem Owns.release {kept : Multiset ℕ} {results : List Result}
    (h : Owns a (blocksOf results + kept)) (hn : a.total < 2 ^ 63)
    (hpos : ∀ r ∈ results, 0 ≤ r.offset ∧ 0 < r.size) :
    (a.release results).2 = .ok () ∧ Owns (a.release results).1 kept ∧
      (a.release results).1.total = a.total := by
  by_cases hnil : results = []
  · subst hnil
    rw [AllocatorV3.release, if_pos rfl]
    rw [blocksOf_nil, Multiset.coe_nil, zero_add] at h
    exact ⟨rfl, h, rfl⟩
  · obtain ⟨hnodup, hnodup', hdisj⟩ := Multiset.nodup_add.mp h.nodup
    have hmem : ∀ b ∈ blocksOf results, b < a.total ∧ a.isFree b = false := fun b hb =>
      (h.mem_iff b).mp (Multiset.mem_add.mpr (Or.inl (Multiset.mem_coe.mpr hb)))
    have hc : ∀ r ∈ results, a.Contains r := fun r hr =>
      ⟨(hpos r hr).1, (hpos r hr).2, add_size_le_of_lt hpos (fun b hb => (hmem b hb).1) r hr⟩
    obtain ⟨r, hr⟩ := List.exists_mem_of_ne_nil _ hnil
    have hinv := h.inv (hc r hr).total_pos
    obtain ⟨hok, htotal, -, hfree⟩ := release_of_allocated hinv hn hc
      (fun b hb => (hmem b hb).2) (Multiset.coe_nodup.mp hnodup)
    have hbounded : ∀ r ∈ results, r.Bounded := fun r hr => (hc r hr).bounded hn
    refine ⟨hok, (kept_release hinv hbounded).toInv.owns hnodup' fun b => ?_, htotal⟩
    rw [htotal, hfree, Bool.or_eq_false_iff, decide_eq_false_iff_not, ← and_assoc, ← h.mem_iff,
      Multiset.mem_add, Multiset.mem_coe]
    constructor
    · intro hb
      exact ⟨Or.inr hb, fun hb' => Multiset.disjoint_left.mp hdisj (Multiset.mem_coe.mpr hb') hb⟩
    · rintro ⟨hb | hb, hb'⟩
      · exact absurd hb hb'
      · exact hb

end AllocatorV3

/-! ## Clients that share an allocator -/

section Clients

variable {C : Type*} [DecidableEq C]

/-- An allocator and the extents each client holds. -/
structure Clients (C : Type*) where
  allocator : AllocatorV3
  held : C → List Result

/-- A call of a client. With `release` goes the cut of what the client keeps. -/
inductive ClientCall (C : Type*)
  | allocate (c : C) (want : ℤ)
  | release (c : C) (released kept : List Result)

/-- The extents held are cut into those released and those kept : every block goes to one
side. -/
def Splits (held released kept : List Result) : Prop :=
  (∀ r ∈ released ++ kept, 0 ≤ r.offset ∧ 0 < r.size) ∧
    (blocksOf released ++ blocksOf kept).Perm (blocksOf held)

instance (held released kept : List Result) : Decidable (Splits held released kept) :=
  inferInstanceAs (Decidable (_ ∧ _))

/-- One call. A client releases only blocks it holds. -/
def Clients.Step (s : Clients C) : ClientCall C → Clients C → Prop
  | .allocate c want, t => t = match s.allocator.allocate want with
    | (a, .ok results) => ⟨a, Function.update s.held c (s.held c ++ results)⟩
    | (a, .error _) => ⟨a, s.held⟩
  | .release c released kept, t => Splits (s.held c) released kept ∧
    t = ⟨(s.allocator.release released).1, Function.update s.held c kept⟩

/-- Clients of a new allocator of `n` blocks hold nothing. -/
def Clients.start (C : Type*) (n : ℕ) : Clients C :=
  ⟨AllocatorV3.newAllocatorV3 n, fun _ => []⟩

variable [Fintype C]

/-- All blocks held. -/
def Clients.heldBlocks (s : Clients C) : Multiset ℕ :=
  ∑ c, (blocksOf (s.held c) : Multiset ℕ)

/-- The blocks held by the clients other than `c`. -/
def Clients.othersBlocks (s : Clients C) (c : C) : Multiset ℕ :=
  ∑ d ∈ Finset.univ.erase c, (blocksOf (s.held d) : Multiset ℕ)

theorem Clients.heldBlocks_eq (s : Clients C) (c : C) :
    s.heldBlocks = blocksOf (s.held c) + s.othersBlocks c :=
  (Finset.add_sum_erase _ _ (Finset.mem_univ c)).symm

theorem Clients.heldBlocks_update (s : Clients C) (c : C) (a : AllocatorV3)
    (results : List Result) :
    Clients.heldBlocks ⟨a, Function.update s.held c results⟩ =
      blocksOf results + s.othersBlocks c := by
  rw [heldBlocks_eq _ c, othersBlocks, othersBlocks]
  simp only [Function.update_self]
  congr 1
  refine Finset.sum_congr rfl fun d hd => ?_
  rw [Function.update_of_ne (Finset.ne_of_mem_erase hd)]

/-- The invariant of the clients of an allocator of `n` blocks. -/
structure Clients.Exclusive (n : ℕ) (s : Clients C) : Prop where
  owns : s.allocator.Owns s.heldBlocks
  total : s.allocator.total = n
  proper : ∀ c, ∀ r ∈ s.held c, 0 ≤ r.offset ∧ 0 < r.size

theorem Clients.exclusive_start (n : ℕ) : (Clients.start C n).Exclusive n := by
  refine ⟨?_, ?_, fun c r hr => absurd hr (by simp [start])⟩
  · simpa [heldBlocks, start] using AllocatorV3.owns_newAllocatorV3 n
  · rcases Nat.eq_zero_or_pos n with rfl | hn
    · rfl
    · exact AllocatorV3.total_newAllocatorV3 hn

/-- Releasing blocks that a client holds succeeds. -/
theorem Clients.Exclusive.release {n : ℕ} {s : Clients C} (h : s.Exclusive n) (hn : n < 2 ^ 63)
    {c : C} {released kept : List Result} (hs : Splits (s.held c) released kept) :
    (s.allocator.release released).2 = .ok () ∧
      Clients.Exclusive n (⟨(s.allocator.release released).1, Function.update s.held c kept⟩ :
        Clients C) := by
  obtain ⟨hproper, hperm⟩ := hs
  have hblocks : s.heldBlocks = blocksOf released + (blocksOf kept + s.othersBlocks c) := by
    rw [s.heldBlocks_eq c, ← Multiset.coe_eq_coe.mpr hperm, ← Multiset.coe_add, add_assoc]
  obtain ⟨hok, howns, htotal⟩ := (hblocks ▸ h.owns).release (by rw [h.total]; exact hn)
    fun r hr => hproper r (List.mem_append_left _ hr)
  refine ⟨hok, ?_, htotal.trans h.total, fun d r hr => ?_⟩
  · rw [heldBlocks_update]
    exact howns
  · simp only [Function.update_apply] at hr
    split_ifs at hr
    · exact hproper r (List.mem_append_right _ hr)
    · exact h.proper d r hr

theorem Clients.Exclusive.step {n : ℕ} (hn : n < 2 ^ 63) {s t : Clients C} {e : ClientCall C}
    (h : s.Exclusive n) (hstep : s.Step e t) : t.Exclusive n := by
  cases e with
  | allocate c want =>
    obtain rfl := hstep
    cases hres : (s.allocator.allocate want).2 with
    | error e =>
      have ha := h.owns.allocate_error hres
      rw [← Prod.mk.eta (p := s.allocator.allocate want), hres, ha]
      exact h
    | ok results =>
      obtain ⟨howns, htotal, hc, -⟩ := h.owns.allocate hres
      rw [← Prod.mk.eta (p := s.allocator.allocate want), hres]
      refine ⟨?_, htotal.trans h.total, fun d r hr => ?_⟩
      · rw [heldBlocks_update, blocksOf_append, ← Multiset.coe_add, add_right_comm,
          ← s.heldBlocks_eq c]
        exact howns
      · simp only [Function.update_apply] at hr
        split_ifs at hr
        · rcases List.mem_append.mp hr with hr | hr
          · exact h.proper c r hr
          · exact ⟨(hc r hr).1, (hc r hr).2.1⟩
        · exact h.proper d r hr
  | release c released kept =>
    obtain ⟨hs, rfl⟩ := hstep
    exact (h.release hn hs).2

/-- Whatever the interleaving of the clients' calls, the extents held are disjoint and on
the device, what a client holds it can release in any cut, and no block is lost. -/
theorem exclusive_ownership {n : ℕ} (hn : n < 2 ^ 63) {events : List (ClientCall C)}
    {s : Clients C} (h : Run Clients.Step (Clients.start C n) events s) :
    (∀ c, (s.held c).Pairwise fun r t => List.Disjoint r.blocks t.blocks) ∧
    (∀ c d, c ≠ d → ∀ r ∈ s.held c, ∀ t ∈ s.held d, List.Disjoint r.blocks t.blocks) ∧
    (∀ c, ∀ r ∈ s.held c, 0 ≤ r.offset ∧ 0 < r.size ∧ r.offset + r.size ≤ n) ∧
    (∀ c released kept, Splits (s.held c) released kept →
      (s.allocator.release released).2 = .ok ()) ∧
    s.allocator.available + ∑ c, ((s.held c).map Result.size).sum = n := by
  have hex : s.Exclusive n := h.invariant (fun t e u ht hstep => ht.step hn hstep)
    (Clients.exclusive_start n)
  have hmem : ∀ c, ∀ r ∈ s.held c, ∀ b ∈ r.blocks, b ∈ s.heldBlocks := by
    intro c r hr b hb
    rw [s.heldBlocks_eq c, Multiset.mem_add, Multiset.mem_coe]
    exact Or.inl (mem_blocksOf.mpr ⟨r, hr, hb⟩)
  refine ⟨fun c => ?_, fun c d hcd r hr t ht b hb hb' => ?_, fun c r hr => ?_,
    fun c released kept hs => (hex.release hn hs).1, ?_⟩
  · have hnodup := hex.owns.nodup
    rw [s.heldBlocks_eq c, Multiset.nodup_add] at hnodup
    exact nodup_blocksOf_iff.mp (Multiset.coe_nodup.mp hnodup.1)
  · have hnodup := hex.owns.nodup
    rw [s.heldBlocks_eq c, Multiset.nodup_add] at hnodup
    have hothers : b ∈ s.othersBlocks c :=
      Multiset.mem_sum.mpr ⟨d, Finset.mem_erase.mpr ⟨hcd.symm, Finset.mem_univ d⟩,
        Multiset.mem_coe.mpr (mem_blocksOf.mpr ⟨t, ht, hb'⟩)⟩
    exact Multiset.disjoint_left.mp hnodup.2.2
      (Multiset.mem_coe.mpr (mem_blocksOf.mpr ⟨r, hr, hb⟩)) hothers
  · obtain ⟨h1, h2⟩ := hex.proper c r hr
    obtain ⟨h3, -⟩ := (hex.owns.mem_iff _).mp (hmem c r hr (r.offset.toNat + r.size.toNat - 1)
      (Result.mem_blocks.mpr (by omega)))
    rw [hex.total] at h3
    exact ⟨h1, h2, by omega⟩
  · have hcard : (s.heldBlocks.card : ℤ) = ∑ c, ((s.held c).map Result.size).sum := by
      rw [Clients.heldBlocks, Multiset.card_sum]
      push_cast
      refine Finset.sum_congr rfl fun c _ => ?_
      rw [Multiset.coe_card, length_blocksOf (hex.proper c)]
    rw [← hcard, hex.owns.available, hex.total]

/-- Two clients of a device of 600 blocks : the first one releases the middle of its
extent. -/
theorem exclusive_ownership_two_clients : ∃ s : Clients (Fin 2),
    Run Clients.Step (Clients.start (Fin 2) 600) [.allocate 0 10, .allocate 1 5,
      .release 0 [⟨2, 3⟩] [⟨0, 2⟩, ⟨5, 5⟩]] s ∧
    s.allocator.available + ∑ c, ((s.held c).map Result.size).sum = 600 := by
  have hrun : ∃ s, Run Clients.Step (Clients.start (Fin 2) 600) [.allocate 0 10, .allocate 1 5,
      .release 0 [⟨2, 3⟩] [⟨0, 2⟩, ⟨5, 5⟩]] s :=
    ⟨_, Run.cons rfl (Run.cons rfl (Run.cons ⟨by decide +kernel, rfl⟩ Run.nil))⟩
  obtain ⟨s, hs⟩ := hrun
  exact ⟨s, hs, (exclusive_ownership (by decide) hs).2.2.2.2⟩

end Clients

end Corgi
