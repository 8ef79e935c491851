import Corgi.NextFit

/-!
# Exact errors, and restoring in any order

In every state that calls lead to, `release` succeeds exactly on extents that lie in the
allocator, are allocated and do not meet, `initAllocated` and `initFree` exactly on
ranges that lie in it, and a call that fails changes nothing (`errors_exact`).

The bits determine the rest of an allocator that keeps its invariant (`Inv.eq_of_isFree`) :
both summaries are codes of the bits, and `available` counts them. So restoring a list of
ranges leaves a state that depends on the union of the ranges only
(`restore_order_independent`).
-/

namespace Corgi

/-- The extent that two `int64` arguments name. -/
def extentOf (r : Int64 × Int64) : Result :=
  ⟨r.1.toInt, r.2.toInt⟩

theorem bounded_extentOf {extents : List (Int64 × Int64)} :
    ∀ r ∈ extents.map extentOf, r.Bounded := by
  intro r hr
  obtain ⟨s, -, rfl⟩ := List.mem_map.mp hr
  exact ⟨Int64.toInt_lt _, Int64.toInt_lt _⟩

namespace AllocatorV3

variable {a : AllocatorV3}

/-! ## The bits determine the state -/

theorem freeCount_eq_card (a : AllocatorV3) :
    a.freeCount = ((Finset.range a.total).filter fun b => a.isFree b = true).card := by
  rw [freeCount, List.countP_eq_length_filter,
    ← List.toFinset_card_of_nodup (List.Nodup.filter _ List.nodup_range)]
  refine congrArg Finset.card (Finset.ext fun b => ?_)
  rw [List.mem_toFinset, List.mem_filter, List.mem_range, Finset.mem_filter, Finset.mem_range]

theorem Summarised.l1_eq {a' : AllocatorV3} (h : a.Summarised) (h' : a'.Summarised)
    (ht : a'.total = a.total) (hlen : a'.l1.length = a.l1.length)
    (hfree : ∀ b, a'.isFree b = a.isFree b) : a'.l1 = a.l1 := by
  refine eq_of_entryAt_eq hlen fun e => ?_
  rcases Nat.lt_or_ge (512 * e) a.total with he | he
  · rw [h.l1 e he, h'.l1 e (ht ▸ he), slotsetEntry, slotsetEntry, ht]
    exact blocksEntry_congr fun b _ _ => hfree b
  · rw [h.l1_pad e he, h'.l1_pad e (ht ▸ he)]

theorem Summarised.l2_eq {a' : AllocatorV3} (h : a.Summarised) (h' : a'.Summarised)
    (hl1 : a'.l1 = a.l1) (hlen : a'.l2.length = a.l2.length) : a'.l2 = a.l2 := by
  refine eq_of_entryAt_eq hlen fun s => ?_
  rcases Nat.lt_or_ge (8 * s) a.l1.length with hs | hs
  · rw [h.l2 s hs, h'.l2 s (hl1 ▸ hs), l1SetEntry, l1SetEntry, hl1]
  · rw [h.l2_pad s hs, h'.l2_pad s (hl1 ▸ hs)]

/-- Two allocators with the same free blocks and the same `lastPos` are equal. -/
theorem Inv.eq_of_isFree {a' : AllocatorV3} (h : a.Inv) (h' : a'.Inv) (ht : a'.total = a.total)
    (hpos : a'.lastPos = a.lastPos) (hfree : ∀ b, a'.isFree b = a.isFree b) : a' = a := by
  have hlen0 : a'.l0.length = a.l0.length := by
    rw [h.shape.length_l0, h'.shape.length_l0, ht]
  have hlen1 : a'.l1.length = a.l1.length := by
    rw [h.shape.length_l1, h'.shape.length_l1, hlen0]
  have hlen2 : a'.l2.length = a.l2.length := by
    rw [h.shape.length_l2, h'.shape.length_l2, hlen1]
  have hl0 : a'.l0 = a.l0 := eq_of_bitAt_eq hlen0 hfree
  have hl1 := h.summarised.l1_eq h'.summarised ht hlen1 hfree
  have hl2 := h.summarised.l2_eq h'.summarised hl1 hlen2
  have hav : a'.available = a.available := by
    rw [h.available_eq, h'.available_eq, freeCount, freeCount, ht, funext hfree]
  cases a
  cases a'
  simp only at ht hpos hl0 hl1 hl2 hav
  rw [ht, hpos, hl0, hl1, hl2, hav]

/-! ## When `release` succeeds -/

/-- The extents lie in `[0, n)`, none of their blocks is free, and no two of them meet. -/
def Releasable (n : ℤ) (free : ℕ → Bool) (results : List Result) : Prop :=
  (∀ r ∈ results, 0 ≤ r.offset ∧ 0 < r.size ∧ r.offset + r.size ≤ n ∧
    ∀ b ∈ r.blocks, free b = false) ∧
  results.Pairwise fun r s => List.Disjoint r.blocks s.blocks

theorem Releasable.contains {results : List Result} (h : Releasable a.total a.isFree results) :
    ∀ r ∈ results, a.Contains r := fun r hr =>
  ⟨(h.1 r hr).1, (h.1 r hr).2.1, (h.1 r hr).2.2.1⟩

theorem Releasable.allocated {results : List Result} (h : Releasable a.total a.isFree results) :
    ∀ b ∈ blocksOf results, a.isFree b = false := by
  intro b hb
  obtain ⟨r, hr, hbr⟩ := mem_blocksOf.mp hb
  exact (h.1 r hr).2.2.2 b hbr

theorem release_of_ne_ok {results : List Result} (h : (a.release results).2 ≠ .ok ()) :
    (a.release results).1 = a := by
  unfold release at h ⊢
  split_ifs with hnil
  · rfl
  · rw [if_neg hnil] at h
    cases hv : a.validateRelease results with
    | error e => rfl
    | ok u =>
      cases ho : findOverlap results with
      | some p => rfl
      | none =>
        rw [hv, ho] at h
        exact absurd rfl h

theorem releasable_of_release (h : 0 < a.total → a.Inv) (hn : a.total < 2 ^ 63)
    {results : List Result} (hb : ∀ r ∈ results, r.Bounded)
    (hok : (a.release results).2 = .ok ()) : Releasable a.total a.isFree results := by
  unfold release at hok
  split_ifs at hok with hnil
  · subst hnil
    exact ⟨by simp, List.Pairwise.nil⟩
  · cases hv : a.validateRelease results with
    | error e => simp [hv] at hok
    | ok u =>
      have hvalid := contains_of_validateRelease hb hv
      cases ho : findOverlap results with
      | some p => simp [hv, ho] at hok
      | none =>
        refine ⟨fun r hr => ?_, ?_⟩
        · obtain ⟨hc, hfull⟩ := hvalid r hr
          have hinv := h hc.total_pos
          rw [rangeFullyAllocatedLocked_iff hinv.shape hc.inRange] at hfull
          refine ⟨hc.1, hc.2.1, hc.2.2, fun b hb => ?_⟩
          obtain ⟨h1, h2⟩ := Result.mem_blocks.mp hb
          exact hfull b h1 h2
        · rw [← nodup_blocksOf_iff]
          exact (findOverlap_eq_none_iff hn fun r hr => (hvalid r hr).1).mp ho

/-- What a `release` of releasable extents leaves. -/
structure Released (a : AllocatorV3) (results : List Result) (a' : AllocatorV3) : Prop where
  isFree : ∀ b, a'.isFree b = (a.isFree b || decide (b ∈ blocksOf results))
  available : a'.available = a.available + (results.map Result.size).sum
  lastPos : a'.lastPos = a.lastPos

/-- Freeing allocated blocks, none listed twice, adds their number to the free blocks. -/
theorem freeCount_of_freed {a' : AllocatorV3} (ht : a'.total = a.total) {blocks : List ℕ}
    (hin : ∀ b ∈ blocks, b < a.total) (halloc : ∀ b ∈ blocks, a.isFree b = false)
    (hnodup : blocks.Nodup)
    (hfree : ∀ b, a'.isFree b = (a.isFree b || decide (b ∈ blocks))) :
    a'.freeCount = a.freeCount + blocks.length := by
  have hdisj : Disjoint ((Finset.range a.total).filter fun b => a.isFree b = true)
      blocks.toFinset := by
    refine Finset.disjoint_left.mpr fun b hb hmem => ?_
    have hf := halloc b (List.mem_toFinset.mp hmem)
    exact Bool.false_ne_true (hf.symm.trans (Finset.mem_filter.mp hb).2)
  rw [freeCount_eq_card, freeCount_eq_card, ← List.toFinset_card_of_nodup hnodup,
    ← Finset.card_union_of_disjoint hdisj]
  refine congrArg Finset.card (Finset.ext fun b => ?_)
  rw [Finset.mem_filter, Finset.mem_union, Finset.mem_filter, Finset.mem_range, Finset.mem_range,
    List.mem_toFinset, ht, hfree, Bool.or_eq_true, decide_eq_true_eq]
  constructor
  · rintro ⟨hlt, hf | hmem⟩
    · exact Or.inl ⟨hlt, hf⟩
    · exact Or.inr hmem
  · rintro (⟨hlt, hf⟩ | hmem)
    · exact ⟨hlt, Or.inl hf⟩
    · exact ⟨hin b hmem, Or.inr hmem⟩

theorem released_release (h : 0 < a.total → a.Inv) (hn : a.total < 2 ^ 63)
    {results : List Result} (hr : Releasable a.total a.isFree results) :
    (a.release results).2 = .ok () ∧ Released a results (a.release results).1 := by
  cases results with
  | nil => exact ⟨rfl, fun b => by simp [release], by simp [release], rfl⟩
  | cons r rs =>
    have hinv := h (hr.contains r List.mem_cons_self).total_pos
    obtain ⟨hok, htot, hpos, hfree⟩ := release_of_allocated hinv hn hr.contains hr.allocated
      (nodup_blocksOf_iff.mpr hr.2)
    have hkept := kept_release hinv fun s hs => (hr.contains s hs).bounded hn
    have hcount := freeCount_of_freed htot (fun b hb => by
      obtain ⟨s, hs, hbs⟩ := mem_blocksOf.mp hb
      exact (hr.contains s hs).lt_total hbs) hr.allocated (nodup_blocksOf_iff.mpr hr.2) hfree
    refine ⟨hok, hfree, ?_, hpos⟩
    have hlen := length_blocksOf fun s hs => ⟨(hr.contains s hs).1, (hr.contains s hs).2.1⟩
    rw [hkept.available_eq, hcount, hinv.available_eq, Nat.cast_add, hlen]

/-! ## Exact errors -/

/-- Below 0 the number of blocks makes no difference. -/
theorem releasable_toNat {n : ℤ} {free : ℕ → Bool} {results : List Result} :
    Releasable n.toNat free results ↔ Releasable n free results := by
  refine and_congr_left fun _ => forall₂_congr fun r _ => ?_
  constructor
  · rintro ⟨h1, h2, h3, h4⟩
    exact ⟨h1, h2, by omega, h4⟩
  · rintro ⟨h1, h2, h3, h4⟩
    exact ⟨h1, h2, by omega, h4⟩

/-- What holds of a call that restores `r` : it fails exactly if `r` does not lie in
`[0, n)`, a failed call changes nothing, and the error `e` never occurs. -/
structure RestoreExact (n : ℤ) (r : Result) (e : AllocError) (a : AllocatorV3)
    (out : AllocatorV3 × Except AllocError Unit) : Prop where
  ok_iff : out.2 = .ok () ↔ 0 ≤ r.offset ∧ r.offset + r.size ≤ n
  unchanged : out.2 ≠ .ok () → out.1 = a
  unreachable : out.2 ≠ .error e

/-- A call is exact that accepts the ranges inside and rejects the others at once. -/
theorem restoreExact {n : ℤ} {r : Result} {e : AllocError}
    {out : AllocatorV3 × Except AllocError Unit} (ht : (a.total : ℤ) = max n 0) (hsize : 0 < r.size)
    (hin : a.Contains r → out.2 = .ok ())
    (hout : ¬a.Contains r → ∃ op, out = (a, .error (.invalidExtent op r.offset r.size a.total)))
    (he : ∀ op offset size total, e ≠ .invalidExtent op offset size total) :
    RestoreExact n r e a out := by
  have hiff : a.Contains r ↔ 0 ≤ r.offset ∧ r.offset + r.size ≤ n := by
    rw [Contains, ht]
    omega
  by_cases hc : a.Contains r
  · have hok := hin hc
    exact ⟨iff_of_true hok (hiff.mp hc), fun hne => absurd hok hne, by simp [hok]⟩
  · obtain ⟨op, rfl⟩ := hout hc
    refine ⟨iff_of_false (by simp) fun hc' => hc (hiff.mpr hc'), fun _ => rfl, fun heq => ?_⟩
    exact he _ _ _ _ (Except.error.inj heq).symm

/-- The errors of an allocator that calls lead to are exact. `release` succeeds exactly on
releasable extents, the empty list among them, and frees those. `initAllocated` and
`initFree` fail exactly on ranges outside, never on their counter. A call that fails
changes nothing. -/
theorem errors_exact {n : Int64} (h : Reachable n.toNatClampNeg a) :
    (∀ extents : List (Int64 × Int64),
      ((a.release (extents.map extentOf)).2 = .ok () ↔
        Releasable n.toInt a.isFree (extents.map extentOf)) ∧
      ((a.release (extents.map extentOf)).2 = .ok () →
        Released a (extents.map extentOf) (a.release (extents.map extentOf)).1) ∧
      ((a.release (extents.map extentOf)).2 ≠ .ok () →
        (a.release (extents.map extentOf)).1 = a)) ∧
    ∀ offset size : Int64, 0 < size.toInt →
      RestoreExact n.toInt ⟨offset.toInt, size.toInt⟩ .belowZero a
        (a.initAllocated offset.toInt size.toInt) ∧
      RestoreExact n.toInt ⟨offset.toInt, size.toInt⟩ .exceedsTotal a
        (a.initFree offset.toInt size.toInt) := by
  obtain ⟨htotal, hinv⟩ := h.total_and_inv
  have hn : a.total < 2 ^ 63 := by
    have hlt := Int64.toInt_lt n
    rw [htotal, Int64.toNatClampNeg]
    omega
  have ht : (a.total : ℤ) = max n.toInt 0 := by
    rw [htotal, Int64.toNatClampNeg]
    omega
  have hrel : ∀ {results : List Result}, Releasable a.total a.isFree results ↔
      Releasable n.toInt a.isFree results := by
    rw [htotal]
    exact releasable_toNat
  refine ⟨fun extents => ⟨⟨fun hok => ?_, fun hr => ?_⟩, fun hok => ?_, release_of_ne_ok⟩,
    fun offset size hsize => ⟨?_, ?_⟩⟩
  · exact hrel.mp (releasable_of_release hinv hn bounded_extentOf hok)
  · exact (released_release hinv hn (hrel.mpr hr)).1
  · exact (released_release hinv hn (releasable_of_release hinv hn bounded_extentOf hok)).2
  · refine restoreExact ht hsize (fun hc => ?_) (fun hc => ?_) nofun
    · exact (initAllocated_of_contains (hinv hc.total_pos) hn hc).1
    · exact ⟨_, initRange_of_not_contains hsize (Int64.toInt_lt _) (Int64.toInt_lt _) hc⟩
  · refine restoreExact ht hsize (fun hc => ?_) (fun hc => ?_) nofun
    · exact (initFree_of_contains (hinv hc.total_pos) hn hc).1
    · exact ⟨_, initRange_of_not_contains hsize (Int64.toInt_lt _) (Int64.toInt_lt _) hc⟩

/-- On 100 blocks with the first 10 allocated, releasing `[2, 5)` and `[7, 9)` succeeds,
and an extent whose end overflows is rejected with the state as it was. -/
theorem errors_exact_overflow :
    let a := [Call.allocate 10].foldl call (newAllocatorV3 100)
    ((a.release ([(2, 3), (7, 2)].map extentOf)).2 = .ok () ∧
      Released a ([(2, 3), (7, 2)].map extentOf) (a.release ([(2, 3), (7, 2)].map extentOf)).1) ∧
    (a.release ([(2, Int64.maxValue)].map extentOf)).2 ≠ .ok () ∧
      (a.release ([(2, Int64.maxValue)].map extentOf)).1 = a := by
  have h := (@errors_exact ([Call.allocate 10].foldl call (newAllocatorV3 100)) 100 ⟨_, rfl⟩).1
  have hok : ((([Call.allocate 10].foldl call (newAllocatorV3 100)).release
      ([(2, 3), (7, 2)].map extentOf)).2 = .ok ()) := by decide +kernel
  have hne : ((([Call.allocate 10].foldl call (newAllocatorV3 100)).release
      ([(2, Int64.maxValue)].map extentOf)).2 ≠ .ok ()) := by decide +kernel
  exact ⟨⟨hok, (h _).2.1 hok⟩, hne, (h _).2.2 hne⟩

/-! ## Restoring in any order -/

/-- Mark the ranges `rs` as allocated, one after another. -/
def restoreAll (a : AllocatorV3) (rs : List Result) : AllocatorV3 :=
  rs.foldl (fun a r => (a.initAllocated r.offset r.size).1) a

/-- What marking `blocks` as allocated leaves, whichever of them were so before. -/
structure Occupied (a : AllocatorV3) (blocks : List ℕ) (a' : AllocatorV3) : Prop
    extends Kept a a' where
  lastPos_eq : a'.lastPos = a.lastPos
  isFree_iff : ∀ b, a'.isFree b = true ↔ a.isFree b = true ∧ b ∉ blocks

theorem Occupied.step {blocks : List ℕ} {a' : AllocatorV3} (h : Occupied a blocks a')
    (hn : a.total < 2 ^ 63) {r : Result} (hc : a.Contains r) :
    Occupied a (blocks ++ r.blocks) (a'.initAllocated r.offset r.size).1 := by
  have hc' : a'.Contains r := by
    rw [Contains, h.total_eq]
    exact hc
  have hres := (initAllocated_of_contains h.toInv (by rw [h.total_eq]; exact hn) hc').2
  refine ⟨h.toKept.trans hres.toKept, hres.lastPos_eq.trans h.lastPos_eq, fun b => ?_⟩
  rw [hres.isFree_eq_true_iff, h.isFree_iff, List.mem_append, not_or, and_assoc]

theorem occupied_restoreAll (h : a.Inv) (hn : a.total < 2 ^ 63) (rs : List Result)
    (hc : ∀ r ∈ rs, a.Contains r) : Occupied a (blocksOf rs) (a.restoreAll rs) := by
  induction rs using List.reverseRecOn with
  | nil => exact ⟨Kept.refl h, rfl, fun b => by simp [restoreAll]⟩
  | append_singleton rs r ih =>
    have hstep := (ih fun s hs => hc s (by simp [hs])).step hn (hc r (by simp))
    rw [restoreAll, List.foldl_append, blocksOf_append, blocksOf_cons, blocksOf_nil,
      List.append_nil]
    exact hstep

/-- The state after restoring depends on the blocks restored only. -/
theorem Occupied.eq_of_mem_iff {bs cs : List ℕ} {a₁ a₂ : AllocatorV3} (h₁ : Occupied a bs a₁)
    (h₂ : Occupied a cs a₂) (hmem : ∀ b, b ∈ bs ↔ b ∈ cs) : a₂ = a₁ := by
  refine h₁.toInv.eq_of_isFree h₂.toInv (h₂.total_eq.trans h₁.total_eq.symm)
    (h₂.lastPos_eq.trans h₁.lastPos_eq.symm) fun b => ?_
  rw [Bool.eq_iff_iff, h₁.isFree_iff, h₂.isFree_iff, hmem]

/-- From a new allocator what stays available is what no range covers. -/
theorem Occupied.available_eq_sub {n : ℕ} (hn : 0 < n) {bs : List ℕ} {a' : AllocatorV3}
    (h : Occupied (newAllocatorV3 n) bs a') (hbs : ∀ b ∈ bs, b < n) :
    a'.available = n - (bs.toFinset.card : ℤ) := by
  have hsub : bs.toFinset ⊆ Finset.range n := fun b hb =>
    Finset.mem_range.mpr (hbs b (List.mem_toFinset.mp hb))
  have hset : (Finset.range a'.total).filter (fun b => a'.isFree b = true) =
      Finset.range n \ bs.toFinset := by
    ext b
    rw [Finset.mem_filter, Finset.mem_sdiff, h.isFree_iff, isFree_newAllocatorV3 hn,
      h.total_eq, total_newAllocatorV3 hn, Finset.mem_range, List.mem_toFinset,
      decide_eq_true_eq, ← and_assoc, and_self]
  have hle := Finset.card_le_card hsub
  rw [h.available_eq, freeCount_eq_card, hset, Finset.card_sdiff_of_subset hsub,
    Nat.cast_sub hle, Finset.card_range]

/-- Freeing a range first makes no difference to marking it as allocated. -/
theorem initAllocated_initFree (h : a.Inv) (hn : a.total < 2 ^ 63) {r : Result}
    (hc : a.Contains r) :
    ((a.initFree r.offset r.size).1.initAllocated r.offset r.size).1 =
      (a.initAllocated r.offset r.size).1 := by
  have hfree := (initFree_of_contains h hn hc).2
  have hc' : (a.initFree r.offset r.size).1.Contains r := by
    rw [Contains, hfree.total_eq]
    exact hc
  have htwice := (initAllocated_of_contains hfree.toInv (by rw [hfree.total_eq]; exact hn) hc').2
  have honce := (initAllocated_of_contains h hn hc).2
  refine honce.toInv.eq_of_isFree htwice.toInv ?_ ?_ fun b => ?_
  · rw [htwice.total_eq, hfree.total_eq, honce.total_eq]
  · rw [htwice.lastPos_eq, hfree.lastPos_eq, honce.lastPos_eq]
  · rw [htwice.isFree, hfree.isFree, honce.isFree]
    split_ifs <;> rfl

/-- Restoring the same ranges in another order, or some of them again, leaves the same
allocator, with the blocks outside their union available. Freeing a range before restoring
it changes nothing. -/
theorem restore_order_independent {n : ℕ} (hn : n < 2 ^ 63) {rs ss : List Result}
    (hrs : ∀ r ∈ rs, 0 ≤ r.offset ∧ 0 < r.size ∧ r.offset + r.size ≤ n)
    (hmem : ∀ r, r ∈ ss ↔ r ∈ rs) :
    (newAllocatorV3 n).restoreAll ss = (newAllocatorV3 n).restoreAll rs ∧
    ((newAllocatorV3 n).restoreAll rs).available = n - ((blocksOf rs).toFinset.card : ℤ) ∧
    ∀ r : Result, 0 ≤ r.offset → 0 < r.size → r.offset + r.size ≤ n →
      ((((newAllocatorV3 n).restoreAll rs).initFree r.offset r.size).1.initAllocated
        r.offset r.size).1 =
      (((newAllocatorV3 n).restoreAll rs).initAllocated r.offset r.size).1 := by
  rcases Nat.eq_zero_or_pos n with rfl | hpos
  · -- No range lies in an allocator without blocks.
    obtain rfl : rs = [] := List.eq_nil_iff_forall_not_mem.mpr fun r hr => by
      obtain ⟨h1, h2, h3⟩ := hrs r hr
      omega
    obtain rfl : ss = [] := List.eq_nil_iff_forall_not_mem.mpr fun r hr => by
      simpa using (hmem r).mp hr
    exact ⟨rfl, rfl, fun r h1 h2 h3 => by omega⟩
  · have hnew := inv_newAllocatorV3 hpos
    have htotal := total_newAllocatorV3 hpos
    have hlt : (newAllocatorV3 n).total < 2 ^ 63 := htotal.symm ▸ hn
    have hcontains : ∀ r ∈ rs, (newAllocatorV3 n).Contains r := by
      intro r hr
      rw [Contains, htotal]
      exact hrs r hr
    have hocc := occupied_restoreAll hnew hlt rs hcontains
    have hocc' := occupied_restoreAll hnew hlt ss fun r hr => hcontains r ((hmem r).mp hr)
    refine ⟨hocc.eq_of_mem_iff hocc' fun b => ?_, hocc.available_eq_sub hpos fun b hb => ?_,
      fun r h1 h2 h3 => ?_⟩
    · rw [mem_blocksOf, mem_blocksOf]
      exact exists_congr fun r => and_congr_left fun _ => (hmem r).symm
    · obtain ⟨r, hr, hbr⟩ := mem_blocksOf.mp hb
      exact htotal ▸ (hcontains r hr).lt_total hbr
    · refine initAllocated_initFree hocc.toInv (hocc.total_eq.symm ▸ hlt) ?_
      rw [Contains, hocc.total_eq, htotal]
      exact ⟨h1, h2, h3⟩

/-- Three ranges of 200 blocks, two of which overlap, in another order and one of them
twice : 11 blocks are taken. -/
theorem restore_order_independent_overlap :
    (newAllocatorV3 200).restoreAll [⟨0, 1⟩, ⟨65, 5⟩, ⟨60, 10⟩, ⟨65, 5⟩] =
      (newAllocatorV3 200).restoreAll [⟨60, 10⟩, ⟨65, 5⟩, ⟨0, 1⟩] ∧
    ((newAllocatorV3 200).restoreAll [⟨60, 10⟩, ⟨65, 5⟩, ⟨0, 1⟩]).available = 189 := by
  have h := @restore_order_independent 200 (by decide) [⟨60, 10⟩, ⟨65, 5⟩, ⟨0, 1⟩]
    [⟨0, 1⟩, ⟨65, 5⟩, ⟨60, 10⟩, ⟨65, 5⟩] (by decide) fun r => by
      simp only [List.mem_cons, List.not_mem_nil, or_false]
      tauto
  refine ⟨h.1, h.2.1.trans ?_⟩
  decide

end AllocatorV3

end Corgi
