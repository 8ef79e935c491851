import Corgi.Invariant

/-!
# Extents given back and restored

The blocks of an extent, when the validity checks accept it, and what `release`,
`initAllocated` and `initFree` do to the allocator. An `int64` sum that overflows is
always rejected (`Contains.of_validateRangeV3`). A `release` that passes its checks
frees exactly the blocks listed (`release_of_allocated`), and one that does not changes
nothing.
-/

namespace Corgi

/-! ## The blocks of extents -/

/-- The blocks of an extent, in order. -/
def Result.blocks (r : Result) : List ℕ :=
  List.range' r.offset.toNat r.size.toNat

/-- The blocks of a list of extents, in order. -/
def blocksOf (results : List Result) : List ℕ :=
  results.flatMap Result.blocks

@[simp] theorem blocksOf_nil : blocksOf [] = [] :=
  rfl

@[simp] theorem blocksOf_cons (r : Result) (results : List Result) :
    blocksOf (r :: results) = r.blocks ++ blocksOf results :=
  rfl

@[simp] theorem blocksOf_append (rs ss : List Result) :
    blocksOf (rs ++ ss) = blocksOf rs ++ blocksOf ss :=
  List.flatMap_append

/-- Both fields of an extent are below `2 ^ 63`, as those of `int64` values are. -/
def Result.Bounded (r : Result) : Prop :=
  r.offset < 2 ^ 63 ∧ r.size < 2 ^ 63

theorem Result.mem_blocks {r : Result} {b : ℕ} :
    b ∈ r.blocks ↔ r.offset.toNat ≤ b ∧ b < r.offset.toNat + r.size.toNat :=
  List.mem_range'_1

theorem mem_blocksOf {results : List Result} {b : ℕ} :
    b ∈ blocksOf results ↔ ∃ r ∈ results, b ∈ r.blocks :=
  List.mem_flatMap

/-- No block is listed twice exactly if no two extents meet. -/
theorem nodup_blocksOf_iff {results : List Result} :
    (blocksOf results).Nodup ↔ results.Pairwise fun r s => List.Disjoint r.blocks s.blocks := by
  rw [blocksOf, List.nodup_flatMap]
  exact and_iff_right fun r _ => List.nodup_range'

theorem length_blocksOf : ∀ {results : List Result}, (∀ r ∈ results, 0 ≤ r.offset ∧ 0 < r.size) →
    ((blocksOf results).length : ℤ) = (results.map Result.size).sum
  | [], _ => rfl
  | r :: results, h => by
    have ih := length_blocksOf fun t ht => h t (List.mem_cons_of_mem _ ht)
    have hr := (h r List.mem_cons_self).2
    rw [blocksOf_cons, List.length_append, Result.blocks, List.length_range', List.map_cons,
      List.sum_cons, ← ih]
    push_cast
    omega

/-- Extents whose blocks are below `total` end there at the latest. -/
theorem add_size_le_of_lt {results : List Result} {total : ℕ}
    (hpos : ∀ r ∈ results, 0 ≤ r.offset ∧ 0 < r.size) (hlt : ∀ b ∈ blocksOf results, b < total) :
    ∀ r ∈ results, r.offset + r.size ≤ total := by
  intro r hr
  have hr' := hpos r hr
  have hlast := hlt (r.offset.toNat + r.size.toNat - 1)
    (mem_blocksOf.mpr ⟨r, hr, Result.mem_blocks.mpr (by omega)⟩)
  omega

namespace AllocatorV3

variable {a : AllocatorV3}

/-- The extent lies in `[0, total)`, over the integers. -/
def Contains (a : AllocatorV3) (r : Result) : Prop :=
  0 ≤ r.offset ∧ 0 < r.size ∧ r.offset + r.size ≤ a.total

instance (a : AllocatorV3) (r : Result) : Decidable (a.Contains r) :=
  inferInstanceAs (Decidable (_ ∧ _ ∧ _))

theorem Contains.inRange {r : Result} (h : a.Contains r) :
    a.InRange r.offset.toNat r.size.toNat := by
  obtain ⟨h1, h2, h3⟩ := h
  exact ⟨by omega, by omega⟩

theorem Contains.total_pos {r : Result} (h : a.Contains r) : 0 < a.total := by
  obtain ⟨h1, h2, h3⟩ := h
  omega

theorem Contains.bounded {r : Result} (h : a.Contains r) (hn : a.total < 2 ^ 63) : r.Bounded := by
  obtain ⟨h1, h2, h3⟩ := h
  exact ⟨by omega, by omega⟩

theorem Contains.lt_total {r : Result} (h : a.Contains r) {b : ℕ} (hb : b ∈ r.blocks) :
    b < a.total := by
  obtain ⟨h1, h2, h3⟩ := h
  rw [Result.mem_blocks] at hb
  omega

/-! ## The checks -/

/-- A sum that overflows comes out below `offset`, so an accepted extent is inside. -/
theorem Contains.of_validateRangeV3 {offset size : ℤ} {op : RangeOp} (ho : offset < 2 ^ 63)
    (hs : size < 2 ^ 63) (h : a.validateRangeV3 offset size op = .ok ()) :
    a.Contains ⟨offset, size⟩ := by
  unfold validateRangeV3 wrap64 at h
  simp only at h
  split_ifs at h with hbad
  exact ⟨by simp only; omega, by simp only; omega, by simp only; omega⟩

theorem validateRangeV3_of_contains {offset size : ℤ} {op : RangeOp} (hn : a.total < 2 ^ 63)
    (h : a.Contains ⟨offset, size⟩) : a.validateRangeV3 offset size op = .ok () := by
  obtain ⟨h1, h2, h3⟩ := h
  simp only at h1 h2 h3
  unfold validateRangeV3
  rw [wrap64_of_lt (by omega) (by omega)]
  simp only
  rw [if_neg (by omega)]

theorem rangeFullyAllocatedLocked_iff (h : a.Shape) {offset size : ℕ} (hr : a.InRange offset size) :
    a.rangeFullyAllocatedLocked offset size = true ↔
      ∀ b, offset ≤ b → b < offset + size → a.isFree b = false := by
  obtain ⟨hs, ht⟩ := hr
  have h0 := h.length_l0
  unfold rangeFullyAllocatedLocked
  simp only [List.all_eq_true, beq_iff_eq, List.mem_range'_1]
  constructor
  · intro hw b h1 h2
    have hword := hw (b / 64) (by omega)
    have hbit := congrArg (fun w => BitVec.getLsbD w (b % 64)) hword
    simp only [BitVec.getLsbD_and, BitVec.getLsbD_zero] at hbit
    rw [getLsbD_v3RangeMask (by omega) (by omega) (by omega) (Nat.mod_lt _ (by decide)),
      getLsbD_v3ValidWordMask h (by omega) (Nat.mod_lt _ (by decide)),
      getLsbD_getD _ _ (Nat.mod_lt _ (by decide)), Nat.div_add_mod,
      decide_eq_true (show offset ≤ b ∧ b < offset + size from ⟨h1, h2⟩),
      decide_eq_true (show b < a.total by omega)] at hbit
    simpa [isFree] using hbit
  · intro hb i hi
    refine BitVec.eq_of_getLsbD_eq fun j hj => ?_
    rw [BitVec.getLsbD_and, BitVec.getLsbD_and, BitVec.getLsbD_zero,
      getLsbD_v3RangeMask (by omega) (by omega) (by omega) hj, getLsbD_getD _ _ hj]
    by_cases hin : offset ≤ 64 * i + j ∧ 64 * i + j < offset + size
    · have hfree := hb _ hin.1 hin.2
      rw [isFree] at hfree
      rw [hfree, Bool.false_and]
    · rw [decide_eq_false hin, Bool.false_and, Bool.and_false]

theorem contains_of_validateRelease : ∀ {results : List Result},
    (∀ r ∈ results, r.Bounded) → a.validateRelease results = .ok () →
    ∀ r ∈ results, a.Contains r ∧ a.rangeFullyAllocatedLocked r.offset.toNat r.size.toNat = true
  | [], _, _ => by simp
  | r :: results, hb, h => by
    unfold validateRelease at h
    cases hv : a.validateRangeV3 r.offset r.size .release with
    | error e => simp [hv] at h
    | ok u =>
      rw [hv] at h
      simp only at h
      split_ifs at h with hfull
      have hc := Contains.of_validateRangeV3 (hb r List.mem_cons_self).1
        (hb r List.mem_cons_self).2 hv
      intro s hs
      rcases List.mem_cons.mp hs with rfl | hs
      · exact ⟨hc, hfull⟩
      · exact contains_of_validateRelease (fun t ht => hb t (List.mem_cons_of_mem _ ht)) h s hs

theorem validateRelease_of_contains (hn : a.total < 2 ^ 63) : ∀ {results : List Result},
    (∀ r ∈ results, a.Contains r ∧
      a.rangeFullyAllocatedLocked r.offset.toNat r.size.toNat = true) →
    a.validateRelease results = .ok ()
  | [], _ => rfl
  | r :: results, h => by
    obtain ⟨hc, hfull⟩ := h r List.mem_cons_self
    rw [validateRelease, validateRangeV3_of_contains hn hc]
    simp only
    rw [if_pos hfull]
    exact validateRelease_of_contains hn fun s hs => h s (List.mem_cons_of_mem _ hs)

/-- On extents inside the allocator the overlap test is disjointness of the blocks. -/
theorem extentsOverlap_eq_false_iff (hn : a.total < 2 ^ 63) {r s : Result} (hr : a.Contains r)
    (hs : a.Contains s) : extentsOverlap r s = false ↔ List.Disjoint r.blocks s.blocks := by
  obtain ⟨hr1, hr2, hr3⟩ := hr
  obtain ⟨hs1, hs2, hs3⟩ := hs
  unfold extentsOverlap
  rw [wrap64_of_lt (by omega) (by omega), wrap64_of_lt (by omega) (by omega),
    Bool.and_eq_false_iff, decide_eq_false_iff_not, decide_eq_false_iff_not]
  constructor
  · intro h b hbr hbs
    rw [Result.mem_blocks] at hbr hbs
    omega
  · intro h
    by_contra hc
    exact h (a := (max r.offset s.offset).toNat) (Result.mem_blocks.mpr (by omega))
      (Result.mem_blocks.mpr (by omega))

theorem findOverlap_eq_none_iff (hn : a.total < 2 ^ 63) : ∀ {results : List Result},
    (∀ r ∈ results, a.Contains r) → (findOverlap results = none ↔ (blocksOf results).Nodup)
  | [], _ => by simp [findOverlap]
  | r :: results, h => by
    have hr := h r List.mem_cons_self
    have hrest : ∀ s ∈ results, a.Contains s := fun s hs => h s (List.mem_cons_of_mem _ hs)
    have ih := findOverlap_eq_none_iff hn hrest
    have hnodup : r.blocks.Nodup := List.nodup_range'
    have hdisj : results.find? (extentsOverlap r) = none ↔
        List.Disjoint r.blocks (blocksOf results) := by
      rw [List.find?_eq_none]
      constructor
      · intro hf b hb hbs
        obtain ⟨s, hs, hbs⟩ := mem_blocksOf.mp hbs
        have hov := Bool.eq_false_iff.mpr (hf s hs)
        exact (extentsOverlap_eq_false_iff hn hr (hrest s hs)).mp hov hb hbs
      · intro hd s hs
        rw [(extentsOverlap_eq_false_iff hn hr (hrest s hs)).mpr fun b hb hbs =>
          hd hb (mem_blocksOf.mpr ⟨s, hs, hbs⟩)]
        exact Bool.false_ne_true
    rw [findOverlap, blocksOf_cons, List.nodup_append']
    cases hf : results.find? (extentsOverlap r) with
    | none => simp [ih, hnodup, hdisj.mp hf]
    | some s =>
      have hnd : ¬List.Disjoint r.blocks (blocksOf results) := by
        rw [← hdisj, hf]
        simp
      simp [hnd]

/-! ## `release` -/

/-- What freeing extents one after another does : the blocks listed become free, and the
number of flipped bits is what the free blocks gain. -/
structure Freed (a : AllocatorV3) (blocks : List ℕ) (a' : AllocatorV3) (released : ℕ) :
    Prop where
  levels : a'.Levels
  total : a'.total = a.total
  available : a'.available = a.available
  lastPos : a'.lastPos = a.lastPos
  freeCount : a'.freeCount = a.freeCount + released
  isFree : ∀ b, a'.isFree b = (a.isFree b || decide (b ∈ blocks))

theorem Freed.mark (h : a.Levels) {r : Result} (hr : a.Contains r) :
    Freed a r.blocks (a.markRangeLocked r.offset.toNat r.size.toNat true).1
      (a.markRangeLocked r.offset.toNat r.size.toNat true).2 := by
  have hm := marked_markRangeLocked h.shape hr.inRange true
  refine ⟨h.mark hr.inRange true, hm.total, hm.available, hm.lastPos,
    freeCount_mark_free h hr.inRange, fun b => ?_⟩
  rw [hm.isFree]
  by_cases hb : b ∈ r.blocks
  · rw [if_pos (Result.mem_blocks.mp hb), decide_eq_true hb, Bool.or_true]
  · rw [if_neg fun hc => hb (Result.mem_blocks.mpr hc), decide_eq_false hb, Bool.or_false]

theorem Freed.trans {a₁ a₂ a₃ : AllocatorV3} {bs cs : List ℕ} {m n : ℕ} (h₁ : Freed a₁ bs a₂ m)
    (h₂ : Freed a₂ cs a₃ n) : Freed a₁ (bs ++ cs) a₃ (m + n) := by
  refine ⟨h₂.levels, h₂.total.trans h₁.total, h₂.available.trans h₁.available,
    h₂.lastPos.trans h₁.lastPos, ?_, fun b => ?_⟩
  · rw [h₂.freeCount, h₁.freeCount, Nat.add_assoc]
  · rw [h₂.isFree, h₁.isFree, Bool.or_assoc, ← Bool.decide_or]
    simp only [List.mem_append]

theorem Freed.foldl : ∀ {results : List Result} {st : AllocatorV3 × ℕ} {bs : List ℕ},
    Freed a bs st.1 st.2 → (∀ r ∈ results, a.Contains r) →
    let st' := results.foldl (fun st r =>
      let marked := st.1.markRangeLocked r.offset.toNat r.size.toNat true
      (marked.1, st.2 + marked.2)) st
    Freed a (bs ++ blocksOf results) st'.1 st'.2
  | [], st, bs, hf, _ => by simpa using hf
  | r :: results, st, bs, hf, hc => by
    have hr : st.1.Contains r := by
      rw [Contains, hf.total]
      exact hc r List.mem_cons_self
    rw [blocksOf_cons, ← List.append_assoc]
    exact Freed.foldl (hf.trans (Freed.mark hf.levels hr)) fun s hs =>
      hc s (List.mem_cons_of_mem _ hs)

theorem freed_releaseAll (h : a.Levels) {results : List Result}
    (hc : ∀ r ∈ results, a.Contains r) :
    Freed a (blocksOf results) (a.releaseAll results).1 (a.releaseAll results).2 := by
  have hself : Freed a [] (a, 0).1 (a, 0).2 := ⟨h, rfl, rfl, rfl, rfl, fun b => by simp⟩
  exact Freed.foldl hself hc

theorem kept_release (h : a.Inv) {results : List Result} (hb : ∀ r ∈ results, r.Bounded) :
    Kept a (a.release results).1 := by
  unfold release
  split_ifs with hnil
  · exact Kept.refl h
  · split
    · exact Kept.refl h
    · rename_i hv
      split
      · exact Kept.refl h
      · have hf := freed_releaseAll h.toLevels fun r hr =>
          (contains_of_validateRelease hb hv r hr).1
        refine ⟨⟨hf.levels.counters _ _, ?_, ?_⟩, hf.total⟩
        · have hcount := h.available_eq
          show _ + _ = ((a.releaseAll results).1.freeCount : ℤ)
          rw [hf.available, hf.freeCount, hcount]
          push_cast
          rfl
        · show (a.releaseAll results).1.lastPos < (a.releaseAll results).1.total
          rw [hf.lastPos, hf.total]
          exact h.lastPos_lt

/-- Whatever `release` is given, it frees no other blocks. -/
theorem isFree_release_of_notMem (h : a.Inv) {results : List Result}
    (hb : ∀ r ∈ results, r.Bounded) {b : ℕ} (hmem : b ∉ blocksOf results) :
    (a.release results).1.isFree b = a.isFree b := by
  unfold release
  split_ifs with hnil
  · rfl
  · split
    · rfl
    · rename_i hv
      split
      · rfl
      · have hf := freed_releaseAll h.toLevels fun r hr =>
          (contains_of_validateRelease hb hv r hr).1
        refine (hf.isFree b).trans ?_
        rw [decide_eq_false hmem, Bool.or_false]

/-- Extents inside the allocator, with all their blocks allocated and none listed twice,
are released : exactly their blocks become free. -/
theorem release_of_allocated (h : a.Inv) (hn : a.total < 2 ^ 63) {results : List Result}
    (hc : ∀ r ∈ results, a.Contains r) (halloc : ∀ b ∈ blocksOf results, a.isFree b = false)
    (hnodup : (blocksOf results).Nodup) :
    (a.release results).2 = .ok () ∧ (a.release results).1.total = a.total ∧
    (a.release results).1.lastPos = a.lastPos ∧
    ∀ b, (a.release results).1.isFree b = (a.isFree b || decide (b ∈ blocksOf results)) := by
  have hvalid : a.validateRelease results = .ok () := by
    refine validateRelease_of_contains hn fun r hr => ⟨hc r hr, ?_⟩
    rw [rangeFullyAllocatedLocked_iff h.shape (hc r hr).inRange]
    exact fun b h1 h2 => halloc b (mem_blocksOf.mpr ⟨r, hr, Result.mem_blocks.mpr ⟨h1, h2⟩⟩)
  have hf := freed_releaseAll h.toLevels hc
  unfold release
  split_ifs with hnil
  · subst hnil
    simp
  · rw [hvalid, (findOverlap_eq_none_iff hn hc).mpr hnodup]
    exact ⟨rfl, hf.total, hf.lastPos, hf.isFree⟩

/-! ## `initAllocated` and `initFree` -/

/-- What restoring the extent `r` as free, or as allocated, leaves. -/
structure Restored (a : AllocatorV3) (r : Result) (free : Bool) (a' : AllocatorV3) : Prop
    extends Kept a a' where
  lastPos_eq : a'.lastPos = a.lastPos
  isFree : ∀ b, a'.isFree b = if b ∈ r.blocks then free else a.isFree b

theorem Restored.isFree_eq_true_iff {r : Result} {a' : AllocatorV3} (h : Restored a r false a')
    (b : ℕ) : a'.isFree b = true ↔ a.isFree b = true ∧ b ∉ r.blocks := by
  rw [h.isFree]
  by_cases hb : b ∈ r.blocks <;> simp [hb]

/-- Marking an extent restores it, once `available` is set right. -/
theorem restored_mark (h : a.Inv) {r : Result} (hc : a.Contains r) (free : Bool) {available : ℤ}
    (hav : available = (a.markRangeLocked r.offset.toNat r.size.toNat free).1.freeCount) :
    Restored a r free
      { (a.markRangeLocked r.offset.toNat r.size.toNat free).1 with available } := by
  have hm := marked_markRangeLocked h.shape hc.inRange free
  refine ⟨⟨⟨(h.toLevels.mark hc.inRange free).counters _ _, hav, ?_⟩, hm.total⟩, hm.lastPos,
    fun b => ?_⟩
  · show (a.markRangeLocked r.offset.toNat r.size.toNat free).1.lastPos <
      (a.markRangeLocked r.offset.toNat r.size.toNat free).1.total
    rw [hm.lastPos, hm.total]
    exact h.lastPos_lt
  · exact (hm.isFree b).trans (if_congr Result.mem_blocks.symm rfl rfl)

theorem restored_mark_counted (h : a.Inv) {r : Result} (hc : a.Contains r) (free : Bool) :
    let marked := a.markRangeLocked r.offset.toNat r.size.toNat free
    Restored a r free { marked.1 with
      available := if free then marked.1.available + marked.2
        else marked.1.available - marked.2 } := by
  refine restored_mark h hc free ?_
  rw [(marked_markRangeLocked h.shape hc.inRange free).available, h.available_eq]
  cases free with
  | false =>
    have hcount := freeCount_mark_alloc h.toLevels hc.inRange
    rw [if_neg Bool.false_ne_true]
    omega
  | true =>
    have hcount := freeCount_mark_free h.toLevels hc.inRange
    rw [if_pos rfl]
    omega

section

variable {op : RangeOp} {free : Bool} {check : AllocatorV3 → Except AllocError Unit}

theorem kept_initRange (h : a.Inv) {offset size : ℤ} (ho : offset < 2 ^ 63) (hs : size < 2 ^ 63) :
    Kept a (initRange op free check a offset size).1 := by
  unfold initRange
  by_cases hsize : size ≤ 0
  · rw [if_pos hsize]
    exact Kept.refl h
  · rw [if_neg hsize]
    split
    · exact Kept.refl h
    · rename_i hv
      exact (restored_mark_counted h (Contains.of_validateRangeV3 ho hs hv) free).toKept

/-- A range inside the allocator is marked, whatever part of it was so already. -/
theorem initRange_of_contains (hcheck : ∀ b : AllocatorV3, b.Inv → check b = .ok ()) (h : a.Inv)
    (hn : a.total < 2 ^ 63) {r : Result} (hc : a.Contains r) :
    (initRange op free check a r.offset r.size).2 = .ok () ∧
      Restored a r free (initRange op free check a r.offset r.size).1 := by
  have hres := restored_mark_counted h hc free
  unfold initRange
  rw [if_neg (not_le.mpr hc.2.1), validateRangeV3_of_contains hn hc]
  exact ⟨hcheck _ hres.toInv, hres⟩

end

theorem initAllocated_of_contains (h : a.Inv) (hn : a.total < 2 ^ 63) {r : Result}
    (hc : a.Contains r) :
    (a.initAllocated r.offset r.size).2 = .ok () ∧
      Restored a r false (a.initAllocated r.offset r.size).1 :=
  initRange_of_contains (fun _ hb => if_neg (not_lt.mpr hb.available_nonneg)) h hn hc

theorem initFree_of_contains (h : a.Inv) (hn : a.total < 2 ^ 63) {r : Result}
    (hc : a.Contains r) :
    (a.initFree r.offset r.size).2 = .ok () ∧
      Restored a r true (a.initFree r.offset r.size).1 :=
  initRange_of_contains (fun _ hb => if_neg (not_lt.mpr hb.available_le)) h hn hc

end AllocatorV3

end Corgi
