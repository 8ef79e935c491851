import Corgi.Release

/-!
# Allocation is next-fit

Plain next-fit walks the blocks from `lastPos` to the end and then from 0 on, and takes
the first free ones it meets (`nextFit`). `allocate` searches three levels in two passes
instead. One pass takes the first free blocks from where it starts (`allocPass_spec`),
the test against `lastPos` in the second pass never stops it early, and the two passes
together are the walk (`allocate_of_le`). With the invariant `allocate` therefore fails
only when there is not enough space, and it keeps the invariant (`kept_allocate`). No call
changes an allocator without blocks (`call_of_no_blocks`), so that `allocate_eq_nextFit` holds in
every state that calls lead to.
-/

namespace Corgi

/-! ## Plain next-fit -/

/-- The blocks in the order next-fit looks at them. -/
def walk (n pos : ℕ) : List ℕ :=
  List.range' pos (n - pos) ++ List.range pos

/-- The blocks next-fit takes for a request of `want` blocks. -/
def nextFit (n : ℕ) (free : ℕ → Bool) (pos want : ℕ) : List ℕ :=
  ((walk n pos).filter free).take want

theorem walk_perm {n pos : ℕ} (h : pos ≤ n) : (walk n pos).Perm (List.range n) := by
  have hsplit := range'_split 0 pos n (Nat.zero_le _) h
  rw [Nat.sub_zero, Nat.sub_zero, ← List.range_eq_range', ← List.range_eq_range'] at hsplit
  rw [hsplit]
  exact List.perm_append_comm

theorem nodup_nextFit {n pos : ℕ} (h : pos ≤ n) (free : ℕ → Bool) (want : ℕ) :
    (nextFit n free pos want).Nodup :=
  (((walk_perm h).nodup_iff.mpr List.nodup_range).filter _).sublist (List.take_sublist _ _)

theorem free_of_mem_nextFit {n pos want b : ℕ} {free : ℕ → Bool}
    (h : b ∈ nextFit n free pos want) : free b = true :=
  (List.mem_filter.mp (List.mem_of_mem_take h)).2

theorem length_nextFit {n pos want : ℕ} {free : ℕ → Bool} (h : pos ≤ n)
    (hwant : want ≤ (List.range n).countP free) : (nextFit n free pos want).length = want := by
  rw [nextFit, List.length_take, ← List.countP_eq_length_filter, (walk_perm h).countP_eq]
  omega

/-- In the walk a block comes after the one that follows it on the device only where the
walk started. -/
theorem pairwise_walk {n pos : ℕ} :
    (walk n pos).Pairwise fun b c => c + 1 = b → b = pos := by
  rw [walk, List.pairwise_append]
  refine ⟨?_, ?_, fun b hb c hc hbc => ?_⟩
  · exact (List.pairwise_lt_range' 1).imp fun hlt he => by omega
  · exact List.pairwise_lt_range.imp fun hlt he => by omega
  · rw [List.mem_range'_1] at hb
    rw [List.mem_range] at hc
    omega

/-! ## Collecting extents -/

/-- No extent starts where the one before it ends. -/
def Separated (results : List Result) : Prop :=
  results.IsChain fun r s => r.offset + r.size ≠ s.offset

/-- One of the extents ends where the other starts. -/
def Result.Touches (r s : Result) : Prop :=
  r.offset + r.size = s.offset ∨ s.offset + s.size = r.offset
  deriving Decidable

namespace AllocatorV3

variable {a : AllocatorV3}

theorem blocks_concat {r s : Result} (hr : a.Contains r) (hs : a.Contains s)
    (h : r.offset + r.size = s.offset) :
    Result.blocks ⟨r.offset, r.size + s.size⟩ = r.blocks ++ s.blocks := by
  obtain ⟨hr1, hr2, -⟩ := hr
  obtain ⟨hs1, hs2, -⟩ := hs
  have happ := @List.range'_append r.offset.toNat r.size.toNat s.size.toNat 1
  unfold Result.blocks
  rw [show (r.size + s.size).toNat = r.size.toNat + s.size.toNat by omega, ← happ,
    show r.offset.toNat + 1 * r.size.toNat = s.offset.toNat by omega]

/-- Collecting an extent adds its blocks at the end and keeps the extents apart. -/
theorem appendResult_spec {results : List Result} {r : Result}
    (hc : ∀ s ∈ results, a.Contains s) (hr : a.Contains r) :
    blocksOf (appendResult results r) = blocksOf results ++ r.blocks ∧
    (∀ s ∈ appendResult results r, a.Contains s) ∧
    (Separated results → Separated (appendResult results r)) := by
  unfold appendResult
  rw [if_neg (not_le.mpr hr.2.1)]
  rcases List.eq_nil_or_concat' results with rfl | ⟨init, last, rfl⟩
  · exact ⟨by simp, by simpa using hr, fun _ => List.IsChain.singleton _⟩
  · have hlast : a.Contains last := hc last (by simp)
    have hinit : ∀ s ∈ init, a.Contains s := fun s hs => hc s (by simp [hs])
    rw [List.getLast?_concat]
    simp only
    split_ifs with htouch
    · rw [List.dropLast_concat]
      refine ⟨?_, fun s hs => ?_, fun hsep => ?_⟩
      · simp [blocks_concat hlast hr htouch]
      · rcases List.mem_append.mp hs with hs | hs
        · exact hinit s hs
        · rw [List.mem_singleton.mp hs]
          obtain ⟨h1, h2, h3⟩ := hr
          obtain ⟨h4, h5, h6⟩ := hlast
          exact ⟨h4, by simp only; omega, by simp only; omega⟩
      · obtain ⟨h1, -, h3⟩ := List.isChain_append.mp hsep
        refine List.isChain_append.mpr ⟨h1, List.IsChain.singleton _, fun x hx y hy => ?_⟩
        obtain rfl : _ = y := Option.some.inj hy
        exact h3 x hx last rfl
    · refine ⟨by simp, fun s hs => ?_, fun hsep => ?_⟩
      · rcases List.mem_append.mp hs with hs | hs
        · exact hc s hs
        · rw [List.mem_singleton.mp hs]
          exact hr
      · refine List.isChain_append.mpr ⟨hsep, List.IsChain.singleton _, fun x hx y hy => ?_⟩
        rw [List.getLast?_concat] at hx
        obtain rfl : last = x := Option.some.inj hx
        obtain rfl : r = y := Option.some.inj hy
        exact htouch

/-! ## Taking blocks -/

/-- The free blocks from `pos` on. -/
def freeFrom (a : AllocatorV3) (pos : ℕ) : List ℕ :=
  (List.range' pos (a.total - pos)).filter a.isFree

theorem freeFrom_eq_nil {pos : ℕ} (h : ∀ b, pos ≤ b → a.isFree b = false) :
    a.freeFrom pos = [] := by
  refine List.filter_eq_nil_iff.mpr fun b hb => ?_
  rw [h b (List.mem_range'_1.mp hb).1]
  exact Bool.false_ne_true

/-- The free blocks from `pos` on start with the first run found. -/
theorem freeFrom_eq_append {pos limit : ℕ} {r : ℕ × ℕ} (h₁ : pos ≤ r.1)
    (h₂ : ∀ b, pos ≤ b → b < r.1 → a.isFree b = false) (hr : a.FreeRun limit r) :
    a.freeFrom pos = List.range' r.1 r.2 ++ a.freeFrom (r.1 + r.2) := by
  have hin := hr.inside
  have hs₁ := range'_split pos r.1 a.total h₁ (by omega)
  have hs₂ := range'_split r.1 (r.1 + r.2) a.total (by omega) hin
  rw [Nat.add_sub_cancel_left] at hs₂
  have hskip : (List.range' pos (r.1 - pos)).filter a.isFree = [] := by
    refine List.filter_eq_nil_iff.mpr fun b hb => ?_
    rw [List.mem_range'_1] at hb
    rw [h₂ b hb.1 (by omega)]
    exact Bool.false_ne_true
  have htake : (List.range' r.1 r.2).filter a.isFree = List.range' r.1 r.2 := by
    refine List.filter_eq_self.mpr fun b hb => ?_
    rw [List.mem_range'_1] at hb
    exact hr.free b hb.1 hb.2
  rw [freeFrom, hs₁, hs₂, List.filter_append, List.filter_append, hskip, htake, List.nil_append]
  rfl

/-- What taking free blocks does to the three levels : exactly the blocks listed become
allocated. -/
structure Took (a : AllocatorV3) (blocks : List ℕ) (a' : AllocatorV3) : Prop where
  levels : a'.Levels
  total : a'.total = a.total
  available : a'.available = a.available
  lastPos : a'.lastPos = a.lastPos
  freeCount : a'.freeCount + blocks.length = a.freeCount
  isFree : ∀ b, a'.isFree b = (a.isFree b && decide (b ∉ blocks))

theorem Took.refl (h : a.Levels) : Took a [] a :=
  ⟨h, rfl, rfl, rfl, rfl, fun b => by simp⟩

theorem Took.trans {a₁ a₂ a₃ : AllocatorV3} {bs cs : List ℕ} (h₁ : Took a₁ bs a₂)
    (h₂ : Took a₂ cs a₃) : Took a₁ (bs ++ cs) a₃ := by
  refine ⟨h₂.levels, h₂.total.trans h₁.total, h₂.available.trans h₁.available,
    h₂.lastPos.trans h₁.lastPos, ?_, fun b => ?_⟩
  · have hc₁ := h₁.freeCount
    have hc₂ := h₂.freeCount
    rw [List.length_append]
    omega
  · rw [h₂.isFree, h₁.isFree, Bool.and_assoc, ← Bool.decide_and]
    simp only [List.mem_append, not_or]

theorem Took.mark (h : a.Levels) {limit : ℕ} {r : ℕ × ℕ} (hr : a.FreeRun limit r) :
    Took a (List.range' r.1 r.2) (a.markRangeLocked r.1 r.2 false).1 := by
  have hin : a.InRange r.1 r.2 := ⟨hr.pos, hr.inside⟩
  have hm := marked_markRangeLocked h.shape hin false
  refine ⟨h.mark hin false, hm.total, hm.available, hm.lastPos, ?_, fun b => ?_⟩
  · have hall : (List.range' r.1 r.2).countP a.isFree = (List.range' r.1 r.2).length := by
      refine List.countP_eq_length.mpr fun b hb => ?_
      rw [List.mem_range'_1] at hb
      exact hr.free b hb.1 hb.2
    rw [← hall]
    exact freeCount_mark h hin false
  · rw [hm.isFree]
    by_cases hb : b ∈ List.range' r.1 r.2
    · rw [if_pos (List.mem_range'_1.mp hb), decide_eq_false (not_not.mpr hb), Bool.and_false]
    · rw [if_neg fun hc => hb (List.mem_range'_1.mpr hc), decide_eq_true hb, Bool.and_true]

theorem Took.freeFrom {blocks : List ℕ} {a' : AllocatorV3} (h : Took a blocks a') (pos : ℕ)
    (hb : ∀ b ∈ blocks, b < pos) : a'.freeFrom pos = a.freeFrom pos := by
  unfold AllocatorV3.freeFrom
  rw [h.total]
  refine List.filter_congr fun b hmem => ?_
  rw [List.mem_range'_1] at hmem
  have hout : b ∉ blocks := fun hc => absurd (hb b hc) (by omega)
  rw [h.isFree, decide_eq_true hout, Bool.and_true]

/-- One pass takes the first `left` free blocks from `fromBlock` on. In the second pass
the blocks from `lastPos` on are already taken. -/
theorem allocPass_spec (pass : ℕ) : ∀ (fuel : ℕ) {a : AllocatorV3} (fromBlock left : ℕ)
    {results : List Result}, a.Levels → left ≤ fuel →
    (pass = 1 → ∀ b, a.lastPos ≤ b → a.isFree b = false) →
    (∀ r ∈ results, a.Contains r) → Separated results →
    let out := allocPass pass fuel a fromBlock left results
    let taken := (a.freeFrom fromBlock).take left
    Took a taken out.1 ∧ out.2.1 = left - taken.length ∧
      blocksOf out.2.2 = blocksOf results ++ taken ∧
      (∀ r ∈ out.2.2, a.Contains r) ∧ Separated out.2.2
  | 0, a, fromBlock, left, results, h, hfuel, _, hc, hsep => by
    obtain rfl : left = 0 := by omega
    exact ⟨Took.refl h, rfl, by simp [allocPass], hc, hsep⟩
  | fuel + 1, a, fromBlock, left, results, h, hfuel, hpass, hc, hsep => by
    unfold allocPass
    split_ifs with hleft
    · subst hleft
      exact ⟨Took.refl h, rfl, by simp, hc, hsep⟩
    · have hfind := nextFreeRunFromLocked_spec h.shape h.summarised h.tail
        (Nat.pos_of_ne_zero hleft) fromBlock
      generalize a.nextFreeRunFromLocked fromBlock left = run at hfind
      obtain ⟨offset, size⟩ := run
      rcases hfind with ⟨hrun, hnone⟩ | ⟨hfrom, hskip, hrun⟩
      · obtain ⟨rfl, rfl⟩ := Prod.mk.inj hrun
        simp only [if_true, freeFrom_eq_nil hnone, List.take_nil]
        exact ⟨Took.refl h, rfl, by simp, hc, hsep⟩
      · have hpos : 0 < size := hrun.pos
        have hle : size ≤ left := hrun.le
        have hin : offset + size ≤ a.total := hrun.inside
        simp only at hfrom hskip
        have hstop : ¬(pass = 1 ∧ a.lastPos ≤ offset) := by
          rintro ⟨hp, hl⟩
          have hfree := hrun.free offset le_rfl (by simp only; omega)
          rw [hpass hp offset hl] at hfree
          exact Bool.false_ne_true hfree
        simp only [if_neg (show ¬size = 0 by omega), if_neg hstop, Nat.min_eq_left hle]
        have htook := Took.mark h hrun
        simp only at htook
        have hcr : a.Contains ⟨offset, size⟩ :=
          ⟨by simp only; omega, by simp only; omega, by simp only; omega⟩
        obtain ⟨hblocks, hc', hsep'⟩ := appendResult_spec hc hcr
        have hpass' : pass = 1 → ∀ b, (a.markRangeLocked offset size false).1.lastPos ≤ b →
            (a.markRangeLocked offset size false).1.isFree b = false := by
          intro hp b hb
          rw [htook.lastPos] at hb
          rw [htook.isFree, hpass hp b hb, Bool.false_and]
        have hcont : ∀ r, (a.markRangeLocked offset size false).1.Contains r ↔ a.Contains r := by
          intro r
          rw [Contains, htook.total, Contains]
        have hrec := allocPass_spec pass fuel (offset + size) (left - size) htook.levels
          (by omega) hpass' (fun r hr => (hcont r).mpr (hc' r hr)) (hsep' hsep)
        simp only [htook.freeFrom (offset + size) fun b hb => by
          rw [List.mem_range'_1] at hb; omega, hcont] at hrec
        obtain ⟨h1, h2, h3, h4, h5⟩ := hrec
        have htaken : (a.freeFrom fromBlock).take left =
            List.range' offset size ++ (a.freeFrom (offset + size)).take (left - size) := by
          rw [freeFrom_eq_append hfrom hskip hrun, List.take_append, List.length_range',
            List.take_of_length_le (by rw [List.length_range']; exact hle)]
        rw [htaken]
        refine ⟨htook.trans h1, ?_, ?_, h4, h5⟩
        · rw [h2, List.length_append, List.length_range']
          omega
        · rw [h3, hblocks, List.append_assoc]
          rfl

/-! ## `allocate` -/

/-- The blocks that plain next-fit takes in this state. -/
def nextBlocks (a : AllocatorV3) (want : ℕ) : List ℕ :=
  nextFit a.total a.isFree a.lastPos want

/-- What a successful `allocate` returns and does. -/
structure Allocated (a : AllocatorV3) (want : ℕ) (results : List Result) (a' : AllocatorV3) :
    Prop where
  levels : a'.Levels
  total : a'.total = a.total
  available : a'.available = a.available - want
  freeCount : a'.freeCount + want = a.freeCount
  isFree : ∀ b, a'.isFree b = (a.isFree b && decide (b ∉ blocksOf results))
  blocks : blocksOf results = a.nextBlocks want
  contains : ∀ r ∈ results, a.Contains r
  separated : Separated results
  lastPos : ∃ last, results.getLast? = some last ∧
    (a'.lastPos : ℤ) = if last.offset + last.size = a.total then 0 else last.offset + last.size

theorem nextBlocks_eq (a : AllocatorV3) (want : ℕ) :
    a.nextBlocks want = (a.freeFrom a.lastPos).take want ++
      ((List.range a.lastPos).filter a.isFree).take (want - (a.freeFrom a.lastPos).length) := by
  rw [nextBlocks, nextFit, walk, List.filter_append, List.take_append]
  rfl

/-- The two passes together. -/
theorem allocPass_twice (h : a.Inv) (want : ℕ) :
    let first := allocPass 0 want a a.lastPos want []
    let second := allocPass 1 first.2.1 first.1 0 first.2.1 first.2.2
    Took a (a.nextBlocks want) second.1 ∧
      second.2.1 = want - (a.nextBlocks want).length ∧
      blocksOf second.2.2 = a.nextBlocks want ∧
      (∀ r ∈ second.2.2, a.Contains r) ∧ Separated second.2.2 := by
  obtain ⟨h1, h2, h3, h4, h5⟩ := allocPass_spec 0 want a.lastPos want h.toLevels le_rfl
    (fun hp => absurd hp (by decide)) (show ∀ r ∈ [], a.Contains r by simp) List.IsChain.nil
  generalize allocPass 0 want a a.lastPos want [] = first at *
  rw [blocksOf_nil, List.nil_append] at h3
  rw [List.length_take] at h2
  rw [nextBlocks_eq]
  simp only
  rcases Nat.eq_zero_or_pos first.2.1 with hz | hpos
  · rw [hz, show want - (a.freeFrom a.lastPos).length = 0 by omega, List.take_zero,
      List.append_nil]
    exact ⟨h1, by rw [List.length_take]; exact hz.symm.trans h2, h3, h4, h5⟩
  · -- The first pass took every free block from `lastPos` on.
    have hall : (a.freeFrom a.lastPos).take want = a.freeFrom a.lastPos :=
      List.take_of_length_le (by omega)
    rw [hall] at h1 h3 ⊢
    have hnone : ∀ b, first.1.lastPos ≤ b → first.1.isFree b = false := by
      intro b hb
      rw [h1.lastPos] at hb
      rw [h1.isFree, Bool.and_eq_false_iff, decide_eq_false_iff_not, not_not]
      rcases Bool.eq_false_or_eq_true (a.isFree b) with hfree | hfree
      · refine Or.inr (List.mem_filter.mpr ⟨List.mem_range'_1.mpr ⟨hb, ?_⟩, hfree⟩)
        by_contra hc
        rw [h.tail b (by omega)] at hfree
        exact Bool.false_ne_true hfree
      · exact Or.inl hfree
    have hcont : ∀ r, first.1.Contains r ↔ a.Contains r := by
      intro r
      rw [Contains, h1.total, Contains]
    obtain ⟨g1, g2, g3, g4, g5⟩ := allocPass_spec 1 first.2.1 0 first.2.1 h1.levels le_rfl
      (fun _ => hnone) (fun r hr => (hcont r).mpr (h4 r hr)) h5
    have hlow : first.1.freeFrom 0 = (List.range a.lastPos).filter a.isFree := by
      have hlt := h.lastPos_lt
      have hsplit := range'_split 0 a.lastPos a.total (Nat.zero_le _) hlt.le
      rw [Nat.sub_zero, Nat.sub_zero] at hsplit
      rw [freeFrom, h1.total, Nat.sub_zero, hsplit, List.filter_append, List.range_eq_range']
      have hhigh : (List.range' a.lastPos (a.total - a.lastPos)).filter first.1.isFree = [] := by
        refine List.filter_eq_nil_iff.mpr fun b hb => ?_
        rw [hnone b (by rw [h1.lastPos]; exact (List.mem_range'_1.mp hb).1)]
        exact Bool.false_ne_true
      rw [hhigh, List.append_nil]
      refine List.filter_congr fun b hb => ?_
      rw [List.mem_range'_1] at hb
      have hout : b ∉ a.freeFrom a.lastPos := fun hc => by
        have := (List.mem_range'_1.mp (List.mem_filter.mp hc).1).1
        omega
      rw [h1.isFree, decide_eq_true hout, Bool.and_true]
    rw [hlow] at g1 g2 g3
    simp only [hcont] at g4
    rw [show want - (a.freeFrom a.lastPos).length = first.2.1 by omega]
    refine ⟨h1.trans g1, ?_, by rw [g3, h3], g4, g5⟩
    rw [g2, List.length_append]
    omega

theorem length_nextBlocks (h : a.Inv) (want : ℕ) (hw : (want : ℤ) ≤ a.available) :
    (a.nextBlocks want).length = want := by
  rw [h.available_eq] at hw
  exact length_nextFit h.lastPos_lt.le (by exact_mod_cast hw)

/-- With enough space, `allocate` returns the blocks of plain next-fit. -/
theorem allocate_of_le (h : a.Inv) {want : ℤ} (h₁ : 1 ≤ want) (h₂ : want ≤ a.available) :
    ∃ results, (a.allocate want).2 = .ok results ∧
      Allocated a want.toNat results (a.allocate want).1 := by
  obtain ⟨g1, g2, g3, g4, g5⟩ := allocPass_twice h want.toNat
  have hlen := length_nextBlocks h want.toNat (by omega)
  unfold allocate
  rw [if_neg (by omega), if_neg (by omega)]
  simp only
  generalize allocPass 0 want.toNat a a.lastPos want.toNat [] = first at *
  generalize allocPass 1 first.2.1 first.1 0 first.2.1 first.2.2 = second at *
  obtain ⟨b, left, results⟩ := second
  simp only at g1 g2 g3 g4 g5 ⊢
  rw [if_neg (by omega)]
  have hne : results ≠ [] := by
    rintro rfl
    rw [← g3, blocksOf_nil, List.length_nil] at hlen
    omega
  obtain ⟨init, last, rfl⟩ := (List.eq_nil_or_concat' results).resolve_left hne
  have hlast := g4 last (by simp)
  rw [← g3] at g1
  refine ⟨_, rfl, g1.levels.counters _ _, g1.total, ?_, ?_, g1.isFree, g3, g4, g5, last, by simp,
    ?_⟩
  · show b.available - want = _
    rw [g1.available]
    omega
  · have hcount := g1.freeCount
    rw [g3, hlen] at hcount
    exact hcount
  · obtain ⟨hl1, hl2, hl3⟩ := hlast
    simp only [List.getLast?_concat, g1.total]
    split_ifs <;> omega

theorem allocate_of_not_le {want : ℤ} (h : ¬(1 ≤ want ∧ want ≤ a.available)) :
    ∃ e, a.allocate want = (a, .error e) ∧ ∀ w l v, e ≠ .bitmapInconsistent w l v := by
  unfold allocate
  split_ifs with h1 h2
  · exact ⟨_, rfl, by simp⟩
  · exact ⟨_, rfl, by simp⟩
  · omega

theorem Allocated.inv {want : ℕ} {results : List Result} {a' : AllocatorV3} (h : a.Inv)
    (ha : Allocated a want results a') : a'.Inv := by
  refine ⟨ha.levels, ?_, ?_⟩
  · have hcount := ha.freeCount
    rw [ha.available, h.available_eq]
    omega
  · obtain ⟨last, hlast, hpos⟩ := ha.lastPos
    obtain ⟨h1, h2, h3⟩ := ha.contains last (List.mem_of_getLast? hlast)
    have ht := h.shape.total_pos
    rw [ha.total]
    split_ifs at hpos <;> omega

theorem kept_allocate (h : a.Inv) (want : ℤ) : Kept a (a.allocate want).1 := by
  by_cases hw : 1 ≤ want ∧ want ≤ a.available
  · obtain ⟨results, -, ha⟩ := allocate_of_le h hw.1 hw.2
    exact ⟨ha.inv h, ha.total⟩
  · obtain ⟨e, he, -⟩ := allocate_of_not_le hw
    rw [he]
    exact Kept.refl h

/-! ## Runs -/

theorem kept_call (h : a.Inv) : ∀ c : Call, Kept a (a.call c)
  | .allocate want => kept_allocate h want.toInt
  | .release results => kept_release h fun r hr => by
    obtain ⟨s, -, rfl⟩ := List.mem_map.mp hr
    exact ⟨Int64.toInt_lt _, Int64.toInt_lt _⟩
  | .initAllocated offset size => kept_initRange h (Int64.toInt_lt _) (Int64.toInt_lt _)
  | .initFree offset size => kept_initRange h (Int64.toInt_lt _) (Int64.toInt_lt _)

theorem kept_foldl_call : ∀ (calls : List Call) {a : AllocatorV3}, a.Inv →
    Kept a (calls.foldl call a)
  | [], _, h => Kept.refl h
  | c :: calls, _, h =>
    have hc := kept_call h c
    hc.trans (kept_foldl_call calls hc.toInv)

theorem Reachable.kept {n : ℕ} (hn : 0 < n) (h : Reachable n a) :
    Kept (newAllocatorV3 n) a := by
  obtain ⟨calls, rfl⟩ := h
  exact kept_foldl_call calls (inv_newAllocatorV3 hn)

theorem Reachable.total {n : ℕ} (hn : 0 < n) (h : Reachable n a) : a.total = n :=
  (h.kept hn).total_eq.trans (total_newAllocatorV3 hn)

/-! ## An allocator without blocks -/

/-- A range that does not lie in the allocator is rejected. -/
theorem validateRangeV3_of_not_contains {offset size : ℤ} (op : RangeOp) (ho : offset < 2 ^ 63)
    (hs : size < 2 ^ 63) (hc : ¬a.Contains ⟨offset, size⟩) :
    a.validateRangeV3 offset size op = .error (.invalidExtent op offset size a.total) := by
  cases hv : a.validateRangeV3 offset size op with
  | ok u => exact absurd (Contains.of_validateRangeV3 ho hs hv) hc
  | error e =>
    unfold validateRangeV3 at hv
    simp only at hv
    split_ifs at hv with hbad
    exact congrArg Except.error (Except.error.inj hv).symm

theorem initRange_of_not_contains {op : RangeOp} {free : Bool}
    {check : AllocatorV3 → Except AllocError Unit} {offset size : ℤ} (hsize : 0 < size)
    (ho : offset < 2 ^ 63) (hs : size < 2 ^ 63) (hc : ¬a.Contains ⟨offset, size⟩) :
    initRange op free check a offset size =
      (a, .error (.invalidExtent op offset size a.total)) := by
  rw [initRange, if_neg (not_le.mpr hsize), validateRangeV3_of_not_contains _ ho hs hc]

theorem initRange_of_no_blocks {op : RangeOp} {free : Bool}
    {check : AllocatorV3 → Except AllocError Unit} (ht : a.total = 0) (offset size : Int64) :
    (initRange op free check a offset.toInt size.toInt).1 = a := by
  rcases lt_or_ge 0 size.toInt with hs | hs
  · rw [initRange_of_not_contains hs (Int64.toInt_lt _) (Int64.toInt_lt _)]
    exact fun hc => hc.total_pos.ne' ht
  · rw [initRange, if_pos hs]

/-- No call changes an allocator without blocks. -/
theorem call_of_no_blocks (ht : a.total = 0) (hav : a.available = 0) :
    ∀ c : Call, a.call c = a
  | .allocate want => by
    obtain ⟨e, he, -⟩ := @allocate_of_not_le a want.toInt (by omega)
    rw [call, he]
  | .release [] => rfl
  | .release (r :: results) => by
    have hv : a.validateRangeV3 r.1.toInt r.2.toInt .release = .error _ :=
      validateRangeV3_of_not_contains _ (Int64.toInt_lt _) (Int64.toInt_lt _)
        fun hc => hc.total_pos.ne' ht
    simp only [call, release, List.map_cons, validateRelease, hv, reduceCtorEq, if_false]
  | .initAllocated offset size => initRange_of_no_blocks ht offset size
  | .initFree offset size => initRange_of_no_blocks ht offset size

theorem foldl_call_no_blocks : ∀ calls : List Call,
    calls.foldl call (newAllocatorV3 0) = newAllocatorV3 0
  | [] => rfl
  | c :: calls => by
    rw [List.foldl_cons, call_of_no_blocks rfl rfl c]
    exact foldl_call_no_blocks calls

/-- The invariant of every state that calls lead to, with blocks or without. -/
theorem Reachable.total_and_inv {n : ℕ} (h : Reachable n a) :
    a.total = n ∧ (0 < a.total → a.Inv) := by
  rcases Nat.eq_zero_or_pos n with rfl | hn
  · obtain ⟨calls, rfl⟩ := h
    rw [foldl_call_no_blocks]
    exact ⟨rfl, fun hpos => absurd hpos (lt_irrefl 0)⟩
  · exact ⟨h.total hn, fun _ => (h.kept hn).toInv⟩

theorem Reachable.pos_of_available {n : ℕ} (h : Reachable n a) (hpos : 0 < a.available) :
    0 < n := by
  refine Nat.pos_of_ne_zero fun hn => ?_
  obtain ⟨calls, rfl⟩ := h
  rw [hn, foldl_call_no_blocks] at hpos
  exact absurd hpos (lt_irrefl 0)

/-! ## Consistency -/

/-- A 2-bit entry is `FREE`, `FULL` or `PARTIAL` exactly as its group is all free, all
allocated or neither. -/
structure EntryFits (entry : Word) (allFree allAlloc : Prop) : Prop where
  free : entry = 3 ↔ allFree
  full : entry = 0 ↔ allAlloc
  mixed : entry = 1 ↔ ¬allFree ∧ ¬allAlloc

theorem entryFits_summaryEntry {p q : Bool} {P Q : Prop} (hp : p = true ↔ P) (hq : q = true ↔ Q)
    (h : ¬(P ∧ Q)) : EntryFits (summaryEntry p q) P Q := by
  rw [← hp, ← hq] at h
  constructor
  · rw [← hp]
    revert h
    cases p <;> cases q <;> decide
  · rw [← hq]
    revert h
    cases p <;> cases q <;> decide
  · rw [← hp, ← hq]
    revert h
    cases p <;> cases q <;> decide

/-- The representation invariant of an allocator of `n` blocks. -/
structure Consistent (n : ℕ) (a : AllocatorV3) : Prop where
  total : a.total = n
  shape : a.Shape
  available : a.available = ((a.l0.map onesCount64).sum : ℕ)
  tail : ∀ b, n ≤ b → bitAt a.l0 b = false
  l1 : ∀ e, 512 * e < n → EntryFits (entryAt a.l1 e)
    (∀ b, 512 * e ≤ b → b < 512 * e + 512 → b < n → bitAt a.l0 b = true)
    (∀ b, 512 * e ≤ b → b < 512 * e + 512 → b < n → bitAt a.l0 b = false)
  l1_pad : ∀ e, n ≤ 512 * e → entryAt a.l1 e = 0
  l2 : ∀ s, 8 * s < a.l1.length → EntryFits (entryAt a.l2 s)
    (∀ i, 8 * s ≤ i → i < 8 * s + 8 → i < a.l1.length → a.l1.getD i 0#64 = ~~~0#64)
    (∀ i, 8 * s ≤ i → i < 8 * s + 8 → i < a.l1.length → a.l1.getD i 0#64 = 0#64)
  l2_pad : ∀ s, a.l1.length ≤ 8 * s → entryAt a.l2 s = 0
  lastPos : a.lastPos < n

theorem Inv.sum_onesCount64 (h : a.Inv) : (a.l0.map onesCount64).sum = a.freeCount := by
  have h0 := h.shape.length_l0
  have hsplit := range'_split 0 a.total (64 * a.l0.length) (Nat.zero_le _) (by omega)
  rw [Nat.sub_zero, Nat.sub_zero] at hsplit
  have htail : (List.range' a.total (64 * a.l0.length - a.total)).countP (bitAt a.l0) = 0 := by
    refine List.countP_eq_zero.mpr fun b hb => ?_
    have hbit : bitAt a.l0 b = false := h.tail b (List.mem_range'_1.mp hb).1
    rw [hbit]
    exact Bool.false_ne_true
  rw [Corgi.sum_onesCount64, List.range_eq_range', hsplit, List.countP_append, htail, Nat.add_zero,
    freeCount, List.range_eq_range']
  rfl

theorem Inv.consistent (h : a.Inv) : Consistent a.total a := by
  refine ⟨rfl, h.shape, ?_, h.tail, fun e he => ?_, h.summarised.l1_pad, fun s hs => ?_,
    h.summarised.l2_pad, h.lastPos_lt⟩
  · rw [h.sum_onesCount64]
    exact h.available_eq
  · rw [h.summarised.l1 e he]
    refine entryFits_summaryEntry ?_ ?_ ?_
    · simp only [List.all_eq_true, List.mem_range'_1]
      exact ⟨fun hall b h1 h2 h3 => hall b (by omega),
        fun hall b hb => hall b hb.1 (by omega) (by omega)⟩
    · simp only [List.all_eq_true, List.mem_range'_1, Bool.not_eq_true']
      exact ⟨fun hall b h1 h2 h3 => hall b (by omega),
        fun hall b hb => hall b hb.1 (by omega) (by omega)⟩
    · rintro ⟨hp, hq⟩
      have hfree := hp (512 * e) le_rfl (by omega) he
      rw [hq (512 * e) le_rfl (by omega) he] at hfree
      exact Bool.false_ne_true hfree
  · rw [h.summarised.l2 s hs]
    refine entryFits_summaryEntry ?_ ?_ ?_
    · simp only [List.all_eq_true, List.mem_range'_1, beq_iff_eq]
      exact ⟨fun hall i h1 h2 h3 => hall i (by omega),
        fun hall i hi => hall i hi.1 (by omega) (by omega)⟩
    · simp only [List.all_eq_true, List.mem_range'_1, beq_iff_eq]
      exact ⟨fun hall i h1 h2 h3 => hall i (by omega),
        fun hall i hi => hall i hi.1 (by omega) (by omega)⟩
    · rintro ⟨hp, hq⟩
      have hones := hp (8 * s) le_rfl (by omega) hs
      rw [hq (8 * s) le_rfl (by omega) hs] at hones
      exact absurd hones (by decide)

/-- After any sequence of calls, succeeding or failing, the three levels and the counters
are consistent. -/
theorem consistent_of_reachable {n : ℕ} (hn : 0 < n) (h : Reachable n a) : Consistent n a := by
  have hc := (h.kept hn).toInv.consistent
  rwa [h.total hn] at hc

/-- The hypotheses are met by two allocations, a release and two rejected calls on 600
blocks. -/
theorem consistent_after_rejected_calls : Consistent 600 ([Call.allocate 520, .allocate 80,
    .release [(3, 5)], .initFree (-1) 4, .initAllocated 599 2].foldl call (newAllocatorV3 600)) :=
  consistent_of_reachable (by decide) ⟨_, rfl⟩

/-- An extent of a next-fit walk can end where an extent listed before it starts only
where the walk started, after wrapping around the whole device. -/
theorem pairwise_of_nextFit {n pos want : ℕ} {free : ℕ → Bool} {results : List Result}
    (hc : ∀ r ∈ results, a.Contains r) (h : blocksOf results = nextFit n free pos want) :
    results.Pairwise fun r s => s.offset + s.size = r.offset → r.offset = (pos : ℤ) := by
  have hwalk : (blocksOf results).Pairwise fun b c => c + 1 = b → b = pos := by
    rw [h]
    exact (pairwise_walk.sublist List.filter_sublist).sublist (List.take_sublist _ _)
  obtain ⟨-, hpair⟩ := List.pairwise_flatMap.mp hwalk
  refine hpair.imp_of_mem fun {r s} hr hs hrs htouch => ?_
  obtain ⟨hr1, hr2, -⟩ := hc r hr
  obtain ⟨hs1, hs2, -⟩ := hc s hs
  have hpos := hrs r.offset.toNat (Result.mem_blocks.mpr (by omega)) (r.offset.toNat - 1)
    (Result.mem_blocks.mpr (by omega)) (by omega)
  omega

/-- `allocate` is plain next-fit on the free bits. -/
theorem allocate_eq_nextFit {n : ℕ} (h : Reachable n a) (want : ℤ) :
    ((∃ results, (a.allocate want).2 = .ok results) ↔ 1 ≤ want ∧ want ≤ a.available) ∧
    (∀ w l v, (a.allocate want).2 ≠ .error (.bitmapInconsistent w l v)) ∧
    ∀ results, (a.allocate want).2 = .ok results →
      blocksOf results = nextFit n a.isFree a.lastPos want.toNat ∧
      (results.IsChain fun r s => r.offset + r.size ≠ s.offset) ∧
      (results.Pairwise fun r s => s.offset + s.size = r.offset → r.offset = (a.lastPos : ℤ)) ∧
      (∀ b, (a.allocate want).1.isFree b = (a.isFree b && decide (b ∉ blocksOf results))) ∧
      (a.allocate want).1.available = a.available - want ∧
      ∃ last, results.getLast? = some last ∧ ((a.allocate want).1.lastPos : ℤ) =
        if last.offset + last.size = n then 0 else last.offset + last.size := by
  by_cases hw : 1 ≤ want ∧ want ≤ a.available
  · have hn : 0 < n := h.pos_of_available (by omega)
    obtain rfl := h.total hn
    obtain ⟨results, hok, ha⟩ := allocate_of_le (h.kept hn).toInv hw.1 hw.2
    refine ⟨iff_of_true ⟨results, hok⟩ hw, by simp [hok], fun results' hok' => ?_⟩
    obtain rfl : results = results' := Except.ok.inj (hok.symm.trans hok')
    refine ⟨ha.blocks, ha.separated, pairwise_of_nextFit ha.contains ha.blocks, ha.isFree, ?_,
      ha.lastPos⟩
    rw [ha.available]
    omega
  · obtain ⟨e, he, hne⟩ := allocate_of_not_le hw
    rw [he]
    refine ⟨iff_of_false (by simp) hw, fun w l v => ?_, by simp⟩
    simpa using hne w l v

/-- On 8 free blocks with `lastPos = 5` a request of all 8 wraps around : it takes `[5, 8)` and
then `[0, 5)`, which comes back to where the walk started. -/
theorem allocate_eq_nextFit_wraps :
    let a := [Call.allocate 5, .release [(0, 5)]].foldl call (newAllocatorV3 8)
    a.lastPos = 5 ∧ (a.allocate 8).2 = .ok [⟨5, 3⟩, ⟨0, 5⟩] ∧
      blocksOf [⟨5, 3⟩, ⟨0, 5⟩] = nextFit 8 a.isFree a.lastPos 8 := by
  refine ⟨by decide +kernel, by decide +kernel, ?_⟩
  exact ((allocate_eq_nextFit ⟨_, rfl⟩ 8).2.2 _ (by decide +kernel)).1

/-- Consecutive extents can touch : there the second one ends where the first one starts. -/
theorem allocate_touching :
    let a := [Call.allocate 5, .release [(0, 5)]].foldl call (newAllocatorV3 8)
    Reachable 8 a ∧ (1 ≤ (8 : ℤ) ∧ 8 ≤ a.available) ∧
      ¬∀ results, (a.allocate 8).2 = .ok results → results.IsChain fun r s => ¬r.Touches s := by
  refine ⟨⟨_, rfl⟩, by decide +kernel, fun h => ?_⟩
  have hchain := h [⟨5, 3⟩, ⟨0, 5⟩] (by decide +kernel)
  exact absurd hchain (by decide)

end AllocatorV3

end Corgi
