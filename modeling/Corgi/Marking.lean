import Mathlib.Data.List.TakeWhile
import Corgi.Allocator

/-!
# The summaries and the marking of a range

`Shape` fixes the lengths of the three levels, `Summarised` says that every entry of
`l1` and `l2` is the code of what it stands for, entries past the end being `FULL`.
A run of updates recomputes exactly the entries it visits (`entryAt_foldl_updateL1`,
`entryAt_foldl_updateL2`).

`markRangeLocked` sets the bits of the range and no other bit (`marked_markRangeLocked`),
returns the number of bits it flips (`markRangeLocked_snd`), and keeps the summaries
right (`summarised_markRangeLocked`) : it recomputes every `l1` entry whose slotset it
touched and every `l2` entry whose `l1` words it touched.
-/

namespace Corgi

/-! ## Ranges -/

theorem range'_split (lo mid hi : ℕ) (h₁ : lo ≤ mid) (h₂ : mid ≤ hi) :
    List.range' lo (hi - lo) = List.range' lo (mid - lo) ++ List.range' mid (hi - mid) := by
  have h := @List.range'_append lo (mid - lo) (hi - mid) 1
  rw [show lo + 1 * (mid - lo) = mid by omega, show mid - lo + (hi - mid) = hi - lo by omega] at h
  exact h.symm

theorem countP_window (p : ℕ → Bool) (lo hi s e : ℕ) (h₁ : lo ≤ s) (h₂ : s ≤ e) (h₃ : e ≤ hi) :
    (List.range' lo (hi - lo)).countP (fun b => decide (s ≤ b ∧ b < e) && p b) =
      (List.range' s (e - s)).countP p := by
  rw [range'_split _ _ _ h₁ (h₂.trans h₃), range'_split _ _ _ h₂ h₃, List.countP_append,
    List.countP_append]
  have hl : (List.range' lo (s - lo)).countP (fun b => decide (s ≤ b ∧ b < e) && p b) = 0 := by
    refine List.countP_eq_zero.mpr fun b hb => ?_
    rw [List.mem_range'_1] at hb
    simp [show ¬(s ≤ b ∧ b < e) by omega]
  have hr : (List.range' e (hi - e)).countP (fun b => decide (s ≤ b ∧ b < e) && p b) = 0 := by
    refine List.countP_eq_zero.mpr fun b hb => ?_
    rw [List.mem_range'_1] at hb
    simp [show ¬(s ≤ b ∧ b < e) by omega]
  have hm : (List.range' s (e - s)).countP (fun b => decide (s ≤ b ∧ b < e) && p b) =
      (List.range' s (e - s)).countP p := by
    refine List.countP_congr fun b hb => ?_
    rw [List.mem_range'_1] at hb
    simp [show s ≤ b ∧ b < e by omega]
  rw [hl, hr, hm, Nat.zero_add, Nat.add_zero]

theorem all_congr_of_mem {α : Type*} {l : List α} {p q : α → Bool} (h : ∀ x ∈ l, p x = q x) :
    l.all p = l.all q := by
  rw [Bool.eq_iff_iff, List.all_eq_true, List.all_eq_true]
  exact forall₂_congr fun x hx => by rw [h x hx]

/-! ## Masks -/

/-- On a word that meets `[offset, stop)`, the range mask is the part of the range in
that word. -/
theorem getLsbD_v3RangeMask {offset stop i j : ℕ} (h₁ : offset < 64 * (i + 1)) (h₂ : 64 * i < stop)
    (h₃ : offset < stop) (hj : j < 64) :
    (v3RangeMask offset stop i).getLsbD j = decide (offset ≤ 64 * i + j ∧ 64 * i + j < stop) := by
  unfold v3RangeMask
  simp only
  split_ifs with hw hbig
  · omega
  · rw [getLsbD_not_zero hj, eq_comm, decide_eq_true_eq]
    omega
  · rw [BitVec.getLsbD_shiftLeft, getLsbD_lowMask (by omega)]
    simp only [hj, decide_true, Bool.true_and]
    by_cases hs : j < max offset (i * 64) - i * 64
    · simp only [hs, decide_true, Bool.not_true, Bool.false_and]
      rw [eq_comm, decide_eq_false_iff_not]
      omega
    · simp only [hs, decide_false, Bool.not_false, Bool.true_and, decide_eq_decide]
      omega

namespace AllocatorV3

/-- Block `b` is free. -/
def isFree (a : AllocatorV3) (b : ℕ) : Bool :=
  bitAt a.l0 b

/-- The lengths `newAllocatorV3` gives the three levels. -/
structure Shape (a : AllocatorV3) : Prop where
  total_pos : 0 < a.total
  length_l0 : a.l0.length = (a.total + 63) / 64
  length_l1 : a.l1.length = ((a.l0.length + 7) / 8 + 31) / 32
  length_l2 : a.l2.length = ((a.l1.length + 7) / 8 + 31) / 32

/-- Every bit past the last block is 0. -/
def TailClean (a : AllocatorV3) : Prop :=
  ∀ b, a.total ≤ b → a.isFree b = false

theorem getLsbD_v3ValidWordMask {a : AllocatorV3} (h : a.Shape) {i j : ℕ} (hi : i < a.l0.length)
    (hj : j < 64) : (a.v3ValidWordMask i).getLsbD j = decide (64 * i + j < a.total) := by
  have h0 := h.length_l0
  unfold v3ValidWordMask
  split_ifs with h1 h2
  · rw [getLsbD_not_zero hj, eq_comm, decide_eq_true_eq]
    omega
  · rw [getLsbD_not_zero hj, eq_comm, decide_eq_true_eq]
    omega
  · rw [getLsbD_lowMask (Nat.mod_lt _ (by decide)), decide_eq_decide]
    omega

/-! ## The entries of `l1` -/

/-- The code of the blocks `[lo, hi)`. -/
def blocksEntry (a : AllocatorV3) (lo hi : ℕ) : Word :=
  summaryEntry ((List.range' lo (hi - lo)).all a.isFree)
    ((List.range' lo (hi - lo)).all fun b => !a.isFree b)

/-- The code of slotset `e` : 512 blocks, fewer at the end. -/
def slotsetEntry (a : AllocatorV3) (e : ℕ) : Word :=
  a.blocksEntry (512 * e) (min (512 * e + 512) a.total)

theorem entryOf_summaryEntry (allFree allAlloc : Bool) :
    entryOf (summaryEntry allFree allAlloc) 0 = summaryEntry allFree allAlloc := by
  cases allFree <;> cases allAlloc <;> decide

/-- The word-by-word test of a slotset against its valid bits is a test of its blocks. -/
theorem all_slots_eq_all_blocks {a : AllocatorV3} (h : a.Shape) {e : ℕ} (he : 512 * e < a.total)
    (test : Word → Word → Bool) (p : ℕ → Bool)
    (htest : ∀ k < a.l0.length, test (a.l0.getD k 0#64) (a.v3ValidWordMask k) = true ↔
      ∀ b, 64 * k ≤ b → b < 64 * k + 64 → b < a.total → p b = true) :
    ((List.range' (e * 8) (min (e * 8 + 8) a.l0.length - e * 8)).all fun k =>
      test (a.l0.getD k 0#64) (a.v3ValidWordMask k)) =
    (List.range' (512 * e) (min (512 * e + 512) a.total - 512 * e)).all p := by
  have h0 := h.length_l0
  rw [Bool.eq_iff_iff, List.all_eq_true, List.all_eq_true]
  constructor
  · intro hw b hb
    rw [List.mem_range'_1] at hb
    have hk := hw (b / 64) (by rw [List.mem_range'_1]; omega)
    exact (htest _ (by omega)).mp hk b (by omega) (by omega) (by omega)
  · intro hb k hk
    rw [List.mem_range'_1] at hk
    refine (htest k (by omega)).mpr fun b h1 h2 h3 => hb b ?_
    rw [List.mem_range'_1]
    omega

/-- The valid bits of a word are all `c` exactly if its blocks are. -/
theorem and_mask_eq_iff {a : AllocatorV3} (h : a.Shape) {k : ℕ} (hk : k < a.l0.length) {w : Word}
    {c : Bool} (hw : ∀ j < 64, w.getLsbD j = (c && (a.v3ValidWordMask k).getLsbD j)) :
    a.l0.getD k 0#64 &&& a.v3ValidWordMask k = w ↔
      ∀ b, 64 * k ≤ b → b < 64 * k + 64 → b < a.total → a.isFree b = c := by
  constructor
  · intro heq b h1 h2 h3
    have hj : b - 64 * k < 64 := by omega
    have hbit := congrArg (fun w => BitVec.getLsbD w (b - 64 * k)) heq
    simp only [BitVec.getLsbD_and, hw _ hj, getLsbD_v3ValidWordMask h hk hj,
      getLsbD_getD _ _ hj] at hbit
    rw [show 64 * k + (b - 64 * k) = b by omega] at hbit
    simpa [h3, isFree] using hbit
  · intro hb
    refine BitVec.eq_of_getLsbD_eq fun j hj => ?_
    rw [BitVec.getLsbD_and, hw j hj, getLsbD_v3ValidWordMask h hk hj, getLsbD_getD _ _ hj]
    by_cases ht : 64 * k + j < a.total
    · have hf := hb (64 * k + j) (by omega) (by omega) ht
      rw [isFree] at hf
      rw [hf]
    · simp [ht]

theorem and_mask_eq_mask_iff {a : AllocatorV3} (h : a.Shape) {k : ℕ} (hk : k < a.l0.length) :
    a.l0.getD k 0#64 &&& a.v3ValidWordMask k = a.v3ValidWordMask k ↔
      ∀ b, 64 * k ≤ b → b < 64 * k + 64 → b < a.total → a.isFree b = true :=
  and_mask_eq_iff h hk fun _ _ => (Bool.true_and _).symm

theorem and_mask_eq_zero_iff {a : AllocatorV3} (h : a.Shape) {k : ℕ} (hk : k < a.l0.length) :
    a.l0.getD k 0#64 &&& a.v3ValidWordMask k = 0#64 ↔
      ∀ b, 64 * k ≤ b → b < 64 * k + 64 → b < a.total → (!a.isFree b) = true := by
  simp only [Bool.not_eq_true']
  exact and_mask_eq_iff h hk fun _ _ => BitVec.getLsbD_zero

/-- An update recomputes the entry of its slotset. -/
theorem l1_updateL1ForL0Slot {a : AllocatorV3} (h : a.Shape) {i : ℕ} (hi : i < a.l0.length) :
    (a.updateL1ForL0Slot i).l1 = a.l1.set (i / 8 / 32)
      (setEntry (a.l1.getD (i / 8 / 32) 0#64) (i / 8 % 32) (a.slotsetEntry (i / 8))) := by
  have h0 := h.length_l0
  have h1 := h.length_l1
  have he : 512 * (i / 8) < a.total := by omega
  have hfree := all_slots_eq_all_blocks h he (fun w m => w &&& m == m) a.isFree
    fun k hk => by rw [beq_iff_eq]; exact and_mask_eq_mask_iff h hk
  have halloc := all_slots_eq_all_blocks h he (fun w m => w &&& m == 0#64) (fun b => !a.isFree b)
    fun k hk => by rw [beq_iff_eq]; exact and_mask_eq_zero_iff h hk
  simp only [updateL1ForL0Slot]
  rw [if_neg (by omega), hfree, halloc]
  rfl

theorem entryAt_updateL1ForL0Slot {a : AllocatorV3} (h : a.Shape) {i : ℕ} (hi : i < a.l0.length)
    (e : ℕ) : entryAt (a.updateL1ForL0Slot i).l1 e =
      if e = i / 8 then a.slotsetEntry (i / 8) else entryAt a.l1 e := by
  have h1 := h.length_l1
  rw [l1_updateL1ForL0Slot h hi]
  exact entryAt_set (by omega) (entryOf_summaryEntry _ _) e

/-- `a` and `a'` differ at most in `l1` and `l2`, whose lengths agree. -/
structure SameBlocks (a a' : AllocatorV3) : Prop where
  total : a'.total = a.total
  available : a'.available = a.available
  l0 : a'.l0 = a.l0
  length_l1 : a'.l1.length = a.l1.length
  length_l2 : a'.l2.length = a.l2.length
  lastPos : a'.lastPos = a.lastPos

namespace SameBlocks

theorem refl (a : AllocatorV3) : SameBlocks a a :=
  ⟨rfl, rfl, rfl, rfl, rfl, rfl⟩

variable {a a' a'' : AllocatorV3}

theorem trans (h : SameBlocks a a') (h' : SameBlocks a' a'') : SameBlocks a a'' :=
  ⟨h'.total.trans h.total, h'.available.trans h.available, h'.l0.trans h.l0,
    h'.length_l1.trans h.length_l1, h'.length_l2.trans h.length_l2, h'.lastPos.trans h.lastPos⟩

theorem shape (h : SameBlocks a a') (ha : a.Shape) : a'.Shape :=
  ⟨by rw [h.total]; exact ha.total_pos, by rw [h.l0, h.total]; exact ha.length_l0,
    by rw [h.length_l1, h.l0]; exact ha.length_l1,
    by rw [h.length_l2, h.length_l1]; exact ha.length_l2⟩

theorem isFree (h : SameBlocks a a') : a'.isFree = a.isFree := by
  funext b
  rw [AllocatorV3.isFree, h.l0, AllocatorV3.isFree]

theorem slotsetEntry (h : SameBlocks a a') (e : ℕ) : a'.slotsetEntry e = a.slotsetEntry e := by
  rw [AllocatorV3.slotsetEntry, blocksEntry, h.isFree, h.total]
  rfl

end SameBlocks

theorem sameBlocks_updateL1ForL0Slot (a : AllocatorV3) (i : ℕ) :
    SameBlocks a (a.updateL1ForL0Slot i) := by
  simp only [updateL1ForL0Slot]
  split_ifs
  · exact SameBlocks.refl a
  · exact ⟨rfl, rfl, rfl, by simp, rfl, rfl⟩

theorem l2_updateL1ForL0Slot (a : AllocatorV3) (i : ℕ) : (a.updateL1ForL0Slot i).l2 = a.l2 := by
  simp only [updateL1ForL0Slot]
  split_ifs <;> rfl

theorem sameBlocks_foldl_updateL1 :
    ∀ (is : List ℕ) (a : AllocatorV3), SameBlocks a (is.foldl updateL1ForL0Slot a) ∧
      (is.foldl updateL1ForL0Slot a).l2 = a.l2
  | [], a => ⟨SameBlocks.refl a, rfl⟩
  | i :: is, a => by
    obtain ⟨h, h2⟩ := sameBlocks_foldl_updateL1 is (a.updateL1ForL0Slot i)
    exact ⟨(sameBlocks_updateL1ForL0Slot a i).trans h, h2.trans (l2_updateL1ForL0Slot a i)⟩

/-- A run of updates recomputes the entries of the slotsets it visits. -/
theorem entryAt_foldl_updateL1 :
    ∀ (is : List ℕ) {a : AllocatorV3}, a.Shape → (∀ i ∈ is, i < a.l0.length) → ∀ e,
      entryAt (is.foldl updateL1ForL0Slot a).l1 e =
        if e ∈ is.map (· / 8) then a.slotsetEntry e else entryAt a.l1 e
  | [], a, _, _, e => by simp
  | i :: is, a, h, his, e => by
    have hs := sameBlocks_updateL1ForL0Slot a i
    have ih := entryAt_foldl_updateL1 is (hs.shape h)
      (fun k hk => by rw [hs.l0]; exact his k (by simp [hk])) e
    rw [List.foldl_cons, ih, hs.slotsetEntry, entryAt_updateL1ForL0Slot h (his i (by simp))]
    by_cases h1 : e ∈ is.map (· / 8)
    · rw [if_pos h1, if_pos (by rw [List.map_cons]; exact List.mem_cons_of_mem _ h1)]
    · rw [if_neg h1, List.map_cons]
      by_cases h2 : e = i / 8
      · rw [if_pos h2, if_pos (by rw [h2]; exact List.mem_cons_self), h2]
      · rw [if_neg h2, if_neg fun hm => (List.mem_cons.mp hm).elim h2 h1]

/-! ## The entries of `l2` -/

/-- The code of slotset `s` of `l1` : 8 words, fewer at the end. -/
def l1SetEntry (a : AllocatorV3) (s : ℕ) : Word :=
  summaryEntry
    ((List.range' (8 * s) (min (8 * s + 8) a.l1.length - 8 * s)).all fun k =>
      a.l1.getD k 0#64 == ~~~0#64)
    ((List.range' (8 * s) (min (8 * s + 8) a.l1.length - 8 * s)).all fun k =>
      a.l1.getD k 0#64 == 0#64)

theorem l2_updateL2ForL1Slot {a : AllocatorV3} (h : a.Shape) {i : ℕ} (hi : i < a.l1.length) :
    (a.updateL2ForL1Slot i).l2 = a.l2.set (i / 8 / 32)
      (setEntry (a.l2.getD (i / 8 / 32) 0#64) (i / 8 % 32) (a.l1SetEntry (i / 8))) := by
  have h2 := h.length_l2
  simp only [updateL2ForL1Slot]
  rw [if_neg (by omega), l1SetEntry, Nat.mul_comm 8 (i / 8)]

theorem entryAt_updateL2ForL1Slot {a : AllocatorV3} (h : a.Shape) {i : ℕ} (hi : i < a.l1.length)
    (s : ℕ) : entryAt (a.updateL2ForL1Slot i).l2 s =
      if s = i / 8 then a.l1SetEntry (i / 8) else entryAt a.l2 s := by
  have h2 := h.length_l2
  rw [l2_updateL2ForL1Slot h hi]
  exact entryAt_set (by omega) (entryOf_summaryEntry _ _) s

theorem sameBlocks_updateL2ForL1Slot (a : AllocatorV3) (i : ℕ) :
    SameBlocks a (a.updateL2ForL1Slot i) ∧ (a.updateL2ForL1Slot i).l1 = a.l1 := by
  simp only [updateL2ForL1Slot]
  split_ifs
  · exact ⟨SameBlocks.refl a, rfl⟩
  · exact ⟨⟨rfl, rfl, rfl, rfl, by simp, rfl⟩, rfl⟩

theorem sameBlocks_foldl_updateL2 :
    ∀ (is : List ℕ) (a : AllocatorV3), SameBlocks a (is.foldl updateL2ForL1Slot a) ∧
      (is.foldl updateL2ForL1Slot a).l1 = a.l1
  | [], a => ⟨SameBlocks.refl a, rfl⟩
  | i :: is, a => by
    obtain ⟨h, h1⟩ := sameBlocks_foldl_updateL2 is (a.updateL2ForL1Slot i)
    obtain ⟨h', h1'⟩ := sameBlocks_updateL2ForL1Slot a i
    exact ⟨h'.trans h, h1.trans h1'⟩

theorem entryAt_foldl_updateL2 :
    ∀ (is : List ℕ) {a : AllocatorV3}, a.Shape → (∀ i ∈ is, i < a.l1.length) → ∀ s,
      entryAt (is.foldl updateL2ForL1Slot a).l2 s =
        if s ∈ is.map (· / 8) then a.l1SetEntry s else entryAt a.l2 s
  | [], a, _, _, s => by simp
  | i :: is, a, h, his, s => by
    obtain ⟨hs, hl1⟩ := sameBlocks_updateL2ForL1Slot a i
    have ih := entryAt_foldl_updateL2 is (hs.shape h)
      (fun k hk => by rw [hl1]; exact his k (by simp [hk])) s
    have hset : (a.updateL2ForL1Slot i).l1SetEntry s = a.l1SetEntry s := by
      rw [l1SetEntry, hl1, l1SetEntry]
    rw [List.foldl_cons, ih, hset, entryAt_updateL2ForL1Slot h (his i (by simp))]
    by_cases h1 : s ∈ is.map (· / 8)
    · rw [if_pos h1, if_pos (by rw [List.map_cons]; exact List.mem_cons_of_mem _ h1)]
    · rw [if_neg h1, List.map_cons]
      by_cases h2 : s = i / 8
      · rw [if_pos h2, if_pos (by rw [h2]; exact List.mem_cons_self), h2]
      · rw [if_neg h2, if_neg fun hm => (List.mem_cons.mp hm).elim h2 h1]

/-- Every entry of both summaries is the code of what it stands for. -/
structure Summarised (a : AllocatorV3) : Prop where
  l1 : ∀ e, 512 * e < a.total → entryAt a.l1 e = a.slotsetEntry e
  l1_pad : ∀ e, a.total ≤ 512 * e → entryAt a.l1 e = 0
  l2 : ∀ s, 8 * s < a.l1.length → entryAt a.l2 s = a.l1SetEntry s
  l2_pad : ∀ s, a.l1.length ≤ 8 * s → entryAt a.l2 s = 0

/-! ## The bits of a range -/

/-- The marking loop's body sets the bits of the range in its word, and counts those that
were not set that way. -/
theorem markWord_spec {a : AllocatorV3} (h : a.Shape) {offset stop i : ℕ} (free : Bool)
    (st : List Word × ℕ) (hlen : st.1.length = a.l0.length) (hi : i < a.l0.length)
    (h₁ : offset < 64 * (i + 1)) (h₂ : 64 * i < stop) (h₃ : offset < stop) (h₄ : stop ≤ a.total) :
    (∀ b, bitAt (a.markWord offset stop free st i).1 b =
      if b / 64 = i ∧ offset ≤ b ∧ b < stop then free else bitAt st.1 b) ∧
    (a.markWord offset stop free st i).2 = st.2 + (List.range' (64 * i) 64).countP
      (fun b => decide (offset ≤ b ∧ b < stop) && (bitAt st.1 b != free)) := by
  have hmask : ∀ j < 64, (v3RangeMask offset stop i &&& a.v3ValidWordMask i).getLsbD j =
      decide (offset ≤ 64 * i + j ∧ 64 * i + j < stop) := by
    intro j hj
    rw [BitVec.getLsbD_and, getLsbD_v3RangeMask h₁ h₂ h₃ hj, getLsbD_v3ValidWordMask h hi hj]
    by_cases hs : 64 * i + j < stop
    · simp [hs, show 64 * i + j < a.total by omega]
    · simp [hs]
  have hcount : ∀ w : Word, (∀ j < 64, w.getLsbD j =
      (decide (offset ≤ 64 * i + j ∧ 64 * i + j < stop) && (bitAt st.1 (64 * i + j) != free))) →
      onesCount64 w = (List.range' (64 * i) 64).countP
        (fun b => decide (offset ≤ b ∧ b < stop) && (bitAt st.1 b != free)) := by
    intro w hw
    rw [onesCount64, List.range'_eq_map_range, List.countP_map]
    refine List.countP_congr fun j hj => ?_
    rw [hw j (List.mem_range.mp hj)]
    simp
  have hset : ∀ w : Word, (∀ j < 64, w.getLsbD j =
      if offset ≤ 64 * i + j ∧ 64 * i + j < stop then free else bitAt st.1 (64 * i + j)) → ∀ b,
      bitAt (st.1.set i w) b =
        if b / 64 = i ∧ offset ≤ b ∧ b < stop then free else bitAt st.1 b := by
    intro w hw b
    rw [bitAt_set (by omega)]
    by_cases hb : b / 64 = i
    · rw [if_pos hb, hw _ (Nat.mod_lt _ (by decide)), show 64 * i + b % 64 = b by omega]
      simp [hb]
    · simp [hb]
  unfold markWord
  cases free with
  | true =>
    refine ⟨hset _ fun j hj => ?_, congrArg (st.2 + ·) (hcount _ fun j hj => ?_)⟩
    · rw [BitVec.getLsbD_or, hmask j hj, getLsbD_getD _ _ hj]
      by_cases hr : offset ≤ 64 * i + j ∧ 64 * i + j < stop <;> simp [hr]
    · rw [BitVec.getLsbD_and, hmask j hj, BitVec.getLsbD_not, getLsbD_getD _ _ hj]
      simp [hj, Bool.and_comm]
  | false =>
    refine ⟨hset _ fun j hj => ?_, congrArg (st.2 + ·) (hcount _ fun j hj => ?_)⟩
    · rw [BitVec.getLsbD_and, BitVec.getLsbD_not, hmask j hj, getLsbD_getD _ _ hj]
      by_cases hr : offset ≤ 64 * i + j ∧ 64 * i + j < stop <;> simp [hr, hj]
    · rw [BitVec.getLsbD_and, hmask j hj, getLsbD_getD _ _ hj]
      simp [Bool.and_comm]

theorem length_markWord (a : AllocatorV3) (offset stop : ℕ) (free : Bool) (st : List Word × ℕ)
    (i : ℕ) : (a.markWord offset stop free st i).1.length = st.1.length := by
  unfold markWord
  cases free <;> simp

/-- The marking loop over `n` words from `s` on. -/
theorem foldl_markWord_spec {a : AllocatorV3} (h : a.Shape) (offset stop : ℕ) (free : Bool)
    (h₃ : offset < stop) (h₄ : stop ≤ a.total) (n s : ℕ) (st : List Word × ℕ)
    (hlen : st.1.length = a.l0.length) (h₁ : offset < 64 * (s + 1))
    (h₂ : 64 * (s + n - 1) < stop) :
    ((List.range' s n).foldl (a.markWord offset stop free) st).1.length = a.l0.length ∧
    (∀ b, bitAt ((List.range' s n).foldl (a.markWord offset stop free) st).1 b =
      if 64 * s ≤ b ∧ b < 64 * (s + n) ∧ offset ≤ b ∧ b < stop then free else bitAt st.1 b) ∧
    ((List.range' s n).foldl (a.markWord offset stop free) st).2 =
      st.2 + (List.range' (64 * s) (64 * n)).countP
        (fun b => decide (offset ≤ b ∧ b < stop) && (bitAt st.1 b != free)) := by
  have h0 := h.length_l0
  induction n generalizing s st with
  | zero =>
    refine ⟨hlen, fun b => ?_, by simp⟩
    rw [if_neg (by omega)]
    rfl
  | succ n ih =>
    obtain ⟨hlen', hbit', hcnt'⟩ := ih (s + 1) (a.markWord offset stop free st s)
      (by rw [length_markWord, hlen]) (by omega) (by omega)
    obtain ⟨hbit, hcnt⟩ := markWord_spec (i := s) h free st hlen (by omega) h₁ (by omega) h₃ h₄
    rw [List.range'_succ, List.foldl_cons]
    refine ⟨hlen', fun b => ?_, ?_⟩
    · rw [hbit', hbit]
      clear hbit hbit' hcnt hcnt' hlen' ih
      split_ifs <;> first | rfl | omega
    · -- The later words do not see the change made in this one.
      have hlater : (List.range' (64 * (s + 1)) (64 * n)).countP (fun b =>
          decide (offset ≤ b ∧ b < stop) &&
            (bitAt (a.markWord offset stop free st s).1 b != free)) =
          (List.range' (64 * (s + 1)) (64 * n)).countP
            (fun b => decide (offset ≤ b ∧ b < stop) && (bitAt st.1 b != free)) := by
        refine List.countP_congr fun b hb => ?_
        rw [List.mem_range'_1] at hb
        rw [hbit, if_neg (by omega)]
      have hsplit := range'_split (64 * s) (64 * (s + 1)) (64 * (s + (n + 1)))
        (by omega) (by omega)
      rw [show 64 * (s + (n + 1)) - 64 * s = 64 * (n + 1) by omega,
        show 64 * (s + 1) - 64 * s = 64 by omega,
        show 64 * (s + (n + 1)) - 64 * (s + 1) = 64 * n by omega] at hsplit
      rw [hcnt', hcnt, hlater, hsplit, List.countP_append, Nat.add_assoc]

/-- The range `[offset, offset + size)` is not empty and inside the allocator. -/
def InRange (a : AllocatorV3) (offset size : ℕ) : Prop :=
  0 < size ∧ offset + size ≤ a.total

/-- The words after marking `[offset, offset + size)`. -/
def markedL0 (a : AllocatorV3) (offset size : ℕ) (free : Bool) : List Word × ℕ :=
  (List.range' (offset / 64) (min ((offset + size - 1) / 64 + 1) a.l0.length - offset / 64)).foldl
    (a.markWord offset (offset + size) free) (a.l0, 0)

theorem markedL0_spec {a : AllocatorV3} (h : a.Shape) {offset size : ℕ} (hr : a.InRange offset size)
    (free : Bool) :
    (a.markedL0 offset size free).1.length = a.l0.length ∧
    (∀ b, bitAt (a.markedL0 offset size free).1 b =
      if offset ≤ b ∧ b < offset + size then free else a.isFree b) ∧
    (a.markedL0 offset size free).2 =
      (List.range' offset size).countP (fun b => a.isFree b != free) := by
  obtain ⟨hs, ht⟩ := hr
  have h0 := h.length_l0
  obtain ⟨hlen, hbit, hcnt⟩ := foldl_markWord_spec h offset (offset + size) free (by omega) ht
    (min ((offset + size - 1) / 64 + 1) a.l0.length - offset / 64) (offset / 64) (a.l0, 0) rfl
    (by omega) (by omega)
  refine ⟨hlen, fun b => ?_, ?_⟩
  · rw [markedL0, hbit]
    by_cases hb : offset ≤ b ∧ b < offset + size
    · rw [if_pos (by omega), if_pos hb]
    · rw [if_neg fun hc => hb hc.2.2, if_neg hb]
      rfl
  · have hwin := countP_window (fun b => a.isFree b != free) (64 * (offset / 64))
      (64 * (min ((offset + size - 1) / 64 + 1) a.l0.length)) offset (offset + size)
      (by omega) (by omega) (by omega)
    rw [← Nat.mul_sub, show offset + size - offset = size by omega] at hwin
    rw [markedL0, hcnt, Nat.zero_add, ← hwin]
    rfl

/-! ## `markRangeLocked` -/

/-- The state after the words of the range and their `l1` entries are written. -/
def markedL1 (a : AllocatorV3) (offset size : ℕ) (free : Bool) : AllocatorV3 :=
  ((List.range' (offset / 64 / 8)
    ((offset + size - 1) / 64 / 8 + 1 - offset / 64 / 8)).map (· * 8)).foldl updateL1ForL0Slot
      { a with l0 := (a.markedL0 offset size free).1 }

/-- The `l1` slots, one a slotset, whose `l2` entries are refreshed. -/
def markedL1Slots (offset size : ℕ) : List ℕ :=
  (List.range' (offset / 64 / 8 / 32 / 8)
    ((offset + size - 1) / 64 / 8 / 32 / 8 + 1 - offset / 64 / 8 / 32 / 8)).map (· * 8)

theorem markRangeLocked_eq {a : AllocatorV3} (h : a.Shape) {offset size : ℕ}
    (hr : a.InRange offset size) (free : Bool) :
    a.markRangeLocked offset size free =
      ((markedL1Slots offset size).foldl updateL2ForL1Slot (a.markedL1 offset size free),
        (a.markedL0 offset size free).2) := by
  obtain ⟨hs, ht⟩ := hr
  have h0 := h.length_l0
  have h1 := h.length_l1
  have hlen : (a.markedL1 offset size free).l1.length = a.l1.length :=
    (sameBlocks_foldl_updateL1 _ _).1.length_l1
  have htake : ∀ l1Sets : List ℕ, (∀ l1Set ∈ l1Sets, l1Set * 8 < a.l1.length) →
      (l1Sets.takeWhile fun l1Set => l1Set * 8 < (a.markedL1 offset size free).l1.length) =
        l1Sets := by
    intro l1Sets hall
    rw [List.takeWhile_eq_self_iff, hlen]
    exact fun l1Set hm => decide_eq_true (hall l1Set hm)
  have hfold := htake (List.range' (offset / 64 / 8 / 32 / 8)
    ((offset + size - 1) / 64 / 8 / 32 / 8 + 1 - offset / 64 / 8 / 32 / 8)) fun l1Set hm => by
      rw [List.mem_range'_1] at hm
      omega
  unfold markedL1 at hfold
  rw [List.foldl_map] at hfold
  unfold markRangeLocked markedL1Slots markedL1
  rw [if_neg (by omega), List.foldl_map, List.foldl_map]
  simp only
  unfold markedL0 at hfold ⊢
  rw [hfold]

/-- What marking `[offset, offset + size)` leaves as it was, and the bits it sets. -/
structure Marked (a : AllocatorV3) (offset size : ℕ) (free : Bool) (a' : AllocatorV3) :
    Prop where
  total : a'.total = a.total
  available : a'.available = a.available
  lastPos : a'.lastPos = a.lastPos
  shape : a'.Shape
  isFree : ∀ b, a'.isFree b = if offset ≤ b ∧ b < offset + size then free else a.isFree b

theorem sameBlocks_markedL1 (a : AllocatorV3) (offset size : ℕ) (free : Bool) :
    SameBlocks { a with l0 := (a.markedL0 offset size free).1 } (a.markedL1 offset size free) :=
  (sameBlocks_foldl_updateL1 _ _).1

theorem shape_markedL0 {a : AllocatorV3} (h : a.Shape) {offset size : ℕ}
    (hr : a.InRange offset size) (free : Bool) :
    Shape { a with l0 := (a.markedL0 offset size free).1 } := by
  have hlen := (markedL0_spec h hr free).1
  exact ⟨h.total_pos, hlen.trans h.length_l0, by rw [hlen]; exact h.length_l1, h.length_l2⟩

theorem marked_markRangeLocked {a : AllocatorV3} (h : a.Shape) {offset size : ℕ}
    (hr : a.InRange offset size) (free : Bool) :
    Marked a offset size free (a.markRangeLocked offset size free).1 := by
  have hs := (sameBlocks_markedL1 a offset size free).trans
    (sameBlocks_foldl_updateL2 (markedL1Slots offset size) _).1
  rw [markRangeLocked_eq h hr]
  refine ⟨hs.total, hs.available, hs.lastPos, hs.shape (shape_markedL0 h hr free), fun b => ?_⟩
  rw [hs.isFree]
  exact (markedL0_spec h hr free).2.1 b

/-- Marking returns the number of bits it flips. -/
theorem markRangeLocked_snd {a : AllocatorV3} (h : a.Shape) {offset size : ℕ}
    (hr : a.InRange offset size) (free : Bool) :
    (a.markRangeLocked offset size free).2 =
      (List.range' offset size).countP fun b => a.isFree b != free := by
  rw [markRangeLocked_eq h hr]
  exact (markedL0_spec h hr free).2.2

theorem blocksEntry_congr {a a' : AllocatorV3} {lo hi : ℕ}
    (h : ∀ b, lo ≤ b → b < hi → a'.isFree b = a.isFree b) :
    a'.blocksEntry lo hi = a.blocksEntry lo hi := by
  have hmem : ∀ b ∈ List.range' lo (hi - lo), a'.isFree b = a.isFree b := by
    intro b hb
    rw [List.mem_range'_1] at hb
    exact h b hb.1 (by omega)
  exact congrArg₂ summaryEntry (all_congr_of_mem hmem)
    (all_congr_of_mem fun b hb => by rw [hmem b hb])

/-- After the `l1` pass every `l1` entry is right : the pass recomputes those it
touched, and the blocks of the others did not change. -/
theorem entryAt_markedL1 {a : AllocatorV3} (h : a.Shape) (hsum : a.Summarised) {offset size : ℕ}
    (hr : a.InRange offset size) (free : Bool) (e : ℕ) :
    entryAt (a.markedL1 offset size free).l1 e =
      if 512 * e < a.total then (a.markedL1 offset size free).slotsetEntry e else 0 := by
  obtain ⟨hs, ht⟩ := hr
  have h0 := h.length_l0
  obtain ⟨hlen, hbit, -⟩ := markedL0_spec h ⟨hs, ht⟩ free
  rw [(sameBlocks_markedL1 a offset size free).slotsetEntry]
  rw [markedL1, entryAt_foldl_updateL1 _ (shape_markedL0 h ⟨hs, ht⟩ free)]
  · by_cases hm : offset / 64 / 8 ≤ e ∧ e < (offset + size - 1) / 64 / 8 + 1
    · rw [if_pos, if_pos (by omega)]
      rw [List.map_map, List.mem_map]
      refine ⟨e, ?_, by simp⟩
      rw [List.mem_range'_1]
      omega
    · rw [if_neg]
      · show entryAt a.l1 e = _
        split_ifs with hlt
        · rw [hsum.l1 e hlt]
          refine (blocksEntry_congr fun b h1 h2 => ?_).symm
          show bitAt (a.markedL0 offset size free).1 b = _
          rw [hbit, if_neg (by omega)]
        · exact hsum.l1_pad e (by omega)
      · rw [List.map_map, List.mem_map]
        rintro ⟨x, hx, rfl⟩
        rw [List.mem_range'_1] at hx
        simp only [Function.comp_apply] at hm
        omega
  · intro i hi
    obtain ⟨x, hx, rfl⟩ := List.mem_map.mp hi
    rw [List.mem_range'_1] at hx
    simp only [hlen]
    omega

/-- An `l1` word outside the touched slotsets is as before. -/
theorem getD_markedL1 {a : AllocatorV3} (h : a.Shape) (hsum : a.Summarised) {offset size : ℕ}
    (hr : a.InRange offset size) (free : Bool) {k : ℕ}
    (hk : k < offset / 64 / 8 / 32 ∨ (offset + size - 1) / 64 / 8 / 32 < k) :
    (a.markedL1 offset size free).l1.getD k 0#64 = a.l1.getD k 0#64 := by
  obtain ⟨-, hbit, -⟩ := markedL0_spec h hr free
  refine eq_of_entryOf_eq fun p hp => ?_
  rw [← entryAt_mul_add _ _ hp, ← entryAt_mul_add _ _ hp, entryAt_markedL1 h hsum hr]
  split_ifs with hlt
  · rw [(sameBlocks_markedL1 a offset size free).slotsetEntry, hsum.l1 _ hlt]
    refine blocksEntry_congr fun b h1 h2 => ?_
    obtain ⟨hs, ht⟩ := hr
    show bitAt (a.markedL0 offset size free).1 b = _
    rw [hbit, if_neg (by omega)]
  · exact (hsum.l1_pad _ (by omega)).symm

/-- Marking a range keeps both summaries right. -/
theorem summarised_markRangeLocked {a : AllocatorV3} (h : a.Shape) (hsum : a.Summarised)
    {offset size : ℕ} (hr : a.InRange offset size) (free : Bool) :
    (a.markRangeLocked offset size free).1.Summarised := by
  have h0 := h.length_l0
  have h1 := h.length_l1
  have hs1 := sameBlocks_markedL1 a offset size free
  have hshape := hs1.shape (shape_markedL0 h hr free)
  have hlen : (a.markedL1 offset size free).l1.length = a.l1.length := hs1.length_l1
  have htot : (a.markedL1 offset size free).total = a.total := hs1.total
  obtain ⟨hs2, hl1⟩ := sameBlocks_foldl_updateL2 (markedL1Slots offset size)
    (a.markedL1 offset size free)
  have hslots : ∀ i ∈ markedL1Slots offset size, i < (a.markedL1 offset size free).l1.length := by
    intro i hi
    obtain ⟨hsz, ht⟩ := hr
    obtain ⟨x, hx, rfl⟩ := List.mem_map.mp hi
    rw [List.mem_range'_1] at hx
    omega
  have hset : ∀ s, l1SetEntry ((markedL1Slots offset size).foldl updateL2ForL1Slot
      (a.markedL1 offset size free)) s = (a.markedL1 offset size free).l1SetEntry s := by
    intro s
    rw [l1SetEntry, hl1, l1SetEntry]
  have hentry := entryAt_foldl_updateL2 (markedL1Slots offset size) hshape hslots
  rw [markRangeLocked_eq h hr]
  refine ⟨fun e he => ?_, fun e he => ?_, fun s hs => ?_, fun s hs => ?_⟩
  · rw [hl1, hs2.slotsetEntry, entryAt_markedL1 h hsum hr, if_pos (by rwa [hs2.total, htot] at he)]
  · rw [hs2.total, htot] at he
    rw [hl1, entryAt_markedL1 h hsum hr, if_neg (by omega)]
  · rw [hl1, hlen] at hs
    rw [hentry, hset]
    by_cases hm : s ∈ (markedL1Slots offset size).map (· / 8)
    · rw [if_pos hm]
    · -- No `l1` word of an untouched slotset changed.
      have hout : s < offset / 64 / 8 / 32 / 8 ∨ (offset + size - 1) / 64 / 8 / 32 / 8 < s := by
        by_contra hc
        refine hm ?_
        rw [markedL1Slots, List.map_map, List.mem_map]
        refine ⟨s, ?_, by simp⟩
        rw [List.mem_range'_1]
        omega
      have hword : ∀ k ∈ List.range' (8 * s) (min (8 * s + 8) a.l1.length - 8 * s),
          (a.markedL1 offset size free).l1.getD k 0#64 = a.l1.getD k 0#64 := by
        intro k hk
        rw [List.mem_range'_1] at hk
        exact getD_markedL1 h hsum hr free (by omega)
      have hl2 : (a.markedL1 offset size free).l2 = a.l2 := (sameBlocks_foldl_updateL1 _ _).2
      rw [if_neg hm, hl2, hsum.l2 s hs, l1SetEntry, l1SetEntry, hlen]
      exact congrArg₂ summaryEntry (all_congr_of_mem fun k hk => by rw [hword k hk])
        (all_congr_of_mem fun k hk => by rw [hword k hk])
  · rw [hl1, hlen] at hs
    have hl2 : (a.markedL1 offset size free).l2 = a.l2 := (sameBlocks_foldl_updateL1 _ _).2
    rw [hentry, if_neg, hl2]
    · exact hsum.l2_pad s hs
    · intro hm
      obtain ⟨i, hi, rfl⟩ := List.mem_map.mp hm
      have := hslots i hi
      obtain ⟨x, hx, rfl⟩ := List.mem_map.mp hi
      omega

end AllocatorV3

end Corgi
