import Corgi.Search

/-!
# The allocator's invariant

`Levels` is what the three bitmap levels satisfy between any two steps of a method,
`Inv` adds what holds between calls : `available` counts the free blocks and `lastPos`
is a block. A new allocator satisfies it (`inv_newAllocatorV3`). Marking a range keeps the
levels (`Levels.mark`) and changes the number of free blocks by the number of bits it
flips.
-/

namespace Corgi

theorem countP_add_countP_not {α : Type*} (p : α → Bool) (l : List α) :
    l.countP p + l.countP (fun x => !p x) = l.length :=
  List.length_eq_countP_add_countP p ▸ by simp

/-- The set bits of a list of words, counted word by word. -/
theorem sum_onesCount64 : ∀ l : List Word,
    (l.map onesCount64).sum = (List.range (64 * l.length)).countP (bitAt l)
  | [] => rfl
  | w :: ws => by
    have hsplit : List.range (64 * (w :: ws).length) =
        List.range 64 ++ (List.range (64 * ws.length)).map (64 + ·) := by
      rw [List.length_cons, show 64 * (ws.length + 1) = 64 + 64 * ws.length by omega,
        List.range_add]
    rw [List.map_cons, List.sum_cons, sum_onesCount64 ws, hsplit, List.countP_append,
      List.countP_map, onesCount64]
    refine congrArg₂ (· + ·) ?_ ?_
    · refine List.countP_congr fun i hi => ?_
      rw [bitAt_cons, if_pos (List.mem_range.mp hi)]
    · refine List.countP_congr fun i _ => ?_
      rw [Function.comp_apply, bitAt_cons, if_neg (by omega), Nat.add_sub_cancel_left]

namespace AllocatorV3

/-- The three levels fit together. -/
structure Levels (a : AllocatorV3) : Prop where
  shape : a.Shape
  summarised : a.Summarised
  tail : a.TailClean

/-- The number of free blocks. -/
def freeCount (a : AllocatorV3) : ℕ :=
  (List.range a.total).countP a.isFree

/-- The invariant between calls. -/
structure Inv (a : AllocatorV3) : Prop extends Levels a where
  available_eq : a.available = a.freeCount
  lastPos_lt : a.lastPos < a.total

theorem Inv.available_nonneg {a : AllocatorV3} (h : a.Inv) : 0 ≤ a.available := by
  rw [h.available_eq]
  exact Int.natCast_nonneg _

theorem Inv.available_le {a : AllocatorV3} (h : a.Inv) : a.available ≤ a.total := by
  have hle : a.freeCount ≤ (List.range a.total).length := List.countP_le_length
  rw [List.length_range] at hle
  rw [h.available_eq]
  exact Int.ofNat_le.mpr hle

/-- What every method leaves behind : the invariant, and as many blocks as before. -/
structure Kept (a a' : AllocatorV3) : Prop extends Inv a' where
  total_eq : a'.total = a.total

variable {a : AllocatorV3}

theorem Kept.refl (h : a.Inv) : Kept a a :=
  ⟨h, rfl⟩

theorem Kept.trans {a₁ a₂ a₃ : AllocatorV3} (h₁ : Kept a₁ a₂) (h₂ : Kept a₂ a₃) : Kept a₁ a₃ :=
  ⟨h₂.toInv, h₂.total_eq.trans h₁.total_eq⟩

/-! ## Marking keeps the levels -/

theorem Levels.mark (h : a.Levels) {offset size : ℕ} (hr : a.InRange offset size) (free : Bool) :
    (a.markRangeLocked offset size free).1.Levels := by
  have hm := marked_markRangeLocked h.shape hr free
  refine ⟨hm.shape, summarised_markRangeLocked h.shape h.summarised hr free, fun b hb => ?_⟩
  rw [hm.total] at hb
  obtain ⟨-, ht⟩ := hr
  rw [hm.isFree, if_neg (by omega), h.tail b hb]

theorem Levels.counters (h : a.Levels) (available : ℤ) (lastPos : ℕ) :
    { a with available, lastPos }.Levels :=
  ⟨⟨h.shape.total_pos, h.shape.length_l0, h.shape.length_l1, h.shape.length_l2⟩,
    ⟨h.summarised.l1, h.summarised.l1_pad, h.summarised.l2, h.summarised.l2_pad⟩, h.tail⟩

/-- Marking a range gains its blocks and loses those of it that were free. -/
theorem freeCount_mark (h : a.Levels) {offset size : ℕ} (hr : a.InRange offset size)
    (free : Bool) :
    (a.markRangeLocked offset size free).1.freeCount + (List.range' offset size).countP a.isFree =
      a.freeCount + if free then size else 0 := by
  have hm := marked_markRangeLocked h.shape hr free
  obtain ⟨hs, ht⟩ := hr
  have hsplit : List.range a.total = List.range' 0 offset ++
      (List.range' offset size ++ List.range' (offset + size) (a.total - (offset + size))) := by
    have h1 := range'_split 0 offset a.total (by omega) (by omega)
    have h2 := range'_split offset (offset + size) a.total (by omega) ht
    rw [Nat.sub_zero, Nat.sub_zero] at h1
    rw [Nat.add_sub_cancel_left] at h2
    rw [List.range_eq_range', h1, h2]
  unfold freeCount
  rw [hm.total, hsplit]
  simp only [List.countP_append]
  have hl : (List.range' 0 offset).countP (a.markRangeLocked offset size free).1.isFree =
      (List.range' 0 offset).countP a.isFree := by
    refine List.countP_congr fun b hb => ?_
    rw [List.mem_range'_1] at hb
    rw [hm.isFree, if_neg (by omega)]
  have hh : (List.range' (offset + size) (a.total - (offset + size))).countP
      (a.markRangeLocked offset size free).1.isFree =
      (List.range' (offset + size) (a.total - (offset + size))).countP a.isFree := by
    refine List.countP_congr fun b hb => ?_
    rw [List.mem_range'_1] at hb
    rw [hm.isFree, if_neg (by omega)]
  have hin : (List.range' offset size).countP (a.markRangeLocked offset size free).1.isFree =
      if free then size else 0 := by
    have hcongr : (List.range' offset size).countP (a.markRangeLocked offset size free).1.isFree =
        (List.range' offset size).countP fun _ => free := by
      refine List.countP_congr fun b hb => ?_
      rw [List.mem_range'_1] at hb
      rw [hm.isFree, if_pos hb]
    rw [hcongr]
    cases free <;> simp
  rw [hl, hh, hin]
  omega

theorem freeCount_mark_free (h : a.Levels) {offset size : ℕ} (hr : a.InRange offset size) :
    (a.markRangeLocked offset size true).1.freeCount =
      a.freeCount + (a.markRangeLocked offset size true).2 := by
  have hcount := freeCount_mark h hr true
  have hnot := countP_add_countP_not a.isFree (List.range' offset size)
  have hsnd := markRangeLocked_snd h.shape hr true
  simp only [Bool.bne_true] at hsnd
  simp only [List.length_range', if_true] at hnot hcount
  omega

theorem freeCount_mark_alloc (h : a.Levels) {offset size : ℕ} (hr : a.InRange offset size) :
    (a.markRangeLocked offset size false).1.freeCount +
      (a.markRangeLocked offset size false).2 = a.freeCount := by
  have hcount := freeCount_mark h hr false
  have hsnd : (a.markRangeLocked offset size false).2 =
      (List.range' offset size).countP a.isFree := by
    simpa using markRangeLocked_snd h.shape hr false
  simp only [Bool.false_eq_true, if_false] at hcount
  omega

/-! ## A new allocator -/

/-- The state before the summaries are built. -/
def freshL0 (blocks : ℕ) : List Word :=
  if blocks % 64 = 0 then List.replicate ((blocks + 63) / 64) (~~~0#64)
  else (List.replicate ((blocks + 63) / 64) (~~~0#64)).set ((blocks + 63) / 64 - 1)
    ((1#64 <<< (blocks % 64)) - 1)

theorem bitAt_replicate {m b : ℕ} (h : b < 64 * m) :
    bitAt (List.replicate m (~~~0#64)) b = true := by
  rw [bitAt, List.getD_replicate _ (by omega), getLsbD_not_zero (Nat.mod_lt _ (by decide))]

theorem bitAt_freshL0 (blocks b : ℕ) : bitAt (freshL0 blocks) b = decide (b < blocks) := by
  unfold freshL0
  rcases Nat.lt_or_ge b (64 * ((blocks + 63) / 64)) with hb | hb
  · split_ifs with hmod
    · rw [bitAt_replicate hb, eq_comm, decide_eq_true_eq]
      omega
    · rw [bitAt_set (by simp; omega), bitAt_replicate hb,
        getLsbD_lowMask (Nat.mod_lt _ (by decide))]
      split_ifs with hlast
      · rw [decide_eq_decide]
        omega
      · rw [eq_comm, decide_eq_true_eq]
        omega
  · rw [bitAt_of_length_le, eq_comm, decide_eq_false_iff_not]
    · omega
    · split_ifs <;> simp <;> omega

theorem length_freshL0 (blocks : ℕ) : (freshL0 blocks).length = (blocks + 63) / 64 := by
  unfold freshL0
  split_ifs <;> simp

/-- The state before the summaries are built : every entry is `FULL`. -/
def freshAllocator (blocks : ℕ) : AllocatorV3 :=
  let l1 := List.replicate ((((blocks + 63) / 64 + 7) / 8 + 31) / 32) 0#64
  ⟨blocks, 0, freshL0 blocks, l1, List.replicate (((l1.length + 7) / 8 + 31) / 32) 0#64, 0⟩

theorem shape_freshAllocator {blocks : ℕ} (h : 0 < blocks) : (freshAllocator blocks).Shape :=
  ⟨h, length_freshL0 blocks, by simp [freshAllocator, length_freshL0], by simp [freshAllocator]⟩

theorem newAllocatorV3_eq {blocks : ℕ} (h : 0 < blocks) :
    newAllocatorV3 blocks =
      let a := (List.range ((blocks + 63) / 64)).foldl updateL1ForL0Slot (freshAllocator blocks)
      { (List.range a.l1.length).foldl updateL2ForL1Slot a with available := blocks } := by
  unfold newAllocatorV3
  rw [if_neg (by omega)]
  simp only [freshAllocator, freshL0, List.length_replicate]
  rw [Nat.max_eq_left (by omega), Nat.max_eq_left (by omega)]

theorem isFree_newAllocatorV3 {blocks : ℕ} (h : 0 < blocks) (b : ℕ) :
    (newAllocatorV3 blocks).isFree b = decide (b < blocks) := by
  rw [newAllocatorV3_eq h]
  simp only
  have h1 := (sameBlocks_foldl_updateL1 (List.range ((blocks + 63) / 64)) (freshAllocator blocks)).1
  have h2 := (sameBlocks_foldl_updateL2 (List.range ((List.range ((blocks + 63) / 64)).foldl
    updateL1ForL0Slot (freshAllocator blocks)).l1.length) ((List.range ((blocks + 63) / 64)).foldl
    updateL1ForL0Slot (freshAllocator blocks))).1
  have h3 := congrFun (h1.trans h2).isFree b
  exact h3.trans (bitAt_freshL0 blocks b)

theorem total_newAllocatorV3 {blocks : ℕ} (h : 0 < blocks) :
    (newAllocatorV3 blocks).total = blocks := by
  rw [newAllocatorV3_eq h]
  exact ((sameBlocks_foldl_updateL1 _ _).1.trans (sameBlocks_foldl_updateL2 _ _).1).total

theorem entryAt_replicate (m e : ℕ) : entryAt (List.replicate m 0#64) e = 0 := by
  rw [entryAt]
  rcases Nat.lt_or_ge (e / 32) m with hm | hm
  · rw [List.getD_replicate _ hm, entryOf_zero]
    rfl
  · rw [List.getD_eq_default _ _ (by simpa using hm), entryOf_zero]
    rfl

theorem levels_newAllocatorV3 {blocks : ℕ} (h : 0 < blocks) : (newAllocatorV3 blocks).Levels := by
  have hshape := shape_freshAllocator h
  have hlen0 : (freshAllocator blocks).l0.length = (blocks + 63) / 64 := length_freshL0 blocks
  obtain ⟨hs1, hl2⟩ := sameBlocks_foldl_updateL1 (List.range ((blocks + 63) / 64))
    (freshAllocator blocks)
  have he1 := entryAt_foldl_updateL1 (List.range ((blocks + 63) / 64)) hshape
    fun i hi => by rw [hlen0]; exact List.mem_range.mp hi
  have htail : ∀ b, (newAllocatorV3 blocks).total ≤ b →
      (newAllocatorV3 blocks).isFree b = false := by
    intro b hb
    rw [total_newAllocatorV3 h] at hb
    rw [isFree_newAllocatorV3 h, decide_eq_false_iff_not]
    omega
  rw [newAllocatorV3_eq h] at htail ⊢
  simp only at htail ⊢
  generalize hA : (List.range ((blocks + 63) / 64)).foldl updateL1ForL0Slot
    (freshAllocator blocks) = A at *
  obtain ⟨hs2, hl1⟩ := sameBlocks_foldl_updateL2 (List.range A.l1.length) A
  have hshapeA := hs1.shape hshape
  have he2 := entryAt_foldl_updateL2 (List.range A.l1.length) hshapeA
    fun i hi => List.mem_range.mp hi
  have htot : A.total = blocks := hs1.total
  generalize hB : (List.range A.l1.length).foldl updateL2ForL1Slot A = B at *
  have hl1len : A.l1.length = ((A.l0.length + 7) / 8 + 31) / 32 := hshapeA.length_l1
  have hA0 : A.l0.length = (blocks + 63) / 64 := by rw [hs1.l0, hlen0]
  have hset : ∀ s, B.l1SetEntry s = A.l1SetEntry s := by
    intro s
    rw [l1SetEntry, hl1, l1SetEntry]
  have hBtot : B.total = blocks := hs2.total.trans htot
  refine ⟨⟨?_, ?_, ?_, ?_⟩, ⟨fun e he => ?_, fun e he => ?_, fun s hs => ?_, fun s hs => ?_⟩, htail⟩
  · exact (hs2.shape hshapeA).total_pos
  · exact (hs2.shape hshapeA).length_l0
  · exact (hs2.shape hshapeA).length_l1
  · exact (hs2.shape hshapeA).length_l2
  · show entryAt B.l1 e = B.slotsetEntry e
    replace he : 512 * e < B.total := he
    rw [hl1, he1, if_pos, hs2.slotsetEntry, hs1.slotsetEntry]
    rw [List.mem_map]
    exact ⟨e * 8, List.mem_range.mpr (by omega), by omega⟩
  · show entryAt B.l1 e = 0
    replace he : B.total ≤ 512 * e := he
    rw [hl1, he1, if_neg]
    · exact entryAt_replicate _ _
    · intro hm
      obtain ⟨i, hi, rfl⟩ := List.mem_map.mp hm
      rw [List.mem_range] at hi
      omega
  · show entryAt B.l2 s = B.l1SetEntry s
    replace hs : 8 * s < B.l1.length := hs
    rw [hl1] at hs
    rw [he2, if_pos, hset]
    rw [List.mem_map]
    exact ⟨s * 8, List.mem_range.mpr (by omega), by omega⟩
  · show entryAt B.l2 s = 0
    replace hs : B.l1.length ≤ 8 * s := hs
    rw [hl1] at hs
    rw [he2, if_neg, hl2]
    · exact entryAt_replicate _ _
    · intro hm
      obtain ⟨i, hi, rfl⟩ := List.mem_map.mp hm
      rw [List.mem_range] at hi
      omega

theorem inv_newAllocatorV3 {blocks : ℕ} (h : 0 < blocks) : (newAllocatorV3 blocks).Inv := by
  refine ⟨levels_newAllocatorV3 h, ?_, ?_⟩
  · have hcount : (newAllocatorV3 blocks).freeCount = blocks := by
      have hall : (List.range (newAllocatorV3 blocks).total).countP (newAllocatorV3 blocks).isFree =
          (List.range (newAllocatorV3 blocks).total).length := by
        refine List.countP_eq_length.mpr fun b hb => ?_
        rw [total_newAllocatorV3 h, List.mem_range] at hb
        rw [isFree_newAllocatorV3 h, decide_eq_true_eq]
        exact hb
      rw [freeCount, hall, List.length_range, total_newAllocatorV3 h]
    rw [hcount, newAllocatorV3_eq h]
  · rw [total_newAllocatorV3 h, newAllocatorV3_eq h]
    have hlast := ((sameBlocks_foldl_updateL1 (List.range ((blocks + 63) / 64))
      (freshAllocator blocks)).1.trans (sameBlocks_foldl_updateL2 (List.range
        ((List.range ((blocks + 63) / 64)).foldl updateL1ForL0Slot
          (freshAllocator blocks)).l1.length) _).1).lastPos
    exact lt_of_eq_of_lt hlast h

end AllocatorV3

end Corgi
