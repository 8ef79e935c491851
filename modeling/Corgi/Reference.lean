import Corgi.Invariant

/-!
# The allocator against plain loops

`markRangeLockedOld` is `markRangeLocked_old` of `internal/fs/allocator_v3_test.go`, the
marking loop from before its optimisation : it refreshes an `l1` entry after every word
and an `l2` entry for every `l1` word. After each word its bits are those of the
optimised loop, and the entries of the slotsets it has visited are the codes of the bits
so far (`MarkedOld`), so both loops end in the same state (`markRangeLocked_refines_old`).

The search through the summaries returns what a scan of the bits from `fromBlock` on
would (`nextFreeRunFromLocked_eq_scan`). The scan of the bits itself is exact : it returns
the first free block of its interval and the longest run of free blocks from it, cut at the
limit (`scanL0ForFreeRunLimited_exact`).
-/

namespace Corgi

namespace AllocatorV3

variable {a : AllocatorV3}

/-! ## Marking word by word -/

/-- The slotsets that the words `[p, q]` lie in. The loop stops at the end of the level. -/
theorem mem_map_div_range' {p q len e : ℕ} (hp : p ≤ q) (hq : q < len) :
    e ∈ (List.range' p (min (q + 1) len - p)).map (· / 8) ↔ p / 8 ≤ e ∧ e ≤ q / 8 := by
  rw [List.mem_map]
  constructor
  · rintro ⟨i, hi, rfl⟩
    rw [List.mem_range'_1] at hi
    omega
  · intro he
    exact ⟨max p (8 * e), List.mem_range'_1.mpr (by omega), by omega⟩

/-- One word for each of the slotsets `[p, q]`. -/
theorem mem_map_div_map_mul {p q e : ℕ} :
    e ∈ ((List.range' p (q + 1 - p)).map (· * 8)).map (· / 8) ↔ p ≤ e ∧ e ≤ q := by
  rw [List.map_map, List.mem_map]
  constructor
  · rintro ⟨i, hi, rfl⟩
    rw [List.mem_range'_1] at hi
    rw [Function.comp_apply]
    omega
  · intro he
    exact ⟨e, List.mem_range'_1.mpr (by omega), by rw [Function.comp_apply]; omega⟩

/-- The reference's loop body on word `i` : mark the word, then refresh its `l1` entry. -/
def markWordOld (offset stop : ℕ) (free : Bool) (st : AllocatorV3 × ℕ) (i : ℕ) :
    AllocatorV3 × ℕ :=
  let marked := st.1.markWord offset stop free (st.1.l0, st.2) i
  ({ st.1 with l0 := marked.1 }.updateL1ForL0Slot i, marked.2)

/-- `markRangeLocked` before its optimisation. -/
def markRangeLockedOld (a : AllocatorV3) (offset size : ℕ) (free : Bool) : AllocatorV3 × ℕ :=
  if size = 0 then (a, 0)
  else
    let stop := offset + size
    let startWord := offset / 64
    let endWord := (stop - 1) / 64
    let words := List.range' startWord (min (endWord + 1) a.l0.length - startWord)
    let (a, changed) := words.foldl (markWordOld offset stop free) (a, 0)
    let startSlotset := startWord / 8
    let endSlotset := endWord / 8
    let startL1Slot := startSlotset / 32
    let endL1Slot := endSlotset / 32
    let l1Slots := List.range' startL1Slot (min (endL1Slot + 1) a.l1.length - startL1Slot)
    (l1Slots.foldl updateL2ForL1Slot a, changed)

/-- Where the reference's loop stands after `words` : the bits and the count are those of
the optimised loop, and the entries of the slotsets visited are up to date. -/
structure MarkedOld (a : AllocatorV3) (offset stop : ℕ) (free : Bool) (words : List ℕ)
    (st : AllocatorV3 × ℕ) : Prop where
  marked : (st.1.l0, st.2) = words.foldl (a.markWord offset stop free) (a.l0, 0)
  length_l0 : st.1.l0.length = a.l0.length
  same : SameBlocks { a with l0 := st.1.l0 } st.1
  l2 : st.1.l2 = a.l2
  l1 : ∀ e, entryAt st.1.l1 e =
    if e ∈ words.map (· / 8) then st.1.slotsetEntry e else entryAt a.l1 e

theorem markWord_congr {a' : AllocatorV3} (ht : a'.total = a.total)
    (hlen : a'.l0.length = a.l0.length) (offset stop : ℕ) (free : Bool) :
    a'.markWord offset stop free = a.markWord offset stop free := by
  funext st i
  rw [markWord, markWord, v3ValidWordMask, v3ValidWordMask, ht, hlen]

/-- Marking a word leaves the bits of the others. -/
theorem bitAt_markWord_of_ne (offset stop : ℕ) (free : Bool) {st : List Word × ℕ} {i b : ℕ}
    (hi : i < st.1.length) (hb : b / 64 ≠ i) :
    bitAt (a.markWord offset stop free st i).1 b = bitAt st.1 b := by
  unfold markWord
  cases free <;> exact (bitAt_set hi _ b).trans (if_neg hb)

theorem MarkedOld.step (h : a.Shape) {offset stop : ℕ} {free : Bool} {words : List ℕ}
    {b : AllocatorV3} {changed : ℕ} (hb : MarkedOld a offset stop free words (b, changed)) {i : ℕ}
    (hi : i < a.l0.length) :
    MarkedOld a offset stop free (words ++ [i]) (markWordOld offset stop free (b, changed) i) := by
  have htotal : b.total = a.total := hb.same.total
  have hword := markWord_congr htotal hb.length_l0 offset stop free
  set marked := a.markWord offset stop free (b.l0, changed) i with hmarked
  have hlen : marked.1.length = a.l0.length := (length_markWord _ _ _ _ _ _).trans hb.length_l0
  have hsame : SameBlocks { a with l0 := marked.1 } { b with l0 := marked.1 } :=
    ⟨hb.same.total, hb.same.available, rfl, hb.same.length_l1, hb.same.length_l2,
      hb.same.lastPos⟩
  have hshape : Shape { b with l0 := marked.1 } := by
    refine hsame.shape ⟨h.total_pos, hlen.trans h.length_l0, ?_, h.length_l2⟩
    exact h.length_l1.trans (by rw [hlen])
  have hupdate := sameBlocks_updateL1ForL0Slot { b with l0 := marked.1 } i
  have hold : markWordOld offset stop free (b, changed) i =
      ({ b with l0 := marked.1 }.updateL1ForL0Slot i, marked.2) := by
    unfold markWordOld
    rw [hword]
  rw [hold]
  refine ⟨?_, ?_, ?_, ?_, fun e => ?_⟩
  · rw [List.foldl_append, ← hb.marked, hupdate.l0]
    rfl
  · rw [hupdate.l0]
    exact hlen
  · rw [hupdate.l0]
    exact hsame.trans hupdate
  · exact (l2_updateL1ForL0Slot _ i).trans hb.l2
  · -- Only the slotset of word `i` changed, and its entry was just recomputed.
    rw [entryAt_updateL1ForL0Slot hshape (hlen.symm ▸ hi), hupdate.slotsetEntry]
    by_cases he : e = i / 8
    · rw [if_pos he, if_pos (by simp [he]), he]
    · have hkept : slotsetEntry { b with l0 := marked.1 } e = b.slotsetEntry e := by
        refine blocksEntry_congr fun x h1 h2 => ?_
        have hx : x / 64 ≠ i := by omega
        exact bitAt_markWord_of_ne offset stop free (hb.length_l0.symm ▸ hi) hx
      have hmem : e ∈ (words ++ [i]).map (· / 8) ↔ e ∈ words.map (· / 8) := by
        rw [List.map_append, List.mem_append]
        exact or_iff_left (by simpa using he)
      rw [if_neg he, hkept, if_congr hmem rfl rfl]
      exact hb.l1 e

theorem MarkedOld.foldl (h : a.Shape) (offset stop : ℕ) (free : Bool) (words : List ℕ)
    (hwords : ∀ i ∈ words, i < a.l0.length) :
    MarkedOld a offset stop free words (words.foldl (markWordOld offset stop free) (a, 0)) := by
  induction words using List.reverseRecOn with
  | nil => exact ⟨rfl, rfl, SameBlocks.refl a, rfl, fun e => by simp⟩
  | append_singleton words i ih =>
    rw [List.foldl_append]
    exact (ih fun k hk => hwords k (by simp [hk])).step h (hwords i (by simp))

theorem SameBlocks.symm {a' : AllocatorV3} (h : SameBlocks a a') : SameBlocks a' a :=
  ⟨h.total.symm, h.available.symm, h.l0.symm, h.length_l1.symm, h.length_l2.symm,
    h.lastPos.symm⟩

/-- Two states that differ at most in the summaries are equal if the entries are. -/
theorem SameBlocks.eq_of_entries {a' : AllocatorV3} (h : SameBlocks a a')
    (h1 : ∀ e, entryAt a'.l1 e = entryAt a.l1 e) (h2 : ∀ s, entryAt a'.l2 s = entryAt a.l2 s) :
    a' = a := by
  have hl1 := eq_of_entryAt_eq h.length_l1 h1
  have hl2 := eq_of_entryAt_eq h.length_l2 h2
  obtain ⟨ht, ha, h0, -, -, hp⟩ := h
  cases a
  cases a'
  simp only at ht ha h0 hp hl1 hl2
  rw [ht, ha, h0, hp, hl1, hl2]

/-- The reference's loop over the words ends where the optimised loop and the refresh of
one entry a slotset do. -/
theorem foldl_markWordOld (h : a.Shape) {offset size : ℕ} (hr : a.InRange offset size)
    (free : Bool) :
    (List.range' (offset / 64)
      (min ((offset + size - 1) / 64 + 1) a.l0.length - offset / 64)).foldl
        (markWordOld offset (offset + size) free) (a, 0) =
      (a.markedL1 offset size free, (a.markedL0 offset size free).2) := by
  have h0 := h.length_l0
  have hold := MarkedOld.foldl h offset (offset + size) free (List.range' (offset / 64)
    (min ((offset + size - 1) / 64 + 1) a.l0.length - offset / 64)) fun i hi => by
      rw [List.mem_range'_1] at hi
      omega
  generalize List.foldl (markWordOld offset (offset + size) free) (a, 0) _ = st at hold ⊢
  obtain ⟨b, changed⟩ := st
  obtain ⟨hl0, hchanged⟩ := Prod.mk.inj hold.marked
  have hsame : SameBlocks { a with l0 := (a.markedL0 offset size free).1 } b :=
    ⟨hold.same.total, hold.same.available, hl0, hold.same.length_l1, hold.same.length_l2,
      hold.same.lastPos⟩
  have hmarked := sameBlocks_markedL1 a offset size free
  refine Prod.ext (SameBlocks.eq_of_entries (hmarked.symm.trans hsame) (fun e => ?_) fun s => ?_)
    hchanged
  · obtain ⟨hsize, ht⟩ := hr
    have hl1 : entryAt (a.markedL1 offset size free).l1 e = _ :=
      entryAt_foldl_updateL1 _ (shape_markedL0 h ⟨hsize, ht⟩ free) (fun i hi => ?_) e
    · rw [hold.l1, hl1, hsame.slotsetEntry]
      refine if_congr (Iff.trans ?_ mem_map_div_map_mul.symm) rfl rfl
      exact mem_map_div_range' (by omega) (by omega)
    · obtain ⟨x, hx, rfl⟩ := List.mem_map.mp hi
      rw [List.mem_range'_1] at hx
      have hlen := (markedL0_spec h ⟨hsize, ht⟩ free).1
      simp only [hlen]
      omega
  · have hl2 : (a.markedL1 offset size free).l2 = a.l2 := (sameBlocks_foldl_updateL1 _ _).2
    rw [hl2]
    exact congrArg (entryAt · s) hold.l2

/-- Refreshing the `l2` entry of every `l1` word of the range and of one word a slotset
leave the same state. -/
theorem foldl_updateL2_eq (h : a.Shape) {offset size : ℕ} (hr : a.InRange offset size)
    (free : Bool) :
    (markedL1Slots offset size).foldl updateL2ForL1Slot (a.markedL1 offset size free) =
      (List.range' (offset / 64 / 8 / 32)
        (min ((offset + size - 1) / 64 / 8 / 32 + 1) (a.markedL1 offset size free).l1.length -
          offset / 64 / 8 / 32)).foldl updateL2ForL1Slot (a.markedL1 offset size free) := by
  have hs := sameBlocks_markedL1 a offset size free
  have hshape := hs.shape (shape_markedL0 h hr free)
  have h0 := h.length_l0
  have hlen : (a.markedL1 offset size free).l1.length = ((a.l0.length + 7) / 8 + 31) / 32 :=
    hs.length_l1.trans h.length_l1
  obtain ⟨hsize, ht⟩ := hr
  generalize hb : a.markedL1 offset size free = b at *
  set l1Slots := List.range' (offset / 64 / 8 / 32)
    (min ((offset + size - 1) / 64 / 8 / 32 + 1) b.l1.length - offset / 64 / 8 / 32) with hl1Slots
  obtain ⟨hnew, hnew1⟩ := sameBlocks_foldl_updateL2 (markedL1Slots offset size) b
  obtain ⟨hold, hold1⟩ := sameBlocks_foldl_updateL2 l1Slots b
  refine SameBlocks.eq_of_entries (hold.symm.trans hnew) (fun e => ?_) fun s => ?_
  · rw [hnew1, hold1]
  · rw [entryAt_foldl_updateL2 _ hshape, entryAt_foldl_updateL2 _ hshape]
    · refine if_congr (mem_map_div_map_mul.trans (Iff.symm ?_)) rfl rfl
      exact mem_map_div_range' (by omega) (by omega)
    · intro i hi
      rw [hl1Slots, List.mem_range'_1] at hi
      omega
    · intro i hi
      obtain ⟨x, hx, rfl⟩ := List.mem_map.mp hi
      rw [List.mem_range'_1] at hx
      omega

/-- The optimised marking loop sets exactly the bits of the range, returns the number of
bits it flips, and leaves the state and returns the count that the reference does. -/
theorem markRangeLocked_refines_old (h : a.Shape) {offset size : ℕ} (hr : a.InRange offset size)
    (free : Bool) :
    (∀ b, (a.markRangeLocked offset size free).1.isFree b =
      if offset ≤ b ∧ b < offset + size then free else a.isFree b) ∧
    (a.markRangeLocked offset size free).2 = ((Finset.range (64 * a.l0.length)).filter fun b =>
      (a.markRangeLocked offset size free).1.isFree b ≠ a.isFree b).card ∧
    a.markRangeLocked offset size free = a.markRangeLockedOld offset size free := by
  have hbits := (marked_markRangeLocked h hr free).isFree
  refine ⟨hbits, ?_, ?_⟩
  · have hnodup : ((List.range' offset size).filter fun b => a.isFree b != free).Nodup :=
      List.Nodup.filter _ List.nodup_range'
    rw [markRangeLocked_snd h hr, List.countP_eq_length_filter,
      ← List.toFinset_card_of_nodup hnodup]
    refine congrArg Finset.card (Finset.ext fun b => ?_)
    have h0 := h.length_l0
    obtain ⟨hsize, ht⟩ := hr
    rw [List.mem_toFinset, List.mem_filter, List.mem_range'_1, bne_iff_ne, Finset.mem_filter,
      Finset.mem_range, hbits]
    by_cases hb : offset ≤ b ∧ b < offset + size
    · have hlt : b < 64 * a.l0.length := by omega
      simp only [hb, hlt, and_self, true_and, if_true, ne_comm]
    · simp only [hb, false_and, if_false, ne_eq, not_true_eq_false, and_false]
  · rw [markRangeLocked_eq h hr, markRangeLockedOld, if_neg hr.1.ne']
    simp only [foldl_markWordOld h hr free]
    rw [foldl_updateL2_eq h hr free]

/-- Marking `[500, 530)` of 1000 free blocks crosses words and a slotset boundary. -/
theorem markRangeLocked_refines_old_across :
    ((newAllocatorV3 1000).markRangeLocked 500 30 false).2 = 30 ∧
    (newAllocatorV3 1000).markRangeLocked 500 30 false =
      (newAllocatorV3 1000).markRangeLockedOld 500 30 false := by
  have hr : (newAllocatorV3 1000).InRange 500 30 :=
    ⟨by decide, by rw [total_newAllocatorV3 (by decide)]; decide⟩
  exact ⟨by decide +kernel,
    (markRangeLocked_refines_old (levels_newAllocatorV3 (by decide)).shape hr false).2.2⟩

/-! ## The search -/

/-- The search finds nothing exactly if no block from `fromBlock` on is free. Otherwise it
returns the first free block and a run of free blocks from it, cut at `limit`. An
allocator without blocks has no levels to speak of. -/
theorem nextFreeRunFromLocked_eq_scan (h : 0 < a.total → a.Levels) (fromBlock : ℕ) {limit : ℕ}
    (hlimit : 0 < limit) :
    (a.nextFreeRunFromLocked fromBlock limit = (0, 0) ↔
      ∀ b, fromBlock ≤ b → b < a.total → a.isFree b = false) ∧
    ∀ o s, a.nextFreeRunFromLocked fromBlock limit = (o, s) → (o, s) ≠ (0, 0) →
      IsLeast {b | fromBlock ≤ b ∧ a.isFree b = true} o ∧ 1 ≤ s ∧ s ≤ limit ∧
      o + s ≤ a.total ∧ ∀ b, o ≤ b → b < o + s → a.isFree b = true := by
  rcases Nat.eq_zero_or_pos a.total with hzero | hpos
  · have hnone : a.nextFreeRunFromLocked fromBlock limit = (0, 0) := by
      rw [nextFreeRunFromLocked, if_pos (Or.inl (by omega))]
    refine ⟨iff_of_true hnone fun b _ hb => absurd hb (by omega), fun o s hos hne => ?_⟩
    exact absurd (hos.symm.trans hnone) hne
  · obtain ⟨hshape, hsum, htail⟩ := h hpos
    rcases nextFreeRunFromLocked_spec hshape hsum htail hlimit fromBlock with
      ⟨hnone, hfull⟩ | ⟨hle, hbelow, hrun⟩
    · refine ⟨iff_of_true hnone fun b hb _ => hfull b hb, fun o s hos hne => ?_⟩
      exact absurd (hos.symm.trans hnone) hne
    · have hfirst : a.isFree (a.nextFreeRunFromLocked fromBlock limit).1 = true :=
        hrun.free _ le_rfl (by have := hrun.pos; omega)
      refine ⟨iff_of_false (fun hnone => ?_) fun hfull => ?_, fun o s hos _ => ?_⟩
      · have := hrun.pos
        rw [hnone] at this
        exact lt_irrefl 0 this
      · have hin := hrun.inside
        have := hrun.pos
        rw [hfull _ hle (by omega)] at hfirst
        exact Bool.false_ne_true hfirst
      · rw [hos] at hle hbelow hrun hfirst
        refine ⟨⟨⟨hle, hfirst⟩, fun b hb => ?_⟩, hrun.pos, hrun.le, hrun.inside, hrun.free⟩
        by_contra hlt
        have hfull := hbelow b hb.1 (not_le.mp hlt)
        exact Bool.false_ne_true (hfull.symm.trans hb.2)

/-- With the first 520 of 600 blocks allocated, the search from block 3 skips a whole
slotset. -/
theorem nextFreeRunFromLocked_eq_scan_skips :
    let a := ((newAllocatorV3 600).markRangeLocked 0 520 false).1
    a.nextFreeRunFromLocked 3 10 = (520, 10) ∧
      IsLeast {b | 3 ≤ b ∧ a.isFree b = true} 520 := by
  have hr : (newAllocatorV3 600).InRange 0 520 :=
    ⟨by decide, by rw [total_newAllocatorV3 (by decide)]; decide⟩
  have hlevels := (levels_newAllocatorV3 (show 0 < 600 by decide)).mark hr false
  have hrun : ((newAllocatorV3 600).markRangeLocked 0 520 false).1.nextFreeRunFromLocked 3 10 =
      (520, 10) := by decide +kernel
  exact ⟨hrun, ((nextFreeRunFromLocked_eq_scan (fun _ => hlevels) 3 (by decide)).2 520 10 hrun
    (by decide)).1⟩

/-! ## The scan of the bits -/

/-- The lengths of the runs of free blocks from block `o` on. -/
def runLengths (a : AllocatorV3) (o : ℕ) : Set ℕ :=
  {n | o + n ≤ a.total ∧ ∀ b, o ≤ b → b < o + n → a.isFree b = true}

theorem exists_isGreatest_runLengths {o : ℕ} (ho : o ≤ a.total) :
    ∃ n, IsGreatest (a.runLengths o) n := by
  have hne : (a.runLengths o).Nonempty := ⟨0, ho, fun b h1 h2 => absurd h1 (by omega)⟩
  have hbdd : BddAbove (a.runLengths o) := ⟨a.total, fun n hn => by have := hn.1; omega⟩
  exact ⟨_, Nat.sSup_mem hne hbdd, fun n hn => le_csSup hbdd hn⟩

/-- A run that stops only at the limit or at an allocated block is as long as it can be. -/
theorem FreeRun.eq_min {limit n : ℕ} {r : ℕ × ℕ} (hrun : a.FreeRun limit r)
    (hstop : r.2 = limit ∨ a.isFree (r.1 + r.2) = false) (hn : IsGreatest (a.runLengths r.1) n) :
    r.2 = min limit n := by
  have hle : r.2 ≤ n := hn.2 ⟨hrun.inside, hrun.free⟩
  rcases hstop with hlimit | hstop
  · rw [← hlimit, min_eq_left hle]
  · have hge : n ≤ r.2 := by
      by_contra hlt
      have hfree := hn.1.2 (r.1 + r.2) (by omega) (by omega)
      exact Bool.false_ne_true (hstop.symm.trans hfree)
    rw [← hle.antisymm hge, min_eq_right hrun.le]

/-- The scan finds nothing exactly if no block of the interval is free or none is asked for.
Otherwise it returns the first free block and the longest run from it, cut at `limit`. -/
theorem scanL0ForFreeRunLimited_exact (ht : a.TailClean) (fromBit toBit limit : ℕ) :
    (a.scanL0ForFreeRunLimited fromBit toBit limit = (0, 0) ↔
      limit = 0 ∨ ∀ b, fromBit ≤ b → b < min toBit a.total → a.isFree b = false) ∧
    ∀ o s, a.scanL0ForFreeRunLimited fromBit toBit limit = (o, s) → (o, s) ≠ (0, 0) →
      IsLeast {b | fromBit ≤ b ∧ b < min toBit a.total ∧ a.isFree b = true} o ∧
      ∃ n, IsGreatest (a.runLengths o) n ∧ s = min limit n := by
  rcases scanL0ForFreeRunLimited_spec ht fromBit toBit limit with
    ⟨hnone, hfull⟩ | ⟨hle, hlt, hbelow, hrun, hstop⟩
  · refine ⟨iff_of_true hnone hfull, fun o s hos hne => ?_⟩
    exact absurd (hos.symm.trans hnone) hne
  · generalize a.scanL0ForFreeRunLimited fromBit toBit limit = r at *
    obtain ⟨o, s⟩ := r
    simp only at hle hlt hbelow hstop
    have hpos : 0 < s := hrun.pos
    have hfirst : a.isFree o = true := hrun.free o le_rfl (by simp only; omega)
    refine ⟨iff_of_false (fun hnone => ?_) ?_, fun o' s' hos _ => ?_⟩
    · rw [Prod.mk.injEq] at hnone
      omega
    · rintro (rfl | hfull)
      · exact absurd hrun.le (by simp only; omega)
      · exact Bool.false_ne_true ((hfull o hle hlt).symm.trans hfirst)
    · obtain ⟨rfl, rfl⟩ := Prod.mk.inj hos
      obtain ⟨n, hn⟩ := exists_isGreatest_runLengths (a := a) (o := o) (by omega)
      refine ⟨⟨⟨hle, hlt, hfirst⟩, fun b hb => ?_⟩, n, hn, hrun.eq_min hstop hn⟩
      by_contra hb'
      exact Bool.false_ne_true ((hbelow b hb.1 (not_le.mp hb')).symm.trans hb.2.2)

/-- With the first 520 of 600 blocks allocated, the run from block 520 on goes past the end
of the interval and stops at the last block. -/
theorem scanL0ForFreeRunLimited_exact_past_end :
    let a := ((newAllocatorV3 600).markRangeLocked 0 520 false).1
    a.scanL0ForFreeRunLimited 3 530 100 = (520, 80) ∧
      ∃ n, IsGreatest (a.runLengths 520) n ∧ 80 = min 100 n := by
  have hr : (newAllocatorV3 600).InRange 0 520 :=
    ⟨by decide, by rw [total_newAllocatorV3 (by decide)]; decide⟩
  have hlevels := (levels_newAllocatorV3 (show 0 < 600 by decide)).mark hr false
  have hrun : ((newAllocatorV3 600).markRangeLocked 0 520 false).1.scanL0ForFreeRunLimited
      3 530 100 = (520, 80) := by decide +kernel
  exact ⟨hrun, ((scanL0ForFreeRunLimited_exact hlevels.tail 3 530 100).2 520 80 hrun
    (by decide)).2⟩

/-- The scan without a limit of its own. -/
def scanL0ForFullFreeRun (a : AllocatorV3) (fromBit toBit : ℕ) : ℕ × ℕ :=
  a.scanL0ForFreeRunLimited fromBit toBit a.total

/-- The run that it returns is the longest one. -/
theorem scanL0ForFullFreeRun_isGreatest (ht : a.TailClean) {fromBit toBit b : ℕ}
    (hb : fromBit ≤ b) (hb' : b < min toBit a.total) (hfree : a.isFree b = true) :
    IsGreatest (a.runLengths (a.scanL0ForFullFreeRun fromBit toBit).1)
      (a.scanL0ForFullFreeRun fromBit toBit).2 := by
  unfold scanL0ForFullFreeRun
  rcases scanL0ForFreeRunLimited_spec ht fromBit toBit a.total with
    ⟨-, hfull⟩ | ⟨-, hlt, -, hrun, hstop⟩
  · rcases hfull with hzero | hfull
    · omega
    · exact absurd ((hfull b hb hb').symm.trans hfree) Bool.false_ne_true
  · obtain ⟨n, hn⟩ := exists_isGreatest_runLengths (hlt.le.trans (min_le_right _ _))
    have hle := hn.1.1
    rw [hrun.eq_min hstop hn, min_eq_right (by omega)]
    exact hn

end AllocatorV3

end Corgi
