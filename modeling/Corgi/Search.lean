import Corgi.Scan
import Corgi.Marking

/-!
# The search for a free run

`scanL0ForFreeRunLimited` finds the first free block of an interval and the run of free
blocks from it, cut at the limit (`scanL0ForFreeRunLimited_spec`). The search through the
summaries finds the first free block from a position on : a `FULL` entry stands for no
free block, a `FREE` entry for free blocks only, and a `PARTIAL` entry is searched one
level down (`nextFreeRunFromLocked_spec`).
-/

namespace Corgi

/-! ## Runs in a list of words -/

theorem bitAt_cons (w : Word) (ws : List Word) (i : ℕ) :
    bitAt (w :: ws) i = if i < 64 then w.getLsbD i else bitAt ws (i - 64) := by
  split_ifs with h
  · rw [bitAt, Nat.div_eq_of_lt h, Nat.mod_eq_of_lt h]
    rfl
  · rw [bitAt, bitAt, show i / 64 = (i - 64) / 64 + 1 by omega, List.getD_cons_succ,
      show (i - 64) % 64 = i % 64 by omega]

theorem bitAt_drop (l : List Word) (k i : ℕ) : bitAt (l.drop k) i = bitAt l (64 * k + i) := by
  rw [bitAt, bitAt, show (64 * k + i) / 64 = k + i / 64 by omega,
    show (64 * k + i) % 64 = i % 64 by omega, List.getD_eq_getElem?_getD, List.getElem?_drop,
    ← List.getD_eq_getElem?_getD]

/-- The ones of `w` from bit `b` on : as many as trailing zeros of the complement. -/
theorem getLsbD_of_lt_trailing {w : Word} {b i : ℕ} (hi : i < trailingZeros64 (~~~(w >>> b))) :
    w.getLsbD (b + i) = true := by
  have h := getLsbD_of_lt_trailingZeros64 hi
  have hle := trailingZeros64_le (~~~(w >>> b))
  rw [BitVec.getLsbD_not, BitVec.getLsbD_ushiftRight] at h
  simpa [show i < 64 by omega] using h

theorem getLsbD_trailing {w : Word} {b : ℕ} (h : trailingZeros64 (~~~(w >>> b)) < 64) :
    w.getLsbD (b + trailingZeros64 (~~~(w >>> b))) = false := by
  have h' := getLsbD_trailingZeros64_of_lt h
  rw [BitVec.getLsbD_not, BitVec.getLsbD_ushiftRight] at h'
  simpa [h] using h'

namespace AllocatorV3

/-- The extension of a run stops at the cap or at the first bit that is 0. -/
theorem extendRun_spec (ws : List Word) :
    ∀ (b cap : ℕ), b < 64 → extendRun ws b cap ≤ cap ∧
      (∀ i < extendRun ws b cap, bitAt ws (b + i) = true) ∧
      (extendRun ws b cap = cap ∨ bitAt ws (b + extendRun ws b cap) = false) := by
  induction ws with
  | nil => exact fun b cap _ => ⟨by simp [extendRun], by simp [extendRun], Or.inr (by simp [bitAt])⟩
  | cons w ws ih =>
    intro b cap hb
    have hone : ∀ i < trailingZeros64 (~~~(w >>> b)),
        b + i < 64 ∧ bitAt (w :: ws) (b + i) = true := by
      intro i hi
      have hbit := getLsbD_of_lt_trailing hi
      have h64 : b + i < 64 := by
        by_contra hge
        rw [BitVec.getLsbD_of_ge _ _ (by omega)] at hbit
        exact Bool.false_ne_true hbit
      exact ⟨h64, by rw [bitAt_cons, if_pos h64, hbit]⟩
    rw [extendRun]
    simp only
    generalize hn : min (min (trailingZeros64 (~~~(w >>> b))) (64 - b)) cap = n
    split_ifs with hcap hstop
    · exact ⟨Nat.zero_le _, by simp, Or.inl hcap.symm⟩
    · refine ⟨by omega, fun i hi => (hone i (by omega)).2, ?_⟩
      rcases Nat.lt_or_ge n cap with hlt | hge
      · right
        have hz : n = trailingZeros64 (~~~(w >>> b)) := by omega
        rw [bitAt_cons, if_pos (by omega), hz]
        exact getLsbD_trailing (by omega)
      · exact Or.inl (by omega)
    · obtain ⟨h1, h2, h3⟩ := ih 0 (cap - n) (by decide)
      refine ⟨by omega, fun i hi => ?_, ?_⟩
      · rcases Nat.lt_or_ge i n with hlt | hge
        · exact (hone i (by omega)).2
        · rw [bitAt_cons, if_neg (by omega), show b + i - 64 = 0 + (i - n) by omega]
          exact h2 _ (by omega)
      · rcases h3 with h3 | h3
        · exact Or.inl (by omega)
        · right
          rw [bitAt_cons, if_neg (by omega),
            show b + (n + extendRun ws 0 (cap - n)) - 64 = 0 + extendRun ws 0 (cap - n) by omega]
          exact h3

/-! ## The scan of `l0` -/

/-- `r` is a run of at most `limit` free blocks. -/
structure FreeRun (a : AllocatorV3) (limit : ℕ) (r : ℕ × ℕ) : Prop where
  pos : 0 < r.2
  le : r.2 ≤ limit
  inside : r.1 + r.2 ≤ a.total
  free : ∀ b, r.1 ≤ b → b < r.1 + r.2 → a.isFree b = true

/-- The search result `x` is right for the first free block in `[lo, hi)`. -/
abbrev FindsRun (a : AllocatorV3) (limit lo hi : ℕ) (x : Option (ℕ × ℕ)) : Prop :=
  FindsFirst a.isFree Prod.fst (a.FreeRun limit) lo hi x

theorem findsFirst_word (a : AllocatorV3) (k : ℕ) :
    FindsFirst a.isFree id (fun _ => True) (64 * k) (64 * (k + 1))
      (if a.l0.getD k 0#64 ≠ 0#64 then some (k * 64 + trailingZeros64 (a.l0.getD k 0#64))
      else none) := by
  split_ifs with h
  · have hbit := getLsbD_trailingZeros64 h
    have hlt : trailingZeros64 (a.l0.getD k 0#64) < 64 := by
      by_contra hge
      rw [BitVec.getLsbD_of_ge _ _ (by omega)] at hbit
      exact Bool.false_ne_true hbit
    refine ⟨by simp only [id]; omega, by simp only [id]; omega, ?_, fun b h1 h2 => ?_, trivial⟩
    · rw [getLsbD_getD _ _ hlt, Nat.mul_comm] at hbit
      exact hbit
    · simp only [id] at h2
      have hz := getLsbD_of_lt_trailingZeros64 (w := a.l0.getD k 0#64) (i := b - 64 * k) (by omega)
      rwa [getLsbD_getD _ _ (by omega), show 64 * k + (b - 64 * k) = b by omega] at hz
  · intro b h1 h2
    rw [ne_eq, not_not] at h
    have hz := getLsbD_getD a.l0 k (j := b - 64 * k) (by omega)
    rw [h, BitVec.getLsbD_zero, show 64 * k + (b - 64 * k) = b by omega] at hz
    exact hz.symm

/-- The first word's bits from `fromBit` on. -/
theorem findsFirst_firstWord (a : AllocatorV3) (fromBit : ℕ) :
    FindsFirst a.isFree id (fun _ => True) fromBit (64 * (fromBit / 64 + 1))
      (if a.l0.getD (fromBit / 64) 0#64 >>> (fromBit % 64) ≠ 0#64 then
        some (fromBit / 64 * 64 + fromBit % 64 +
          trailingZeros64 (a.l0.getD (fromBit / 64) 0#64 >>> (fromBit % 64)))
      else none) := by
  have hshift : ∀ j, 64 * (fromBit / 64) + (fromBit % 64 + j) = fromBit + j := by omega
  have hbits : ∀ j, fromBit % 64 + j < 64 →
      (a.l0.getD (fromBit / 64) 0#64 >>> (fromBit % 64)).getLsbD j = a.isFree (fromBit + j) := by
    intro j hj
    rw [BitVec.getLsbD_ushiftRight, getLsbD_getD _ _ hj, hshift, isFree]
  split_ifs with h
  · generalize hw : a.l0.getD (fromBit / 64) 0#64 >>> (fromBit % 64) = w at h hbits
    have hbit := getLsbD_trailingZeros64 h
    have hlt : fromBit % 64 + trailingZeros64 w < 64 := by
      by_contra hge
      rw [← hw, BitVec.getLsbD_ushiftRight, BitVec.getLsbD_of_ge _ _ (by rw [hw]; omega)] at hbit
      exact Bool.false_ne_true hbit
    have hpos : fromBit / 64 * 64 + fromBit % 64 + trailingZeros64 w =
        fromBit + trailingZeros64 w := by omega
    rw [hpos]
    refine ⟨by simp only [id]; omega, by simp only [id]; omega, ?_, fun b h1 h2 => ?_, trivial⟩
    · rw [hbits _ hlt] at hbit
      exact hbit
    · simp only [id] at h2
      have hz := getLsbD_of_lt_trailingZeros64 (w := w) (i := b - fromBit) (by omega)
      rwa [hbits _ (by omega), show fromBit + (b - fromBit) = b by omega] at hz
  · intro b h1 h2
    rw [ne_eq, not_not] at h
    have hz := hbits (b - fromBit) (by omega)
    rw [h, BitVec.getLsbD_zero, show fromBit + (b - fromBit) = b by omega] at hz
    exact hz.symm

theorem firstFreeBit_spec (a : AllocatorV3) (fromBit toBit : ℕ) (h : fromBit < toBit) :
    FindsFirst a.isFree id (fun _ => True) fromBit (64 * ((toBit - 1) / 64 + 1))
      (a.firstFreeBit fromBit toBit) := by
  have hrest := @FindsFirst.findSome? _ a.isFree id (fun _ => True)
    (fun k => 64 * k) (fun _ _ hk => Nat.mul_le_mul_left _ hk)
    (fun w => if a.l0.getD w 0#64 ≠ 0#64 then some (w * 64 + trailingZeros64 (a.l0.getD w 0#64))
      else none) ((toBit - 1) / 64 - fromBit / 64) (fromBit / 64 + 1)
    fun i _ _ => findsFirst_word a i
  have happ := (findsFirst_firstWord a fromBit).append
    (hrest.of_eq rfl (show _ = 64 * ((toBit - 1) / 64 + 1) by omega)) (by omega) (by omega)
  unfold firstFreeBit
  simp only
  split_ifs at happ ⊢ with hw
  · exact happ
  · simpa using happ

/-- The scan finds the first free block of `[fromBit, toBit)`, and a run from it that
stops at `limit` or at an allocated block. -/
theorem scanL0ForFreeRunLimited_spec {a : AllocatorV3} (ht : a.TailClean)
    (fromBit toBit limit : ℕ) :
    (a.scanL0ForFreeRunLimited fromBit toBit limit = (0, 0) ∧
      (limit = 0 ∨ ∀ b, fromBit ≤ b → b < min toBit a.total → a.isFree b = false)) ∨
    (fromBit ≤ (a.scanL0ForFreeRunLimited fromBit toBit limit).1 ∧
      (a.scanL0ForFreeRunLimited fromBit toBit limit).1 < min toBit a.total ∧
      (∀ b, fromBit ≤ b → b < (a.scanL0ForFreeRunLimited fromBit toBit limit).1 →
        a.isFree b = false) ∧
      a.FreeRun limit (a.scanL0ForFreeRunLimited fromBit toBit limit) ∧
      ((a.scanL0ForFreeRunLimited fromBit toBit limit).2 = limit ∨
        a.isFree ((a.scanL0ForFreeRunLimited fromBit toBit limit).1 +
          (a.scanL0ForFreeRunLimited fromBit toBit limit).2) = false)) := by
  unfold scanL0ForFreeRunLimited
  split_ifs with hstart
  · refine Or.inl ⟨rfl, ?_⟩
    rcases hstart with h | h | h
    · exact Or.inr fun b h1 h2 => by omega
    · exact Or.inr fun b h1 h2 => by omega
    · exact Or.inl h
  · simp only
    have hfirst := firstFreeBit_spec a fromBit (min toBit a.total) (by omega)
    cases hf : a.firstFreeBit fromBit (min toBit a.total) with
    | none =>
      rw [hf] at hfirst
      exact Or.inl ⟨rfl, Or.inr fun b h1 h2 => hfirst b h1 (by omega)⟩
    | some f =>
      rw [hf] at hfirst
      obtain ⟨h1, h2, h3, h4, -⟩ := hfirst
      simp only [id] at h1 h2 h3 h4
      simp only
      split_ifs with hout hrun
      · exact Or.inl ⟨rfl, Or.inr fun b hb1 hb2 => h4 b hb1 (by omega)⟩
      · exfalso
        obtain ⟨-, -, hx⟩ := extendRun_spec (a.l0.drop (f / 64)) (f % 64) limit
          (Nat.mod_lt _ (by decide))
        rw [show extendRun (a.l0.drop (f / 64)) (f % 64) limit = 0 by omega, bitAt_drop,
          show 64 * (f / 64) + (f % 64 + 0) = f by omega] at hx
        rcases hx with hx | hx
        · omega
        · rw [isFree, hx] at h3
          exact Bool.false_ne_true h3
      · obtain ⟨hcap, hfree, hx⟩ := extendRun_spec (a.l0.drop (f / 64)) (f % 64) limit
          (Nat.mod_lt _ (by decide))
        generalize extendRun (a.l0.drop (f / 64)) (f % 64) limit = n at *
        have hbit : ∀ i, bitAt (a.l0.drop (f / 64)) (f % 64 + i) = a.isFree (f + i) := by
          intro i
          rw [bitAt_drop, isFree, show 64 * (f / 64) + (f % 64 + i) = f + i by omega]
        have hin : f + n ≤ a.total := by
          by_contra hgt
          have hlast := hfree (a.total - f) (by omega)
          rw [hbit, ht _ (by omega)] at hlast
          exact Bool.false_ne_true hlast
        have hmin : min (f + n) a.total - f = n := by omega
        simp only [hmin]
        refine Or.inr ⟨h1, by omega, h4, ⟨by omega, hcap, hin, fun b hb1 hb2 => ?_⟩, ?_⟩
        · have hb := hfree (b - f) (by simp only at hb1 hb2; omega)
          rwa [hbit, show f + (b - f) = b by simp only at hb1; omega] at hb
        · rwa [hbit] at hx

/-! ## The search through the summaries -/

theorem summaryEntry_eq_zero {allFree allAlloc : Bool} (h : summaryEntry allFree allAlloc = 0) :
    allAlloc = true := by
  cases allFree <;> cases allAlloc <;> first | rfl | exact absurd h (by decide)

theorem summaryEntry_eq_three {allFree allAlloc : Bool} (h : summaryEntry allFree allAlloc = 3) :
    allFree = true := by
  cases allFree <;> cases allAlloc <;> first | rfl | exact absurd h (by decide)

/-- A `FULL` entry of `l1` stands for no free block. -/
theorem isFree_of_l1_full {a : AllocatorV3} (hsum : a.Summarised) (ht : a.TailClean) {e b : ℕ}
    (he : entryAt a.l1 e = 0) (h₁ : 512 * e ≤ b) (h₂ : b < 512 * (e + 1)) : a.isFree b = false := by
  rcases Nat.lt_or_ge b a.total with hb | hb
  · rw [hsum.l1 e (by omega)] at he
    have hall := List.all_eq_true.mp (summaryEntry_eq_zero he) b
      (by rw [List.mem_range'_1]; omega)
    simpa using hall
  · exact ht b hb

/-- A `FREE` entry of `l1` stands for free blocks only. -/
theorem isFree_of_l1_free {a : AllocatorV3} (hsum : a.Summarised) {e b : ℕ}
    (he : entryAt a.l1 e = 3) (h₁ : 512 * e ≤ b) (h₂ : b < 512 * (e + 1)) (hb : b < a.total) :
    a.isFree b = true := by
  rw [hsum.l1 e (by omega)] at he
  exact List.all_eq_true.mp (summaryEntry_eq_three he) b (by rw [List.mem_range'_1]; omega)

/-- The fast path in a group of free blocks. -/
theorem freeGroupRun_spec {a : AllocatorV3} (ht : a.TailClean) {fromBlock limit lo hi : ℕ}
    (hlimit : 0 < limit) (hfree : ∀ b, lo ≤ b → b < hi → b < a.total → a.isFree b = true)
    (hle : lo ≤ hi) : a.FindsRun limit (max fromBlock lo) (max fromBlock hi)
      (freeGroupRun fromBlock limit lo (min hi a.total)) := by
  unfold freeGroupRun
  simp only
  split_ifs with hsz
  · refine ⟨le_rfl, by simp only; omega, hfree _ (by simp only; omega) (by simp only; omega)
      (by simp only; omega), fun b h1 h2 => by simp only at h2; omega, hsz, by simp only; omega,
      by simp only; omega, fun b h1 h2 => ?_⟩
    simp only at h1 h2
    exact hfree b (by omega) (by omega) (by omega)
  · exact fun b h1 h2 => ht b (by omega)

theorem searchL1Entry_spec {a : AllocatorV3} (h : a.Shape) (hsum : a.Summarised)
    (ht : a.TailClean) {limit : ℕ} (hlimit : 0 < limit) (fromBlock li : ℕ) {bitPos : ℕ}
    (hbit : bitPos < 32) :
    a.FindsRun limit (max fromBlock (512 * (li * 32 + bitPos)))
      (max fromBlock (512 * (li * 32 + bitPos + 1)))
      (a.searchL1Entry fromBlock limit li bitPos) := by
  have hentry := entryAt_mul_add a.l1 li hbit
  unfold searchL1Entry
  simp only [← hentry]
  generalize li * 32 + bitPos = e
  have hscan := scanL0ForFreeRunLimited_spec ht (max fromBlock (e * 8 * 64))
    (min (e * 8 + 8) a.l0.length * 64) limit
  generalize a.scanL0ForFreeRunLimited (max fromBlock (e * 8 * 64))
    (min (e * 8 + 8) a.l0.length * 64) limit = r at hscan ⊢
  split_ifs with hfull hfree hrun
  · exact fun b h1 h2 => isFree_of_l1_full hsum ht hfull (by omega) (by omega)
  · rw [show e * 8 * 64 = 512 * e by omega, show 512 * e + 512 = 512 * (e + 1) by omega]
    exact freeGroupRun_spec ht hlimit (fun b h1 h2 => isFree_of_l1_free hsum hfree h1 h2)
      (by omega)
  · rcases hscan with ⟨rfl, -⟩ | ⟨h1, h2, h3, h4, -⟩
    · exact absurd hrun (by decide)
    · exact ⟨by omega, by omega, h4.free _ le_rfl (by have := h4.pos; omega),
        fun b hb1 hb2 => h3 b (by omega) hb2, h4⟩
  · rcases hscan with ⟨-, h1⟩ | ⟨-, -, -, h4, -⟩
    · have h0 := h.length_l0
      intro b hb1 hb2
      rcases Nat.lt_or_ge b a.total with hb | hb
      · exact h1.elim (fun h1 => by omega) fun h1 => h1 b (by omega) (by omega)
      · exact ht b hb
    · exact absurd h4.pos hrun

/-- The loop over the entries of `l1` words `[start, stop)`, entered at entry `init` of
the first. -/
theorem searchL1_spec {a : AllocatorV3} (h : a.Shape) (hsum : a.Summarised) (ht : a.TailClean)
    {limit : ℕ} (hlimit : 0 < limit) {fromBlock start stop init : ℕ} (hinit : init < 32)
    (hfrom : init = 0 ∨ 512 * (start * 32 + init) ≤ fromBlock) (hle : start ≤ stop) :
    a.FindsRun limit (max fromBlock (512 * (start * 32))) (max fromBlock (512 * (stop * 32)))
      ((List.range' start (stop - start)).findSome? fun li =>
        (List.range' (if li = start then init else 0)
          (32 - (if li = start then init else 0))).findSome? fun bitPos =>
            a.searchL1Entry fromBlock limit li bitPos) := by
  have hmono : Monotone fun li => max fromBlock (512 * (li * 32)) :=
    fun _ _ hli => by simp only; omega
  refine (FindsFirst.findSome? hmono _ (stop - start) start fun li h1 h2 => ?_).of_eq rfl
    (by rw [Nat.add_sub_cancel' hle])
  have hmono' : Monotone fun bitPos => max fromBlock (512 * (li * 32 + bitPos)) :=
    fun _ _ hb => by simp only; omega
  have hlt : (if li = start then init else 0) < 32 := by split_ifs <;> omega
  refine (FindsFirst.findSome? hmono' _ (32 - (if li = start then init else 0)) _
    fun bitPos h3 h4 => searchL1Entry_spec h hsum ht hlimit fromBlock li (by omega)).of_eq ?_ ?_
  · split_ifs with hli
    · subst hli
      omega
    · rfl
  · omega

theorem getD_eq_of_l1SetEntry {a : AllocatorV3} {s k : ℕ} {v : Word}
    (h : ((List.range' (8 * s) (min (8 * s + 8) a.l1.length - 8 * s)).all fun k =>
      a.l1.getD k 0#64 == v) = true) (h₁ : 8 * s ≤ k) (h₂ : k < 8 * s + 8) (hk : k < a.l1.length) :
    a.l1.getD k 0#64 = v := by
  have hall := List.all_eq_true.mp h k (by rw [List.mem_range'_1]; omega)
  exact beq_iff_eq.mp hall

/-- A `FULL` entry of `l2` stands for no free block. -/
theorem isFree_of_l2_full {a : AllocatorV3} (h : a.Shape) (hsum : a.Summarised)
    (ht : a.TailClean) {s b : ℕ} (hs : entryAt a.l2 s = 0) (h₁ : 131072 * s ≤ b)
    (h₂ : b < 131072 * (s + 1)) : a.isFree b = false := by
  have h0 := h.length_l0
  have h1 := h.length_l1
  rcases Nat.lt_or_ge b a.total with hb | hb
  · rw [hsum.l2 s (by omega)] at hs
    have hword := getD_eq_of_l1SetEntry (summaryEntry_eq_zero hs) (k := b / 512 / 32) (by omega)
      (by omega) (by omega)
    refine isFree_of_l1_full hsum ht (e := b / 512) ?_ (by omega) (by omega)
    rw [entryAt, hword, entryOf_zero]
    rfl
  · exact ht b hb

/-- A `FREE` entry of `l2` stands for free blocks only. -/
theorem isFree_of_l2_free {a : AllocatorV3} (h : a.Shape) (hsum : a.Summarised) {s b : ℕ}
    (hs : entryAt a.l2 s = 3) (h₁ : 131072 * s ≤ b) (h₂ : b < 131072 * (s + 1))
    (hb : b < a.total) : a.isFree b = true := by
  have h0 := h.length_l0
  have h1 := h.length_l1
  rw [hsum.l2 s (by omega)] at hs
  have hword := getD_eq_of_l1SetEntry (summaryEntry_eq_three hs) (k := b / 512 / 32) (by omega)
    (by omega) (by omega)
  refine isFree_of_l1_free hsum (e := b / 512) ?_ (by omega) (by omega) hb
  rw [entryAt, hword, entryOf_allOnes (Nat.mod_lt _ (by decide))]

theorem searchL2Entry_spec {a : AllocatorV3} (h : a.Shape) (hsum : a.Summarised)
    (ht : a.TailClean) {limit : ℕ} (hlimit : 0 < limit) (fromBlock curL2Slot : ℕ) {curL2Bit : ℕ}
    (hbit : curL2Bit < 32) (hfrom : fromBlock < a.total) :
    a.FindsRun limit (max fromBlock (131072 * (curL2Slot * 32 + curL2Bit)))
      (max fromBlock (131072 * (curL2Slot * 32 + curL2Bit + 1)))
      (a.searchL2Entry fromBlock limit curL2Slot curL2Bit) := by
  have hentry := entryAt_mul_add a.l2 curL2Slot hbit
  have h0 := h.length_l0
  have h1 := h.length_l1
  unfold searchL2Entry
  simp only [← hentry]
  have hfirst : (curL2Slot = fromBlock / 64 / 8 / 32 / 8 / 32 ∧
      curL2Bit = fromBlock / 64 / 8 / 32 / 8 % 32) ↔
      curL2Slot * 32 + curL2Bit = fromBlock / 64 / 8 / 32 / 8 := by omega
  simp only [hfirst]
  generalize curL2Slot * 32 + curL2Bit = s at *
  have htail : ∀ b, max fromBlock (512 * (min (s * 8 + 8) a.l1.length * 32)) ≤ b →
      b < max fromBlock (131072 * (s + 1)) → a.isFree b = false :=
    fun b h2 h3 => ht b (by omega)
  have hpad : entryAt a.l2 s ≠ 0 → 8 * s < a.l1.length := by
    intro hne
    by_contra hc
    exact hne (hsum.l2_pad s (by omega))
  split_ifs with hfull hfree hin
  · exact fun b h1 h2 => isFree_of_l2_full h hsum ht hfull (by omega) (by omega)
  · rw [Nat.mul_comm s, show 131072 * s + 131072 = 131072 * (s + 1) by omega]
    exact freeGroupRun_spec ht hlimit (fun b h1 h2 => isFree_of_l2_free h hsum hfree h1 h2)
      (by omega)
  · -- The entry of `fromBlock` : the loop starts inside it.
    have hlen := hpad hfull
    exact ((searchL1_spec h hsum ht hlimit (Nat.mod_lt _ (by decide))
      (Or.inr (by omega)) (by omega)).of_eq (by omega) rfl).extend (by omega) htail
  · have hlen := hpad hfull
    exact ((searchL1_spec h hsum ht hlimit (show 0 < 32 by decide) (Or.inl rfl)
      (by omega)).of_eq (by omega) rfl).extend (by omega) htail

/-- The search through the summaries finds the first free block from `fromBlock` on. -/
theorem nextFreeRunFromLocked_spec {a : AllocatorV3} (h : a.Shape) (hsum : a.Summarised)
    (ht : a.TailClean) {limit : ℕ} (hlimit : 0 < limit) (fromBlock : ℕ) :
    (a.nextFreeRunFromLocked fromBlock limit = (0, 0) ∧
      ∀ b, fromBlock ≤ b → a.isFree b = false) ∨
    (fromBlock ≤ (a.nextFreeRunFromLocked fromBlock limit).1 ∧
      (∀ b, fromBlock ≤ b → b < (a.nextFreeRunFromLocked fromBlock limit).1 →
        a.isFree b = false) ∧
      a.FreeRun limit (a.nextFreeRunFromLocked fromBlock limit)) := by
  have h0 := h.length_l0
  have h1 := h.length_l1
  have h2 := h.length_l2
  have hpos := h.total_pos
  unfold nextFreeRunFromLocked
  split_ifs with hout
  · exact Or.inl ⟨rfl, fun b hb => ht b (by omega)⟩
  · have hmono : Monotone fun slot => max fromBlock (131072 * (slot * 32)) :=
      fun _ _ hs => by simp only; omega
    have hfound := @FindsFirst.findSome? _ a.isFree Prod.fst (a.FreeRun limit) _ hmono
      (fun curL2Slot =>
        (List.range' (if curL2Slot = fromBlock / 64 / 8 / 32 / 8 / 32 then
            fromBlock / 64 / 8 / 32 / 8 % 32 else 0)
          (32 - (if curL2Slot = fromBlock / 64 / 8 / 32 / 8 / 32 then
            fromBlock / 64 / 8 / 32 / 8 % 32 else 0))).findSome? fun curL2Bit =>
              a.searchL2Entry fromBlock limit curL2Slot curL2Bit)
      (a.l2.length - fromBlock / 64 / 8 / 32 / 8 / 32) (fromBlock / 64 / 8 / 32 / 8 / 32) ?_
    · simp only
      generalize List.findSome? _ _ = found at hfound
      cases found with
      | none =>
        refine Or.inl ⟨rfl, fun b hb => ?_⟩
        rcases Nat.lt_or_ge b a.total with hbt | hbt
        · exact hfound b (by omega) (by omega)
        · exact ht b hbt
      | some r =>
        obtain ⟨h3, -, -, h4, h5⟩ := hfound
        exact Or.inr ⟨by simp only [Option.getD_some]; omega,
          fun b hb1 hb2 => h4 b (by omega) hb2, h5⟩
    · intro slot _ _
      have hmono' : Monotone fun bit => max fromBlock (131072 * (slot * 32 + bit)) :=
        fun _ _ hb => by simp only; omega
      refine (FindsFirst.findSome? hmono' _ (32 - (if slot = fromBlock / 64 / 8 / 32 / 8 / 32 then
        fromBlock / 64 / 8 / 32 / 8 % 32 else 0)) _ fun bit h3 h4 =>
          searchL2Entry_spec h hsum ht hlimit fromBlock slot ?_ (by omega)).of_eq ?_ ?_
      · split_ifs at h4 <;> omega
      · split_ifs <;> omega
      · split_ifs <;> omega

end AllocatorV3

end Corgi
