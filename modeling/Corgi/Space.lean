import Corgi.GroupCommit

/-!
# The persisted space bitmap

One bit a block, 4096 blocks a key, the high bit of the first byte being the first block.
The model of the functions that compute keys and masks, and what the masks contain :
`spaceUpdateValues_spec` says that an update of `[offset, offset + size)` touches exactly
the blocks of that range.
-/

namespace Corgi

/-! ## The model -/

/-- The errors of the bitmap functions. -/
inductive SpaceError
  | invalidUpdate (offset size : ℤ)
  | invalidResult (offset size : ℤ)
  deriving DecidableEq, Repr

/-- The text of the error. -/
def SpaceError.message : SpaceError → String
  | invalidUpdate offset size => s!"invalid bitmap update offset={offset} size={size}"
  | invalidResult offset size =>
    s!"invalid alloc result: \x7bOffset:{offset} Size:{size}\x7d"

/-- The key of the bitmap of the blocks from `4096 * index` on. -/
def familySpaceKey (index : ℕ) : Bytes :=
  ascii ['.', '1', '.'] ++ decimal 10 index

/-- The loops' statement on one bit : set it to mark a block as allocated, flip it to mark
it as free. -/
def markBit (allocated : Bool) (i : ℕ) (value : Bytes) (j : ℕ) : Bytes :=
  let bit := 1#8 <<< (7 - j)
  value.set i (if allocated then value.getD i 0#8 ||| bit else value.getD i 0#8 ^^^ bit)

/-- A byte all of whose blocks are marked. -/
def fullByte (allocated : Bool) : Byte :=
  if allocated then 255#8 else 0#8

/-- The body of the outer loop. -/
def markByte (allocated : Bool) (markStart markEnd markBitStartIndex markBitEndIndex half : ℕ)
    (value : Bytes) (i : ℕ) : Bytes :=
  if i ≠ markStart ∧ i ≠ markEnd then value.set (i + half) (fullByte allocated)
  else if i = markStart then
    (List.range' markBitStartIndex (8 - markBitStartIndex)).reverse.foldl
      (markBit allocated (i + half)) value
  else (List.range markBitEndIndex).foldl (markBit allocated (i + half)) value

/-- The half of a mask that an update changes. -/
def halfOf (allocated : Bool) : ℕ :=
  if allocated then 0 else 512

/-- The mask that marks the blocks from bit `markBitStartIndex` of byte `markStart` up to
before bit `markBitEndIndex` of byte `markEnd`. The bits to set are in the low half, the
bits to keep in the high half. -/
def simpleSpaceUpdateValue (markStart markEnd markBitStartIndex markBitEndIndex : ℕ)
    (allocated : Bool) : Bytes :=
  let value := List.replicate 512 0#8 ++ List.replicate 512 255#8
  if markEnd = markStart then
    (List.range' markBitStartIndex (markBitEndIndex - markBitStartIndex)).reverse.foldl
      (markBit allocated (markStart + halfOf allocated)) value
  else (List.range' markStart (markEnd + 1 - markStart)).foldl
    (markByte allocated markStart markEnd markBitStartIndex markBitEndIndex (halfOf allocated))
    value

/-- The masks that mark `[offset, offset + size)`, one for each key from
`offset / SpaceSize` on. The sums do not overflow on a device. -/
def spaceUpdateValues (offset size : ℤ) (allocated : Bool) : Except SpaceError (List Bytes) :=
  if offset < 0 ∨ size ≤ 0 ∨ offset % 4096 ≠ 0 then .error (.invalidUpdate offset size)
  else
    let offset := offset.toNat
    let size := size.toNat
    let keyStart := offset / 16777216
    let keyOffset := if (offset + size) % 16777216 = 0 then (offset + size) / 16777216 - 1
      else (offset + size) / 16777216
    let markStart := (offset - keyStart * 16777216) / 4096 / 8
    let markBitStartIndex := (offset - keyStart * 16777216) / 4096 % 8
    let stop := (size + offset - keyOffset * 16777216) / 4096
    let markBitEndIndex := stop % 8 + if 0 < size % 4096 then 1 else 0
    let markEnd := stop / 8
    let keyEnd := if markBitEndIndex = 0 ∧ markEnd = 0 then keyOffset - 1 else keyOffset
    let markEnd' := if markBitEndIndex = 0 then markEnd - 1 else markEnd
    let markBitEndIndex' := if markBitEndIndex = 0 then 8 else markBitEndIndex
    if keyStart = keyEnd then
      .ok [simpleSpaceUpdateValue markStart markEnd' markBitStartIndex markBitEndIndex' allocated]
    else .ok ((List.range' keyStart (keyEnd + 1 - keyStart)).map fun start =>
      if start = keyStart then simpleSpaceUpdateValue markStart 511 markBitStartIndex 8 allocated
      else if start ≠ keyEnd then simpleSpaceUpdateValue 0 511 0 8 allocated
      else simpleSpaceUpdateValue 0 markEnd' 0 markBitEndIndex' allocated)

/-- Exactly 512 bytes of a stored value, missing ones being zero. -/
def normalizeSpaceValue (value : Option Bytes) : Bytes :=
  let value := value.getD []
  value.take 512 ++ List.replicate (512 - value.length) 0#8

/-- A bitmap with no block allocated. -/
def zeroSpace : Bytes :=
  List.replicate 512 0#8

/-! ## Keys -/

theorem familySpaceKey_injective : Function.Injective familySpaceKey := by
  intro i j h
  exact decimal_injective 10 (List.append_cancel_left h)

theorem isSpaceKey_familySpaceKey (index : ℕ) : isSpaceKey (familySpaceKey index) = true := by
  have hlen : 10 ≤ (decimal 10 index).length := by
    simp only [decimal, List.length_map, List.length_reverse, List.length_append,
      List.length_replicate]
    omega
  rw [isSpaceKey, familySpaceKey, Bool.and_eq_true, decide_eq_true_eq, List.length_append]
  exact ⟨by simp [ascii]; omega, beq_iff_eq.mpr rfl⟩

/-! ## One mask -/

theorem getLsbD_bit {j k : ℕ} (hj : j < 8) (hk : k < 8) :
    (1#8 <<< (7 - j)).getLsbD (7 - k) = decide (k = j) := by
  have h : ∀ j < 8, ∀ k < 8, (1#8 <<< (7 - j)).getLsbD (7 - k) = decide (k = j) := by decide
  exact h j hj k hk

theorem msbBit_markBit {allocated : Bool} {i j : ℕ} {v : Bytes} (hi : i < v.length) (hj : j < 8)
    (p : ℕ) : msbBit (markBit allocated i v j) p =
      if p / 8 = i ∧ p % 8 = j then (if allocated then true else !msbBit v p) else msbBit v p := by
  have hp := Nat.mod_lt p (show 0 < 8 by decide)
  rw [markBit, msbBit_set hi]
  by_cases h1 : p / 8 = i
  · subst h1
    by_cases h2 : p % 8 = j
    · subst h2
      cases allocated <;> simp [msbBit, getLsbD_bit hp hp]
    · cases allocated <;> simp [msbBit, getLsbD_bit hj hp, h2]
  · simp [h1]

theorem length_foldl_markBit {allocated : Bool} {i : ℕ} : ∀ (js : List ℕ) (v : Bytes),
    (js.foldl (markBit allocated i) v).length = v.length
  | [], _ => rfl
  | j :: js, v => by rw [List.foldl_cons, length_foldl_markBit js, markBit, List.length_set]

/-- The inner loops mark the bits listed, when none of the byte is marked yet. -/
theorem msbBit_foldl_markBit {allocated : Bool} {i : ℕ} : ∀ {js : List ℕ} {v : Bytes},
    i < v.length → js.Nodup → (∀ j ∈ js, j < 8) →
    (∀ j ∈ js, msbBit v (8 * i + j) = !allocated) → ∀ p,
    msbBit (js.foldl (markBit allocated i) v) p =
      if p / 8 = i ∧ p % 8 ∈ js then allocated else msbBit v p
  | [], _, _, _, _, _, p => by simp
  | j :: js, v, hi, hnd, hlt, hbit, p => by
    obtain ⟨hj, hnd⟩ := List.nodup_cons.mp hnd
    have hjlt := hlt j List.mem_cons_self
    have hother : ∀ k ∈ js, msbBit (markBit allocated i v j) (8 * i + k) = !allocated := by
      intro k hk
      have hklt := hlt k (List.mem_cons_of_mem _ hk)
      have hne : k ≠ j := fun h => hj (h ▸ hk)
      rw [msbBit_markBit hi hjlt, if_neg (by omega)]
      exact hbit k (List.mem_cons_of_mem _ hk)
    rw [List.foldl_cons, msbBit_foldl_markBit (by rw [markBit, List.length_set]; exact hi) hnd
      (fun k hk => hlt k (List.mem_cons_of_mem _ hk)) hother, msbBit_markBit hi hjlt]
    have hb := hbit j List.mem_cons_self
    by_cases h1 : p / 8 = i
    · by_cases h2 : p % 8 = j
      · have hp : p = 8 * i + j := by omega
        rw [← hp] at hb
        have hj' : p % 8 ∉ js := h2 ▸ hj
        cases allocated <;> simp_all
      · simp [h1, h2]
    · simp [h1]

theorem length_markByte (allocated : Bool) (markStart markEnd bs be half : ℕ) (v : Bytes) (i : ℕ) :
    (markByte allocated markStart markEnd bs be half v i).length = v.length := by
  unfold markByte
  split_ifs
  · rw [List.length_set]
  · rw [length_foldl_markBit]
  · rw [length_foldl_markBit]

theorem getLsbD_fullByte (allocated : Bool) {k : ℕ} (hk : k < 8) :
    (fullByte allocated).getLsbD (7 - k) = allocated := by
  have h : ∀ allocated : Bool, ∀ k < 8, (fullByte allocated).getLsbD (7 - k) = allocated := by
    decide
  exact h allocated k hk

/-- One byte of the outer loop, when it is not marked yet. -/
theorem msbBit_markByte {allocated : Bool} {markStart markEnd bs be half i : ℕ} {v : Bytes}
    (hse : markStart ≠ markEnd) (hbe : be ≤ 8) (hi : i + half < v.length)
    (hbit : ∀ j < 8, msbBit v (8 * (i + half) + j) = !allocated) (p : ℕ) :
    msbBit (markByte allocated markStart markEnd bs be half v i) p =
      if p / 8 = i + half ∧ (i = markStart → bs ≤ p % 8) ∧ (i = markEnd → p % 8 < be)
      then allocated else msbBit v p := by
  have hp := Nat.mod_lt p (show 0 < 8 by decide)
  unfold markByte
  by_cases h1 : i ≠ markStart ∧ i ≠ markEnd
  · rw [if_pos h1, msbBit_set hi, getLsbD_fullByte _ hp]
    refine if_congr ?_ rfl rfl
    exact ⟨fun h => ⟨h, fun h' => absurd h' h1.1, fun h' => absurd h' h1.2⟩, fun h => h.1⟩
  · rw [if_neg h1]
    by_cases h2 : i = markStart
    · rw [if_pos h2, msbBit_foldl_markBit hi (List.nodup_reverse.mpr List.nodup_range')
        (fun j hj => by rw [List.mem_reverse, List.mem_range'_1] at hj; omega)
        fun j hj => hbit j (by rw [List.mem_reverse, List.mem_range'_1] at hj; omega)]
      refine if_congr ?_ rfl rfl
      rw [List.mem_reverse, List.mem_range'_1]
      omega
    · rw [if_neg h2, msbBit_foldl_markBit hi List.nodup_range
        (fun j hj => by rw [List.mem_range] at hj; omega)
        fun j hj => hbit j (by rw [List.mem_range] at hj; omega)]
      refine if_congr ?_ rfl rfl
      rw [List.mem_range]
      omega

/-- The outer loop, over bytes that are not marked yet. -/
theorem foldl_markByte_spec {allocated : Bool} {markStart markEnd bs be half : ℕ}
    (hse : markStart ≠ markEnd) (hbe : be ≤ 8) : ∀ (n i : ℕ) {v : Bytes},
    i + n + half ≤ v.length →
    (∀ p, 8 * (i + half) ≤ p → p < 8 * (i + n + half) → msbBit v p = !allocated) →
    ((List.range' i n).foldl (markByte allocated markStart markEnd bs be half) v).length =
      v.length ∧ ∀ p,
    msbBit ((List.range' i n).foldl (markByte allocated markStart markEnd bs be half) v) p =
      if 8 * (i + half) ≤ p ∧ p < 8 * (i + n + half) ∧
        (p / 8 = markStart + half → bs ≤ p % 8) ∧ (p / 8 = markEnd + half → p % 8 < be)
      then allocated else msbBit v p
  | 0, i, v, _, _ => by
    refine ⟨rfl, fun p => ?_⟩
    rw [if_neg (by omega)]
    rfl
  | n + 1, i, v, hlen, hbit => by
    have hbyte := @msbBit_markByte allocated markStart markEnd bs be half i v hse hbe (by omega)
      fun j hj => hbit (8 * (i + half) + j) (by omega) (by omega)
    obtain ⟨ihlen, ihbit⟩ := @foldl_markByte_spec allocated markStart markEnd bs be half hse hbe n
      (i + 1) (markByte allocated markStart markEnd bs be half v i)
      (by rw [length_markByte]; omega) fun p h1 h2 => by
        rw [hbyte, if_neg (by omega)]
        exact hbit p (by omega) (by omega)
    rw [List.range'_succ, List.foldl_cons]
    refine ⟨by rw [ihlen, length_markByte], fun p => ?_⟩
    rw [ihbit, hbyte]
    clear ihbit ihlen hbyte hbit hlen
    split_ifs <;> first | rfl | omega

theorem msbBit_noop {p : ℕ} (hp : p < 8192) :
    msbBit (List.replicate 512 0#8 ++ List.replicate 512 255#8) p = decide (4096 ≤ p) := by
  have hm := Nat.mod_lt p (show 0 < 8 by decide)
  rcases Nat.lt_or_ge p 4096 with h | h
  · rw [msbBit_append_left (by rw [List.length_replicate]; omega), msbBit_replicate _ _ (by omega),
      BitVec.getLsbD_zero, eq_comm, decide_eq_false_iff_not]
    omega
  · rw [msbBit, List.getD_append_right _ _ _ _ (by rw [List.length_replicate]; omega),
      List.length_replicate, List.getD_replicate _ (by omega), decide_eq_true h]
    exact getLsbD_fullByte true hm

/-- A mask marks the blocks of its range and leaves the others as they are. -/
theorem simpleSpaceUpdateValue_spec {allocated : Bool} {markStart markEnd bs be : ℕ} (hbs : bs < 8)
    (hbe : be ≤ 8) (hlt : 8 * markStart + bs < 8 * markEnd + be) (hend : markEnd < 512) :
    (simpleSpaceUpdateValue markStart markEnd bs be allocated).length = 1024 ∧ ∀ p < 8192,
    msbBit (simpleSpaceUpdateValue markStart markEnd bs be allocated) p =
      if 8 * halfOf allocated + 8 * markStart + bs ≤ p ∧
        p < 8 * halfOf allocated + 8 * markEnd + be
      then allocated else decide (4096 ≤ p) := by
  have hunmarked : ∀ p, 8 * halfOf allocated ≤ p → p < 8 * (halfOf allocated + 512) →
      msbBit (List.replicate 512 0#8 ++ List.replicate 512 255#8) p = !allocated := by
    intro p h1 h2
    cases allocated with
    | true =>
      simp only [halfOf, if_true] at h1 h2
      rw [msbBit_noop (by omega), decide_eq_false (by omega)]
      rfl
    | false =>
      simp only [halfOf, Bool.false_eq_true, if_false] at h1 h2
      rw [msbBit_noop (by omega), decide_eq_true (by omega)]
      rfl
  have hhalf : halfOf allocated ≤ 512 := by cases allocated <;> decide
  have hlen : (List.replicate 512 0#8 ++ List.replicate 512 255#8).length = 1024 := by
    rw [List.length_append, List.length_replicate, List.length_replicate]
  unfold simpleSpaceUpdateValue
  simp only
  split_ifs with hse
  · subst hse
    refine ⟨by rw [length_foldl_markBit, hlen], fun p hp => ?_⟩
    rw [msbBit_foldl_markBit (by rw [hlen]; omega) (List.nodup_reverse.mpr List.nodup_range')
      (fun j hj => by rw [List.mem_reverse, List.mem_range'_1] at hj; omega)
      (fun j hj => by
        rw [List.mem_reverse, List.mem_range'_1] at hj
        exact hunmarked _ (by omega) (by omega)), msbBit_noop hp]
    refine if_congr ?_ rfl rfl
    rw [List.mem_reverse, List.mem_range'_1]
    omega
  · obtain ⟨hlen', hbits⟩ := @foldl_markByte_spec allocated markStart markEnd bs be
      (halfOf allocated) (fun h => hse h.symm) hbe (markEnd + 1 - markStart) markStart
      (List.replicate 512 0#8 ++ List.replicate 512 255#8) (by rw [hlen]; omega)
      fun p h1 h2 => hunmarked p (by omega) (by omega)
    refine ⟨hlen'.trans hlen, fun p hp => ?_⟩
    refine (hbits p).trans ?_
    rw [msbBit_noop hp]
    refine if_congr ?_ rfl rfl
    omega

/-- The two halves of a mask at block `j` of its key, when it marks `[lo, hi)`. -/
structure MarksBlocks (allocated : Bool) (v : Bytes) (marked : ℕ → Prop) : Prop where
  length : v.length = 1024
  low : ∀ j < 4096, msbBit v j = true ↔ allocated = true ∧ marked j
  high : ∀ j < 4096, msbBit v (4096 + j) = true ↔ allocated = true ∨ ¬marked j

theorem marksBlocks_simple {allocated : Bool} {markStart markEnd bs be : ℕ} (hbs : bs < 8)
    (hbe : be ≤ 8) (hlt : 8 * markStart + bs < 8 * markEnd + be) (hend : markEnd < 512)
    {marked : ℕ → Prop}
    (hmarked : ∀ j < 4096, marked j ↔ 8 * markStart + bs ≤ j ∧ j < 8 * markEnd + be) :
    MarksBlocks allocated (simpleSpaceUpdateValue markStart markEnd bs be allocated) marked := by
  obtain ⟨hlen, hbits⟩ := @simpleSpaceUpdateValue_spec allocated markStart markEnd bs be hbs hbe hlt
    hend
  refine ⟨hlen, fun j hj => ?_, fun j hj => ?_⟩
  · rw [hbits j (by omega), hmarked j hj]
    cases allocated with
    | true =>
      simp only [halfOf, if_true]
      split_ifs with h
      · simp only [true_and, true_iff]
        omega
      · simp only [decide_eq_true_eq, true_and]
        omega
    | false =>
      simp only [halfOf, Bool.false_eq_true, if_false, false_and, iff_false]
      rw [if_neg (by omega), decide_eq_true_eq]
      omega
  · rw [hbits (4096 + j) (by omega), hmarked j hj]
    cases allocated with
    | true =>
      simp only [halfOf, if_true, true_or, iff_true]
      rw [if_neg (by omega), decide_eq_true_eq]
      omega
    | false =>
      simp only [halfOf, Bool.false_eq_true, if_false, false_or]
      split_ifs with h
      · simp only [false_iff, not_not]
        omega
      · simp only [decide_eq_true_eq]
        omega

/-- Block `x` meets the bytes `[offset, offset + size)`, `offset` being aligned. -/
def CoversBlock (offset size x : ℕ) : Prop :=
  offset / 4096 ≤ x ∧ 4096 * x < offset + size

/-- The last byte an update marks and the number of its marked bits, for an update that
ends `stop` whole blocks and `part` more into its last key. -/
theorem markEnd_spec {stop part : ℕ} (hpart : part ≤ 1) (h₁ : 0 < stop + part)
    (h₂ : stop + part ≤ 4096) :
    ∃ markEnd be : ℕ, (if stop % 8 + part = 0 then stop / 8 - 1 else stop / 8) = markEnd ∧
      (if stop % 8 + part = 0 then 8 else stop % 8 + part) = be ∧ 1 ≤ be ∧ be ≤ 8 ∧
      markEnd < 512 ∧ 8 * markEnd + be = stop + part ∧ ¬(stop % 8 + part = 0 ∧ stop / 8 = 0) := by
  refine ⟨_, _, rfl, rfl, ?_⟩
  split_ifs <;> omega

/-- Every value of an update is a mask. -/
theorem exists_marksBlocks_of_mem {allocated : Bool} {values : List Bytes} {marked : ℕ → ℕ → Prop}
    (h : ∀ i < values.length, MarksBlocks allocated (values.getD i []) (marked i)) {v : Bytes}
    (hv : v ∈ values) : ∃ i, MarksBlocks allocated v (marked i) := by
  obtain ⟨i, hi, rfl⟩ := List.mem_iff_getElem.mp hv
  have hmark := h i hi
  rw [List.getD_eq_getElem _ _ hi] at hmark
  exact ⟨i, hmark⟩

/-- An update returns a mask for each key its range meets, in order, and the masks mark
exactly the blocks of the range. -/
theorem spaceUpdateValues_spec {offset size : ℕ} (ho : offset % 4096 = 0) (hs : 0 < size)
    (allocated : Bool) :
    ∃ values, spaceUpdateValues offset size allocated = .ok values ∧
      values.length = (offset + size - 1) / 16777216 - offset / 16777216 + 1 ∧
      ∀ i < values.length, MarksBlocks allocated (values.getD i []) fun j =>
        CoversBlock offset size (4096 * (offset / 16777216 + i) + j) := by
  -- In blocks : the range starts at `B` and ends after `E`.
  obtain ⟨B, rfl⟩ : ∃ B, offset = 4096 * B := ⟨offset / 4096, by omega⟩
  obtain ⟨E, part, hpart, hE, hstop, hcover⟩ : ∃ E part : ℕ,
      (if 0 < size % 4096 then 1 else 0) = part ∧ (4096 * B + size - 1) / 4096 = E ∧
      (4096 * B + size) / 4096 + part = E + 1 ∧
      ∀ x, CoversBlock (4096 * B) size x ↔ B ≤ x ∧ x ≤ E := by
    refine ⟨_, _, rfl, rfl, ?_, fun x => ?_⟩
    · split_ifs <;> omega
    · rw [CoversBlock]
      omega
  have hpart1 : part ≤ 1 := by rw [← hpart]; split_ifs <;> omega
  have hBE : B ≤ E := by omega
  have hkeyStart : 4096 * B / 16777216 = B / 4096 := by omega
  have hlast : (4096 * B + size - 1) / 16777216 = E / 4096 := by omega
  have hkeyOffset : (if (4096 * B + size) % 16777216 = 0 then (4096 * B + size) / 16777216 - 1
      else (4096 * B + size) / 16777216) = E / 4096 := by
    rw [← hlast]
    split_ifs <;> omega
  have hmark : (4096 * B - B / 4096 * 16777216) / 4096 = B - 4096 * (B / 4096) := by omega
  have hstop' : (size + 4096 * B - E / 4096 * 16777216) / 4096 =
      (4096 * B + size) / 4096 - 4096 * (E / 4096) := by omega
  simp only [hcover]
  unfold spaceUpdateValues
  rw [if_neg (by omega)]
  simp only [Int.toNat_natCast, hkeyOffset, hkeyStart, hlast, hmark, hstop', hpart]
  clear hcover hkeyStart hlast hkeyOffset hmark hstop' hpart ho hs
  generalize (4096 * B + size) / 4096 = F at *
  clear hE
  obtain ⟨markEnd, be, hme, hbe, hbe1, hbe8, hme512, hend, hne⟩ :=
    @markEnd_spec (F - 4096 * (E / 4096)) part hpart1 (by omega) (by omega)
  rw [hme, hbe, if_neg hne]
  clear hme hbe hne
  split_ifs with hone
  · refine ⟨_, rfl, ?_, fun i hi => ?_⟩
    · rw [List.length_singleton]
      omega
    · obtain rfl : i = 0 := by simpa using hi
      exact marksBlocks_simple (by omega) hbe8 (by omega) hme512 fun j hj => by omega
  · refine ⟨_, rfl, ?_, fun i hi => ?_⟩
    · rw [List.length_map, List.length_range']
      omega
    · rw [List.length_map, List.length_range'] at hi
      rw [List.getD_eq_getElem _ _ (by rw [List.length_map, List.length_range']; exact hi),
        List.getElem_map, List.getElem_range', Nat.one_mul]
      split_ifs with h1 h2
      · exact marksBlocks_simple (by omega) (by omega) (by omega) (by omega) fun j hj => by omega
      · exact marksBlocks_simple (by omega) (by omega) (by omega) (by omega) fun j hj => by omega
      · exact marksBlocks_simple (by omega) (by omega) (by omega) (by omega) fun j hj => by omega

/-- What the two halves of a mask tell about block `j` of its key : the bit to set and the
bit to keep. -/
def maskPair (v : Bytes) (j : ℕ) : Bool × Bool :=
  ((v.getD (j / 8) 0#8).getLsbD (7 - j % 8), (v.getD (512 + j / 8) 0#8).getLsbD (7 - j % 8))

theorem MarksBlocks.maskPair_eq {allocated : Bool} {v : Bytes} {marked : ℕ → Prop}
    [DecidablePred marked] (h : MarksBlocks allocated v marked) {j : ℕ} (hj : j < 4096) :
    maskPair v j = if marked j then (allocated, allocated) else (false, true) := by
  have hlow := h.low j hj
  have hhigh := h.high j hj
  rw [msbBit, show (4096 + j) / 8 = 512 + j / 8 by omega,
    show (4096 + j) % 8 = j % 8 by omega] at hhigh
  rw [msbBit] at hlow
  refine Prod.ext (Bool.eq_iff_iff.mpr (hlow.trans ?_)) (Bool.eq_iff_iff.mpr (hhigh.trans ?_))
  · by_cases hm : marked j <;> simp [hm]
  · by_cases hm : marked j <;> simp [hm]

/-- An update of `size` bytes from an aligned `offset` on returns one mask for each key
from `offset / SpaceSize` to `(offset + size - 1) / SpaceSize`. It marks the blocks from
`offset / BlockSize` up to the one the last byte lies in, and is a no-op on the others. Beyond the
bound on the sum the source wraps, which `spaceUpdateValues` does not. -/
theorem spaceUpdateValues_marks_exactly {offset size : ℤ} (ho : 0 ≤ offset)
    (haligned : 4096 ∣ offset) (hs : 0 < size) (_hint : offset + size < 2 ^ 63)
    (allocated : Bool) :
    ∃ values, spaceUpdateValues offset size allocated = .ok values ∧
      (values.length : ℤ) = (offset + size - 1) / 16777216 - offset / 16777216 + 1 ∧
      ∀ i < values.length, (values.getD i []).length = 1024 ∧ ∀ j < 4096,
        maskPair (values.getD i []) j =
          if offset / 4096 ≤ 4096 * (offset / 16777216 + i) + j ∧
            4096 * (offset / 16777216 + i) + j < (offset + size + 4095) / 4096
          then (allocated, allocated) else (false, true) := by
  obtain ⟨o, rfl⟩ := Int.eq_ofNat_of_zero_le ho
  obtain ⟨k, rfl⟩ := Int.eq_ofNat_of_zero_le hs.le
  obtain ⟨values, hok, hlen, hmarks⟩ := @spaceUpdateValues_spec o k (by omega) (by omega) allocated
  refine ⟨values, hok, by omega, fun i hi => ⟨(hmarks i hi).length, fun j hj => ?_⟩⟩
  have hmask := hmarks i hi
  have hdec : DecidablePred fun j => CoversBlock o k (4096 * (o / 16777216 + i) + j) :=
    fun _ => inferInstanceAs (Decidable (_ ∧ _))
  rw [hmask.maskPair_eq hj]
  refine if_congr ?_ rfl rfl
  rw [CoversBlock]
  omega

/-- 5 bytes from the last block of key 0 on, marked as free, flip one bit of one mask, and
4097 bytes meet key 1 as well. -/
theorem spaceUpdateValues_marks_exactly_last :
    (∃ values, spaceUpdateValues 16773120 5 false = .ok values ∧ values.length = 1 ∧
      maskPair (values.getD 0 []) 4095 = (false, false) ∧
      maskPair (values.getD 0 []) 4094 = (false, true)) ∧
    ∃ values, spaceUpdateValues 16773120 4097 true = .ok values ∧ values.length = 2 ∧
      maskPair (values.getD 1 []) 0 = (true, true) := by
  obtain ⟨vs, hok, hlen, hbits⟩ := @spaceUpdateValues_marks_exactly 16773120 5 (by decide)
    (by decide) (by decide) (by decide) false
  obtain ⟨ws, hok', hlen', hbits'⟩ := @spaceUpdateValues_marks_exactly 16773120 4097 (by decide)
    (by decide) (by decide) (by decide) true
  have hvs : vs.length = 1 := by omega
  have hws : ws.length = 2 := by omega
  refine ⟨⟨vs, hok, hvs, ?_, ?_⟩, ws, hok', hws, ?_⟩
  · exact ((hbits 0 (by omega)).2 4095 (by decide)).trans (by decide)
  · exact ((hbits 0 (by omega)).2 4094 (by decide)).trans (by decide)
  · exact ((hbits' 1 (by omega)).2 0 (by decide)).trans (by decide)

end Corgi
