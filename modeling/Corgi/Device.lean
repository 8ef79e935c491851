import Corgi.Ownership
import Corgi.Space

/-!
# The block device

The model of `BlockDevice` over the allocator and the database : allocation and rollback,
staging the bitmap merges of a commit, initialising the bitmap and reloading the allocator
from it. `loadAllocator_spec` says that the reload succeeds and marks exactly the blocks
whose bit is set, and `exec_persistAllocBatch` what a commit adds under the space keys.
-/

namespace Corgi

/-! ## The model -/

/-- The errors of the device. -/
inductive DeviceError
  | allocSize
  | noSpace (name : String)
  | alloc (e : AllocError)
  | read (e : MergeError)
  deriving DecidableEq, Repr

/-- The text of the error. -/
def DeviceError.message : DeviceError → String
  | allocSize => "alloc size must be > 0"
  | noSpace name => s!"lun {name} has no enough space"
  | alloc e => e.message
  | read e => e.message

/-- A device, without its file. -/
structure BlockDevice where
  name : String
  /-- Size in bytes. -/
  size : ℕ
  allocator : AllocatorV3

/-- A size in bytes, rounded up to whole blocks unless it is negative. -/
def fitBlock (size : ℤ) : ℤ :=
  if size.tmod 4096 = 0 then size else (size.tdiv 4096 + 1) * 4096

/-- An extent of blocks in bytes. -/
def Result.toBytes (r : Result) : Result :=
  ⟨r.offset * 4096, r.size * 4096⟩

theorem fitBlock_of_nonneg {size : ℤ} (h : 0 ≤ size) :
    fitBlock size = if size % 4096 = 0 then size else (size / 4096 + 1) * 4096 := by
  rw [fitBlock, Int.tmod_eq_emod_of_nonneg h, Int.tdiv_eq_ediv_of_nonneg h]

namespace BlockDevice

/-- Allocate `size` bytes : the extents in bytes, and in blocks as the token to roll back
with. -/
def alloc (d : BlockDevice) (size : ℤ) :
    BlockDevice × Except DeviceError (List Result × List Result) :=
  if size ≤ 0 then (d, .error .allocSize)
  else
    let (a, res) := d.allocator.allocate (fitBlock size / 4096)
    let d := { d with allocator := a }
    -- The allocator's own error is dropped.
    match res.toOption.getD [] with
    | [] => (d, .error (.noSpace d.name))
    | r :: rs => (d, .ok ((r :: rs).map Result.toBytes, r :: rs))

/-- Give a token back. The error of `Release` is dropped. -/
def rollbackAlloc (d : BlockDevice) (token : List Result) : BlockDevice :=
  if token = [] then d else { d with allocator := (d.allocator.release token).1 }

end BlockDevice

/-- Stage the bitmap masks of extents in bytes. -/
def persistSpaceMerges (results : List Result) (allocated : Bool) : BatchProg Unit :=
  Prog.forEach results fun r =>
    if r.offset < 0 ∨ r.size ≤ 0 ∨ r.offset % 4096 ≠ 0 then
      .fail (.consumer (SpaceError.invalidResult r.offset r.size).message)
    else match spaceUpdateValues r.offset r.size allocated with
      | .error e => .fail (.consumer e.message)
      | .ok values => Prog.forEach values.zipIdx fun value =>
        WriteBatch.merge (familySpaceKey (r.offset.toNat / 16777216 + value.2)) value.1

/-- The merges that mark the extents as allocated. -/
def persistAllocBatch (results : List Result) : BatchProg Unit :=
  persistSpaceMerges results true

/-- Number of keys of the bitmap. -/
def spaceKeyCount (size : ℕ) : ℕ :=
  (size + 16777216 - 1) / 16777216

/-- The request that sets the bitmap keys `[start, stop)` to zero. -/
def initRequest (json : JSONDeleteMark) (start stop : ℕ) : BatchRequest Unit where
  type := .customizeOperate
  consumer := some (Prog.forEach (List.range' start (stop - start)) fun i =>
    WriteBatch.put json (familySpaceKey i) zeroSpace)
  keys := []
  values := []
  lowPriority := false

/-- The batches of 1000 keys of the initialisation, in order. -/
def initBatches (total : ℕ) : List (ℕ × ℕ) :=
  (List.range ((total + 999) / 1000)).map fun g => (g * 1000, min (g * 1000 + 1000) total)

/-- Initialise the bitmap, unless its first key is there. Only the first `done` batches are
committed when the process stops before the end. -/
def tryInitBlockSpace (json : JSONDeleteMark) (size done : ℕ) (db : DB) : Except DeviceError DB :=
  match db.get (familySpaceKey 0) with
  | .error e => .error (.read e)
  | .ok (some _) => .ok db
  | .ok none => .ok (((initBatches (spaceKeyCount size)).take done).foldl (fun db batch =>
      (flush json db [] [initRequest json batch.1 batch.2] none).after) db)

/-- The variables of `loadAllocator` : the run of allocated blocks that is open starts at
`runStart`, and is none when that is negative. -/
structure LoadState where
  allocator : AllocatorV3
  runStart : ℤ
  runLen : ℤ

namespace LoadState

/-- Mark the run of set bits that has come to its end. -/
def closeRun (s : LoadState) : Except DeviceError LoadState :=
  if s.runStart < 0 then .ok s
  else match s.allocator.initAllocated s.runStart s.runLen with
    | (a, .ok ()) => .ok ⟨a, -1, 0⟩
    | (_, .error e) => .error (.alloc e)

/-- Add `n` blocks from `block` on to the open run. -/
def addRun (s : LoadState) (block n : ℕ) : LoadState :=
  { s with runStart := if s.runStart < 0 then block else s.runStart, runLen := s.runLen + n }

/-- One bit of the bitmap. -/
def loadBit (block : ℕ) (b : Byte) (s : LoadState) (bit : ℕ) : Except DeviceError LoadState :=
  if b.getLsbD (7 - bit) then .ok (s.addRun (block + bit) 1) else s.closeRun

/-- One byte of the bitmap, whose first bit is block `block`. -/
def loadByte (totalBlocks block : ℕ) (b : Byte) (s : LoadState) : Except DeviceError LoadState :=
  let validBits := if totalBlocks < block + 8 then totalBlocks - block else 8
  if b = 0#8 then s.closeRun
  else if b = 255#8 ∧ validBits = 8 then .ok (s.addRun block 8)
  else (List.range validBits).foldlM (loadBit block b) s

/-- The bitmap of one key. The loop stops at the end of the device. -/
def loadSpace (db : DB) (totalBlocks : ℕ) (s : LoadState) (spaceIndex : ℕ) :
    Except DeviceError LoadState :=
  match db.get (familySpaceKey spaceIndex) with
  | .error e => .error (.read e)
  | .ok value =>
    let value := normalizeSpaceValue value
    ((List.range 512).takeWhile fun i => spaceIndex * 4096 + i * 8 < totalBlocks).foldlM
      (fun s i => loadByte totalBlocks (spaceIndex * 4096 + i * 8) (value.getD i 0#8) s) s

end LoadState

/-- Mark the blocks of the persisted bitmap in an allocator, run by run. -/
def loadAllocator (db : DB) (size : ℕ) (a : AllocatorV3) : Except DeviceError AllocatorV3 := do
  let s ← (List.range (spaceKeyCount size)).foldlM (LoadState.loadSpace db (size / 4096)) ⟨a, -1, 0⟩
  let s ← s.closeRun
  return s.allocator

/-- Open a device : initialise the bitmap and reload the allocator. -/
def newBlockDevice (json : JSONDeleteMark) (name : String) (size : ℕ) (db : DB) :
    Except DeviceError (BlockDevice × DB) := do
  let db ← tryInitBlockSpace json size (initBatches (spaceKeyCount size)).length db
  let a ← loadAllocator db size (AllocatorV3.newAllocatorV3 (size / 4096))
  return (⟨name, size, a⟩, db)

/-! ## Reloading the allocator -/

/-- The bit of block `x` in the bitmap that `value` gives for each key. -/
def spaceBit (value : ℕ → Option Bytes) (x : ℕ) : Bool :=
  msbBit (normalizeSpaceValue (value (x / 4096))) (x % 4096)

namespace LoadState

open AllocatorV3

/-- The loop invariant after the blocks below `p` : the allocator has those of them whose
bit is set, but for the open run, which ends at `p`. -/
structure Loaded (n : ℕ) (bit : ℕ → Bool) (p : ℕ) (s : LoadState) : Prop where
  inv : s.allocator.Inv
  total : s.allocator.total = n
  le : p ≤ n
  run : s.runStart = -1 ∧ s.runLen = 0 ∨
    0 ≤ s.runStart ∧ 0 < s.runLen ∧ s.runStart + s.runLen = p
  bits : ∀ b : ℕ, 0 ≤ s.runStart → s.runStart ≤ b → b < p → bit b = true
  isFree : ∀ b : ℕ, s.allocator.isFree b = true ↔
    b < n ∧ (b < p → bit b = true → 0 ≤ s.runStart ∧ s.runStart ≤ b)

variable {n p k : ℕ} {bit : ℕ → Bool} {s : LoadState}

theorem Loaded.closeRun (h : Loaded n bit p s) (hn : n < 2 ^ 63) :
    ∃ t, s.closeRun = .ok t ∧ Loaded n bit p t ∧ t.runStart = -1 := by
  unfold LoadState.closeRun
  rcases h.run with ⟨h1, h2⟩ | ⟨h1, h2, h3⟩
  · rw [if_pos (by omega)]
    exact ⟨s, rfl, h, h1⟩
  · have hle := h.le
    have hc : s.allocator.Contains ⟨s.runStart, s.runLen⟩ :=
      ⟨h1, h2, by rw [h.total]; simp only; omega⟩
    obtain ⟨hok, hres⟩ := initAllocated_of_contains h.inv (by rw [h.total]; exact hn) hc
    rw [if_neg (by omega)]
    generalize s.allocator.initAllocated s.runStart s.runLen = r at *
    obtain ⟨a, res⟩ := r
    simp only at hok hres
    subst hok
    refine ⟨_, rfl, ⟨hres.toInv, hres.total_eq.trans h.total, hle, Or.inl ⟨rfl, rfl⟩,
      fun b hb => absurd hb (by simp), fun b => ?_⟩, rfl⟩
    rw [hres.isFree_eq_true_iff, h.isFree, Result.mem_blocks]
    simp only
    constructor
    · rintro ⟨⟨hb1, hb2⟩, hb3⟩
      refine ⟨hb1, fun hb4 hb5 => ?_⟩
      have := hb2 hb4 hb5
      omega
    · rintro ⟨hb1, hb2⟩
      refine ⟨⟨hb1, fun hb4 hb5 => ?_⟩, fun hb3 => ?_⟩
      · exact absurd (hb2 hb4 hb5).1 (by decide)
      · have hbit := h.bits b h1 (by omega) (by omega)
        exact absurd (hb2 (by omega) hbit).1 (by decide)

/-- A run of set bits extends the open run. -/
theorem Loaded.addRun (h : Loaded n bit p s) {k : ℕ} (hk : 0 < k) (hp : p + k ≤ n)
    (hbit : ∀ b, p ≤ b → b < p + k → bit b = true) : Loaded n bit (p + k) (s.addRun p k) := by
  have hrun := h.run
  refine ⟨h.inv, h.total, hp, ?_, fun b h1 h2 h3 => ?_, fun b => ?_⟩
  · simp only [LoadState.addRun]
    split_ifs <;> omega
  · rcases Nat.lt_or_ge b p with hb | hb
    · simp only [LoadState.addRun] at h2
      split_ifs at h2
      · omega
      · exact h.bits b (by omega) h2 hb
    · exact hbit b hb h3
  · simp only [LoadState.addRun]
    rw [h.isFree]
    constructor
    · rintro ⟨hb1, hb2⟩
      refine ⟨hb1, fun hb3 hb4 => ?_⟩
      rcases Nat.lt_or_ge b p with hb | hb
      · have := hb2 hb hb4
        split_ifs <;> omega
      · split_ifs <;> omega
    · rintro ⟨hb1, hb2⟩
      refine ⟨hb1, fun hb3 hb4 => ?_⟩
      have := hb2 (by omega) hb4
      split_ifs at this <;> omega

/-- Clear bits are passed over once the run is closed. -/
theorem Loaded.skip (h : Loaded n bit p s) (hclosed : s.runStart = -1) (hp : p + k ≤ n)
    (hbit : ∀ b, p ≤ b → b < p + k → bit b = false) : Loaded n bit (p + k) s := by
  have hrun := h.run
  refine ⟨h.inv, h.total, hp, Or.inl ⟨hclosed, by omega⟩, fun b h1 => by omega, fun b => ?_⟩
  rw [h.isFree, hclosed]
  constructor
  · rintro ⟨hb1, hb2⟩
    refine ⟨hb1, fun hb3 hb4 => ?_⟩
    rcases Nat.lt_or_ge b p with hb | hb
    · exact hb2 hb hb4
    · rw [hbit b hb hb3] at hb4
      exact absurd hb4 Bool.false_ne_true
  · rintro ⟨hb1, hb2⟩
    exact ⟨hb1, fun hb3 => hb2 (by omega)⟩

theorem Loaded.loadBit (h : Loaded n bit (p + k) s) (hn : n < 2 ^ 63) (hp : p + k < n) {b : Byte}
    (hbit : bit (p + k) = b.getLsbD (7 - k)) :
    ∃ t, LoadState.loadBit p b s k = .ok t ∧ Loaded n bit (p + (k + 1)) t := by
  unfold LoadState.loadBit
  split_ifs with hb
  · refine ⟨_, rfl, h.addRun Nat.one_pos hp fun x h1 h2 => ?_⟩
    rw [show x = p + k by omega, hbit, hb]
  · obtain ⟨t, ht, hl, hclosed⟩ := h.closeRun hn
    have hskip := @Loaded.skip n (p + k) 1 bit t hl hclosed hp fun x h1 h2 => by
      rw [show x = p + k by omega, hbit, Bool.eq_false_iff]
      exact hb
    exact ⟨t, ht, hskip⟩

/-- One byte moves the invariant past its blocks. -/
theorem Loaded.loadByte (h : Loaded n bit p s) (hn : n < 2 ^ 63) (hp : p < n) {b : Byte}
    (hbit : ∀ k < 8, p + k < n → bit (p + k) = b.getLsbD (7 - k)) :
    ∃ t, LoadState.loadByte n p b s = .ok t ∧ Loaded n bit (min (p + 8) n) t := by
  obtain ⟨m, hm, hm8, hpm, hmin⟩ : ∃ m, (if n < p + 8 then n - p else 8) = m ∧ m ≤ 8 ∧ p + m ≤ n ∧
      min (p + 8) n = p + m := by
    refine ⟨_, rfl, ?_⟩
    split_ifs <;> omega
  unfold LoadState.loadByte
  simp only [hm, hmin]
  split_ifs with h1 h2
  · obtain ⟨t, ht, hl, hclosed⟩ := h.closeRun hn
    refine ⟨t, ht, hl.skip hclosed hpm fun x hx1 hx2 => ?_⟩
    have hx := hbit (x - p) (by omega) (by omega)
    rwa [h1, BitVec.getLsbD_zero, show p + (x - p) = x by omega] at hx
  · obtain ⟨rfl, rfl⟩ := h2
    refine ⟨_, rfl, h.addRun (by decide) hpm fun x hx1 hx2 => ?_⟩
    have hx := hbit (x - p) (by omega) (by omega)
    rw [show p + (x - p) = x by omega] at hx
    exact hx.trans (getLsbD_fullByte true (by omega))
  · exact @foldlM_range _ _ s (LoadState.loadBit p b) (fun k t => Loaded n bit (p + k) t) h m
      fun k hk t ht => ht.loadBit hn (by omega) (hbit k (by omega) (by omega))

/-- One key moves the invariant past its 4096 blocks. -/
theorem Loaded.loadSpace {i : ℕ} (h : Loaded n bit (min (4096 * i) n) s) (hn : n < 2 ^ 63)
    (hi : 4096 * i < n) {db : DB} {value : Option Bytes}
    (hget : db.get (familySpaceKey i) = .ok value)
    (hbit : ∀ j < 4096, bit (4096 * i + j) = msbBit (normalizeSpaceValue value) j) :
    ∃ t, LoadState.loadSpace db n s i = .ok t ∧ Loaded n bit (min (4096 * (i + 1)) n) t := by
  unfold LoadState.loadSpace
  rw [hget]
  simp only
  have hcond : ∀ k, (i * 4096 + k * 8 < n) = (k < (n - 4096 * i + 7) / 8) := fun k => by
    rw [eq_iff_iff]
    omega
  simp only [hcond, takeWhile_range]
  have hloop := @foldlM_range _ _ s (fun s k => LoadState.loadByte n (i * 4096 + k * 8)
    ((normalizeSpaceValue value).getD k 0#8) s)
    (fun k t => Loaded n bit (min (4096 * i + 8 * k) n) t) h
    (min 512 ((n - 4096 * i + 7) / 8)) fun k hk t ht => by
      rw [show min (4096 * i + 8 * k) n = i * 4096 + k * 8 by omega] at ht
      have hbyte := ht.loadByte hn (b := (normalizeSpaceValue value).getD k 0#8) (by omega)
        fun j hj hlt => by
          rw [show i * 4096 + k * 8 + j = 4096 * i + (8 * k + j) by omega, hbit _ (by omega),
            msbBit,
            show (8 * k + j) / 8 = k by omega, show (8 * k + j) % 8 = j by omega]
      rwa [show i * 4096 + k * 8 + 8 = 4096 * i + 8 * (k + 1) by omega] at hbyte
  obtain ⟨t, ht, hl⟩ := hloop
  refine ⟨t, ht, ?_⟩
  rwa [show min (4096 * i + 8 * min 512 ((n - 4096 * i + 7) / 8)) n = min (4096 * (i + 1)) n by
    omega] at hl

end LoadState

/-- The reload succeeds on every bitmap that can be read, and marks exactly the blocks
whose bit is set. -/
theorem loadAllocator_spec {n : ℕ} (hpos : 0 < n) (hn : n < 2 ^ 63) {db : DB}
    {value : ℕ → Option Bytes}
    (hget : ∀ i, 4096 * i < n → db.get (familySpaceKey i) = .ok (value i)) :
    ∃ a, loadAllocator db (4096 * n) (AllocatorV3.newAllocatorV3 n) = .ok a ∧ a.Inv ∧
      a.total = n ∧ ∀ b, a.isFree b = true ↔ b < n ∧ spaceBit value b = false := by
  have hstart : LoadState.Loaded n (spaceBit value) (min (4096 * 0) n)
      ⟨AllocatorV3.newAllocatorV3 n, -1, 0⟩ := by
    refine ⟨AllocatorV3.inv_newAllocatorV3 hpos, AllocatorV3.total_newAllocatorV3 hpos, by omega,
      Or.inl ⟨rfl, rfl⟩, fun b hb => absurd hb (by simp), fun b => ?_⟩
    rw [AllocatorV3.isFree_newAllocatorV3 hpos, decide_eq_true_eq]
    exact ⟨fun hb => ⟨hb, fun h => by omega⟩, fun hb => hb.1⟩
  have hkeys : spaceKeyCount (4096 * n) = (n + 4095) / 4096 := by
    rw [spaceKeyCount]
    omega
  obtain ⟨s, hs, hl⟩ := @foldlM_range _ _ _ (LoadState.loadSpace db n)
    (fun i t => LoadState.Loaded n (spaceBit value) (min (4096 * i) n) t) hstart
    (spaceKeyCount (4096 * n)) fun i hi t ht => by
      refine ht.loadSpace hn (by omega) (hget i (by omega)) fun j hj => ?_
      rw [spaceBit, show (4096 * i + j) / 4096 = i by omega,
        show (4096 * i + j) % 4096 = j by omega]
  rw [show min (4096 * spaceKeyCount (4096 * n)) n = n by omega] at hl
  obtain ⟨t, ht, hl', hclosed⟩ := hl.closeRun hn
  refine ⟨t.allocator, ?_, hl'.inv, hl'.total, fun b => ?_⟩
  · rw [loadAllocator, Nat.mul_div_cancel_left n (by decide), hs]
    change (s.closeRun >>= fun s => pure s.allocator) = _
    rw [ht]
    rfl
  · rw [hl'.isFree, hclosed]
    constructor
    · rintro ⟨h1, h2⟩
      refine ⟨h1, Bool.eq_false_iff.mpr fun hb => ?_⟩
      exact absurd (h2 h1 hb).1 (by decide)
    · rintro ⟨h1, h2⟩
      refine ⟨h1, fun _ hb => ?_⟩
      rw [h2] at hb
      exact absurd hb Bool.false_ne_true

/-- The bit of block `x`, spelt out : bit `7 - x % 8` of byte `x % 4096 / 8` of the value of
key `x / 4096`. -/
theorem spaceBit_eq (value : ℕ → Option Bytes) (x : ℕ) :
    spaceBit value x =
      ((normalizeSpaceValue (value (x / 4096))).getD (x % 4096 / 8) 0#8).getLsbD (7 - x % 8) := by
  rw [spaceBit, msbBit, Nat.mod_mod_of_dvd x (by decide)]

/-- Whatever the space keys hold, the reload of a new allocator succeeds. A block of the
device is allocated afterwards exactly if its bit is set, `available` is the number of
clear bits, and bits past the end of the device stand for no block. -/
theorem loadAllocator_rebuilds_map {size : ℕ} (hpos : 0 < size) (haligned : 4096 ∣ size)
    (hsize : size < 2 ^ 63) {db : DB} {value : ℕ → Option Bytes}
    (hget : ∀ i < spaceKeyCount size, db.get (familySpaceKey i) = .ok (value i)) :
    ∃ a, loadAllocator db size (AllocatorV3.newAllocatorV3 (size / 4096)) = .ok a ∧
      (∀ x < size / 4096, a.isFree x = false ↔
        ((normalizeSpaceValue (value (x / 4096))).getD (x % 4096 / 8) 0#8).getLsbD (7 - x % 8) =
          true) ∧
      a.available = ((List.range (size / 4096)).countP fun x =>
        !((normalizeSpaceValue (value (x / 4096))).getD (x % 4096 / 8) 0#8).getLsbD
          (7 - x % 8) : ℕ) ∧
      a.total = size / 4096 ∧ ∀ x, size / 4096 ≤ x → a.isFree x = false := by
  obtain ⟨n, rfl⟩ := haligned
  rw [Nat.mul_div_cancel_left n (by decide)]
  have hkeys : spaceKeyCount (4096 * n) = (n + 4095) / 4096 := by
    rw [spaceKeyCount]
    omega
  obtain ⟨a, hok, hinv, htotal, hfree⟩ := @loadAllocator_spec n (by omega) (by omega) db value
    fun i hi => hget i (by omega)
  refine ⟨a, hok, fun x hx => ?_, ?_, htotal, fun x hx => ?_⟩
  · rw [← spaceBit_eq, ← Bool.not_eq_true, hfree, not_and, Bool.not_eq_false]
    exact ⟨fun h => h hx, fun h _ => h⟩
  · rw [hinv.available_eq, AllocatorV3.freeCount, htotal]
    refine congrArg Nat.cast (List.countP_congr fun x hx => ?_)
    rw [← spaceBit_eq, hfree, Bool.not_eq_true']
    exact and_iff_right (List.mem_range.mp hx)
  · rw [← htotal] at hx
    exact hinv.tail x hx

/-- A stored value of one byte with two bits set takes two of ten blocks. -/
theorem loadAllocator_rebuilds_map_short :
    ∃ a, loadAllocator (fun _ => [[0xa0#8]]) 40960 (AllocatorV3.newAllocatorV3 10) = .ok a ∧
      a.isFree 2 = false ∧ a.available = 8 := by
  obtain ⟨a, hok, hbits, hav, -⟩ := @loadAllocator_rebuilds_map 40960 (by decide) (by decide)
    (by decide) (fun _ => [[0xa0#8]]) (fun _ => some [0xa0#8]) fun i _ => DB.get_of_singleton rfl
  exact ⟨a, hok, (hbits 2 (by decide)).mpr (by decide), hav.trans (by decide)⟩

/-! ## The bitmap while blocks are only allocated -/

/-- The space keys hold allocation masks that mark exactly the blocks of `marked`. -/
structure SpaceHolds (db : DB) (marked : ℕ → Prop) : Prop where
  seq : ∀ i, IsSpaceSeq (db (familySpaceKey i))
  bits : ∀ i, ∀ j < 4096,
    ((db (familySpaceKey i)).any fun v => msbBit v j) = true ↔ marked (4096 * i + j)

theorem SpaceHolds.congr {db : DB} {marked marked' : ℕ → Prop} (h : SpaceHolds db marked)
    (hm : ∀ x, marked x ↔ marked' x) : SpaceHolds db marked' :=
  ⟨h.seq, fun i j hj => (h.bits i j hj).trans (hm _)⟩

/-- Writes to other keys do not matter. -/
theorem SpaceHolds.of_eq {db db' : DB} {marked : ℕ → Prop} (h : SpaceHolds db marked)
    (heq : ∀ i, db' (familySpaceKey i) = db (familySpaceKey i)) : SpaceHolds db' marked :=
  ⟨fun i => by rw [heq]; exact h.seq i, fun i => by rw [heq]; exact h.bits i⟩

theorem SpaceHolds.merge {db : DB} {marked : ℕ → Prop} (h : SpaceHolds db marked) (i : ℕ)
    {v : Bytes} (hv : IsMask v) :
    SpaceHolds (db.apply (.merge (familySpaceKey i) v)) fun x =>
      marked x ∨ (x / 4096 = i ∧ msbBit v (x % 4096) = true) := by
  have hcell : ∀ k, db.apply (.merge (familySpaceKey i) v) (familySpaceKey k) =
      if k = i then db (familySpaceKey i) ++ [v] else db (familySpaceKey k) := by
    intro k
    rw [Store.apply, WriteOp.key, WriteOp.act, Function.update_apply]
    simp only [familySpaceKey_injective.eq_iff]
  refine ⟨fun k => ?_, fun k j hj => ?_⟩
  · rw [hcell]
    split_ifs with hk
    · exact (h.seq i).append_mask hv
    · exact h.seq k
  · rw [hcell, show (4096 * k + j) / 4096 = k by omega, show (4096 * k + j) % 4096 = j by omega]
    split_ifs with hk
    · subst hk
      rw [List.any_append, Bool.or_eq_true, h.bits k j hj]
      simp
    · rw [h.bits k j hj]
      simp [hk]

theorem SpaceHolds.merges : ∀ (values : List Bytes) (k : ℕ) {db : DB} {marked : ℕ → Prop},
    SpaceHolds db marked → (∀ v ∈ values, IsMask v) →
    SpaceHolds (db.applyAll ((values.zipIdx k).map fun value =>
      .merge (familySpaceKey value.2) value.1)) fun x =>
        marked x ∨ (k ≤ x / 4096 ∧ x / 4096 < k + values.length ∧
          msbBit (values.getD (x / 4096 - k) []) (x % 4096) = true)
  | [], k, db, marked, h, _ => h.congr fun x => by simp; omega
  | v :: values, k, db, marked, h, hv => by
    have hrec := SpaceHolds.merges values (k + 1) (h.merge k (hv v List.mem_cons_self))
      fun w hw => hv w (List.mem_cons_of_mem _ hw)
    rw [List.zipIdx_cons, List.map_cons]
    refine hrec.congr fun x => ?_
    rw [or_assoc]
    refine or_congr_right ?_
    rw [List.length_cons]
    rcases Nat.lt_trichotomy (x / 4096) k with hx | hx | hx
    · constructor
      · rintro (h1 | h1) <;> omega
      · rintro h1; omega
    · rw [hx, Nat.sub_self, List.getD_cons_zero]
      constructor
      · rintro (h1 | h1)
        · exact ⟨le_rfl, by omega, h1.2⟩
        · omega
      · exact fun h1 => Or.inl ⟨rfl, h1.2.2⟩
    · rw [show x / 4096 - k = (x / 4096 - (k + 1)) + 1 by omega, List.getD_cons_succ]
      constructor
      · rintro (h1 | h1)
        · omega
        · exact ⟨by omega, by omega, h1.2.2⟩
      · exact fun h1 => Or.inr ⟨by omega, by omega, h1.2.2⟩

/-- The merges that mark an extent in bytes one way or the other. -/
def spaceOps (allocated : Bool) (r : Result) : List BatchOp :=
  match spaceUpdateValues r.offset r.size allocated with
  | .error _ => []
  | .ok values => (values.zipIdx (r.offset.toNat / 16777216)).map fun value =>
    .merge (familySpaceKey value.2) value.1

theorem key_of_mem_spaceOps {allocated : Bool} {r : Result} {op : BatchOp}
    (h : op ∈ spaceOps allocated r) : ∃ i, op.key = familySpaceKey i := by
  unfold spaceOps at h
  split at h
  · exact absurd h (by simp)
  · obtain ⟨value, -, rfl⟩ := List.mem_map.mp h
    exact ⟨value.2, rfl⟩

theorem ne_delete_of_mem_spaceOps {allocated : Bool} {r : Result} {op : BatchOp}
    (h : op ∈ spaceOps allocated r) (key : Bytes) : op ≠ .delete key := by
  unfold spaceOps at h
  split at h
  · exact absurd h (by simp)
  · obtain ⟨value, -, rfl⟩ := List.mem_map.mp h
    exact fun heq => by cases heq

/-- An extent in bytes that `persistSpaceMerges` accepts. -/
def Result.Aligned (r : Result) : Prop :=
  0 ≤ r.offset ∧ 0 < r.size ∧ r.offset % 4096 = 0

theorem zipIdx_map_add (k : ℕ) (f : Bytes × ℕ → BatchOp) (l : List Bytes) :
    (l.zipIdx k).map f = l.zipIdx.map fun v => f (v.1, k + v.2) := by
  rw [List.zipIdx_eq_map_add, List.map_map]
  exact List.map_congr_left fun v _ => by simp

/-- Staging extents adds their merges. -/
theorem exec_persistSpaceMerges {results : List Result} (h : ∀ r ∈ results, r.Aligned)
    (allocated : Bool) (db : DB) :
    (persistSpaceMerges results allocated).exec mossMergeValues db =
      (db.applyAll (results.flatMap (spaceOps allocated)), .ok ()) := by
  refine Prog.exec_forEach (fun r hr db => ?_) db
  obtain ⟨h1, h2, h3⟩ := h r hr
  obtain ⟨values, hv, -, -⟩ := @spaceUpdateValues_spec r.offset.toNat r.size.toNat (by omega)
    (by omega) allocated
  rw [Int.toNat_of_nonneg h1, Int.toNat_of_nonneg h2.le] at hv
  rw [if_neg (by omega), spaceOps, hv]
  simp only
  rw [zipIdx_map_add]
  have hexec := @Prog.exec_forEach _ _ _ BatchError _ _ mossMergeValues
    (fun value : Bytes × ℕ =>
      WriteBatch.merge (familySpaceKey (r.offset.toNat / 16777216 + value.2)) value.1)
    (fun value => [.merge (familySpaceKey (r.offset.toNat / 16777216 + value.2)) value.1])
    values.zipIdx (fun value _ db => rfl) db
  rw [List.map_eq_flatMap]
  exact hexec

/-- Staging the extents of a commit adds their merges. -/
theorem exec_persistAllocBatch {results : List Result} (h : ∀ r ∈ results, r.Aligned) (db : DB) :
    (persistAllocBatch results).exec mossMergeValues db =
      (db.applyAll (results.flatMap (spaceOps true)), .ok ()) :=
  exec_persistSpaceMerges h true db

theorem SpaceHolds.spaceOps {db : DB} {marked : ℕ → Prop} (h : SpaceHolds db marked) {r : Result}
    (hr : r.Aligned) : SpaceHolds (db.applyAll (spaceOps true r)) fun x =>
      marked x ∨ CoversBlock r.offset.toNat r.size.toNat x := by
  obtain ⟨h1, h2, h3⟩ := hr
  obtain ⟨values, hv, hlen, hmarks⟩ := @spaceUpdateValues_spec r.offset.toNat r.size.toNat
    (by omega) (by omega) true
  rw [Int.toNat_of_nonneg h1, Int.toNat_of_nonneg h2.le] at hv
  have hmask : ∀ v ∈ values, IsMask v := by
    intro v hv
    obtain ⟨i, hm⟩ := exists_marksBlocks_of_mem hmarks hv
    exact ⟨hm.length, fun j hj => (hm.high j hj).mpr (Or.inl rfl)⟩
  rw [Corgi.spaceOps, hv]
  refine (h.merges values _ hmask).congr fun x => or_congr_right ?_
  generalize r.offset.toNat = offset at *
  generalize r.size.toNat = size at *
  constructor
  · rintro ⟨hx1, hx2, hx3⟩
    have hm := ((hmarks _ (by omega)).low (x % 4096) (by omega)).mp hx3
    rw [show 4096 * (offset / 16777216 + (x / 4096 - offset / 16777216)) + x % 4096 = x by
      omega] at hm
    exact hm.2
  · intro hx
    obtain ⟨hx1, hx2⟩ := hx
    have hx3 : x / 4096 < offset / 16777216 + values.length := by omega
    refine ⟨by omega, hx3, ((hmarks _ (by omega)).low (x % 4096) (by omega)).mpr ⟨rfl, ?_⟩⟩
    rw [show 4096 * (offset / 16777216 + (x / 4096 - offset / 16777216)) + x % 4096 = x by omega]
    exact ⟨hx1, hx2⟩

/-- The blocks of an extent of blocks are those its bytes cover. -/
theorem coversBlock_toBytes {r : Result} (h : 0 ≤ r.offset) (x : ℕ) :
    CoversBlock r.toBytes.offset.toNat r.toBytes.size.toNat x ↔ x ∈ r.blocks := by
  rw [CoversBlock, Result.mem_blocks, Result.toBytes]
  simp only
  omega

theorem Result.aligned_toBytes {r : Result} (h₁ : 0 ≤ r.offset) (h₂ : 0 < r.size) :
    r.toBytes.Aligned := by
  refine ⟨?_, ?_, ?_⟩ <;> simp only [Result.toBytes] <;> omega

/-- A commit that stages a token's extents marks exactly its blocks. -/
theorem SpaceHolds.persist : ∀ {token : List Result} {db : DB} {marked : ℕ → Prop},
    SpaceHolds db marked → (∀ r ∈ token, 0 ≤ r.offset ∧ 0 < r.size) →
    SpaceHolds (db.applyAll ((token.map Result.toBytes).flatMap (Corgi.spaceOps true))) fun x =>
      marked x ∨ x ∈ blocksOf token
  | [], db, marked, h, _ => h.congr fun x => by simp
  | r :: token, db, marked, h, hpos => by
    obtain ⟨h1, h2⟩ := hpos r List.mem_cons_self
    have hrec := SpaceHolds.persist (h.spaceOps (r.aligned_toBytes h1 h2))
      fun s hs => hpos s (List.mem_cons_of_mem _ hs)
    rw [List.map_cons, List.flatMap_cons, Store.applyAll_append]
    refine hrec.congr fun x => ?_
    rw [coversBlock_toBytes h1, blocksOf_cons, List.mem_append, or_assoc]

theorem msbBit_zeroSpace {j : ℕ} (hj : j < 4096) : msbBit zeroSpace j = false := by
  rw [zeroSpace, msbBit_replicate _ _ (by omega), BitVec.getLsbD_zero]

theorem normalizeSpaceValue_none : normalizeSpaceValue none = zeroSpace := by
  rw [normalizeSpaceValue, Option.getD_none, List.take_nil, List.nil_append, List.length_nil]
  rfl

/-- The value of a space key in any bracketing of its operands. -/
theorem SpaceHolds.eval {db : DB} {marked : ℕ → Prop} (h : SpaceHolds db marked) (i : ℕ)
    (t : Bracketing Bytes) (ht : t.leaves = db (familySpaceKey i)) :
    ∃ v, t.eval (mossMergeValues (familySpaceKey i)) = .ok v ∧
      ∀ j < 4096, msbBit (normalizeSpaceValue (some v)) j = true ↔ marked (4096 * i + j) := by
  obtain ⟨v, hv, hunion⟩ := eval_masks (isSpaceKey_familySpaceKey i) t (ht ▸ h.seq i)
  refine ⟨v, hv, fun j hj => ?_⟩
  have hlen : 512 ≤ v.length := by
    rcases hunion.length with hl | hl
    · omega
    · rw [hl.length]
      decide
  rw [normalizeSpaceValue, Option.getD_some, msbBit_append_left (by rw [List.length_take]; omega),
    msbBit_take (by omega), hunion.bits j hj, ht, h.bits i j hj]

/-- Every space key can be read, and its bits are those of the marked blocks. -/
theorem SpaceHolds.get {db : DB} {marked : ℕ → Prop} (h : SpaceHolds db marked) :
    ∃ value : ℕ → Option Bytes, (∀ i, db.get (familySpaceKey i) = .ok (value i)) ∧
      ∀ x, spaceBit value x = true ↔ marked x := by
  have hkey : ∀ i, ∃ value, db.get (familySpaceKey i) = .ok value ∧
      ∀ j < 4096, msbBit (normalizeSpaceValue value) j = true ↔ marked (4096 * i + j) := by
    intro i
    have hbits := h.bits i
    cases hcell : db (familySpaceKey i) with
    | nil =>
      refine ⟨none, by rw [DB.get, Store.get, hcell], fun j hj => ?_⟩
      rw [← hbits j hj, hcell, normalizeSpaceValue_none, msbBit_zeroSpace hj, List.any_nil]
    | cons v vs =>
      obtain ⟨w, hw, hbit⟩ := h.eval i (Bracketing.ofLeft v vs)
        ((Bracketing.leaves_ofLeft v vs).trans hcell.symm)
      refine ⟨some w, ?_, hbit⟩
      rw [Bracketing.eval_ofLeft] at hw
      rw [DB.get, Store.get, hcell]
      simp only
      rw [hw]
      rfl
  choose value hget hbits using hkey
  refine ⟨value, hget, fun x => ?_⟩
  rw [spaceBit, hbits _ _ (Nat.mod_lt _ (by decide)), Nat.div_add_mod]

/-! ## Initialising the bitmap -/

/-- The writes of one batch of the initialisation. -/
def initOps (batch : ℕ × ℕ) : List BatchOp :=
  (List.range' batch.1 (batch.2 - batch.1)).map fun i =>
    .set (familySpaceKey i) zeroSpace

theorem after_flush_initRequest (json : JSONDeleteMark) (db : DB) (batch : ℕ × ℕ) :
    (flush json db [] [initRequest json batch.1 batch.2] none).after =
      db.applyAll (initOps batch) := by
  have hexec := @Prog.exec_forEach _ _ _ BatchError _ _ mossMergeValues
    (fun i => WriteBatch.put json (familySpaceKey i) zeroSpace)
    (fun i => [.set (familySpaceKey i) zeroSpace])
    (List.range' batch.1 (batch.2 - batch.1)) (fun i _ db => rfl) db
  rw [← List.map_eq_flatMap] at hexec
  have hall : execAll json (flushOrder [initRequest json batch.1 batch.2]) db =
      (db.applyAll (initOps batch), .ok [some ()]) := by
    change execAll json [initRequest json batch.1 batch.2] db = _
    rw [execAll, handleRequest, initRequest, handleCustomizeOperate, Prog.exec_bind, hexec]
    rfl
  exact (flush_of_ok json hall).1

/-- What is stored under space key `k` after a space key is set to zero. -/
theorem apply_set_zero (db : DB) (i k : ℕ) :
    db.apply (.set (familySpaceKey i) zeroSpace) (familySpaceKey k) =
      if k = i then [zeroSpace] else db (familySpaceKey k) := by
  rw [Store.apply, WriteOp.key, WriteOp.act, Function.update_apply]
  simp only [familySpaceKey_injective.eq_iff]

theorem SpaceHolds.set_zero {db : DB} (h : SpaceHolds db fun _ => False) (i : ℕ) :
    SpaceHolds (db.apply (.set (familySpaceKey i) zeroSpace)) fun _ => False := by
  refine ⟨fun k => ?_, fun k j hj => ?_⟩
  · rw [apply_set_zero]
    split_ifs
    · refine ⟨fun v hv => ?_, fun v hv => absurd hv (by simp)⟩
      obtain rfl : zeroSpace = v := Option.some.inj hv
      exact Or.inl List.length_replicate
    · exact h.seq k
  · rw [apply_set_zero]
    split_ifs
    · rw [List.any_cons, List.any_nil, msbBit_zeroSpace hj]
      simp
    · exact h.bits k j hj

/-- The initialisation as one list of writes. -/
theorem foldl_flush_initRequest (json : JSONDeleteMark) (batches : List (ℕ × ℕ)) (db : DB) :
    batches.foldl (fun db batch => (flush json db [] [initRequest json batch.1 batch.2] none).after)
      db = db.applyAll (batches.flatMap initOps) := by
  induction batches generalizing db with
  | nil => rfl
  | cons batch batches ih =>
    rw [List.foldl_cons, after_flush_initRequest, ih, List.flatMap_cons, Store.applyAll_append]

theorem spaceHolds_applyAll_set {db : DB} (h : SpaceHolds db fun _ => False) (is : List ℕ) :
    SpaceHolds (db.applyAll (is.map fun i => .set (familySpaceKey i) zeroSpace))
      fun _ => False := by
  induction is generalizing db with
  | nil => exact h
  | cons i is ih => exact ih (h.set_zero i)

theorem ne_nil_applyAll_set (is : List ℕ) {db : DB} {k : ℕ}
    (h : k ∈ is ∨ db (familySpaceKey k) ≠ []) :
    db.applyAll (is.map fun i => .set (familySpaceKey i) zeroSpace) (familySpaceKey k) ≠ [] := by
  induction is generalizing db with
  | nil => simpa [Store.applyAll] using h
  | cons i is ih =>
    refine ih ?_
    rw [apply_set_zero]
    split_ifs with hk
    · exact Or.inr (by simp)
    · rcases h with h | h
      · exact Or.inl ((List.mem_cons.mp h).resolve_left hk)
      · exact Or.inr h

theorem tryInitBlockSpace_of_ne_nil (json : JSONDeleteMark) (size done : ℕ) {db : DB}
    {marked : ℕ → Prop} (h : SpaceHolds db marked) (hne : db (familySpaceKey 0) ≠ []) :
    tryInitBlockSpace json size done db = .ok db := by
  obtain ⟨v, vs, hcell⟩ := List.exists_cons_of_ne_nil hne
  obtain ⟨w, hw, -⟩ := h.eval 0 (Bracketing.ofLeft v vs)
    ((Bracketing.leaves_ofLeft v vs).trans hcell.symm)
  rw [Bracketing.eval_ofLeft] at hw
  rw [tryInitBlockSpace, DB.get, Store.get, hcell]
  simp only
  rw [hw]
  rfl

/-- Initialising an empty bitmap, as far as it gets, leaves it empty and touches no other
key. -/
theorem tryInitBlockSpace_of_nil (json : JSONDeleteMark) (size done : ℕ) {db : DB}
    (h : SpaceHolds db fun _ => False) (hnil : db (familySpaceKey 0) = []) :
    ∃ db', tryInitBlockSpace json size done db = .ok db' ∧ SpaceHolds db' (fun _ => False) ∧
      (∀ key, (∀ i, key ≠ familySpaceKey i) → db' key = db key) ∧
      (0 < size → 0 < done → db' (familySpaceKey 0) ≠ []) := by
  refine ⟨_, by rw [tryInitBlockSpace, DB.get, Store.get, hnil], ?_⟩
  rw [foldl_flush_initRequest]
  obtain ⟨is, his, hzero⟩ : ∃ is : List ℕ,
      ((initBatches (spaceKeyCount size)).take done).flatMap initOps =
        is.map (fun i => .set (familySpaceKey i) zeroSpace) ∧ (0 < size → 0 < done → 0 ∈ is) := by
    refine ⟨((initBatches (spaceKeyCount size)).take done).flatMap fun batch =>
      List.range' batch.1 (batch.2 - batch.1), ?_, fun hs hd => ?_⟩
    · rw [List.map_flatMap]
      rfl
    · have hk : 0 < spaceKeyCount size := by
        rw [spaceKeyCount]
        omega
      obtain ⟨g, hg⟩ : ∃ g, (spaceKeyCount size + 999) / 1000 = g + 1 :=
        ⟨(spaceKeyCount size + 999) / 1000 - 1, by omega⟩
      obtain ⟨d, rfl⟩ : ∃ d, done = d + 1 := ⟨done - 1, by omega⟩
      rw [initBatches, hg, List.range_succ_eq_map, List.map_cons, List.take_succ_cons,
        List.flatMap_cons, List.mem_append, List.mem_range'_1]
      omega
  rw [his]
  refine ⟨spaceHolds_applyAll_set h is, fun key hkey => ?_, fun hs hd =>
    ne_nil_applyAll_set is (Or.inl (hzero hs hd))⟩
  refine Store.applyAll_of_forall_ne db fun op hop => ?_
  obtain ⟨i, -, rfl⟩ := List.mem_map.mp hop
  exact hkey i

end Corgi
