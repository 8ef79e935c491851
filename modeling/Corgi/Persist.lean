import Mathlib.Data.List.AList
import Corgi.Operands

/-!
# Bits written in place

The model of `persistSpaceBits`, which reads committed bitmaps, changes them and stages them
whole, and of `Release`, which uses it.

`persistSpaceBits_agrees_iff` compares it with `persistSpaceMerges`, which stages masks.
-/

namespace Corgi

/-! ## The model -/

/-- The body of the loop of `setSpaceBits`. -/
def setSpaceBit (allocated : Bool) (value : Bytes) (bit : ℕ) : Bytes :=
  let mask := 1#8 <<< (7 - bit % 8)
  value.set (bit / 8) (if allocated then value.getD (bit / 8) 0#8 ||| mask
    else value.getD (bit / 8) 0#8 &&& ~~~mask)

/-- Set or clear the bits of `blocks` blocks, one after another. -/
def setSpaceBits (value : Bytes) (startBlock blocks : ℕ) (allocated : Bool) : Bytes :=
  (List.range blocks).foldl (fun value i => setSpaceBit allocated value (startBlock + i)) value

/-- The bitmaps one call has changed, by index. -/
abbrev SpaceUpdates := AList fun _ : ℕ => Bytes

/-- The bitmap the call has changed already, or the committed one. -/
def loadSpaceValue (db : DB) (spaceIndex : ℕ) (updates : SpaceUpdates) : Except MergeError Bytes :=
  match updates.lookup spaceIndex with
  | some value => .ok value
  | none => (db.get (familySpaceKey spaceIndex)).map normalizeSpaceValue

/-- The inner loop of `persistSpaceBits` : the blocks of an extent, one bitmap at a time. -/
def setExtentBits (db : DB) (allocated : Bool) (startBlock blocks : ℕ) (updates : SpaceUpdates) :
    Except MergeError SpaceUpdates :=
  if 0 < blocks then do
    let spaceIndex := startBlock / 4096
    let spaceOffset := startBlock % 4096
    let n := min (4096 - spaceOffset) blocks
    let value ← loadSpaceValue db spaceIndex updates
    setExtentBits db allocated (startBlock + n) (blocks - n)
      (updates.insert spaceIndex (setSpaceBits value spaceOffset n allocated))
  else .ok updates
termination_by blocks
decreasing_by omega

/-- `fitBlock(size) / BlockSize` in `int64` : the product in `fitBlock` overflows for the
sizes above `2 ^ 63 - 4096`. -/
def fitBlocks (size : ℤ) : ℤ :=
  (wrap64 (fitBlock size)).tdiv 4096

/-- The body of the outer loop of `persistSpaceBits`. -/
def setResultBits (db : DB) (allocated : Bool) (updates : SpaceUpdates) (r : Result) :
    Except BatchError SpaceUpdates :=
  if r.offset < 0 ∨ r.size ≤ 0 ∨ r.offset % 4096 ≠ 0 then
    .error (.consumer (SpaceError.invalidResult r.offset r.size).message)
  else match setExtentBits db allocated (r.offset.toNat / 4096) (fitBlocks r.size).toNat
      updates with
    | .error e => .error (.consumer e.message)
    | .ok updates => .ok updates

/-- Stage the changed bitmaps of the extents `results`, in bytes. They are read from the
database `db` under the batch and not from the batch. -/
def persistSpaceBits (json : JSONDeleteMark) (db : DB) (results : List Result) (allocated : Bool) :
    BatchProg Unit :=
  match results.foldlM (setResultBits db allocated) ∅ with
  | .error e => .fail e
  | .ok updates => Prog.forEach updates.entries fun update =>
    WriteBatch.put json (familySpaceKey update.1) update.2

/-- Extents of bytes as extents of blocks. -/
def byteResultsToBlockResults (results : List Result) : List Result :=
  results.map fun r => ⟨r.offset.tdiv 4096, fitBlocks r.size⟩

/-- Stage the release of the extents `results`, in bytes, and free their blocks in memory.
The error of the allocator is dropped. -/
def BlockDevice.release (json : JSONDeleteMark) (d : BlockDevice) (db : DB) (batch : List BatchOp)
    (results : List Result) : BlockDevice × List BatchOp × Except BatchError Unit :=
  match (persistSpaceBits json db results false).run mossMergeValues db batch with
  | (batch, .error e) => (d, batch, .error e)
  | (batch, .ok ()) =>
    ({ d with allocator := (d.allocator.release (byteResultsToBlockResults results)).1 }, batch,
      .ok ())

/-! ## One bitmap -/

theorem length_setSpaceBit (allocated : Bool) (value : Bytes) (bit : ℕ) :
    (setSpaceBit allocated value bit).length = value.length :=
  List.length_set

theorem msbBit_setSpaceBit {allocated : Bool} {value : Bytes} {bit : ℕ}
    (h : bit < 8 * value.length) (j : ℕ) :
    msbBit (setSpaceBit allocated value bit) j = if j = bit then allocated else msbBit value j := by
  have hj := Nat.mod_lt j (show 0 < 8 by decide)
  have hbit := Nat.mod_lt bit (show 0 < 8 by decide)
  rw [setSpaceBit, msbBit_set (by omega)]
  by_cases hbyte : j / 8 = bit / 8
  · rw [if_pos hbyte]
    by_cases heq : j = bit
    · subst heq
      cases allocated <;> simp [getLsbD_bit hj hj, BitVec.getLsbD_not]
    · have hmod : j % 8 ≠ bit % 8 := by omega
      cases allocated <;> simp [getLsbD_bit hbit hj, BitVec.getLsbD_not, hmod, heq, msbBit, hbyte]
      omega
  · rw [if_neg hbyte, if_neg (by omega)]

/-- The loop sets the bits of its range. -/
theorem setSpaceBits_spec {allocated : Bool} {startBlock : ℕ} : ∀ (blocks : ℕ) {value : Bytes},
    startBlock + blocks ≤ 8 * value.length →
    (setSpaceBits value startBlock blocks allocated).length = value.length ∧
      ∀ j, msbBit (setSpaceBits value startBlock blocks allocated) j =
        if startBlock ≤ j ∧ j < startBlock + blocks then allocated else msbBit value j
  | 0, value, _ => ⟨rfl, fun j => by rw [if_neg (by omega)]; rfl⟩
  | blocks + 1, value, h => by
    obtain ⟨hlen, hbits⟩ := @setSpaceBits_spec allocated startBlock blocks value (by omega)
    have hstep : setSpaceBits value startBlock (blocks + 1) allocated =
        setSpaceBit allocated (setSpaceBits value startBlock blocks allocated)
          (startBlock + blocks) := by
      rw [setSpaceBits, List.range_succ, List.foldl_append]
      rfl
    refine ⟨by rw [hstep, length_setSpaceBit, hlen], fun j => ?_⟩
    rw [hstep, msbBit_setSpaceBit (by omega), hbits]
    split_ifs <;> first | rfl | omega

/-! ## The bitmaps of one call -/

variable {K : Set ℕ}

/-- The bits that a call has before it : the bitmaps of the keys in `K` load, with bit
`bit x` for block `x`. -/
def Shows (K : Set ℕ) (db : DB) (updates : SpaceUpdates) (bit : ℕ → Bool) : Prop :=
  ∀ i ∈ K, ∃ v, loadSpaceValue db i updates = .ok v ∧ v.length = 512 ∧
    ∀ j < 4096, msbBit v j = bit (4096 * i + j)

/-- The bits after those of `blocks` blocks from `startBlock` on are set to `allocated`. -/
def setBits (bit : ℕ → Bool) (startBlock blocks : ℕ) (allocated : Bool) (x : ℕ) : Bool :=
  if startBlock ≤ x ∧ x < startBlock + blocks then allocated else bit x

theorem Shows.congr {db : DB} {updates : SpaceUpdates} {bit bit' : ℕ → Bool}
    (h : Shows K db updates bit) (heq : ∀ x, bit x = bit' x) : Shows K db updates bit' := by
  obtain rfl : bit = bit' := funext heq
  exact h

theorem Shows.insert {db : DB} {updates : SpaceUpdates} {bit : ℕ → Bool}
    (h : Shows K db updates bit) {i : ℕ} {value : Bytes}
    (hload : loadSpaceValue db i updates = .ok value) {spaceOffset n : ℕ}
    (hn : spaceOffset + n ≤ 4096) (allocated : Bool) :
    Shows K db (updates.insert i (setSpaceBits value spaceOffset n allocated))
      (setBits bit (4096 * i + spaceOffset) n allocated) := by
  intro k hkK
  obtain ⟨v, hv, hlen, hbits⟩ := h k hkK
  by_cases hk : k = i
  · subst hk
    obtain rfl : v = value := Except.ok.inj (hv.symm.trans hload)
    obtain ⟨hlen', hbits'⟩ := @setSpaceBits_spec allocated spaceOffset n v (by omega)
    refine ⟨_, by rw [loadSpaceValue, AList.lookup_insert], hlen'.trans hlen, fun j hj => ?_⟩
    rw [hbits', hbits j hj, setBits]
    refine if_congr ?_ rfl rfl
    omega
  · refine ⟨v, ?_, hlen, fun j hj => ?_⟩
    · rw [loadSpaceValue, AList.lookup_insert_ne hk]
      exact hv
    · rw [hbits j hj, setBits, if_neg (by omega)]

/-- The inner loop sets the bits of the extent, and changes the bitmaps it has blocks of. -/
theorem setExtentBits_spec {db : DB} {allocated : Bool} : ∀ (blocks startBlock : ℕ)
    {updates : SpaceUpdates} {bit : ℕ → Bool}, Shows K db updates bit →
    (∀ x, startBlock ≤ x → x < startBlock + blocks → x / 4096 ∈ K) →
    ∃ updates', setExtentBits db allocated startBlock blocks updates = .ok updates' ∧
      Shows K db updates' (setBits bit startBlock blocks allocated) ∧
      ∀ i, i ∈ updates' ↔
        i ∈ updates ∨ ∃ x, x / 4096 = i ∧ startBlock ≤ x ∧ x < startBlock + blocks := by
  intro blocks
  induction blocks using Nat.strong_induction_on with
  | _ blocks ih =>
    intro startBlock updates bit h hK
    rw [setExtentBits]
    by_cases hpos : 0 < blocks
    · rw [if_pos hpos]
      obtain ⟨value, hload, -, -⟩ := h (startBlock / 4096) (hK _ le_rfl (by omega))
      have hmod := Nat.mod_lt startBlock (show 0 < 4096 by decide)
      have hdiv := Nat.div_add_mod startBlock 4096
      generalize hn : min (4096 - startBlock % 4096) blocks = n
      have hins := h.insert hload (show startBlock % 4096 + n ≤ 4096 by omega) allocated
      rw [hdiv] at hins
      obtain ⟨updates', hrun, hshows, hmem⟩ := ih (blocks - n) (by omega) (startBlock + n) hins
        fun x h1 h2 => hK x (by omega) (by omega)
      refine ⟨updates', ?_, hshows.congr fun x => ?_, fun i => ?_⟩
      · simp only [hn, hload]
        exact hrun
      · unfold setBits
        split_ifs <;> first | rfl | omega
      · rw [hmem, AList.mem_insert]
        constructor
        · rintro ((rfl | hi) | ⟨x, hx, h1, h2⟩)
          · exact Or.inr ⟨startBlock, rfl, le_rfl, by omega⟩
          · exact Or.inl hi
          · exact Or.inr ⟨x, hx, by omega, by omega⟩
        · rintro (hi | ⟨x, hx, h1, h2⟩)
          · exact Or.inl (Or.inr hi)
          · rcases Nat.lt_or_ge x (startBlock + n) with hlt | hge
            · exact Or.inl (Or.inl (by omega))
            · exact Or.inr ⟨x, hx, hge, by omega⟩
    · refine ⟨updates, by rw [if_neg hpos], h.congr fun x => ?_, fun i => ?_⟩
      · rw [setBits, if_neg (by omega)]
      · refine ⟨Or.inl, fun hi => hi.resolve_right ?_⟩
        rintro ⟨x, -, h1, h2⟩
        omega

/-- Block `x` is one of those that `persistSpaceBits` writes for the extent `r`. -/
def Result.Writes (r : Result) (x : ℕ) : Prop :=
  r.offset.toNat / 4096 ≤ x ∧ x < r.offset.toNat / 4096 + (fitBlocks r.size).toNat

instance (r : Result) (x : ℕ) : Decidable (r.Writes x) :=
  inferInstanceAs (Decidable (_ ∧ _))

/-- The outer loop sets the bits of all extents. -/
theorem foldlM_setResultBits_spec {db : DB} {allocated : Bool} : ∀ {results : List Result}
    {updates : SpaceUpdates} {bit : ℕ → Bool}, (∀ r ∈ results, r.Aligned) →
    (∀ r ∈ results, ∀ x, r.Writes x → x / 4096 ∈ K) → Shows K db updates bit →
    ∃ updates', results.foldlM (setResultBits db allocated) updates = .ok updates' ∧
      Shows K db updates' (fun x => if ∃ r ∈ results, r.Writes x then allocated else bit x) ∧
      ∀ i, i ∈ updates' ↔ i ∈ updates ∨ ∃ x, x / 4096 = i ∧ ∃ r ∈ results, r.Writes x
  | [], updates, bit, _, _, h => ⟨updates, rfl, h.congr fun x => by simp, fun i => by simp⟩
  | r :: results, updates, bit, hal, hK, h => by
    obtain ⟨h1, h2, h3⟩ := hal r List.mem_cons_self
    obtain ⟨updates₁, hrun₁, hshows₁, hmem₁⟩ := @setExtentBits_spec K db allocated
      (fitBlocks r.size).toNat (r.offset.toNat / 4096) updates bit h
      fun x hx1 hx2 => hK r List.mem_cons_self x ⟨hx1, hx2⟩
    obtain ⟨updates₂, hrun₂, hshows₂, hmem₂⟩ := foldlM_setResultBits_spec
      (fun s hs => hal s (List.mem_cons_of_mem _ hs))
      (fun s hs => hK s (List.mem_cons_of_mem _ hs)) hshows₁
    refine ⟨updates₂, ?_, hshows₂.congr fun x => ?_, fun i => ?_⟩
    · rw [List.foldlM_cons, setResultBits, if_neg (by omega), hrun₁]
      exact hrun₂
    · have hset : setBits bit (r.offset.toNat / 4096) (fitBlocks r.size).toNat allocated x =
          if r.Writes x then allocated else bit x := rfl
      simp only [List.exists_mem_cons_iff, hset]
      by_cases hr : r.Writes x <;> simp [hr]
    · rw [hmem₂, hmem₁, or_assoc]
      refine or_congr_right ?_
      simp only [List.exists_mem_cons_iff]
      constructor
      · rintro (⟨x, hx, hw⟩ | ⟨x, hx, hw⟩)
        · exact ⟨x, hx, Or.inl hw⟩
        · exact ⟨x, hx, Or.inr hw⟩
      · rintro ⟨x, hx, hw | hw⟩
        · exact Or.inl ⟨x, hx, hw⟩
        · exact Or.inr ⟨x, hx, hw⟩

/-! ## Committed bitmaps -/

/-- What is stored under a space key after bitmaps are set. -/
theorem applyAll_set_entries {i : ℕ} : ∀ {entries : List (Sigma fun _ : ℕ => Bytes)} (db : DB),
    entries.NodupKeys →
    db.applyAll (entries.map fun e => .set (familySpaceKey e.1) e.2) (familySpaceKey i) =
      match entries.dlookup i with
      | some v => [v]
      | none => db (familySpaceKey i)
  | [], _, _ => rfl
  | ⟨k, v⟩ :: entries, db, hnd => by
    obtain ⟨hk, hnd⟩ := List.nodupKeys_cons.mp hnd
    have hcell : db.apply (.set (familySpaceKey k) v) (familySpaceKey i) =
        if i = k then [v] else db (familySpaceKey i) := by
      rw [Store.apply, WriteOp.key, WriteOp.act, Function.update_apply]
      simp only [familySpaceKey_injective.eq_iff]
    rw [List.map_cons, Store.applyAll, List.foldl_cons, ← Store.applyAll,
      applyAll_set_entries _ hnd]
    by_cases hi : i = k
    · subst hi
      rw [List.dlookup_eq_none.mpr hk, List.dlookup_cons_eq, hcell, if_pos rfl]
    · rw [List.dlookup_cons_ne _ _ hi, hcell, if_neg hi]

/-- The order in which the changed bitmaps are staged does not matter. -/
theorem applyAll_set_perm {updates : SpaceUpdates} {entries : List (Sigma fun _ : ℕ => Bytes)}
    (h : entries.Perm updates.entries) (db : DB) (i : ℕ) :
    db.applyAll (entries.map fun e => .set (familySpaceKey e.1) e.2) (familySpaceKey i) =
      db.applyAll (updates.entries.map fun e => .set (familySpaceKey e.1) e.2)
        (familySpaceKey i) := by
  have hnd : entries.NodupKeys := (List.perm_nodupKeys h).mpr updates.nodupKeys
  rw [applyAll_set_entries db hnd, applyAll_set_entries db updates.nodupKeys,
    List.perm_dlookup i hnd h]

/-- The program stages the bitmaps that its loops leave. -/
theorem exec_persistSpaceBits (json : JSONDeleteMark) {db : DB} {results : List Result}
    {allocated : Bool} {updates : SpaceUpdates}
    (h : results.foldlM (setResultBits db allocated) ∅ = .ok updates) (db' : DB) :
    (persistSpaceBits json db results allocated).exec mossMergeValues db' =
      (db'.applyAll (updates.entries.map fun e => .set (familySpaceKey e.1) e.2), .ok ()) := by
  rw [persistSpaceBits, h]
  have hexec := @Prog.exec_forEach _ _ _ BatchError _ _ mossMergeValues
    (fun e : Sigma fun _ : ℕ => Bytes => WriteBatch.put json (familySpaceKey e.1) e.2)
    (fun e => [.set (familySpaceKey e.1) e.2]) updates.entries (fun e _ db => rfl) db'
  rw [List.map_eq_flatMap]
  exact hexec

/-- Only extents that the bitmap functions accept pass. -/
theorem aligned_of_foldlM_setResultBits {db : DB} {allocated : Bool} : ∀ {results : List Result}
    {updates updates' : SpaceUpdates},
    results.foldlM (setResultBits db allocated) updates = .ok updates' → ∀ r ∈ results, r.Aligned
  | [], _, _, _ => by simp
  | r :: results, updates, updates', h => by
    rw [List.foldlM_cons] at h
    cases hfirst : setResultBits db allocated updates r with
    | error e =>
      rw [hfirst] at h
      cases h
    | ok updates₁ =>
      rw [hfirst] at h
      refine List.forall_mem_cons.mpr ⟨?_, aligned_of_foldlM_setResultBits h⟩
      by_contra hal
      rw [setResultBits, if_pos] at hfirst
      · cases hfirst
      · rw [Result.Aligned] at hal
        omega

/-- Nothing is staged when an extent is not accepted. -/
theorem run_persistSpaceBits_of_not_aligned (json : JSONDeleteMark) (db : DB)
    {results : List Result} (hal : ¬∀ r ∈ results, r.Aligned) (allocated : Bool)
    (batch : List BatchOp) :
    ∃ e, (persistSpaceBits json db results allocated).run mossMergeValues db batch =
      (batch, .error e) := by
  cases hrun : results.foldlM (setResultBits db allocated) ∅ with
  | ok updates => exact absurd (aligned_of_foldlM_setResultBits hrun) hal
  | error e =>
    refine ⟨e, ?_⟩
    rw [persistSpaceBits, hrun]
    rfl

/-- The blocks that a release frees in memory are those whose bits it clears. -/
theorem mem_blocksOf_byteResults {results : List Result} (hal : ∀ r ∈ results, r.Aligned) {x : ℕ} :
    x ∈ blocksOf (byteResultsToBlockResults results) ↔ ∃ r ∈ results, r.Writes x := by
  rw [mem_blocksOf, byteResultsToBlockResults]
  simp only [List.mem_map, exists_exists_and_eq_and]
  refine exists_congr fun r => and_congr_right fun hr => ?_
  obtain ⟨h1, -, -⟩ := hal r hr
  rw [Result.mem_blocks, Result.Writes, Int.tdiv_eq_ediv_of_nonneg h1]
  simp only
  omega

theorem tdiv_block_lt {z : ℤ} (h : z < 2 ^ 63) : z.tdiv 4096 < 2 ^ 63 := by
  rw [Int.tdiv_eq_ediv]
  split_ifs
  · omega
  · rw [show Int.sign 4096 = 1 by decide]
    omega

theorem bounded_byteResults {results : List Result} (hb : ∀ r ∈ results, r.Bounded) :
    ∀ r ∈ byteResultsToBlockResults results, r.Bounded := by
  intro r hr
  obtain ⟨s, hs, rfl⟩ := List.mem_map.mp hr
  obtain ⟨h1, h2⟩ := hb s hs
  refine ⟨tdiv_block_lt h1, tdiv_block_lt ?_⟩
  rw [wrap64]
  omega

/-- The space keys in `K` hold 512 bytes each, with bit `bit x` for block `x`. -/
def IsBitmap (K : Set ℕ) (db : DB) (bit : ℕ → Bool) : Prop :=
  ∀ i ∈ K, ∃ v, db.get (familySpaceKey i) = .ok (some v) ∧ v.length = 512 ∧
    ∀ j < 4096, msbBit v j = bit (4096 * i + j)

theorem IsBitmap.congr {db : DB} {bit bit' : ℕ → Bool} (h : IsBitmap K db bit)
    (heq : ∀ x, bit x = bit' x) : IsBitmap K db bit' := by
  obtain rfl : bit = bit' := funext heq
  exact h

theorem normalizeSpaceValue_of_length {v : Bytes} (h : v.length = 512) :
    normalizeSpaceValue (some v) = v := by
  rw [normalizeSpaceValue, Option.getD_some, List.take_of_length_le h.le, h]
  exact List.append_nil v

theorem IsBitmap.shows {db : DB} {bit : ℕ → Bool} (h : IsBitmap K db bit) : Shows K db ∅ bit := by
  intro i hi
  obtain ⟨v, hv, hlen, hbits⟩ := h i hi
  refine ⟨v, ?_, hlen, hbits⟩
  rw [loadSpaceValue, AList.lookup_empty]
  simp only
  rw [hv, Except.map, normalizeSpaceValue_of_length hlen]

/-- Setting bits in place leaves bitmaps. -/
theorem IsBitmap.persistSpaceBits (json : JSONDeleteMark) {db : DB} {bit : ℕ → Bool}
    (h : IsBitmap K db bit) {results : List Result} (hal : ∀ r ∈ results, r.Aligned)
    (hK : ∀ r ∈ results, ∀ x, r.Writes x → x / 4096 ∈ K) (allocated : Bool) :
    ∃ db', (persistSpaceBits json db results allocated).exec mossMergeValues db = (db', .ok ()) ∧
      IsBitmap K db' fun x => if ∃ r ∈ results, r.Writes x then allocated else bit x := by
  obtain ⟨updates, hrun, hshows, -⟩ := @foldlM_setResultBits_spec K db allocated results ∅ bit hal
    hK h.shows
  refine ⟨_, exec_persistSpaceBits json hrun db, fun i hi => ?_⟩
  obtain ⟨v, hload, hlen, hbits⟩ := hshows i hi
  have hcell := @applyAll_set_entries i _ db updates.nodupKeys
  rw [loadSpaceValue] at hload
  cases hlook : updates.lookup i with
  | some w =>
    rw [hlook] at hload
    obtain rfl : w = v := Except.ok.inj hload
    rw [show updates.entries.dlookup i = some w from hlook] at hcell
    exact ⟨w, DB.get_of_singleton hcell, hlen, hbits⟩
  | none =>
    rw [hlook] at hload
    rw [show updates.entries.dlookup i = none from hlook] at hcell
    obtain ⟨u, hu, hulen, -⟩ := h i hi
    simp only [hu, Except.map, normalizeSpaceValue_of_length hulen] at hload
    obtain rfl : u = v := Except.ok.inj hload
    exact ⟨u, (DB.get_congr hcell).trans hu, hlen, hbits⟩

/-- What a key reads after an operand is merged into its value. -/
theorem DB.get_merge {db : DB} {key u v : Bytes} (hu : db.get key = .ok (some u)) :
    DB.get (db.apply (.merge key v)) key = (mossMergeValues key u v).map some := by
  have hcell : db.apply (.merge key v) key = db key ++ [v] := by
    rw [Store.apply, WriteOp.key, WriteOp.act, Function.update_self]
  rw [DB.get, Store.get] at hu ⊢
  rw [hcell]
  cases hl : db key with
  | nil => rw [hl] at hu; cases hu
  | cons b l =>
    rw [hl] at hu
    simp only [List.cons_append] at hu ⊢
    cases hfold : l.foldlM (mossMergeValues key) b with
    | error e => rw [hfold] at hu; cases hu
    | ok w =>
      rw [hfold] at hu
      obtain rfl : w = u := Option.some.inj (Except.ok.inj hu)
      have hone : [v].foldlM (mossMergeValues key) w = mossMergeValues key w v := by
        rw [List.foldlM_cons]
        exact bind_pure _
      rw [List.foldlM_append, hfold]
      exact congrArg (Except.map some) hone

/-- An operand merged into one bitmap applies its edits. -/
theorem IsBitmap.merge {db : DB} {bit : ℕ → Bool} (h : IsBitmap K db bit) (i : ℕ) {v : Bytes}
    (hv : IsOperand v) : IsBitmap K (db.apply (.merge (familySpaceKey i) v)) fun x =>
      if x / 4096 = i then (editAt v (x % 4096)).act (bit x) else bit x := by
  intro k hk
  obtain ⟨u, hu, hlen, hbits⟩ := h k hk
  by_cases hki : k = i
  · subst hki
    obtain ⟨w, hw, hwlen, hwbits⟩ := hv.merge_bitmap hlen
    refine ⟨w, ?_, hwlen, fun j hj => ?_⟩
    · rw [DB.get_merge hu, mossMergeValues_space (isSpaceKey_familySpaceKey k) hv.length, hw]
      rfl
    · beta_reduce
      rw [hwbits j hj, hbits j hj, if_pos (by omega), show (4096 * k + j) % 4096 = j by omega]
  · refine ⟨u, ?_, hlen, fun j hj => ?_⟩
    · rw [DB.get_congr (Store.apply_of_ne db fun heq => hki (familySpaceKey_injective heq)), hu]
    · beta_reduce
      rw [hbits j hj, if_neg (by omega)]

theorem IsBitmap.merges : ∀ (values : List Bytes) (k : ℕ) {db : DB} {bit : ℕ → Bool},
    IsBitmap K db bit → (∀ v ∈ values, IsOperand v) →
    IsBitmap K (db.applyAll ((values.zipIdx k).map fun value =>
      .merge (familySpaceKey value.2) value.1)) fun x =>
        if k ≤ x / 4096 ∧ x / 4096 < k + values.length then
          (editAt (values.getD (x / 4096 - k) []) (x % 4096)).act (bit x) else bit x
  | [], k, db, bit, h, _ => h.congr fun x => by
    rw [if_neg (by rw [List.length_nil]; omega)]
  | v :: values, k, db, bit, h, hv => by
    have hrec := IsBitmap.merges values (k + 1) (h.merge k (hv v List.mem_cons_self))
      fun w hw => hv w (List.mem_cons_of_mem _ hw)
    rw [List.zipIdx_cons, List.map_cons]
    refine hrec.congr fun x => ?_
    rw [List.length_cons]
    rcases Nat.lt_trichotomy (x / 4096) k with hx | hx | hx
    · rw [if_neg (by omega), if_neg (by omega), if_neg (by omega)]
    · rw [if_neg (by omega), if_pos hx, if_pos (by omega), hx, Nat.sub_self, List.getD_cons_zero]
    · rw [if_neg (show ¬x / 4096 = k by omega),
        show x / 4096 - k = (x / 4096 - (k + 1)) + 1 by omega, List.getD_cons_succ]
      refine if_congr ?_ rfl rfl
      omega

/-- Block `x` is one of those that the extent `r`, in bytes, meets. -/
def Result.Covers (r : Result) (x : ℕ) : Prop :=
  CoversBlock r.offset.toNat r.size.toNat x

instance (offset size x : ℕ) : Decidable (CoversBlock offset size x) :=
  inferInstanceAs (Decidable (_ ∧ _))

instance (r : Result) (x : ℕ) : Decidable (r.Covers x) :=
  inferInstanceAs (Decidable (_ ∧ _))

/-- Merging the masks of an extent sets its bits. -/
theorem IsBitmap.spaceOps {db : DB} {bit : ℕ → Bool} (h : IsBitmap K db bit) {r : Result}
    (hr : r.Aligned) (allocated : Bool) :
    IsBitmap K (db.applyAll (spaceOps allocated r)) fun x =>
      if r.Covers x then allocated else bit x := by
  obtain ⟨h1, h2, h3⟩ := hr
  obtain ⟨values, hv, hlen, hmarks⟩ := @spaceUpdateValues_spec r.offset.toNat r.size.toNat
    (by omega) (by omega) allocated
  rw [Int.toNat_of_nonneg h1, Int.toNat_of_nonneg h2.le] at hv
  have hops : ∀ v ∈ values, IsOperand v := by
    intro v hv
    obtain ⟨i, hm⟩ := exists_marksBlocks_of_mem hmarks hv
    exact hm.isOperand.1
  rw [Corgi.spaceOps, hv]
  refine (h.merges values _ hops).congr fun x => ?_
  have hcovers : r.Covers x ↔ CoversBlock r.offset.toNat r.size.toNat x := Iff.rfl
  by_cases hx : r.offset.toNat / 16777216 ≤ x / 4096 ∧
      x / 4096 < r.offset.toNat / 16777216 + values.length
  · have hedit := (hmarks (x / 4096 - r.offset.toNat / 16777216) (by omega)).isOperand.2 (x % 4096)
      (Nat.mod_lt x (by decide))
    rw [show 4096 * (r.offset.toNat / 16777216 + (x / 4096 - r.offset.toNat / 16777216)) +
      x % 4096 = x by omega] at hedit
    rw [if_pos hx, hedit]
    by_cases hc : r.Covers x
    · rw [if_pos hc, if_pos (hcovers.mp hc), act_markEdit]
    · rw [if_neg hc, if_neg (mt hcovers.mpr hc)]
      rfl
  · rw [if_neg hx, if_neg]
    rintro ⟨hc1, hc2⟩
    generalize r.offset.toNat = offset at *
    generalize r.size.toNat = size at *
    omega

theorem IsBitmap.persistSpaceMerges (allocated : Bool) : ∀ {results : List Result} {db : DB}
    {bit : ℕ → Bool}, IsBitmap K db bit → (∀ r ∈ results, r.Aligned) →
    IsBitmap K (db.applyAll (results.flatMap (Corgi.spaceOps allocated))) fun x =>
      if ∃ r ∈ results, r.Covers x then allocated else bit x
  | [], db, bit, h, _ => h.congr fun x => by simp
  | r :: results, db, bit, h, hal => by
    have hrec := IsBitmap.persistSpaceMerges allocated
      (h.spaceOps (hal r List.mem_cons_self) allocated)
      fun s hs => hal s (List.mem_cons_of_mem _ hs)
    rw [List.flatMap_cons, Store.applyAll_append]
    refine hrec.congr fun x => ?_
    simp only [List.exists_mem_cons_iff]
    by_cases hr : r.Covers x <;> simp [hr]

/-! ## The two ways of persisting -/

/-- Run a program on a fresh batch and commit it. -/
def commitFresh (db : DB) (p : BatchProg Unit) : DB × Except BatchError Unit :=
  let staged := p.run mossMergeValues db []
  (db.applyAll staged.1, staged.2)

theorem commitFresh_eq (db : DB) (p : BatchProg Unit) :
    commitFresh db p = p.exec mossMergeValues db :=
  Prod.ext (Prog.run_eq_exec mossMergeValues p db []).1 (Prog.run_eq_exec mossMergeValues p db []).2

/-- Above `2 ^ 63 - 4096` bytes the rounding overflows and the loop does not run. -/
theorem Result.writes_iff {r : Result} (hr : r.Aligned) (hsize : r.size < 2 ^ 63) (x : ℕ) :
    r.Writes x ↔ r.size ≤ 2 ^ 63 - 4096 ∧ r.Covers x := by
  obtain ⟨h1, h2, h3⟩ := hr
  rw [Result.Writes, Result.Covers, CoversBlock]
  by_cases hle : r.size ≤ 2 ^ 63 - 4096
  · have hblocks : fitBlocks r.size = fitBlock r.size / 4096 := by
      have hfit : 0 ≤ fitBlock r.size ∧ fitBlock r.size < 2 ^ 63 := by
        rw [fitBlock_of_nonneg h2.le]
        split_ifs <;> omega
      rw [fitBlocks, wrap64_of_lt hfit.1 hfit.2, Int.tdiv_eq_ediv_of_nonneg hfit.1]
    rw [hblocks, fitBlock_of_nonneg h2.le]
    split_ifs <;> omega
  · have hblocks : fitBlocks r.size = -2 ^ 51 := by
      have hfit : fitBlock r.size = 2 ^ 63 := by
        rw [fitBlock_of_nonneg h2.le]
        split_ifs <;> omega
      rw [fitBlocks, hfit]
      decide
    rw [hblocks]
    omega

/-- The masks that one call stages all mark the same way. -/
theorem exists_masks_spaceOps {results : List Result} (hal : ∀ r ∈ results, r.Aligned)
    (allocated : Bool) (db : DB) (i : ℕ) :
    ∃ masks, db.applyAll (results.flatMap (spaceOps allocated)) (familySpaceKey i) =
        db (familySpaceKey i) ++ masks ∧
      ∀ v ∈ masks, IsOperand v ∧ ∀ j < 4096, ∀ b, (markEdit allocated).Uniform (editAt v j) b := by
  refine Store.exists_applyAll_merges db fun op hop => ?_
  obtain ⟨r, hr, hop⟩ := List.mem_flatMap.mp hop
  obtain ⟨h1, h2, h3⟩ := hal r hr
  obtain ⟨values, hv, -, hmarks⟩ := @spaceUpdateValues_spec r.offset.toNat r.size.toNat
    (by omega) (by omega) allocated
  rw [Int.toNat_of_nonneg h1, Int.toNat_of_nonneg h2.le] at hv
  rw [spaceOps, hv] at hop
  obtain ⟨value, hvalue, rfl⟩ := List.mem_map.mp hop
  obtain ⟨k, hk, heq⟩ := List.mem_iff_getElem.mp (List.fst_mem_of_mem_zipIdx hvalue)
  have hmark := hmarks k hk
  rw [List.getD_eq_getElem _ _ hk, heq] at hmark
  refine ⟨_, _, rfl, hmark.isOperand.1, fun j hj b => ?_⟩
  rw [hmark.isOperand.2 j hj, Edit.Uniform]
  split_ifs
  · exact Or.inr rfl
  · exact Or.inl rfl

/-- A bitmap with masks after it reads the same however the masks are merged. -/
theorem eq_get_of_reads {ok : Edit → Bool → Prop} (hok : Edit.Composes ok) {db : DB} {i : ℕ}
    {base : Bytes} {masks : List Bytes} (hcell : db (familySpaceKey i) = base :: masks)
    (hbase : base.length = 512) (hops : ∀ v ∈ masks, IsOperand v)
    (heach : ∀ j < 4096, Edit.Each ok (msbBit base j) (masks.map (editAt · j)))
    {r : Except MergeError (Option Bytes)}
    (hr : Store.Reads mossMergeValues db (familySpaceKey i) r) :
    r = db.get (familySpaceKey i) := by
  have hread : ∀ r, Store.Reads mossMergeValues db (familySpaceKey i) r → ∃ v, r = .ok (some v) ∧
      v.length = 512 ∧
      ∀ j < 4096, msbBit v j = Edit.actAll (msbBit base j) (masks.map (editAt · j)) := by
    rintro r (⟨hnil, -⟩ | ⟨t, ht, rfl⟩)
    · rw [hcell] at hnil
      cases hnil
    · rw [hcell] at ht
      obtain ⟨v, hv, hstands⟩ := eval_operands hok (isSpaceKey_familySpaceKey i) t
        (by rw [ht]; exact ⟨fun v hv => Or.inl (by cases hv; exact hbase), hops⟩)
      rw [ht] at hstands
      obtain ⟨hlen, hbits⟩ := hstands.bitmap base masks rfl hbase
      exact ⟨v, by rw [hv]; rfl, hlen, fun j hj => hbits j hj (heach j hj)⟩
  obtain ⟨v, rfl, hlen, hbits⟩ := hread r hr
  obtain ⟨w, hw, hwlen, hwbits⟩ := hread _ (Store.reads_get mossMergeValues db _)
  rw [DB.get, hw, bitmap_ext hlen hwlen fun j hj => (hbits j hj).trans (hwbits j hj).symm]

/-- What the two ways leave. -/
theorem isBitmap_commitFresh (json : JSONDeleteMark) {db : DB} {bit : ℕ → Bool}
    (hdb : IsBitmap K db bit) {results : List Result}
    (hres : ∀ r ∈ results, r.Aligned ∧ r.offset + r.size < 2 ^ 63)
    (hK : ∀ r ∈ results, ∀ x, r.Covers x → x / 4096 ∈ K)
    (allocated : Bool) :
    ((commitFresh db (persistSpaceBits json db results allocated)).2 = .ok () ∧
      IsBitmap K (commitFresh db (persistSpaceBits json db results allocated)).1 fun x =>
        if ∃ r ∈ results, r.size ≤ 2 ^ 63 - 4096 ∧ r.Covers x
        then allocated else bit x) ∧
    (commitFresh db (persistSpaceMerges results allocated)).2 = .ok () ∧
      IsBitmap K (commitFresh db (persistSpaceMerges results allocated)).1 fun x =>
        if ∃ r ∈ results, r.Covers x then allocated else bit x := by
  have hal : ∀ r ∈ results, r.Aligned := fun r hr => (hres r hr).1
  have hwrites : ∀ r ∈ results, ∀ x, r.Writes x ↔
      r.size ≤ 2 ^ 63 - 4096 ∧ r.Covers x := by
    intro r hr x
    obtain ⟨hral, hlt⟩ := hres r hr
    have := hral.1
    exact Result.writes_iff hral (by omega) x
  obtain ⟨db', hexec, hbits⟩ := hdb.persistSpaceBits json hal
    (fun r hr x hx => hK r hr x ((hwrites r hr x).mp hx).2) allocated
  rw [commitFresh_eq, commitFresh_eq, hexec, exec_persistSpaceMerges hal]
  refine ⟨⟨rfl, hbits.congr fun x => ?_⟩, rfl, hdb.persistSpaceMerges allocated hal⟩
  refine if_congr ⟨?_, ?_⟩ rfl rfl
  · rintro ⟨r, hr, hx⟩
    exact ⟨r, hr, (hwrites r hr x).mp hx⟩
  · rintro ⟨r, hr, hx⟩
    exact ⟨r, hr, (hwrites r hr x).mpr hx⟩

/-- Bits written in place and masks merged agree on the bitmaps that hold 512 bytes, but for
the blocks of an extent whose size overflows when it is rounded up : those are to be covered
by another extent or to be marked so already. The masks may be merged in any order. -/
theorem persistSpaceBits_agrees_iff (json : JSONDeleteMark) {K : Set ℕ} {db : DB} {bit : ℕ → Bool}
    (hdb : IsBitmap K db bit) {results : List Result}
    (hres : ∀ r ∈ results, r.Aligned ∧ r.offset + r.size < 2 ^ 63)
    (hK : ∀ r ∈ results, ∀ x, r.Covers x → x / 4096 ∈ K)
    (allocated : Bool) :
    (commitFresh db (persistSpaceBits json db results allocated)).2 = .ok () ∧
    (commitFresh db (persistSpaceMerges results allocated)).2 = .ok () ∧
    (∀ i ∈ K, ∀ base, db (familySpaceKey i) = [base] →
      ∀ v, Store.Reads mossMergeValues (commitFresh db (persistSpaceMerges results allocated)).1
        (familySpaceKey i) v →
      v = (commitFresh db (persistSpaceMerges results allocated)).1.get (familySpaceKey i)) ∧
    ((∀ i ∈ K, ∃ v, v.length = 512 ∧
      (commitFresh db (persistSpaceBits json db results allocated)).1.get (familySpaceKey i) =
        .ok (some v) ∧
      (commitFresh db (persistSpaceMerges results allocated)).1.get (familySpaceKey i) =
        .ok (some v)) ↔
      ∀ r ∈ results, 2 ^ 63 - 4096 < r.size →
        ∀ x, r.Covers x → bit x = allocated ∨
          ∃ s ∈ results, s.size ≤ 2 ^ 63 - 4096 ∧
            s.Covers x) := by
  obtain ⟨⟨hok₁, hbits₁⟩, hok₂, hbits₂⟩ := isBitmap_commitFresh json hdb hres hK allocated
  refine ⟨hok₁, hok₂, fun i hi base hcell v hv => ?_, fun h r hr hsize x hx => ?_, fun h i hi => ?_⟩
  · have hal : ∀ r ∈ results, r.Aligned := fun r hr => (hres r hr).1
    rw [commitFresh_eq, exec_persistSpaceMerges hal] at hv ⊢
    obtain ⟨masks, hmasks, hops⟩ := exists_masks_spaceOps hal allocated db i
    obtain ⟨u, hu, hulen, -⟩ := hdb i hi
    obtain rfl : base = u :=
      Option.some.inj (Except.ok.inj ((DB.get_of_singleton hcell).symm.trans hu))
    rw [hcell, List.singleton_append] at hmasks
    refine eq_get_of_reads (Edit.composes_uniform (markEdit allocated)) hmasks hulen
      (fun v hv => (hops v hv).1) (fun j hj => Edit.each_of_forall fun e he b => ?_) hv
    obtain ⟨w, hw, rfl⟩ := List.mem_map.mp he
    exact (hops w hw).2 j hj b
  · obtain ⟨v, -, hv₁, hv₂⟩ := h (x / 4096) (hK r hr x hx)
    obtain ⟨v₁, hget₁, -, hb₁⟩ := hbits₁ (x / 4096) (hK r hr x hx)
    obtain ⟨v₂, hget₂, -, hb₂⟩ := hbits₂ (x / 4096) (hK r hr x hx)
    obtain rfl : v = v₁ := Option.some.inj (Except.ok.inj (hv₁.symm.trans hget₁))
    obtain rfl : v = v₂ := Option.some.inj (Except.ok.inj (hv₂.symm.trans hget₂))
    have heq := (hb₁ (x % 4096) (Nat.mod_lt x (by decide))).symm.trans
      (hb₂ (x % 4096) (Nat.mod_lt x (by decide)))
    simp only [Nat.div_add_mod] at heq
    rw [if_pos (show ∃ r ∈ results, r.Covers x from ⟨r, hr, hx⟩)]
      at heq
    by_cases hs : ∃ s ∈ results, s.size ≤ 2 ^ 63 - 4096 ∧ s.Covers x
    · exact Or.inr hs
    · rw [if_neg hs] at heq
      exact Or.inl heq
  · obtain ⟨v₁, hget₁, hlen₁, hb₁⟩ := hbits₁ i hi
    obtain ⟨v₂, hget₂, hlen₂, hb₂⟩ := hbits₂ i hi
    refine ⟨v₁, hlen₁, hget₁, hget₂.trans ?_⟩
    rw [bitmap_ext hlen₂ hlen₁ fun j hj => ?_]
    rw [hb₁ j hj, hb₂ j hj]
    beta_reduce
    by_cases hs : ∃ s ∈ results, s.size ≤ 2 ^ 63 - 4096 ∧ s.Covers (4096 * i + j)
    · obtain ⟨s, hs₁, hs₂, hs₃⟩ := hs
      rw [if_pos ⟨s, hs₁, hs₃⟩, if_pos ⟨s, hs₁, hs₂, hs₃⟩]
    · rw [if_neg hs]
      split_ifs with hc
      · obtain ⟨r, hr, hx⟩ := hc
        have hsize : 2 ^ 63 - 4096 < r.size := not_le.mp fun hle => hs ⟨r, hr, hle, hx⟩
        exact ((h r hr hsize _ hx).resolve_right hs).symm
      · rfl

/-- A database whose bitmaps are all zero. -/
def zeroDB : DB :=
  fun _ => [zeroSpace]

theorem isBitmap_zeroDB : IsBitmap Set.univ zeroDB fun _ => false :=
  fun _ _ => ⟨zeroSpace, rfl, List.length_replicate, fun _ hj => msbBit_zeroSpace hj⟩

/-- One block. -/
theorem persistSpaceBits_agrees_one_block : ∃ v, v.length = 512 ∧
    (commitFresh zeroDB (persistSpaceBits (fun _ => none) zeroDB [⟨0, 4096⟩] true)).1.get
      (familySpaceKey 0) = .ok (some v) ∧
    (commitFresh zeroDB (persistSpaceMerges [⟨0, 4096⟩] true)).1.get (familySpaceKey 0) =
      .ok (some v) := by
  have hres : ∀ r ∈ [(⟨0, 4096⟩ : Result)], r.Aligned ∧ r.offset + r.size < 2 ^ 63 := by
    intro r hr
    obtain rfl := List.mem_singleton.mp hr
    exact ⟨⟨le_rfl, by decide, by decide⟩, by decide⟩
  refine (persistSpaceBits_agrees_iff (fun _ => none) isBitmap_zeroDB hres
    (fun _ _ _ _ => Set.mem_univ _) true).2.2.2.mpr (fun r hr hsize => ?_) 0 (Set.mem_univ 0)
  obtain rfl := List.mem_singleton.mp hr
  exact absurd hsize (by decide)

/-- An extent of `2 ^ 63 - 1` bytes : rounded up to blocks its size is negative, no bit is
written in place, and the masks mark every block. -/
theorem persistSpaceBits_overflow :
    (commitFresh zeroDB (persistSpaceBits (fun _ => none) zeroDB [⟨0, 2 ^ 63 - 1⟩] true)).1.get
      (familySpaceKey 0) ≠
    (commitFresh zeroDB (persistSpaceMerges [⟨0, 2 ^ 63 - 1⟩] true)).1.get (familySpaceKey 0) := by
  have hres : ∀ r ∈ [(⟨0, 2 ^ 63 - 1⟩ : Result)], r.Aligned ∧ r.offset + r.size < 2 ^ 63 := by
    intro r hr
    obtain rfl := List.mem_singleton.mp hr
    exact ⟨⟨le_rfl, by decide, by decide⟩, by decide⟩
  obtain ⟨⟨-, hbits₁⟩, -, hbits₂⟩ := isBitmap_commitFresh (fun _ => none) isBitmap_zeroDB hres
    (fun _ _ _ _ => Set.mem_univ _) true
  obtain ⟨v₁, hget₁, -, hb₁⟩ := hbits₁ 0 (Set.mem_univ 0)
  obtain ⟨v₂, hget₂, -, hb₂⟩ := hbits₂ 0 (Set.mem_univ 0)
  intro heq
  rw [hget₁, hget₂] at heq
  obtain rfl : v₁ = v₂ := Option.some.inj (Except.ok.inj heq)
  have h0 := (hb₁ 0 (by decide)).symm.trans (hb₂ 0 (by decide))
  beta_reduce at h0
  rw [if_neg, if_pos] at h0
  · cases h0
  · exact ⟨_, List.mem_singleton_self _, by decide⟩
  · rintro ⟨r, hr, hsize, -⟩
    obtain rfl := List.mem_singleton.mp hr
    exact absurd hsize (by decide)

end Corgi
