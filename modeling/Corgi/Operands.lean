import Corgi.Device
import Corgi.Edits

/-!
# Bitmap operands that set and clear

The model of `mossValueMerger`, and what merging does to the masks of
`spaceUpdateValues` when some allocate and some release. At each block a mask is an edit of
the block's bit. Merging it into a bitmap applies the edit, and merging two masks combines
their edits (`IsOperand.merge`).

`merge_disciplined` says that masks each of which changes every bit it touches give the same
bitmap however they are merged. `mossBitmapMerge_assoc_iff` says when two masks may be
merged first, and `realloc_release_not_assoc` that they may not always be.
-/

namespace Corgi

/-! ## `mossValueMerger` -/

/-- The state of a merge : the key and what its operands came to so far. -/
structure MossValueMerger where
  key : Bytes
  value : Bytes
  deriving DecidableEq, Repr

namespace MossValueMerger

/-- Merge an operand that is newer than all before. -/
def mergeNewer (vm : MossValueMerger) (value : Bytes) : Except MergeError MossValueMerger := do
  return { vm with value := ← mossMergeValues vm.key vm.value value }

/-- Merge an operand that is older than all before. -/
def mergeOlder (vm : MossValueMerger) (value : Bytes) : Except MergeError MossValueMerger := do
  return { vm with value := ← mossMergeValues vm.key value vm.value }

/-- The value that was merged. -/
def finish (vm : MossValueMerger) : Bytes :=
  vm.value

theorem mergeNewer_eq (vm : MossValueMerger) (value : Bytes) :
    vm.mergeNewer value = (mossMergeValues vm.key vm.value value).map fun v => ⟨vm.key, v⟩ := by
  rw [mergeNewer]
  cases mossMergeValues vm.key vm.value value <;> rfl

theorem mergeOlder_eq (vm : MossValueMerger) (value : Bytes) :
    vm.mergeOlder value = (mossMergeValues vm.key value vm.value).map fun v => ⟨vm.key, v⟩ := by
  rw [mergeOlder]
  cases mossMergeValues vm.key value vm.value <;> rfl

end MossValueMerger

/-- The merges the database makes of a sequence of operands : of one operand, or of an
older and a newer part, from either side. -/
inductive MergePlan
  | merge (value : Bytes)
  | mergeNewer (older newer : MergePlan)
  | mergeOlder (older newer : MergePlan)

namespace MergePlan

/-- The operands, oldest first. -/
def operands : MergePlan → List Bytes
  | merge value => [value]
  | mergeNewer older newer => older.operands ++ newer.operands
  | mergeOlder older newer => older.operands ++ newer.operands

/-- What the merger of the key has after the calls. -/
def run (key : Bytes) : MergePlan → Except MergeError MossValueMerger
  | merge value => .ok ⟨key, value⟩
  | mergeNewer older newer => do (← older.run key).mergeNewer (← newer.run key).finish
  | mergeOlder older newer => do (← newer.run key).mergeOlder (← older.run key).finish

/-- How the calls bracket the operands, from the oldest to the newest. -/
def bracketing : MergePlan → Bracketing Bytes
  | merge value => .leaf value
  | mergeNewer older newer => .node older.bracketing newer.bracketing
  | mergeOlder older newer => .node older.bracketing newer.bracketing

theorem leaves_bracketing : ∀ p : MergePlan, p.bracketing.leaves = p.operands
  | merge _ => rfl
  | mergeNewer older newer => congrArg₂ _ older.leaves_bracketing newer.leaves_bracketing
  | mergeOlder older newer => congrArg₂ _ older.leaves_bracketing newer.leaves_bracketing

/-- The side a merge is made from does not matter. -/
theorem run_of_eval {key : Bytes} : ∀ {p : MergePlan} {v : Bytes},
    p.bracketing.eval (mossMergeValues key) = .ok v → p.run key = .ok ⟨key, v⟩
  | merge value, v, h => by
    obtain rfl : value = v := Except.ok.inj h
    rfl
  | mergeNewer older newer, v, h => by
    obtain ⟨a, b, ho, hn, hmerge⟩ := Bracketing.exists_of_eval_node h
    rw [run, run_of_eval ho, run_of_eval hn]
    exact (MossValueMerger.mergeNewer_eq ⟨key, a⟩ b).trans (congrArg (Except.map _) hmerge)
  | mergeOlder older newer, v, h => by
    obtain ⟨a, b, ho, hn, hmerge⟩ := Bracketing.exists_of_eval_node h
    rw [run, run_of_eval ho, run_of_eval hn]
    exact (MossValueMerger.mergeOlder_eq ⟨key, b⟩ a).trans (congrArg (Except.map _) hmerge)

end MergePlan

/-! ## Operands as edits -/

/-- What an operand does to bit `j`. -/
def editAt (v : Bytes) (j : ℕ) : Edit :=
  if msbBit v j then .set else if msbBit v (4096 + j) then .keep else .clear

/-- An operand keeps the bits it sets. -/
structure IsOperand (v : Bytes) : Prop where
  length : v.length = 1024
  high : ∀ j < 4096, msbBit v j = true → msbBit v (4096 + j) = true

/-- Merging an operand into a bitmap applies its edits. -/
theorem IsOperand.merge_bitmap {v w : Bytes} (hv : v.length = 512) (hw : IsOperand w) :
    ∃ u, mossBitmapMerge v w = .ok u ∧ u.length = 512 ∧
      ∀ j < 4096, msbBit u j = (editAt w j).act (msbBit v j) := by
  obtain ⟨u, hmerge, hlen, hbits⟩ := mossBitmapMerge_bitmap hv hw.length
  refine ⟨u, hmerge, hlen, fun j hj => ?_⟩
  have hhigh := hw.high j hj
  rw [hbits j hj, editAt]
  cases hlow : msbBit w j with
  | true => rw [hhigh hlow, Bool.or_true]; rfl
  | false => cases msbBit w (4096 + j) <;> simp [Edit.act]

/-- Merging two operands combines their edits. -/
theorem IsOperand.merge {v w : Bytes} (hv : IsOperand v) (hw : IsOperand w) :
    ∃ u, mossBitmapMerge v w = .ok u ∧ IsOperand u ∧
      ∀ j < 4096, editAt u j = (editAt v j).comp (editAt w j) := by
  obtain ⟨u, hmerge, hlen, hlow, hhigh⟩ := mossBitmapMerge_operands hv.length hw.length
  refine ⟨u, hmerge, ⟨hlen, fun j hj h => ?_⟩, fun j hj => ?_⟩
  · rw [hlow j hj, Bool.and_eq_true] at h
    rw [hhigh j hj, h.1, Bool.true_or]
  · have hv' := hv.high j hj
    have hw' := hw.high j hj
    rw [editAt, editAt, editAt, hlow j hj, hhigh j hj]
    cases h1 : msbBit v j <;> cases h2 : msbBit w j <;> cases h3 : msbBit v (4096 + j) <;>
      cases h4 : msbBit w (4096 + j) <;> simp_all [Edit.comp]

/-- Two bitmaps with the same bits are the same. -/
theorem bitmap_ext {u v : Bytes} (hu : u.length = 512) (hv : v.length = 512)
    (h : ∀ j < 4096, msbBit u j = msbBit v j) : u = v :=
  eq_of_msbBit (hu.trans hv.symm) fun j hj => h j (by omega)

variable {ok : Edit → Bool → Prop}

/-- Where their edits meet `ok`, `v` stands for the operands `l`, of which the first may be
a bitmap. -/
structure StandsFor (ok : Edit → Bool → Prop) (l : List Bytes) (v : Bytes) : Prop where
  operand : (∀ u ∈ l, IsOperand u) → IsOperand v ∧
    ∀ j < 4096, Edit.Stands ok (l.map (editAt · j)) (editAt v j)
  bitmap : ∀ base ops, l = base :: ops → base.length = 512 → v.length = 512 ∧
    ∀ j < 4096, Edit.Each ok (msbBit base j) (ops.map (editAt · j)) →
      msbBit v j = Edit.actAll (msbBit base j) (ops.map (editAt · j))

/-- Operands, after a bitmap or after nothing. -/
def IsOperandSeq : List Bytes → Prop :=
  Led (fun v => v.length = 512 ∨ IsOperand v) IsOperand

theorem mossMergeValues_space {key v w : Bytes} (hk : isSpaceKey key = true)
    (hw : w.length = 1024) : mossMergeValues key v w = mossBitmapMerge v w := by
  rw [mossMergeValues, if_neg (by rw [hw]; omega), if_pos hk]

theorem StandsFor.merge (hok : Edit.Composes ok) {key : Bytes} (hk : isSpaceKey key = true)
    {l₁ l₂ : List Bytes} {v₁ v₂ : Bytes} (hne : l₁ ≠ []) (hseq : IsOperandSeq (l₁ ++ l₂))
    (h₁ : StandsFor ok l₁ v₁) (h₂ : StandsFor ok l₂ v₂) :
    ∃ v, mossMergeValues key v₁ v₂ = .ok v ∧ StandsFor ok (l₁ ++ l₂) v := by
  obtain ⟨hseq₁, -, hops₂⟩ := Led.split (fun _ => Or.inr) hseq
  obtain ⟨hv₂, hstands₂⟩ := h₂.operand (hops₂ hne)
  obtain ⟨base, ops, rfl⟩ := List.exists_cons_of_ne_nil hne
  rw [mossMergeValues_space hk hv₂.length]
  rcases hseq₁.1 base rfl with hbase | hbase
  · obtain ⟨hv₁, hbits₁⟩ := h₁.bitmap base ops rfl hbase
    obtain ⟨u, hu, hlen, hbits⟩ := hv₂.merge_bitmap hv₁
    refine ⟨u, hu, ⟨fun hall => ?_, fun base' ops' heq _ => ?_⟩⟩
    · have := (hall base (by simp)).length
      omega
    · rw [List.cons_append] at heq
      obtain ⟨rfl, rfl⟩ := List.cons.inj heq
      refine ⟨hlen, fun j hj heff => ?_⟩
      rw [List.map_append] at heff ⊢
      obtain ⟨heff₁, heff₂⟩ := Edit.each_append.mp heff
      rw [hbits j hj, hbits₁ j hj heff₁, (hstands₂ j hj _ heff₂).2, Edit.actAll_append]
  · have hall₁ : ∀ u ∈ base :: ops, IsOperand u := List.forall_mem_cons.mpr ⟨hbase, hseq₁.2⟩
    obtain ⟨hv₁, hstands₁⟩ := h₁.operand hall₁
    obtain ⟨u, hu, huop, hedit⟩ := hv₁.merge hv₂
    refine ⟨u, hu, ⟨fun _ => ⟨huop, fun j hj => ?_⟩, fun base' ops' heq hlen => ?_⟩⟩
    · rw [hedit j hj, List.map_append]
      exact (hstands₁ j hj).comp hok (hstands₂ j hj)
    · obtain ⟨rfl, -⟩ := List.cons.inj heq
      have := hbase.length
      omega

/-- However operands are merged, the result stands for them. -/
theorem eval_operands (hok : Edit.Composes ok) {key : Bytes} (hk : isSpaceKey key = true)
    (t : Bracketing Bytes) (h : IsOperandSeq t.leaves) :
    ∃ v, t.eval (mossMergeValues key) = .ok v ∧ StandsFor ok t.leaves v := by
  refine Bracketing.eval_spec (fun l₁ l₂ hg => ?_) (fun v hg => ?_) ?_ t h
  · obtain ⟨h₁, h₂, -⟩ := Led.split (fun _ => Or.inr) hg
    exact ⟨h₁, h₂⟩
  · refine ⟨fun hall => ⟨hall v (List.mem_singleton_self v), fun j _ => ?_⟩,
      fun base ops heq hb => ?_⟩
    · exact Edit.stands_singleton _
    · obtain ⟨rfl, rfl⟩ := List.cons.inj heq
      exact ⟨hb, fun j _ _ => rfl⟩
  · intro l₁ l₂ v₁ v₂ hne _ hg h₁ h₂
    exact h₁.merge hok hk hne hg h₂

/-! ## The masks of `spaceUpdateValues` -/

/-- The edit that marks a block. -/
def markEdit (allocated : Bool) : Edit :=
  if allocated then .set else .clear

theorem act_markEdit (allocated b : Bool) : (markEdit allocated).act b = allocated := by
  cases allocated <;> rfl

/-- A mask is an operand that marks its blocks and keeps the others. -/
theorem MarksBlocks.isOperand {allocated : Bool} {v : Bytes} {marked : ℕ → Prop}
    [DecidablePred marked] (h : MarksBlocks allocated v marked) :
    IsOperand v ∧ ∀ j < 4096, editAt v j = if marked j then markEdit allocated else .keep := by
  refine ⟨⟨h.length, fun j hj hlow => ?_⟩, fun j hj => ?_⟩
  · exact (h.high j hj).mpr (Or.inl ((h.low j hj).mp hlow).1)
  · have hlow := h.low j hj
    have hhigh := h.high j hj
    rw [editAt]
    cases allocated <;> by_cases hm : marked j <;> simp_all [markEdit]

/-- A call of `spaceUpdateValues`. -/
structure SpaceUpdate where
  offset : ℤ
  size : ℤ
  allocated : Bool
  deriving DecidableEq, Repr

namespace SpaceUpdate

/-- The mask that the call makes for the key of index `index`, if it makes one. -/
def mask (u : SpaceUpdate) (index : ℕ) : Option Bytes :=
  match spaceUpdateValues u.offset u.size u.allocated with
  | .error _ => none
  | .ok values =>
    if index < u.offset.toNat / 16777216 then none
    else values[index - u.offset.toNat / 16777216]?

/-- The range of the call meets block `x`. -/
def Covers (u : SpaceUpdate) (x : ℕ) : Prop :=
  u.offset ≤ 4096 * x ∧ 4096 * x < u.offset + u.size

instance (u : SpaceUpdate) (x : ℕ) : Decidable (u.Covers x) :=
  inferInstanceAs (Decidable (_ ∧ _))

/-- What the call means for block `x`. -/
def edit (u : SpaceUpdate) (x : ℕ) : Edit :=
  if u.Covers x then markEdit u.allocated else .keep

theorem marksBlocks_mask {u : SpaceUpdate} {index : ℕ} {v : Bytes} (h : u.mask index = some v) :
    MarksBlocks u.allocated v fun j => u.Covers (4096 * index + j) := by
  unfold mask at h
  by_cases hvalid : u.offset < 0 ∨ u.size ≤ 0 ∨ u.offset % 4096 ≠ 0
  · rw [spaceUpdateValues, if_pos hvalid] at h
    cases h
  · obtain ⟨offset, hoffset⟩ := Int.eq_ofNat_of_zero_le (show 0 ≤ u.offset by omega)
    obtain ⟨size, hsize⟩ := Int.eq_ofNat_of_zero_le (show 0 ≤ u.size by omega)
    have hcovers : ∀ x : ℕ, CoversBlock offset size x ↔ u.Covers x := by
      intro x
      rw [CoversBlock, Covers, hoffset, hsize]
      omega
    obtain ⟨values, hvalues, -, hmarks⟩ := @spaceUpdateValues_spec offset size (by omega)
      (by omega) u.allocated
    rw [hoffset, hsize, hvalues, Int.toNat_natCast] at h
    simp only at h
    split_ifs at h with hindex
    obtain ⟨hlt, rfl⟩ := List.getElem?_eq_some_iff.mp h
    have hmark := hmarks _ hlt
    rw [List.getD_eq_getElem _ _ hlt, show offset / 16777216 + (index - offset / 16777216) = index
      by omega] at hmark
    simp only [hcovers] at hmark
    exact hmark

theorem isOperand_mask {u : SpaceUpdate} {index : ℕ} {v : Bytes} (h : u.mask index = some v) :
    IsOperand v ∧ ∀ j < 4096, editAt v j = u.edit (4096 * index + j) :=
  (marksBlocks_mask h).isOperand

/-- A call makes a mask for each key it has a block of. -/
theorem exists_mask {u : SpaceUpdate} (ho : 0 ≤ u.offset) (ha : u.offset % 4096 = 0) {index j : ℕ}
    (hj : j < 4096) (hc : u.Covers (4096 * index + j)) : ∃ v, u.mask index = some v := by
  obtain ⟨h₁, h₂⟩ := hc
  obtain ⟨offset, hoffset⟩ := Int.eq_ofNat_of_zero_le ho
  obtain ⟨size, hsize⟩ := Int.eq_ofNat_of_zero_le (show 0 ≤ u.size by omega)
  obtain ⟨values, hvalues, hlen, -⟩ := @spaceUpdateValues_spec offset size (by omega) (by omega)
    u.allocated
  rw [mask, hoffset, hsize, hvalues, Int.toNat_natCast]
  simp only
  rw [if_neg (by omega)]
  exact ⟨_, List.getElem?_eq_getElem (by omega)⟩

theorem exists_mask_first_block (allocated : Bool) :
    ∃ v, SpaceUpdate.mask ⟨0, 4096, allocated⟩ 0 = some v :=
  @exists_mask ⟨0, 4096, allocated⟩ le_rfl rfl 0 0 (by decide) ⟨le_rfl, by simp⟩

theorem edits_masks {index : ℕ} : ∀ {updates : List SpaceUpdate} {masks : List Bytes},
    List.Forall₂ (fun u v => u.mask index = some v) updates masks →
    (∀ v ∈ masks, IsOperand v) ∧ ∀ j < 4096,
      masks.map (editAt · j) = updates.map (·.edit (4096 * index + j))
  | [], [], .nil => ⟨by simp, fun _ _ => rfl⟩
  | u :: updates, v :: masks, .cons hv h => by
    obtain ⟨hop, hedit⟩ := isOperand_mask hv
    obtain ⟨hops, hedits⟩ := edits_masks h
    refine ⟨List.forall_mem_cons.mpr ⟨hop, hops⟩, fun j hj => ?_⟩
    rw [List.map_cons, List.map_cons, hedit j hj, hedits j hj]

end SpaceUpdate

theorem length_normalizeSpaceValue (value : Option Bytes) :
    (normalizeSpaceValue value).length = 512 := by
  rw [normalizeSpaceValue, List.length_append, List.length_take, List.length_replicate]
  omega

/-- The bitmap that an operand with no bitmap below stands for. -/
theorem msbBit_normalize_operand {v : Bytes} (hv : IsOperand v) {j : ℕ} (hj : j < 4096) :
    msbBit (normalizeSpaceValue (some v)) j = (editAt v j).act false := by
  have hlen := hv.length
  rw [normalizeSpaceValue, Option.getD_some, msbBit_append_left (by rw [List.length_take]; omega),
    msbBit_take (by omega), editAt]
  cases msbBit v j <;> cases msbBit v (4096 + j) <;> rfl

/-! ## Disciplined masks -/

/-- Masks each of which changes every bit it touches give one bitmap, however the database
merges them into the bitmap they start from : at each block the calls applied one after
another. Over no stored bitmap the low half of the merged operand is that bitmap. -/
theorem merge_disciplined {key : Bytes} (hkey : isSpaceKey key = true) (index : ℕ)
    {updates : List SpaceUpdate} {masks : List Bytes}
    (hmasks : List.Forall₂ (fun u v => u.mask index = some v) updates masks) {base : Bytes}
    (hbase : base.length = 512)
    (hdisc : ∀ j < 4096,
      Edit.Each Edit.Effective (msbBit base j) (updates.map (·.edit (4096 * index + j)))) :
    ∃ bitmap : Bytes, bitmap.length = 512 ∧
      (∀ j < 4096, msbBit bitmap j =
        Edit.actAll (msbBit base j) (updates.map (·.edit (4096 * index + j)))) ∧
      (∀ p : MergePlan, p.operands = base :: masks →
        ∃ vm, p.run key = .ok vm ∧ vm.finish = bitmap) ∧
      (base = zeroSpace → ∀ p : MergePlan, p.operands = masks →
        ∃ vm, p.run key = .ok vm ∧ vm.finish.length = 1024 ∧
          normalizeSpaceValue (some vm.finish) = bitmap) := by
  obtain ⟨hops, hedits⟩ := SpaceUpdate.edits_masks hmasks
  have hdisc' : ∀ j < 4096, Edit.Each Edit.Effective (msbBit base j) (masks.map (editAt · j)) := by
    intro j hj
    rw [hedits j hj]
    exact hdisc j hj
  have hseq : IsOperandSeq (base :: masks) := ⟨fun v hv => Or.inl (by cases hv; exact hbase), hops⟩
  -- Merged from the left, the operands give the bitmap.
  obtain ⟨bitmap, -, hleft⟩ := eval_operands Edit.composes_effective hkey (.ofLeft base masks)
    (by rw [Bracketing.leaves_ofLeft]; exact hseq)
  rw [Bracketing.leaves_ofLeft] at hleft
  obtain ⟨hlen, hbits⟩ := hleft.bitmap base masks rfl hbase
  have hbits' : ∀ j < 4096, msbBit bitmap j =
      Edit.actAll (msbBit base j) (masks.map (editAt · j)) :=
    fun j hj => hbits j hj (hdisc' j hj)
  refine ⟨bitmap, hlen, fun j hj => ?_, fun p hp => ?_, fun hzero p hp => ?_⟩
  · rw [hbits' j hj, hedits j hj]
  · obtain ⟨v, hv, hstands⟩ := eval_operands Edit.composes_effective hkey p.bracketing
      (by rw [p.leaves_bracketing, hp]; exact hseq)
    rw [p.leaves_bracketing, hp] at hstands
    obtain ⟨hvlen, hvbits⟩ := hstands.bitmap base masks rfl hbase
    refine ⟨⟨key, v⟩, MergePlan.run_of_eval hv, @bitmap_ext v bitmap hvlen hlen fun j hj => ?_⟩
    rw [hvbits j hj (hdisc' j hj), hbits' j hj]
  · obtain ⟨v, hv, hstands⟩ := eval_operands Edit.composes_effective hkey p.bracketing
      (by rw [p.leaves_bracketing, hp]
          exact ⟨fun v hv => Or.inr (hops v (List.mem_of_mem_head? hv)),
            fun v hv => hops v (List.mem_of_mem_tail hv)⟩)
    rw [p.leaves_bracketing, hp] at hstands
    obtain ⟨hvop, hvstands⟩ := hstands.operand hops
    refine ⟨⟨key, v⟩, MergePlan.run_of_eval hv, hvop.length,
      @bitmap_ext (normalizeSpaceValue (some v)) bitmap (length_normalizeSpaceValue _) hlen
        fun j hj => ?_⟩
    have hj' := hdisc' j hj
    rw [hzero, msbBit_zeroSpace hj] at hj'
    rw [msbBit_normalize_operand hvop hj, (hvstands j hj false hj').2, hbits' j hj, hzero,
      msbBit_zeroSpace hj]

/-- One block, allocated and released. -/
theorem merge_alloc_release : ∃ (masks : List Bytes) (bitmap : Bytes),
    List.Forall₂ (fun (u : SpaceUpdate) v => u.mask 0 = some v)
      [⟨0, 4096, true⟩, ⟨0, 4096, false⟩] masks ∧ bitmap.length = 512 ∧
      ∀ p : MergePlan, p.operands = zeroSpace :: masks →
        ∃ vm, p.run (familySpaceKey 0) = .ok vm ∧ vm.finish = bitmap := by
  obtain ⟨a, ha⟩ := SpaceUpdate.exists_mask_first_block true
  obtain ⟨b, hb⟩ := SpaceUpdate.exists_mask_first_block false
  have hmasks : List.Forall₂ (fun (u : SpaceUpdate) v => u.mask 0 = some v)
      [⟨0, 4096, true⟩, ⟨0, 4096, false⟩] [a, b] := .cons ha (.cons hb .nil)
  obtain ⟨bitmap, hlen, -, hruns, -⟩ := merge_disciplined (isSpaceKey_familySpaceKey 0) 0 hmasks
    (show zeroSpace.length = 512 from List.length_replicate) fun j hj => by
      rw [msbBit_zeroSpace hj]
      rcases Nat.eq_zero_or_pos j with rfl | hpos
      · decide
      · have hkeep : ∀ allocated, SpaceUpdate.edit ⟨0, 4096, allocated⟩ (4096 * 0 + j) = .keep :=
          fun allocated => if_neg fun h => by
            have := h.2
            simp only at this
            omega
        rw [List.map_cons, List.map_cons, hkeep, hkeep]
        exact ⟨Or.inl rfl, Or.inl rfl, trivial⟩
  exact ⟨[a, b], bitmap, hmasks, hlen, hruns⟩

/-! ## Two masks merged first -/

/-- Merging two operands first and one after the other are the same when their edits are. -/
theorem IsOperand.assoc_iff {base a b : Bytes} (hbase : base.length = 512) (ha : IsOperand a)
    (hb : IsOperand b) :
    (mossBitmapMerge a b >>= fun ab => mossBitmapMerge base ab) =
        (mossBitmapMerge base a >>= fun v => mossBitmapMerge v b) ↔
      ∀ j < 4096, ((editAt a j).comp (editAt b j)).act (msbBit base j) =
        (editAt b j).act ((editAt a j).act (msbBit base j)) := by
  obtain ⟨ab, hab, habop, hedit⟩ := ha.merge hb
  obtain ⟨u, hu, hulen, hubits⟩ := habop.merge_bitmap hbase
  obtain ⟨v, hv, hvlen, hvbits⟩ := ha.merge_bitmap hbase
  obtain ⟨w, hw, hwlen, hwbits⟩ := hb.merge_bitmap hvlen
  have hbits : ∀ j < 4096, msbBit u j = msbBit w j ↔
      ((editAt a j).comp (editAt b j)).act (msbBit base j) =
        (editAt b j).act ((editAt a j).act (msbBit base j)) := by
    intro j hj
    rw [hubits j hj, hedit j hj, hwbits j hj, hvbits j hj]
  have hleft : (mossBitmapMerge a b >>= fun ab => mossBitmapMerge base ab) = .ok u := by
    rw [hab]
    exact hu
  have hright : (mossBitmapMerge base a >>= fun v => mossBitmapMerge v b) = .ok w := by
    rw [hv]
    exact hw
  rw [hleft, hright]
  constructor
  · intro h j hj
    rw [← hbits j hj, Except.ok.inj h]
  · intro h
    rw [bitmap_ext hulen hwlen fun j hj => (hbits j hj).mpr (h j hj)]

/-- For the masks of two calls : a block that both touch, one to set it and one to clear it,
must have been the way the second call leaves it. -/
theorem mossBitmapMerge_assoc_iff {index : ℕ} {u u' : SpaceUpdate} {a b base : Bytes}
    (ha : u.mask index = some a) (hb : u'.mask index = some b) (hbase : base.length = 512) :
    (mossBitmapMerge a b >>= fun ab => mossBitmapMerge base ab) =
        (mossBitmapMerge base a >>= fun v => mossBitmapMerge v b) ↔
      ∀ j < 4096, u.Covers (4096 * index + j) → u'.Covers (4096 * index + j) →
        u.allocated ≠ u'.allocated → msbBit base j = u'.allocated := by
  obtain ⟨haop, haedit⟩ := SpaceUpdate.isOperand_mask ha
  obtain ⟨hbop, hbedit⟩ := SpaceUpdate.isOperand_mask hb
  rw [haop.assoc_iff hbase hbop]
  refine forall_congr' fun j => forall_congr' fun hj => ?_
  rw [Edit.act_comp_iff, haedit j hj, hbedit j hj, SpaceUpdate.edit, SpaceUpdate.edit]
  by_cases hc : u.Covers (4096 * index + j) <;> by_cases hc' : u'.Covers (4096 * index + j) <;>
    cases u.allocated <;> cases u'.allocated <;> simp [hc, hc', markEdit]

/-- A block that was free, allocated and released. -/
theorem mossBitmapMerge_assoc_of_free : ∃ a b : Bytes,
    SpaceUpdate.mask ⟨0, 4096, true⟩ 0 = some a ∧ SpaceUpdate.mask ⟨0, 4096, false⟩ 0 = some b ∧
      (mossBitmapMerge a b >>= fun ab => mossBitmapMerge zeroSpace ab) =
        (mossBitmapMerge zeroSpace a >>= fun v => mossBitmapMerge v b) := by
  obtain ⟨a, ha⟩ := SpaceUpdate.exists_mask_first_block true
  obtain ⟨b, hb⟩ := SpaceUpdate.exists_mask_first_block false
  exact ⟨a, b, ha, hb, (mossBitmapMerge_assoc_iff ha hb List.length_replicate).mpr
    fun j hj _ _ _ => msbBit_zeroSpace hj⟩

/-- A block that was allocated already, marked again and released : merged first, the two
masks cancel and the block stays allocated. -/
theorem realloc_release_not_assoc : ∃ base a b : Bytes, base.length = 512 ∧
    msbBit base 0 = true ∧ SpaceUpdate.mask ⟨0, 4096, true⟩ 0 = some a ∧
    SpaceUpdate.mask ⟨0, 4096, false⟩ 0 = some b ∧
    (mossBitmapMerge a b >>= fun ab => mossBitmapMerge base ab) ≠
      (mossBitmapMerge base a >>= fun v => mossBitmapMerge v b) := by
  obtain ⟨a, ha⟩ := SpaceUpdate.exists_mask_first_block true
  obtain ⟨b, hb⟩ := SpaceUpdate.exists_mask_first_block false
  obtain ⟨haop, haedit⟩ := SpaceUpdate.isOperand_mask ha
  obtain ⟨hbop, hbedit⟩ := SpaceUpdate.isOperand_mask hb
  have hbase : (128#8 :: List.replicate 511 0#8).length = 512 := by
    rw [List.length_cons, List.length_replicate]
  have hbit : msbBit (128#8 :: List.replicate 511 0#8) 0 = true := rfl
  refine ⟨_, a, b, hbase, hbit, ha, hb, fun h => ?_⟩
  have h0 := (haop.assoc_iff hbase hbop).mp h 0 (by decide)
  rw [haedit 0 (by decide), hbedit 0 (by decide), hbit] at h0
  revert h0
  decide

end Corgi
