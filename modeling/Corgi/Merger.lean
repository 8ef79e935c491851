import Corgi.Bytes
import Corgi.Bracketing

/-!
# The merge operator

The model of `mossMergeValues` and its three branches : addition of 8-byte counters, the
space bitmap of `.1.` keys, and the JSON metadata of `*`, `-` and digit keys. Any other
key takes the incoming value.

Counters add modulo `2 ^ 64` in every bracketing (`eval_counters`). Masks that only
allocate act as a union in every bracketing, over a stored bitmap or over none
(`eval_masks`).
-/

namespace Corgi

/-! ## The model -/

/-- The errors of the bitmap branch. -/
inductive MergeError
  | incomingLength (n : ℕ)
  | existingLength (n : ℕ)
  deriving DecidableEq, Repr

/-- The text of the error. -/
def MergeError.message : MergeError → String
  | incomingLength n => s!"mossBitmapMerge: incoming must be 1024 bytes, got {n}"
  | existingLength n => s!"mossBitmapMerge: existing must be 512 or 1024 bytes, got {n}"

/-- The bitmap branch. An operand has the bits to set in its low half and the mask of the
bits to keep in its high half. -/
def mossBitmapMerge (existing incoming : Bytes) : Except MergeError Bytes :=
  if incoming.length ≠ 1024 then .error (.incomingLength incoming.length)
  else if existing.length = 512 then
    .ok ((List.range 512).map fun i =>
      (existing.getD i 0#8 ||| incoming.getD i 0#8) &&& incoming.getD (i + 512) 0#8)
  else if existing.length = 1024 then
    let ci := fun i => existing.getD i 0#8 ||| incoming.getD i 0#8
    let cj := fun i => existing.getD (i + 512) 0#8 &&& incoming.getD (i + 512) 0#8
    .ok ((List.range 512).map (fun i => ci i &&& cj i) ++
      (List.range 512).map fun i => ci i ||| cj i)
  else .error (.existingLength existing.length)

/-- Index of the last byte of the first match of `name`, as the loop finds it : after a
mismatch it starts over at the next byte. -/
def scanName (name : Bytes) : Bytes → ℕ → ℕ → Option ℕ
  | [], _, _ => none
  | d :: data, matched, i =>
    if d = name.getD matched 0#8 then
      if matched + 1 = name.length then some i else scanName name data (matched + 1) (i + 1)
    else scanName name data 0 (i + 1)

/-- The quoted value after `name`. -/
def extractJSONField (data name : Bytes) : Option Bytes :=
  match scanName name data 0 0 with
  | none => none
  | some start =>
    match (List.range' start (data.length - start)).find? fun i =>
        data.getD i 0#8 = 44#8 ∨ data.getD i 0#8 = 125#8 with
    | none => none
    | some stop =>
      if stop ≤ start ∨ data.getD (stop - 1) 0#8 ≠ 34#8 ∨ stop - 1 ≤ start + 2 then none
      else some ((data.drop (start + 2)).take (stop - 1 - (start + 2)))

/-- Some quoted key is `name`, with its colon. -/
def hasJSONKey (data name : Bytes) : Bool :=
  (scanName name data 0 0).isSome

/-- The number of hyphens. -/
def countHyphen (s : Bytes) : ℕ :=
  s.count 45#8

/-- The loop of `compareVersion` and the comparison of lengths after it. -/
def compareBytes : Bytes → Bytes → ℤ
  | [], [] => 0
  | [], _ :: _ => 1
  | _ :: _, [] => -1
  | b :: v₁, c :: v₂ =>
    if (c.toNat : ℤ) - b.toNat ≠ 0 then c.toNat - b.toNat else compareBytes v₁ v₂

/-- Positive when `v₂` is the greater one. -/
def compareVersion : Option Bytes → Option Bytes → ℤ
  | none, none => 0
  | none, some _ => 1
  | some _, none => -1
  | some v₁, some v₂ => compareBytes v₁ v₂

/-- Positive when `v₂` is the greater one. A stamp of the old format, with less than two hyphens,
is less than any other, but only as `v₁`. -/
def compareSyncStamp : Option Bytes → Option Bytes → ℤ
  | none, none => 0
  | none, some _ => 1
  | some _, none => -1
  | some v₁, some v₂ => if countHyphen v₁ < 2 then 1 else compareVersion (some v₁) (some v₂)

/-- The key of the stamp. -/
def syncStampName : Bytes :=
  ascii ['"', 's', 'y', 'n', 'c', 'S', 't', 'a', 'm', 'p', '"', ':']

/-- The key of the version. -/
def versionNumName : Bytes :=
  ascii ['"', 'v', 'e', 'r', 's', 'i', 'o', 'n', 'N', 'u', 'm', '"', ':']

/-- The key of the delete mark. -/
def deleteMarkName : Bytes :=
  ascii ['"', 'd', 'e', 'l', 'e', 't', 'e', 'M', 'a', 'r', 'k', '"', ':']

/-- The comparison of `versionNum`, made when the sync stamps do not decide. -/
def mossVersionMerge (existing incoming : Bytes) : Bytes :=
  let cmp := compareVersion (extractJSONField existing versionNumName)
    (extractJSONField incoming versionNumName)
  if cmp = 0 then existing
  else if 0 < cmp then incoming
  else if hasJSONKey existing deleteMarkName then incoming else existing

/-- The JSON branch. -/
def mossJSONMerge (existing incoming : Bytes) : Bytes :=
  let newSyncStamp := extractJSONField incoming syncStampName
  let cmp := compareSyncStamp (extractJSONField existing syncStampName) newSyncStamp
  if 2 ≤ countHyphen (newSyncStamp.getD []) ∧ cmp ≠ 0 then
    if 0 < cmp then incoming else existing
  else mossVersionMerge existing incoming

/-- Whether `key` is a `.1.` key. -/
def isSpaceKey (key : Bytes) : Bool :=
  3 < key.length && key.take 3 == ascii ['.', '1', '.']

/-- Whether the JSON branch applies to `key`. -/
def isJSONKey (key : Bytes) : Bool :=
  1 < key.length && match key.head? with
    | some c => c == 42#8 || c == 45#8 || (48 ≤ c.toNat && c.toNat ≤ 57)
    | none => false

/-- Merge the newer operand `incoming` into the older value `existing`. -/
def mossMergeValues (key existing incoming : Bytes) : Except MergeError Bytes :=
  if existing.length = 8 ∧ incoming.length = 8 then
    .ok (leBytes 8 (leNat existing + leNat incoming))
  else if isSpaceKey key then mossBitmapMerge existing incoming
  else if isJSONKey key then .ok (mossJSONMerge existing incoming)
  else .ok incoming

/-! ## Counters -/

/-- A value that counts `n` modulo `2 ^ 64`. -/
def IsCounter (v : Bytes) (n : ℕ) : Prop :=
  v.length = 8 ∧ leNat v = n % 2 ^ 64

theorem IsCounter.merge {key v w : Bytes} {m n : ℕ} (hv : IsCounter v m) (hw : IsCounter w n) :
    ∃ u, mossMergeValues key v w = .ok u ∧ IsCounter u (m + n) := by
  obtain ⟨hv1, hv2⟩ := hv
  obtain ⟨hw1, hw2⟩ := hw
  refine ⟨_, by rw [mossMergeValues, if_pos ⟨hv1, hw1⟩], length_leBytes _ _, ?_⟩
  rw [leNat_leBytes, hv2, hw2, show 256 ^ 8 = 2 ^ 64 by norm_num, ← Nat.add_mod]

/-- Counters add up in every bracketing. -/
theorem eval_counters (key : Bytes) (count : Bytes → ℕ) (t : Bracketing Bytes)
    (h : ∀ v ∈ t.leaves, IsCounter v (count v)) :
    ∃ v, t.eval (mossMergeValues key) = .ok v ∧ IsCounter v (t.leaves.map count).sum := by
  refine @Bracketing.eval_spec _ _ _ (fun l => ∀ v ∈ l, IsCounter v (count v))
    (fun l v => IsCounter v (l.map count).sum) ?_ ?_ ?_ t h
  · exact fun l₁ l₂ hg => List.forall_mem_append.mp hg
  · intro v hg
    simpa using hg v (List.mem_singleton_self v)
  · intro l₁ l₂ v₁ v₂ _ _ _ h₁ h₂
    rw [List.map_append, List.sum_append]
    exact h₁.merge h₂

/-! ## Merging bitmaps -/

theorem getLsbD_getD_high {v : Bytes} {j : ℕ} :
    (v.getD (j / 8 + 512) 0#8).getLsbD (7 - j % 8) = msbBit v (4096 + j) := by
  rw [msbBit, show (4096 + j) / 8 = j / 8 + 512 by omega, show (4096 + j) % 8 = j % 8 by omega]

/-- An operand is merged into a bitmap. -/
theorem mossBitmapMerge_bitmap {v w : Bytes} (hv : v.length = 512) (hw : w.length = 1024) :
    ∃ u, mossBitmapMerge v w = .ok u ∧ u.length = 512 ∧
      ∀ j < 4096, msbBit u j = ((msbBit v j || msbBit w j) && msbBit w (4096 + j)) := by
  refine ⟨_, by rw [mossBitmapMerge, if_neg (by rw [hw]; decide), if_pos hv], by simp,
    fun j hj => ?_⟩
  rw [msbBit_map_range _ (by omega), BitVec.getLsbD_and, BitVec.getLsbD_or, getLsbD_getD_high]
  rfl

/-- An operand is merged into another. -/
theorem mossBitmapMerge_operands {v w : Bytes} (hv : v.length = 1024) (hw : w.length = 1024) :
    ∃ u, mossBitmapMerge v w = .ok u ∧ u.length = 1024 ∧
      (∀ j < 4096, msbBit u j = ((msbBit v j || msbBit w j) &&
        (msbBit v (4096 + j) && msbBit w (4096 + j)))) ∧
      ∀ j < 4096, msbBit u (4096 + j) = ((msbBit v j || msbBit w j) ||
        (msbBit v (4096 + j) && msbBit w (4096 + j))) := by
  refine ⟨_, by rw [mossBitmapMerge, if_neg (by rw [hw]; decide), if_neg (by rw [hv]; decide),
    if_pos hv], by simp, fun j hj => ?_, fun j hj => ?_⟩
  · rw [msbBit_append_left (by simp; omega), msbBit_map_range _ (by omega), BitVec.getLsbD_and,
      BitVec.getLsbD_and, BitVec.getLsbD_or, getLsbD_getD_high, getLsbD_getD_high]
    rfl
  · rw [← getLsbD_getD_high, List.getD_append_right _ _ _ _ (by simp), List.length_map,
      List.length_range, Nat.add_sub_cancel, ← msbBit, msbBit_map_range _ (by omega),
      BitVec.getLsbD_or, BitVec.getLsbD_and, BitVec.getLsbD_or, getLsbD_getD_high,
      getLsbD_getD_high]
    rfl

/-! ## Allocation masks -/

/-- An operand that clears no bit. -/
structure IsMask (v : Bytes) : Prop where
  length : v.length = 1024
  high : ∀ j < 4096, msbBit v (4096 + j) = true

/-- A mask merged into a bitmap sets its bits. -/
theorem IsMask.merge_bitmap {v w : Bytes} (hv : v.length = 512) (hw : IsMask w) :
    ∃ u, mossBitmapMerge v w = .ok u ∧ u.length = 512 ∧
      ∀ j < 4096, msbBit u j = (msbBit v j || msbBit w j) := by
  obtain ⟨u, hmerge, hlen, hbits⟩ := mossBitmapMerge_bitmap hv hw.length
  refine ⟨u, hmerge, hlen, fun j hj => ?_⟩
  rw [hbits j hj, hw.high j hj, Bool.and_true]

/-- Two masks merge to one. -/
theorem IsMask.merge {v w : Bytes} (hv : IsMask v) (hw : IsMask w) :
    ∃ u, mossBitmapMerge v w = .ok u ∧ IsMask u ∧
      ∀ j < 4096, msbBit u j = (msbBit v j || msbBit w j) := by
  obtain ⟨u, hmerge, hlen, hlow, hhigh⟩ := mossBitmapMerge_operands hv.length hw.length
  refine ⟨u, hmerge, ⟨hlen, fun j hj => ?_⟩, fun j hj => ?_⟩
  · rw [hhigh j hj, hv.high j hj, hw.high j hj, Bool.and_true, Bool.or_true]
  · rw [hlow j hj, hv.high j hj, hw.high j hj, Bool.and_true, Bool.and_true]

/-- What the operands of a space key are while blocks are only allocated : masks, after a
stored bitmap or after nothing. -/
def IsSpaceSeq (l : List Bytes) : Prop :=
  (∀ v ∈ l.head?, v.length = 512 ∨ IsMask v) ∧ ∀ v ∈ l.tail, IsMask v

theorem IsSpaceSeq.split {l₁ l₂ : List Bytes} (h : IsSpaceSeq (l₁ ++ l₂)) :
    IsSpaceSeq l₁ ∧ IsSpaceSeq l₂ ∧ (l₁ ≠ [] → ∀ v ∈ l₂, IsMask v) :=
  Led.split (fun _ => Or.inr) h

theorem IsSpaceSeq.append_mask {l : List Bytes} (h : IsSpaceSeq l) {v : Bytes} (hv : IsMask v) :
    IsSpaceSeq (l ++ [v]) := by
  cases l with
  | nil => exact ⟨by simp [hv], by simp⟩
  | cons b l =>
    refine ⟨h.1, fun w hw => ?_⟩
    rcases List.mem_append.mp hw with hw | hw
    · exact h.2 w hw
    · rwa [List.mem_singleton.mp hw]

/-- `v` is the bitmap that a sequence of operands stands for. -/
structure IsUnion (l : List Bytes) (v : Bytes) : Prop where
  length : v.length = 512 ∨ IsMask v
  mask : (∀ u ∈ l, IsMask u) → IsMask v
  bits : ∀ j < 4096, msbBit v j = l.any fun u => msbBit u j

theorem IsUnion.merge {key : Bytes} (hk : isSpaceKey key = true) {l₁ l₂ : List Bytes}
    {v₁ v₂ : Bytes}
    (h₁ : IsUnion l₁ v₁) (h₂ : IsUnion l₂ v₂) (hl₂ : ∀ u ∈ l₂, IsMask u) :
    ∃ v, mossMergeValues key v₁ v₂ = .ok v ∧ IsUnion (l₁ ++ l₂) v := by
  have hv₂ := h₂.mask hl₂
  have hmerge : mossMergeValues key v₁ v₂ = mossBitmapMerge v₁ v₂ := by
    rw [mossMergeValues, if_neg (by rw [hv₂.length]; omega), if_pos hk]
  rw [hmerge]
  rcases h₁.length with hlen | hmask
  · obtain ⟨u, hu, hulen, hbits⟩ := IsMask.merge_bitmap hlen hv₂
    refine ⟨u, hu, Or.inl hulen, fun hall => ?_, fun j hj => ?_⟩
    · have := (h₁.mask fun w hw => hall w (List.mem_append_left _ hw)).length
      omega
    · rw [hbits j hj, h₁.bits j hj, h₂.bits j hj, List.any_append]
  · obtain ⟨u, hu, humask, hbits⟩ := hmask.merge hv₂
    refine ⟨u, hu, Or.inr humask, fun _ => humask, fun j hj => ?_⟩
    rw [hbits j hj, h₁.bits j hj, h₂.bits j hj, List.any_append]

/-- Allocation masks act as a union in every bracketing. -/
theorem eval_masks {key : Bytes} (hk : isSpaceKey key = true) (t : Bracketing Bytes)
    (h : IsSpaceSeq t.leaves) :
    ∃ v, t.eval (mossMergeValues key) = .ok v ∧ IsUnion t.leaves v := by
  refine Bracketing.eval_spec (fun l₁ l₂ hg => ⟨hg.split.1, hg.split.2.1⟩) ?_ ?_ t h
  · intro v hg
    exact ⟨hg.1 v rfl, fun hall => hall v (List.mem_singleton_self v), fun j _ => by simp⟩
  · intro l₁ l₂ v₁ v₂ hne _ hg h₁ h₂
    exact h₁.merge hk h₂ (hg.split.2.2 hne)

end Corgi
