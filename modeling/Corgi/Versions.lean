import Mathlib.Data.List.Lex
import Mathlib.Order.WithBot
import Corgi.JSONText

/-!
# The merge of JSON metadata

`mossJSONMerge` keeps one of its two operands. Which one is decided by three members of each
(`MetaFields`) : the sync stamps where the newer one has a stamp that counts, else the version
numbers, with the older one giving way also to a lower version when it marks a deletion
(`mossJSONMerge_eq`).

The merge is not associative (`delete_mark_not_assoc`). `mossJSONMerge_assoc_iff` lists the
kinds of operands it fails for (`Clash`). Without deletions and stamps that count, every
bracketing returns the earliest value of the newest version (`eval_mossJSONMerge`).

A value that is neither operand comes out of the addition of counters alone, which is tried
before the key is looked at (`mossMergeValues_keeps_iff`).
-/

namespace Corgi

/-! ## The members that decide -/

/-- The order of texts : none before any, then byte by byte. -/
def textKey : Option Bytes → WithBot (List ℕ)
  | none => ⊥
  | some v => (v.map BitVec.toNat : List ℕ)

/-- What a merge looks at. A sync stamp with fewer than two hyphens counts as none. -/
structure MetaFields where
  stamp : WithBot (List ℕ)
  version : WithBot (List ℕ)
  deleted : Bool

/-- What the merger compares of a value. A stamp of the old format counts as none. -/
def fieldsOf (v : Bytes) : MetaFields where
  stamp := if 2 ≤ countHyphen ((extractJSONField v syncStampName).getD []) then
    textKey (extractJSONField v syncStampName) else ⊥
  version := textKey (extractJSONField v versionNumName)
  deleted := hasJSONKey v deleteMarkName

namespace MetaFields

/-- The older operand `x` gives way to `y` by versions. -/
def YieldsVersion (x y : MetaFields) : Prop :=
  x.version < y.version ∨ (y.version < x.version ∧ x.deleted = true)

/-- The older operand `x` gives way to `y`. -/
def Yields (x y : MetaFields) : Prop :=
  x.stamp < y.stamp ∨ ((y.stamp = ⊥ ∨ x.stamp = y.stamp) ∧ x.YieldsVersion y)

instance (x y : MetaFields) : Decidable (x.YieldsVersion y) :=
  inferInstanceAs (Decidable (_ ∨ _))

instance (x y : MetaFields) : Decidable (x.Yields y) :=
  inferInstanceAs (Decidable (_ ∨ _))

end MetaFields

theorem compareBytes_pos_iff : ∀ v w : Bytes,
    0 < compareBytes v w ↔ v.map BitVec.toNat < w.map BitVec.toNat
  | [], [] => by simp [compareBytes]
  | [], c :: w => by simp [compareBytes]
  | b :: v, [] => by simp [compareBytes]
  | b :: v, c :: w => by
    rw [compareBytes, List.map_cons, List.map_cons, List.cons_lt_cons_iff,
      ← compareBytes_pos_iff v w]
    split_ifs with h <;> omega

theorem compareBytes_symm : ∀ v w : Bytes, compareBytes v w = -compareBytes w v
  | [], [] => rfl
  | [], _ :: _ => rfl
  | _ :: _, [] => rfl
  | b :: v, c :: w => by
    rw [compareBytes, compareBytes, compareBytes_symm v w]
    split_ifs <;> omega

theorem compareVersion_pos_iff (v w : Option Bytes) :
    0 < compareVersion v w ↔ textKey v < textKey w := by
  cases v <;> cases w
  · simp [compareVersion]
  · simp [compareVersion, textKey]
  · simp [compareVersion, textKey]
  · simp [compareVersion, compareBytes_pos_iff, textKey]

theorem compareVersion_symm : ∀ v w : Option Bytes, compareVersion v w = -compareVersion w v
  | none, none => rfl
  | none, some _ => rfl
  | some _, none => rfl
  | some v, some w => compareBytes_symm v w

theorem compareVersion_neg_iff (v w : Option Bytes) :
    compareVersion v w < 0 ↔ textKey w < textKey v := by
  rw [← compareVersion_pos_iff, compareVersion_symm, neg_lt_zero]

theorem compareVersion_eq_zero_iff (v w : Option Bytes) :
    compareVersion v w = 0 ↔ textKey v = textKey w := by
  have hpos := compareVersion_pos_iff v w
  have hneg := compareVersion_neg_iff v w
  rcases lt_trichotomy (textKey v) (textKey w) with h | h | h
  · have := hpos.mpr h
    exact ⟨fun h0 => by omega, fun heq => absurd heq h.ne⟩
  · simp only [h, lt_irrefl, iff_false] at hpos hneg
    exact ⟨fun _ => h, fun _ => by omega⟩
  · have := hneg.mpr h
    exact ⟨fun h0 => by omega, fun heq => absurd heq h.ne'⟩

theorem mossVersionMerge_eq (existing incoming : Bytes) :
    mossVersionMerge existing incoming =
      if (fieldsOf existing).YieldsVersion (fieldsOf incoming) then incoming else existing := by
  have hpos := compareVersion_pos_iff (extractJSONField existing versionNumName)
    (extractJSONField incoming versionNumName)
  have hneg := compareVersion_neg_iff (extractJSONField existing versionNumName)
    (extractJSONField incoming versionNumName)
  simp only [mossVersionMerge, MetaFields.YieldsVersion, fieldsOf, ← hpos, ← hneg]
  rcases lt_trichotomy (compareVersion (extractJSONField existing versionNumName)
    (extractJSONField incoming versionNumName)) 0 with h | h | h
  · simp [h, h.ne, h.le.not_gt]
  · simp [h]
  · simp [h, h.ne']

theorem stamp_ne_bot {v : Bytes}
    (h : 2 ≤ countHyphen ((extractJSONField v syncStampName).getD [])) :
    (fieldsOf v).stamp ≠ ⊥ := by
  simp only [fieldsOf, if_pos h]
  cases hv : extractJSONField v syncStampName with
  | none => rw [hv] at h; exact absurd h (by decide)
  | some stamp => exact WithBot.coe_ne_bot

/-- A stamp that counts is compared as a text. -/
theorem compareSyncStamp_of_stamped {existing incoming : Bytes}
    (h : 2 ≤ countHyphen ((extractJSONField incoming syncStampName).getD [])) :
    (0 < compareSyncStamp (extractJSONField existing syncStampName)
        (extractJSONField incoming syncStampName) ↔
      (fieldsOf existing).stamp < (fieldsOf incoming).stamp) ∧
    (compareSyncStamp (extractJSONField existing syncStampName)
        (extractJSONField incoming syncStampName) = 0 ↔
      (fieldsOf existing).stamp = (fieldsOf incoming).stamp) := by
  simp only [fieldsOf, if_pos h]
  cases hnew : extractJSONField incoming syncStampName with
  | none => rw [hnew] at h; exact absurd h (by decide)
  | some new =>
    cases extractJSONField existing syncStampName with
    | none => simp [compareSyncStamp, countHyphen, textKey]
    | some old =>
      by_cases hold : countHyphen old < 2
      · simp [compareSyncStamp, hold, not_le.mpr hold, textKey]
      · simp only [compareSyncStamp, hold, if_false, Option.getD_some, not_lt.mp hold, if_true]
        exact ⟨compareVersion_pos_iff _ _, compareVersion_eq_zero_iff _ _⟩

/-- The merge keeps the older operand unless its members give way. -/
theorem mossJSONMerge_eq (existing incoming : Bytes) :
    mossJSONMerge existing incoming =
      if (fieldsOf existing).Yields (fieldsOf incoming) then incoming else existing := by
  simp only [mossJSONMerge, mossVersionMerge_eq, MetaFields.Yields]
  by_cases h : 2 ≤ countHyphen ((extractJSONField incoming syncStampName).getD [])
  · obtain ⟨hpos, hzero⟩ := @compareSyncStamp_of_stamped existing incoming h
    simp only [h, stamp_ne_bot h, true_and, false_or, Ne, hzero, hpos]
    by_cases heq : (fieldsOf existing).stamp = (fieldsOf incoming).stamp <;> simp [heq]
  · have hbot : (fieldsOf incoming).stamp = ⊥ := by simp only [fieldsOf, if_neg h]
    simp [h, hbot]

/-! ## When the merge is associative -/

/-- The kinds of three operands for which the order of merges decided by versions matters :
a deletion beside two operands of one version, a deletion in the middle that is the highest
version, and a deletion whose version the middle operand repeats without the mark. -/
def VersionClash (a b c : MetaFields) : Prop :=
  (a.version = c.version ∧ ((a.version < b.version ∧ b.deleted = true) ∨
    (b.version < a.version ∧ a.deleted = true))) ∨
  (c.version < a.version ∧ a.version < b.version ∧ b.deleted = true ∧ a.deleted = false) ∨
  (c.version < a.version ∧ a.version = b.version ∧ a.deleted = true ∧ b.deleted = false)

/-- The kinds of three operands for which the order of merges matters. -/
@[mk_iff clash_def] inductive Clash (a b c : MetaFields) : Prop
  /-- Versions decide between any two. -/
  | versions (hab : b.stamp = ⊥ ∨ a.stamp = b.stamp)
      (hc : c.stamp = ⊥ ∨ (a.stamp = c.stamp ∧ b.stamp = c.stamp)) (h : VersionClash a b c)
  /-- An operand without a stamp takes the place of `a`, and `c` would not. -/
  | unstampedBetween (hb : b.stamp = ⊥) (hc : c.stamp ≠ ⊥) (hab : a.YieldsVersion b)
      (hac : c.stamp < a.stamp ∨ (a.stamp = c.stamp ∧ ¬a.YieldsVersion c))
  /-- A higher stamp takes the place of `a` and gives way to `c`, and `a` would not. -/
  | higherStamp (hc : c.stamp = ⊥) (hab : a.stamp < b.stamp) (hbc : b.YieldsVersion c)
      (hac : ¬a.YieldsVersion c)
  /-- A lower stamp does not give way to `c`, and `a` would. -/
  | lowerStamp (hc : c.stamp = ⊥) (hb : b.stamp ≠ ⊥) (hab : b.stamp < a.stamp)
      (hbc : ¬b.YieldsVersion c) (hac : a.YieldsVersion c)

/-- An operation that keeps one of its operands is associative at three of them exactly
when taking over and not taking over pass from neighbours to the outer two. -/
theorem choice_assoc_iff {α : Type*} {op : α → α → α} {r : α → α → Prop} [DecidableRel r]
    (hop : ∀ x y, op x y = if r x y then y else x) (a b c : α) :
    op (op a b) c = op a (op b c) ↔
      a = c ∨ ¬((r a b ∧ r b c ∧ ¬r a c) ∨ (¬r a b ∧ ¬r b c ∧ r a c)) := by
  by_cases hab : r a b <;> by_cases hbc : r b c <;> by_cases hac : r a c <;>
    simp [hop, hab, hbc, hac, eq_comm]

theorem versionClash_iff {a b c : MetaFields} :
    (a.YieldsVersion b ∧ b.YieldsVersion c ∧ ¬a.YieldsVersion c) ∨
      (¬a.YieldsVersion b ∧ ¬b.YieldsVersion c ∧ a.YieldsVersion c) ↔ VersionClash a b c := by
  unfold MetaFields.YieldsVersion VersionClash
  rcases lt_trichotomy a.version b.version with hab | hab | hab <;>
    rcases lt_trichotomy a.version c.version with hac | hac | hac <;> grind

theorem clash_iff {a b c : MetaFields} :
    (a.Yields b ∧ b.Yields c ∧ ¬a.Yields c) ∨ (¬a.Yields b ∧ ¬b.Yields c ∧ a.Yields c) ↔
      Clash a b c := by
  have hbot : ∀ x : MetaFields, ¬x.stamp < ⊥ := fun x => not_lt_bot
  rw [clash_def, ← versionClash_iff]
  unfold MetaFields.Yields
  rcases lt_trichotomy a.stamp b.stamp with hab | hab | hab <;>
    rcases lt_trichotomy b.stamp c.stamp with hbc | hbc | hbc <;> grind

/-- The order of merges does not matter for other kinds of operands. -/
theorem mossJSONMerge_assoc_iff (a b c : Bytes) :
    mossJSONMerge (mossJSONMerge a b) c = mossJSONMerge a (mossJSONMerge b c) ↔
      a = c ∨ ¬Clash (fieldsOf a) (fieldsOf b) (fieldsOf c) := by
  rw [← clash_iff]
  exact choice_assoc_iff mossJSONMerge_eq a b c

/-! ## A deletion in the middle -/

/-- Metadata with a version number, and the members `rest` after it. -/
def versioned (n : Char) (rest : Bytes) : Bytes :=
  123#8 :: versionNumName ++ ascii ['"', n, '"'] ++ rest ++ [125#8]

/-- The member that marks a deletion. -/
def deleted : Bytes :=
  44#8 :: deleteMarkName ++ ascii ['"', '1', '"']

/-- Version 2, a deletion as version 3, and version 1. From the left the deletion takes the
place of version 2 and then gives way to version 1. From the right it gives way first, and
version 2 stays. -/
theorem delete_mark_not_assoc :
    mossJSONMerge (mossJSONMerge (versioned '2' []) (versioned '3' deleted)) (versioned '1' []) ≠
      mossJSONMerge (versioned '2' [])
        (mossJSONMerge (versioned '3' deleted) (versioned '1' [])) := by
  decide +kernel

/-! ## The newest version -/

theorem textKey_injective : Function.Injective textKey := by
  have hbytes : Function.Injective (List.map (BitVec.toNat : Byte → ℕ)) :=
    List.map_injective_iff.mpr fun b c h => BitVec.eq_of_toNat_eq h
  intro v w h
  cases v with
  | none =>
    cases w with
    | none => rfl
    | some w => exact absurd h.symm WithBot.coe_ne_bot
  | some v =>
    cases w with
    | none => exact absurd h WithBot.coe_ne_bot
    | some w => rw [hbytes (WithBot.coe_injective h)]

/-- A value that no stamp and no deletion decides about. -/
structure IsVersioned (v : Bytes) : Prop where
  deleteMark : hasJSONKey v deleteMarkName = false
  syncStamp : ∀ stamp ∈ extractJSONField v syncStampName, countHyphen stamp < 2

theorem IsVersioned.stamp_eq_bot {v : Bytes} (h : IsVersioned v) : (fieldsOf v).stamp = ⊥ := by
  refine if_neg (not_le.mpr ?_)
  cases hv : extractJSONField v syncStampName with
  | none => decide
  | some stamp => exact h.syncStamp stamp hv

/-- Between such values the version numbers decide. -/
theorem IsVersioned.merge {v w : Bytes} (hv : IsVersioned v) (hw : IsVersioned w) :
    mossJSONMerge v w = if (fieldsOf v).version < (fieldsOf w).version then w else v := by
  rw [mossJSONMerge_eq]
  refine if_congr ?_ rfl rfl
  have hdeleted : (fieldsOf v).deleted = false := hv.deleteMark
  simp [MetaFields.Yields, MetaFields.YieldsVersion, hv.stamp_eq_bot, hw.stamp_eq_bot, hdeleted]

theorem eval_isVersioned (t : Bracketing Bytes) (h : ∀ v ∈ t.leaves, IsVersioned v) :
    ∃ v, t.eval (fun x y => (.ok (mossJSONMerge x y) : Except MergeError Bytes)) = .ok v ∧
      EarliestMax (fun v => (fieldsOf v).version) t.leaves v := by
  refine Bracketing.eval_earliestMax (fun v w hv hw => ?_) t h
  rw [hv.merge hw]
  split_ifs with hlt
  · exact Or.inr ⟨hlt, rfl⟩
  · exact Or.inl ⟨not_lt.mp hlt, rfl⟩

/-- Every bracketing of merges returns the earliest value of the newest version, versions
being compared as texts : none first, then byte by byte. -/
theorem eval_mossJSONMerge (t : Bracketing Bytes)
    (hmark : ∀ v ∈ t.leaves, hasJSONKey v deleteMarkName = false)
    (hstamp : ∀ v ∈ t.leaves, ∀ stamp ∈ extractJSONField v syncStampName, countHyphen stamp < 2) :
    (∃ before v after, t.leaves = before ++ v :: after ∧
      t.eval (fun x y => (.ok (mossJSONMerge x y) : Except MergeError Bytes)) = .ok v ∧
      (∀ w ∈ before, 0 < compareVersion (extractJSONField w versionNumName)
        (extractJSONField v versionNumName)) ∧
      ∀ w ∈ after, 0 ≤ compareVersion (extractJSONField w versionNumName)
        (extractJSONField v versionNumName)) ∧
    (∀ x y, 0 ≤ compareVersion x y ↔ textKey x ≤ textKey y) ∧
    ∀ x y, compareVersion x y = 0 ↔ x = y := by
  have hle : ∀ x y, 0 ≤ compareVersion x y ↔ textKey x ≤ textKey y := by
    intro x y
    rw [← not_lt, compareVersion_neg_iff, not_lt]
  refine ⟨?_, hle, fun x y => ?_⟩
  · obtain ⟨v, heval, before, after, hleaves, hbefore, hafter⟩ :=
      eval_isVersioned t fun v hv => ⟨hmark v hv, hstamp v hv⟩
    refine ⟨before, v, after, hleaves, heval, fun w hw => ?_, fun w hw => ?_⟩
    · exact (compareVersion_pos_iff _ _).mpr (hbefore w hw)
    · exact (hle _ _).mpr (hafter w hw)
  · rw [compareVersion_eq_zero_iff, textKey_injective.eq_iff]

/-- Version 1, and then two of version 2. -/
def threeVersions : Bracketing Bytes :=
  .node (.leaf (versioned '1' [])) (.node (.leaf (versioned '2' [])) (.leaf (versioned '2' [32#8])))

theorem threeVersions_newest : ∃ v ∈ threeVersions.leaves,
    threeVersions.eval (fun x y => (.ok (mossJSONMerge x y) : Except MergeError Bytes)) = .ok v ∧
      ∀ w ∈ threeVersions.leaves, 0 ≤ compareVersion (extractJSONField w versionNumName)
        (extractJSONField v versionNumName) := by
  obtain ⟨⟨before, v, after, hleaves, heval, hbefore, hafter⟩, -, hzero⟩ :=
    eval_mossJSONMerge threeVersions (by decide +kernel) (by decide +kernel)
  refine ⟨v, hleaves ▸ List.mem_append_right _ List.mem_cons_self, heval, fun w hw => ?_⟩
  rw [hleaves] at hw
  rcases List.mem_append.mp hw with hw | hw
  · exact (hbefore w hw).le
  · rcases List.mem_cons.mp hw with rfl | hw
    · exact ((hzero _ _).mpr rfl).ge
    · exact hafter w hw

/-- An object with a version number and neither a stamp nor a deletion. -/
structure JSONObject.HasVersion (o : JSONObject) (s : PlainText) : Prop where
  version : ⟨FieldName.versionNum.key, .string s⟩ ∈ o.members
  plain : s.1 ≠ [] ∧ 44#8 ∉ s.1 ∧ 125#8 ∉ s.1
  deleteMark : ∀ m ∈ o.members, m.key ≠ FieldName.deleteMark.key
  syncStamp : ∀ m ∈ o.members, m.key ≠ FieldName.syncStamp.key

theorem JSONObject.HasVersion.isVersioned {o : JSONObject} {s : PlainText}
    (h : o.HasVersion s) : IsVersioned o.text := by
  constructor
  · rw [Bool.eq_false_iff]
    intro hmark
    obtain ⟨m, hm, hkey⟩ := (hasJSONKey_object_iff .deleteMark).mp hmark
    exact h.deleteMark m hm hkey
  · have hnone : extractJSONField o.text syncStampName = none :=
      extractJSONField_not_string .syncStamp fun stamp hmem => h.syncStamp _ hmem rfl
    rw [hnone]
    simp

/-- Of two such objects the newer version is kept, and the older value if both are of one. -/
theorem mossJSONMerge_objects {o₁ o₂ : JSONObject} {s₁ s₂ : PlainText} (h₁ : o₁.HasVersion s₁)
    (h₂ : o₂.HasVersion s₂) :
    mossJSONMerge o₁.text o₂.text =
      if textKey (some s₁.1) < textKey (some s₂.1) then o₂.text else o₁.text := by
  have hversion : ∀ {o : JSONObject} {s : PlainText}, o.HasVersion s →
      (fieldsOf o.text).version = textKey (some s.1) := by
    intro o s h
    obtain ⟨hne, hcomma, hbrace⟩ := h.plain
    exact congrArg textKey (extractJSONField_string .versionNum h.version hne hcomma hbrace)
  rw [h₁.isVersioned.merge h₂.isVersioned, hversion h₁, hversion h₂]

/-! ## Values that are made up -/

/-- The sum of two counters is one of them only if the other is zero. -/
theorem leBytes_add_eq_left_iff {v w : Bytes} (hv : v.length = 8) (hw : w.length = 8) :
    leBytes 8 (leNat v + leNat w) = v ↔ w = List.replicate 8 0#8 := by
  have hvlt := leNat_lt v
  have hwlt := leNat_lt w
  have hvlow := leBytes_leNat v
  have hwlow := leBytes_leNat w
  rw [hv] at hvlt hvlow
  rw [hw] at hwlt hwlow
  constructor
  · intro h
    have hsum := leNat_leBytes 8 (leNat v + leNat w)
    rw [h] at hsum
    have hzero : leNat w = 0 := by omega
    rw [← hwlow, hzero]
    rfl
  · rintro rfl
    rw [show leNat (List.replicate 8 0#8) = 0 by decide, Nat.add_zero, hvlow]

theorem not_isSpaceKey_of_isJSONKey {key : Bytes} (hk : isJSONKey key = true) :
    isSpaceKey key = false := by
  cases key with
  | nil => rfl
  | cons c key =>
    have hc : c ≠ 46#8 := by
      rintro rfl
      simp [isJSONKey] at hk
    simp [isSpaceKey, ascii, hc]

/-- The merge of metadata returns one of its operands unless both have 8 bytes : these are
added as counters, whatever the key, so that one of them is returned only beside a zero. -/
theorem mossMergeValues_keeps_iff {key : Bytes} (hk : isJSONKey key = true)
    (existing incoming : Bytes) :
    (∃ v, mossMergeValues key existing incoming = .ok v ∧ (v = existing ∨ v = incoming)) ↔
      ¬(existing.length = 8 ∧ incoming.length = 8) ∨ existing = List.replicate 8 0#8 ∨
        incoming = List.replicate 8 0#8 := by
  by_cases hlen : existing.length = 8 ∧ incoming.length = 8
  · obtain ⟨he, hi⟩ := hlen
    have hright : leBytes 8 (leNat existing + leNat incoming) = incoming ↔
        existing = List.replicate 8 0#8 := by
      rw [Nat.add_comm]
      exact leBytes_add_eq_left_iff hi he
    rw [mossMergeValues, if_pos ⟨he, hi⟩]
    simp [he, hi, leBytes_add_eq_left_iff he hi, hright, or_comm]
  · rw [mossMergeValues, if_neg hlen, not_isSpaceKey_of_isJSONKey hk, if_neg Bool.false_ne_true,
      if_pos hk, mossJSONMerge_eq]
    refine iff_of_true ⟨_, rfl, ?_⟩ (Or.inl hlen)
    split_ifs
    · exact Or.inr rfl
    · exact Or.inl rfl

theorem mossMergeValues_keeps_versioned : ∃ v,
    mossMergeValues (ascii ['*', 'a']) (versioned '1' []) (versioned '2' []) = .ok v ∧
      (v = versioned '1' [] ∨ v = versioned '2' []) :=
  (mossMergeValues_keeps_iff (by decide) _ _).mpr (Or.inl (by decide))

/-- The metadata `{"a":12}` and `{"b":34}` are added up. -/
theorem short_metadata_added :
    ¬∃ v, mossMergeValues (ascii ['*', 'a']) (ascii ['{', '"', 'a', '"', ':', '1', '2', '}'])
        (ascii ['{', '"', 'b', '"', ':', '3', '4', '}']) = .ok v ∧
      (v = ascii ['{', '"', 'a', '"', ':', '1', '2', '}'] ∨
        v = ascii ['{', '"', 'b', '"', ':', '3', '4', '}']) := by
  rintro ⟨v, hmerge, hv⟩
  obtain rfl := Except.ok.inj hmerge
  exact absurd hv (by decide +kernel)

end Corgi
