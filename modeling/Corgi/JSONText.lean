import Corgi.Matching
import Corgi.Merger

/-!
# Members of compact JSON

`extractJSONField` and `hasJSONKey` look for a quoted key and its colon with a loop that
does not go back (`search`), and take the value to end at the next comma or brace.

In a flat compact object the loop finds the key of a member and nothing else : a comma or
brace ends every attempt before the next key, and no other string is followed by a colon
(`extractJSONField_object`). In other texts it may miss a key, if an attempt at it is under
way where the key begins (`hasJSONKey_eq_substring_iff`).
-/

namespace Corgi

/-! ## The loop -/

/-- A key in quotes, and its colon. -/
def keyName (word : Bytes) : Bytes :=
  34#8 :: (word ++ [34#8, 58#8])

/-- The loop returns the index before what follows the match. -/
theorem scanName_eq (name : Bytes) : ∀ (data : Bytes) {matched : ℕ} (i : ℕ),
    matched < name.length → scanName name data matched i =
      (search name data matched).map fun rest => i + (data.length - rest.length) - 1
  | [], _, _, _ => rfl
  | d :: data, matched, i, hlt => by
    have hget : name[matched]? = some d ↔ d = name.getD matched 0#8 := by
      rw [List.getD_eq_getElem _ _ hlt, List.getElem?_eq_getElem hlt, Option.some_inj, eq_comm]
    have hshift : ∀ m,
        (search name data m).map (fun rest => i + 1 + (data.length - rest.length) - 1) =
        (search name data m).map fun rest => i + ((d :: data).length - rest.length) - 1 := by
      intro m
      cases hsearch : search name data m with
      | none => rfl
      | some rest =>
        have hle : rest.length ≤ data.length := length_le_of_search hsearch
        rw [Option.map_some, Option.map_some, List.length_cons]
        congr 1
        omega
    rw [scanName, search]
    simp only [hget]
    split_ifs with hd hlast
    · rw [Option.map_some, List.length_cons]
      congr 1
      omega
    · rw [scanName_eq name data (i + 1) (by omega), hshift]
    · rw [scanName_eq name data (i + 1) (by omega), hshift]

theorem scanName_of_search {name data rest : Bytes} (hname : name ≠ [])
    (h : search name data 0 = some rest) :
    scanName name data 0 0 = some (data.length - rest.length - 1) := by
  rw [scanName_eq name data 0 (List.length_pos_iff.mpr hname), h, Option.map_some, Nat.zero_add]

/-! ## Strings in quotes -/

section Quoted

variable {word s done left : Bytes} {c : Byte}

theorem keyName_ne_nil (word : Bytes) : keyName word ≠ [] :=
  List.cons_ne_nil _ _

theorem take_keyName (h : word = done ++ left) :
    (keyName word).take (done.length + 1) = 34#8 :: done := by
  rw [keyName, h, List.take_succ_cons, List.append_assoc, List.take_left]

theorem getElem?_keyName (h : word = done ++ left) :
    (keyName word)[done.length + 1]? = (left ++ [34#8, 58#8])[0]? := by
  rw [keyName, h, List.getElem?_cons_succ, List.append_assoc,
    List.getElem?_append_right (Nat.le_refl _), Nat.sub_self]

/-- Text without quotes. -/
theorem failedAttempts_plain (hs : 34#8 ∉ s) : FailedAttempts (keyName word) s := by
  refine .of_forall_ne (keyName_ne_nil word) fun d hd heq => hs ?_
  rw [Option.some.inj heq]
  exact hd

/-- The attempt at the key breaks off at `d`. -/
theorem failedAttempts_break {d : Byte} {u : Bytes} (h : word = done ++ left)
    (hd : (left ++ [34#8, 58#8])[0]? ≠ some d) (hu : FailedAttempts (keyName word) u) :
    FailedAttempts (keyName word) (34#8 :: done ++ d :: u) := by
  rw [← getElem?_keyName h] at hd
  rw [← take_keyName h]
  exact .attempt (by rw [h]; simp [keyName]) hd hu

/-- The end of a string, and a byte that does not begin the key. -/
theorem failedAttempts_close (hs : 34#8 ∉ s) (hc : c ≠ 34#8) (hhead : word.head? ≠ some c) :
    FailedAttempts (keyName word) (s ++ [34#8, c]) := by
  refine (failedAttempts_plain hs).append (failedAttempts_break (List.nil_append word).symm ?_ .nil)
  cases word with
  | nil => exact fun heq => hc (Option.some.inj heq).symm
  | cons d word => exact hhead

/-- A string from the place on where the attempt at the key stands. The induction is on
what is left of the string, `left` being what is left of the key. -/
theorem failedAttempts_string (hword : 34#8 ∉ word) (hc : c ≠ 34#8)
    (hhead : word.head? ≠ some c) : ∀ {s done left : Bytes}, word = done ++ left → 34#8 ∉ s →
    (s ≠ left ∨ c ≠ 58#8) → FailedAttempts (keyName word) (34#8 :: done ++ (s ++ [34#8, c]))
  | [], done, [], h, _, hne => by
    have hcolon := hne.resolve_left (not_not.mpr rfl)
    rw [List.append_nil] at h
    subst h
    have htake : (keyName word).take (word.length + 2) = 34#8 :: word ++ [34#8] := by
      rw [keyName, List.take_succ_cons, List.take_append, List.take_of_length_le (by omega)]
      simp
    have hnext : (keyName word)[word.length + 2]? ≠ some c := by
      rw [keyName, List.getElem?_cons_succ, List.getElem?_append_right (by omega)]
      simpa using hcolon.symm
    have hfail := FailedAttempts.attempt (show word.length + 2 < (keyName word).length by
      simp [keyName]) hnext .nil
    rwa [htake, List.append_assoc] at hfail
  | [], done, d :: left, h, _, _ => by
    have hd : d ≠ 34#8 := by
      rintro rfl
      exact hword (h ▸ by simp)
    refine failedAttempts_break h (fun heq => hd (Option.some.inj heq)) ?_
    exact failedAttempts_plain (by simpa using hc.symm)
  | d :: s, done, [], h, hs, _ => by
    rw [List.mem_cons, not_or] at hs
    refine failedAttempts_break h (fun heq => hs.1 (Option.some.inj heq)) ?_
    exact failedAttempts_close hs.2 hc hhead
  | d :: s, done, e :: left, h, hs, hne => by
    rw [List.mem_cons, not_or] at hs
    by_cases hde : d = e
    · subst hde
      have hrest := @failedAttempts_string hword hc hhead s (done ++ [d]) left
        (by rw [h, List.append_assoc]; rfl) hs.2 (hne.imp_left fun hsl heq => hsl (by rw [heq]))
      simpa using hrest
    · refine failedAttempts_break h (fun heq => hde (Option.some.inj heq).symm) ?_
      exact failedAttempts_close hs.2 hc hhead

/-- A string in quotes that is another one than the key or is not followed by a colon. -/
theorem failedAttempts_quoted (hword : 34#8 ∉ word) (hc : c ≠ 34#8)
    (hhead : word.head? ≠ some c) (hs : 34#8 ∉ s) (hne : s ≠ word ∨ c ≠ 58#8) :
    FailedAttempts (keyName word) (34#8 :: (s ++ [34#8, c])) :=
  failedAttempts_string hword hc hhead (List.nil_append word).symm hs hne

end Quoted

/-! ## The value -/

section Value

variable {data before body more : Bytes} {d : Byte}

/-- The first comma or brace from the colon on. -/
theorem find_delimiter (hd : d = 44#8 ∨ d = 125#8) (hcomma : 44#8 ∉ body) (hbrace : 125#8 ∉ body)
    (hdata : data = before ++ 58#8 :: body ++ d :: more) :
    (List.range' before.length (data.length - before.length)).find? (fun i =>
      data.getD i 0#8 = 44#8 ∨ data.getD i 0#8 = 125#8) =
        some (before.length + (body.length + 1)) := by
  have hlen : (before ++ 58#8 :: body).length = before.length + (body.length + 1) := by
    rw [List.length_append, List.length_cons]
  refine List.find?_range'_eq_some.mpr ⟨?_, ?_, fun j hj1 hj2 => ?_⟩
  · have hstop : data.getD (before.length + (body.length + 1)) 0#8 = d := by
      rw [hdata, ← hlen, List.getD_append_right _ _ _ _ (Nat.le_refl _), Nat.sub_self]
      rfl
    rw [hstop]
    exact decide_eq_true hd
  · rw [List.mem_range'_1, hdata, List.length_append, hlen, List.length_cons]
    omega
  · -- Up to the delimiter there are the colon and the value.
    have hmem : data.getD j 0#8 ∈ 58#8 :: body := by
      have hlt : j - before.length < (58#8 :: body).length := by
        rw [List.length_cons]
        omega
      rw [hdata, List.getD_append _ _ _ _ (by omega), List.getD_append_right _ _ _ _ hj1,
        List.getD_eq_getElem _ _ hlt]
      exact List.getElem_mem hlt
    rw [Bool.not_eq_true', decide_eq_false_iff_not, not_or]
    rcases List.mem_cons.mp hmem with hcolon | hmem
    · rw [hcolon]
      exact ⟨by decide, by decide⟩
    · exact ⟨fun heq => hcomma (heq ▸ hmem), fun heq => hbrace (heq ▸ hmem)⟩

/-- The byte before the delimiter is the last one of the value. -/
theorem getD_before_delimiter (hdata : data = before ++ 58#8 :: body ++ d :: more)
    (hpos : 0 < body.length) (c : Byte) :
    data.getD (before.length + (body.length + 1) - 1) 0#8 = c ↔ body.getLast? = some c := by
  have hlt : body.length - 1 < body.length := by omega
  have hindex : before.length + (body.length + 1) - 1 - before.length = body.length - 1 + 1 := by
    omega
  rw [hdata, List.append_assoc, List.getD_append_right _ _ _ _ (by omega), hindex,
    List.cons_append, List.getD_cons_succ, List.getD_append _ _ _ _ hlt,
    List.getD_eq_getElem _ _ hlt, List.getLast?_eq_getElem?, List.getElem?_eq_getElem hlt,
    Option.some_inj]

/-- What is returned is the value without its first and last byte. -/
theorem take_drop_value (hdata : data = before ++ 58#8 :: body ++ d :: more)
    (hlong : 2 < body.length) :
    (data.drop (before.length + 2)).take
      (before.length + (body.length + 1) - 1 - (before.length + 2)) =
        (body.drop 1).dropLast := by
  have hindex : before.length + 2 - before.length = 2 := by omega
  rw [hdata, List.append_assoc, List.drop_append, List.drop_of_length_le (by omega), hindex,
    List.nil_append, List.cons_append, List.drop_succ_cons,
    List.drop_append_of_le_length (by omega), List.dropLast_eq_take, List.length_drop,
    List.take_append_of_le_length (by rw [List.length_drop]; omega)]
  congr 1
  omega

/-- The value ends at the first comma or brace, and is taken if a quote is before that. -/
theorem extractJSONField_of_search {word : Bytes}
    (h : search (keyName word) data 0 = some (body ++ d :: more)) (hd : d = 44#8 ∨ d = 125#8)
    (hcomma : 44#8 ∉ body) (hbrace : 125#8 ∉ body) :
    extractJSONField data (keyName word) =
      if body.length ≤ 2 ∨ body.getLast? ≠ some 34#8 then none
      else some (body.drop 1).dropLast := by
  have hscan := scanName_of_search (keyName_ne_nil word) h
  obtain ⟨u, -, hsplit⟩ := (search_eq_some_iff (keyName_ne_nil word)).mp h
  obtain ⟨before, hdata⟩ : ∃ before, data = before ++ 58#8 :: body ++ d :: more :=
    ⟨u ++ 34#8 :: (word ++ [34#8]), by rw [hsplit, keyName]; simp⟩
  have hstart : data.length - (body ++ d :: more).length - 1 = before.length := by
    rw [hdata]
    simp only [List.length_append, List.length_cons]
    omega
  rw [extractJSONField, hscan, hstart]
  simp only [find_delimiter hd hcomma hbrace hdata]
  rcases Nat.lt_or_ge 2 body.length with hlong | hshort
  · have hlast := getD_before_delimiter hdata (by omega) 34#8
    rw [take_drop_value hdata hlong]
    refine if_congr ?_ rfl rfl
    constructor
    · rintro (h | h | h)
      · omega
      · exact Or.inr (mt hlast.mpr h)
      · omega
    · rintro (h | h)
      · omega
      · exact Or.inr (Or.inl (mt hlast.mp h))
  · rw [if_pos (by omega), if_pos (Or.inl hshort)]

end Value

/-! ## Flat objects -/

/-- Text without a quote or a backslash, which stands in quotes as it is. -/
abbrev PlainText :=
  {s : Bytes // 34#8 ∉ s ∧ 92#8 ∉ s}

/-- The bytes a number is written with. -/
def numberBytes : Bytes :=
  ascii ['+', '-', '.', '0', '1', '2', '3', '4', '5', '6', '7', '8', '9', 'E', 'e']

/-- The text of a number. -/
abbrev NumberText :=
  {s : Bytes // s ≠ [] ∧ ∀ b ∈ s, b ∈ numberBytes}

/-- The values of an object that has no objects or arrays inside. -/
inductive JSONValue
  | string (s : PlainText)
  | number (s : NumberText)
  | bool (b : Bool)
  | null
  deriving DecidableEq

/-- The value as it is written. -/
def JSONValue.text : JSONValue → Bytes
  | string s => 34#8 :: (s.1 ++ [34#8])
  | number s => s.1
  | bool true => ascii ['t', 'r', 'u', 'e']
  | bool false => ascii ['f', 'a', 'l', 's', 'e']
  | null => ascii ['n', 'u', 'l', 'l']

/-- A key and its value. -/
structure JSONMember where
  key : PlainText
  value : JSONValue
  deriving DecidableEq

/-- The member as it is written. -/
def JSONMember.text (m : JSONMember) : Bytes :=
  keyName m.key.1 ++ m.value.text

/-- An object without nested ones. -/
structure JSONObject where
  members : List JSONMember
  nodup : (members.map JSONMember.key).Nodup

/-- The members between braces, with commas and no spaces. -/
def JSONObject.text (o : JSONObject) : Bytes :=
  123#8 :: ([44#8].intercalate (o.members.map JSONMember.text) ++ [125#8])

/-- The members that `mossJSONMerge` looks for. -/
inductive FieldName
  | syncStamp
  | versionNum
  | deleteMark
  deriving DecidableEq

/-- The key of the field. -/
def FieldName.key : FieldName → PlainText
  | syncStamp => ⟨ascii ['s', 'y', 'n', 'c', 'S', 't', 'a', 'm', 'p'], by decide⟩
  | versionNum => ⟨ascii ['v', 'e', 'r', 's', 'i', 'o', 'n', 'N', 'u', 'm'], by decide⟩
  | deleteMark => ⟨ascii ['d', 'e', 'l', 'e', 't', 'e', 'M', 'a', 'r', 'k'], by decide⟩

/-- The text that the code searches for. -/
def FieldName.name : FieldName → Bytes
  | syncStamp => syncStampName
  | versionNum => versionNumName
  | deleteMark => deleteMarkName

theorem FieldName.name_eq (field : FieldName) : field.name = keyName field.key.1 := by
  cases field <;> rfl

theorem FieldName.name_ne_nil (field : FieldName) : field.name ≠ [] := by
  rw [field.name_eq]
  exact keyName_ne_nil _

/-- A key begins with none of the bytes that follow a string. -/
theorem FieldName.head_ne (field : FieldName) {c : Byte} (hc : c = 58#8 ∨ c = 44#8 ∨ c = 125#8) :
    field.key.1.head? ≠ some c := by
  rcases hc with rfl | rfl | rfl <;> cases field <;> decide

section Object

variable {m : JSONMember} {o : JSONObject} {d : Byte}

theorem intercalate_append_cons {α : Type*} (sep l : List α) (ls₁ ls₂ : List (List α)) :
    sep.intercalate (ls₁ ++ l :: ls₂) =
      ls₁.flatMap (· ++ sep) ++ sep.intercalate (l :: ls₂) := by
  induction ls₁ with
  | nil => rfl
  | cons l' ls₁ ih =>
    rw [List.cons_append, List.intercalate_cons_of_ne_nil (by simp), ih, List.flatMap_cons,
      List.append_assoc (l' ++ sep)]

/-- The brace and the members before one, with their commas. -/
def membersBefore (before : List JSONMember) : Bytes :=
  123#8 :: before.flatMap fun m => m.text ++ [44#8]

/-- The text around a member, which a comma or brace ends. -/
theorem JSONObject.exists_text {before after : List JSONMember}
    (h : o.members = before ++ m :: after) :
    ∃ d more, (d = 44#8 ∨ d = 125#8) ∧ (after = [] → d = 125#8 ∧ more = []) ∧
      o.text = membersBefore before ++ keyName m.key.1 ++ (m.value.text ++ d :: more) := by
  have htext : o.text = membersBefore before ++
      ([44#8].intercalate (m.text :: after.map JSONMember.text) ++ [125#8]) := by
    rw [text, h, List.map_append, List.map_cons, intercalate_append_cons, List.flatMap_map,
      membersBefore, List.append_assoc, List.cons_append]
  cases after with
  | nil =>
    refine ⟨125#8, [], Or.inr rfl, fun _ => ⟨rfl, rfl⟩, ?_⟩
    rw [htext, List.map_nil, List.intercalate_singleton, JSONMember.text, List.append_assoc,
      List.append_assoc]
  | cons m' after =>
    refine ⟨44#8, [44#8].intercalate ((m' :: after).map JSONMember.text) ++ [125#8], Or.inl rfl,
      fun hnil => absurd hnil (List.cons_ne_nil _ _), ?_⟩
    rw [htext, List.map_cons, List.intercalate_cons_cons, JSONMember.text]
    simp only [List.append_assoc, List.cons_append, List.nil_append]

theorem JSONValue.not_mem_text {v : JSONValue} (hv : ∀ s, v ≠ .string s) {c : Byte}
    (hc : c = 34#8 ∨ c = 44#8 ∨ c = 125#8) : c ∉ v.text := by
  have hnumber : c ∉ numberBytes := by
    rcases hc with rfl | rfl | rfl <;> decide
  cases v with
  | string s => exact absurd rfl (hv s)
  | number s => exact fun hmem => hnumber (s.2.2 c hmem)
  | bool b => rcases hc with rfl | rfl | rfl <;> cases b <;> decide
  | null => rcases hc with rfl | rfl | rfl <;> decide

/-- A member with another key, and the delimiter behind it. -/
theorem failedAttempts_member (field : FieldName) (hd : d = 44#8 ∨ d = 125#8)
    (hm : m.key ≠ field.key) :
    FailedAttempts (keyName field.key.1) (m.text ++ [d]) := by
  have hd34 : d ≠ 34#8 := by rcases hd with rfl | rfl <;> decide
  have hd58 : d ≠ 58#8 := by rcases hd with rfl | rfl <;> decide
  have hkey : FailedAttempts (keyName field.key.1) (keyName m.key.1) :=
    failedAttempts_quoted field.key.2.1 (by decide) (field.head_ne (Or.inl rfl)) m.key.2.1
      (Or.inl fun heq => hm (Subtype.ext heq))
  rw [JSONMember.text, List.append_assoc]
  refine hkey.append ?_
  cases hv : m.value with
  | string s =>
    rw [JSONValue.text, List.cons_append, List.append_assoc]
    exact failedAttempts_quoted field.key.2.1 hd34 (field.head_ne (Or.inr hd)) s.2.1 (Or.inr hd58)
  | number | bool | null =>
    refine failedAttempts_plain ?_
    rw [List.mem_append, List.mem_singleton, not_or]
    exact ⟨JSONValue.not_mem_text (by simp) (Or.inl rfl), hd34.symm⟩

theorem failedAttempts_membersBefore (field : FieldName) {before : List JSONMember}
    (h : ∀ m ∈ before, m.key ≠ field.key) :
    FailedAttempts (keyName field.key.1) (membersBefore before) := by
  have hbrace : FailedAttempts (keyName field.key.1) [123#8] := failedAttempts_plain (by decide)
  refine hbrace.append ?_
  induction before with
  | nil => exact .nil
  | cons m before ih =>
    rw [List.forall_mem_cons] at h
    exact (failedAttempts_member field (Or.inl rfl) h.1).append (ih h.2)

theorem JSONObject.key_ne_of_split {before after : List JSONMember}
    (h : o.members = before ++ m :: after) : ∀ m' ∈ before, m'.key ≠ m.key := by
  intro m' hm' heq
  have hnodup := o.nodup
  rw [h, List.map_append, List.map_cons, List.nodup_append] at hnodup
  exact hnodup.2.2 m'.key (List.mem_map_of_mem hm') m.key List.mem_cons_self heq

/-- The member of that key is where the name is found. -/
theorem search_object_of_split (field : FieldName) {before after : List JSONMember}
    (h : o.members = before ++ m :: after) (hm : m.key = field.key) :
    ∃ d more, (d = 44#8 ∨ d = 125#8) ∧
      o.text = membersBefore before ++ field.name ++ (m.value.text ++ d :: more) ∧
      search field.name o.text 0 = some (m.value.text ++ d :: more) := by
  obtain ⟨d, more, hd, -, htext⟩ := o.exists_text h
  rw [hm, ← field.name_eq] at htext
  refine ⟨d, more, hd, htext, ?_⟩
  have hbefore : FailedAttempts field.name (membersBefore before) := by
    rw [field.name_eq]
    exact failedAttempts_membersBefore field fun m' hm' => hm ▸ o.key_ne_of_split h m' hm'
  exact (search_eq_some_iff field.name_ne_nil).mpr ⟨_, hbefore, htext⟩

/-- Without a member of that key the name is not found, whatever the strings contain. -/
theorem search_object_of_absent (field : FieldName) (h : ∀ m ∈ o.members, m.key ≠ field.key) :
    search field.name o.text 0 = none := by
  refine search_of_failedAttempts ?_
  rw [field.name_eq]
  rcases List.eq_nil_or_concat o.members with hnil | ⟨before, m, hsplit⟩
  · rw [JSONObject.text, hnil]
    exact failedAttempts_plain (by decide)
  · rw [List.concat_eq_append] at hsplit
    obtain ⟨d, more, hd, hlast, htext⟩ := o.exists_text hsplit
    obtain ⟨rfl, rfl⟩ := hlast rfl
    rw [hsplit] at h
    have hbefore := failedAttempts_membersBefore field fun m' hm' =>
      h m' (List.mem_append_left _ hm')
    have hm := failedAttempts_member field (Or.inr rfl)
      (h m (List.mem_append_right _ (List.mem_singleton_self m)))
    rw [htext, List.append_assoc, ← List.append_assoc (keyName _), ← JSONMember.text]
    exact hbefore.append hm

/-- The loop stops at the colon of the member. -/
theorem scanName_object_of_split (field : FieldName) {before after : List JSONMember}
    (h : o.members = before ++ m :: after) (hm : m.key = field.key) :
    scanName field.name o.text 0 0 =
      some ((membersBefore before).length + field.name.length - 1) := by
  obtain ⟨d, more, -, htext, hsearch⟩ := search_object_of_split field h hm
  rw [scanName_of_search field.name_ne_nil hsearch, htext, List.length_append, Nat.add_sub_cancel,
    List.length_append]

theorem scanName_object_of_absent (field : FieldName) (h : ∀ m ∈ o.members, m.key ≠ field.key) :
    scanName field.name o.text 0 0 = none := by
  rw [scanName_eq _ _ 0 (List.length_pos_iff.mpr field.name_ne_nil),
    search_object_of_absent field h]
  rfl

/-- A string that is not cut short by a comma or brace is returned without its quotes. -/
theorem extractJSONField_string (field : FieldName) {s : PlainText}
    (h : ⟨field.key, .string s⟩ ∈ o.members) (hne : s.1 ≠ []) (hcomma : 44#8 ∉ s.1)
    (hbrace : 125#8 ∉ s.1) : extractJSONField o.text field.name = some s.1 := by
  obtain ⟨before, after, hsplit⟩ := List.append_of_mem h
  obtain ⟨d, more, hd, -, hsearch⟩ := search_object_of_split field hsplit rfl
  rw [field.name_eq] at hsearch ⊢
  have hlong : 0 < s.1.length := List.length_pos_iff.mpr hne
  rw [extractJSONField_of_search hsearch hd (by simpa [JSONValue.text] using hcomma)
    (by simpa [JSONValue.text] using hbrace), JSONValue.text, if_neg]
  · rw [List.drop_one, List.tail_cons, List.dropLast_concat]
  · rw [not_or, ← List.cons_append, List.getLast?_concat, List.length_append, List.length_cons,
      List.length_singleton]
    exact ⟨by omega, not_not.mpr rfl⟩

/-- No value is taken for a string that is none. -/
theorem extractJSONField_not_string (field : FieldName)
    (h : ∀ s, ⟨field.key, .string s⟩ ∉ o.members) :
    extractJSONField o.text field.name = none := by
  by_cases hkey : ∃ m ∈ o.members, m.key = field.key
  · obtain ⟨m, hmem, hm⟩ := hkey
    obtain ⟨before, after, hsplit⟩ := List.append_of_mem hmem
    obtain ⟨d, more, hd, -, hsearch⟩ := search_object_of_split field hsplit hm
    have hv : ∀ s, m.value ≠ .string s := by
      intro s hs
      refine h s ?_
      rw [← hm, ← hs]
      exact hmem
    have hquote : m.value.text.getLast? ≠ some 34#8 := fun hlast =>
      JSONValue.not_mem_text hv (Or.inl rfl) (List.mem_of_getLast? hlast)
    rw [field.name_eq] at hsearch ⊢
    rw [extractJSONField_of_search hsearch hd (JSONValue.not_mem_text hv (by decide))
      (JSONValue.not_mem_text hv (by decide)), if_pos (Or.inr hquote)]
  · push Not at hkey
    rw [extractJSONField, scanName_object_of_absent field hkey]

/-- The loop stops in a member of that key or not at all. -/
theorem scanName_object_eq_some_iff (field : FieldName) {i : ℕ} :
    scanName field.name o.text 0 0 = some i ↔ ∃ before m after,
      o.members = before ++ m :: after ∧ m.key = field.key ∧
        i + 1 = (membersBefore before).length + field.name.length := by
  have hpos : 0 < field.name.length := List.length_pos_iff.mpr field.name_ne_nil
  constructor
  · intro hscan
    by_cases hkey : ∃ m ∈ o.members, m.key = field.key
    · obtain ⟨m, hmem, hm⟩ := hkey
      obtain ⟨before, after, hsplit⟩ := List.append_of_mem hmem
      rw [scanName_object_of_split field hsplit hm, Option.some_inj] at hscan
      exact ⟨before, m, after, hsplit, hm, by omega⟩
    · push Not at hkey
      rw [scanName_object_of_absent field hkey] at hscan
      cases hscan
  · rintro ⟨before, m, after, hsplit, hm, hi⟩
    rw [scanName_object_of_split field hsplit hm, Option.some_inj]
    omega

/-- In a flat object `hasJSONKey` tells whether there is a member of that key. -/
theorem hasJSONKey_object_iff (field : FieldName) :
    hasJSONKey o.text field.name = true ↔ ∃ m ∈ o.members, m.key = field.key := by
  rw [hasJSONKey, Option.isSome_iff_exists]
  simp only [scanName_object_eq_some_iff]
  constructor
  · rintro ⟨-, before, m, after, hsplit, hm, -⟩
    exact ⟨m, hsplit ▸ List.mem_append_right _ List.mem_cons_self, hm⟩
  · rintro ⟨m, hmem, hm⟩
    obtain ⟨before, after, hsplit⟩ := List.append_of_mem hmem
    have hpos : 0 < field.name.length := List.length_pos_iff.mpr field.name_ne_nil
    exact ⟨_, before, m, after, hsplit, hm, Nat.sub_add_cancel (by omega)⟩

end Object

/-- In a flat object the value is that of the member, and the loop stops at its colon. -/
theorem extractJSONField_object (o : JSONObject) (field : FieldName) :
    (∀ s : PlainText, ⟨field.key, .string s⟩ ∈ o.members → s.1 ≠ [] → 44#8 ∉ s.1 → 125#8 ∉ s.1 →
      extractJSONField o.text field.name = some s.1) ∧
    ((∀ s, ⟨field.key, .string s⟩ ∉ o.members) → extractJSONField o.text field.name = none) ∧
    ∀ i, scanName field.name o.text 0 0 = some i ↔ ∃ before m after,
      o.members = before ++ m :: after ∧ m.key = field.key ∧
        i + 1 = (membersBefore before).length + field.name.length :=
  ⟨fun _ => extractJSONField_string field, extractJSONField_not_string field,
    fun _ => scanName_object_eq_some_iff field⟩

/-- The text `{"a":"},:","versionNum":"v1","b":null}`. -/
def braceInString : JSONObject where
  members :=
    [⟨⟨ascii ['a'], by decide⟩, .string ⟨ascii ['}', ',', ':'], by decide⟩⟩,
      ⟨FieldName.versionNum.key, .string ⟨ascii ['v', '1'], by decide⟩⟩,
      ⟨⟨ascii ['b'], by decide⟩, .null⟩]
  nodup := by decide

theorem extractJSONField_braceInString :
    extractJSONField braceInString.text versionNumName = some (ascii ['v', '1']) ∧
      extractJSONField braceInString.text syncStampName = none := by
  refine ⟨(extractJSONField_object braceInString .versionNum).1 ⟨ascii ['v', '1'], by decide⟩
    (List.mem_cons_of_mem _ List.mem_cons_self) (by decide) (by decide) (by decide),
    (extractJSONField_object braceInString .syncStamp).2.1 fun s hmem => ?_⟩
  have hkey : FieldName.syncStamp.key ∈ braceInString.members.map JSONMember.key :=
    List.mem_map_of_mem hmem
  exact absurd hkey (by decide)

/-! ## Other texts -/

/-- What the loop finds of a key. -/
theorem hasJSONKey_eq_true_iff {data name : Bytes} (hname : name ≠ []) :
    hasJSONKey data name = true ↔
      ∃ u v, FailedAttempts name u ∧ data = u ++ name ++ v := by
  rw [hasJSONKey, scanName_eq _ _ 0 (List.length_pos_iff.mpr hname), Option.isSome_map,
    Option.isSome_iff_exists]
  simp only [search_eq_some_iff hname]
  exact exists_comm

/-- `hasJSONKey` is the search for a substring exactly on the texts where the name, if it
occurs, also occurs where no attempt at it is under way. -/
theorem hasJSONKey_eq_substring_iff (data : Bytes) :
    (hasJSONKey data deleteMarkName = true ↔ deleteMarkName <:+: data) ↔
      (deleteMarkName <:+: data →
        ∃ u v, FailedAttempts deleteMarkName u ∧ data = u ++ deleteMarkName ++ v) := by
  rw [hasJSONKey_eq_true_iff (by decide)]
  constructor
  · exact fun h => h.mpr
  · refine fun h => ⟨?_, h⟩
    rintro ⟨u, v, -, hdata⟩
    exact ⟨u, v, hdata.symm⟩

/-- After a quote that belongs to nothing the key is missed. -/
theorem hasJSONKey_doubled_quote :
    ¬(hasJSONKey (34#8 :: deleteMarkName) deleteMarkName = true ↔
      deleteMarkName <:+: 34#8 :: deleteMarkName) := by
  have hmissed : hasJSONKey (34#8 :: deleteMarkName) deleteMarkName = false := by decide
  rw [hmissed]
  exact fun h => Bool.false_ne_true (h.mpr (List.suffix_cons _ _).isInfix)

end Corgi
