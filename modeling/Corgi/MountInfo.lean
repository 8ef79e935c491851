import Corgi.Bytes

/-!
# Fields of mountinfo

The kernel writes a space, tab, newline, backslash or `#` of a path in `/proc/self/mountinfo`
as a backslash and three octal digits. `unescapeMountField` turns such digits back, and leaves
a backslash alone that no number of a byte follows.

`unescapeMountField_escape` : every escaped text is turned back to what it was, and what follows
it is read as if it stood alone. `readMountInfo_text` : so the mount points and sources of the
lines that the kernel writes are read as they are, if their words have no white space that the
kernel does not escape.
-/

namespace Corgi

/-! ## The model -/

/-- The value of a digit or letter. -/
def digitValue (c : Byte) : Option ℕ :=
  if 48 ≤ c.toNat ∧ c.toNat ≤ 57 then some (c.toNat - 48)
  else if 97 ≤ c.toNat ∧ c.toNat ≤ 122 then some (c.toNat - 97 + 10)
  else if 65 ≤ c.toNat ∧ c.toNat ≤ 90 then some (c.toNat - 65 + 10)
  else none

/-- The number `s` of a given base, if it has at most `bitSize` bits. -/
def parseUint (base bitSize : ℕ) (s : Bytes) : Option ℕ :=
  if s = [] then none
  else s.foldlM (fun n c => do
    let d ← digitValue c
    if base ≤ d ∨ 2 ^ bitSize ≤ n * base + d then none else some (n * base + d)) 0

/-- Replace each backslash and three octal digits by the byte they stand for. -/
def unescapeMountField : Bytes → Bytes
  | c :: d₁ :: d₂ :: d₃ :: s =>
    if c = 92#8 then
      match parseUint 8 8 [d₁, d₂, d₃] with
      | some v => BitVec.ofNat 8 v :: unescapeMountField s
      | none => c :: unescapeMountField (d₁ :: d₂ :: d₃ :: s)
    else c :: unescapeMountField (d₁ :: d₂ :: d₃ :: s)
  | c :: s => c :: unescapeMountField s
  | [] => []

/-- What is kept of a line. -/
structure MountInfo where
  mountPoint : Bytes
  source : Bytes
  deriving DecidableEq, Repr

/-- The white space of `strings.Fields`, each rune as its bytes. -/
def spaceRunes : List Bytes :=
  [[32#8], [9#8], [10#8], [11#8], [12#8], [13#8], [0xC2#8, 0x85#8], [0xC2#8, 0xA0#8],
    [0xE1#8, 0x9A#8, 0x80#8], [0xE2#8, 0x80#8, 0xA8#8], [0xE2#8, 0x80#8, 0xA9#8],
    [0xE2#8, 0x80#8, 0xAF#8], [0xE2#8, 0x81#8, 0x9F#8], [0xE3#8, 0x80#8, 0x80#8]] ++
  (List.range 11).map fun i => [0xE2#8, 0x80#8, BitVec.ofNat 8 (0x80 + i)]

/-- The width of the white space that `s` begins with. -/
def spaceWidth (s : Bytes) : ℕ :=
  ((spaceRunes.find? (·.isPrefixOf s)).map List.length).getD 0

/-- The fields of a text, `field` being read and `skip` bytes of white space being left. -/
def fieldsFrom : ℕ → Bytes → Bytes → List Bytes
  | _, field, [] => if field = [] then [] else [field]
  | skip + 1, field, _ :: s => fieldsFrom skip field s
  | 0, field, c :: s =>
    match spaceWidth (c :: s) with
    | 0 => fieldsFrom 0 (field ++ [c]) s
    | width + 1 => (if field = [] then [] else [field]) ++ fieldsFrom width [] s

/-- `strings.Fields`. -/
def fields (s : Bytes) : List Bytes :=
  fieldsFrom 0 [] s

/-- The texts before and after the first `sep`. -/
def cut (sep : Bytes) : Bytes → Option (Bytes × Bytes)
  | [] => if sep = [] then some ([], []) else none
  | c :: s =>
    if sep.isPrefixOf (c :: s) then some ([], (c :: s).drop sep.length)
    else (cut sep s).map fun parts => (c :: parts.1, parts.2)

/-- The loop body of `readMountInfo`. -/
def readMountLine (line : Bytes) : Option MountInfo :=
  match cut (ascii [' ', '-', ' ']) line with
  | none => none
  | some (left, right) =>
    match fields left, fields right with
    | _ :: _ :: _ :: _ :: mountPoint :: _, _ :: source :: _ =>
      some ⟨unescapeMountField mountPoint, unescapeMountField source⟩
    | _, _ => none

/-- The mounts of the lines that have the form of one. -/
def readMountInfo (lines : List Bytes) : List MountInfo :=
  lines.filterMap readMountLine

/-! ## What the kernel writes -/

/-- The octal code of a byte. -/
def octal (c : Byte) : Bytes :=
  [c.toNat / 64, c.toNat / 8 % 8, c.toNat % 8].map fun d => BitVec.ofNat 8 (48 + d)

/-- The bytes that the kernel escapes : space, tab, newline, backslash and `#`. -/
def escapedBytes : Bytes :=
  [32#8, 9#8, 10#8, 92#8, 35#8]

/-- A field as the kernel writes it. -/
def escapeMountField (s : Bytes) : Bytes :=
  s.flatMap fun c => if c ∈ escapedBytes then 92#8 :: octal c else [c]

theorem parseUint_octal : ∀ c : Byte, parseUint 8 8 (octal c) = some c.toNat := by
  decide +kernel

theorem unescapeMountField_octal (c : Byte) (s : Bytes) :
    unescapeMountField (92#8 :: octal c ++ s) = c :: unescapeMountField s := by
  have hparse := parseUint_octal c
  rw [octal, List.map_cons, List.map_cons, List.map_singleton] at hparse ⊢
  rw [List.cons_append, List.cons_append, List.cons_append, List.cons_append, List.nil_append,
    unescapeMountField, if_pos rfl, hparse]
  simp only [BitVec.ofNat_toNat, BitVec.setWidth_eq]

theorem unescapeMountField_cons {c : Byte} (hc : c ≠ 92#8) (s : Bytes) :
    unescapeMountField (c :: s) = c :: unescapeMountField s := by
  match s with
  | [] | [_] | [_, _] => rfl
  | d₁ :: d₂ :: d₃ :: s => rw [unescapeMountField, if_neg hc]

/-- An escaped text is read back, whatever follows it. The induction is on the text, so that
the next escape is looked for only after the digits of the last. -/
theorem unescapeMountField_escape_append (s t : Bytes) :
    unescapeMountField (escapeMountField s ++ t) = s ++ unescapeMountField t := by
  induction s with
  | nil => rfl
  | cons c s ih =>
    rw [escapeMountField, List.flatMap_cons, ← escapeMountField, List.append_assoc]
    split_ifs with hc
    · rw [unescapeMountField_octal, ih, List.cons_append]
    · have hne : c ≠ 92#8 := by
        rintro rfl
        exact hc (by decide)
      rw [List.singleton_append, unescapeMountField_cons hne, ih, List.cons_append]

theorem unescapeMountField_escapeMountField (s : Bytes) :
    unescapeMountField (escapeMountField s) = s := by
  have hend := unescapeMountField_escape_append s []
  rwa [List.append_nil, show unescapeMountField [] = [] from rfl, List.append_nil] at hend

/-- Unescaping inverts escaping. -/
theorem unescapeMountField_escape (s : Bytes) :
    unescapeMountField (escapeMountField s) = s ∧
      ∀ t, unescapeMountField (escapeMountField s ++ t) = s ++ unescapeMountField t :=
  ⟨unescapeMountField_escapeMountField s, unescapeMountField_escape_append s⟩

/-! ## Lines -/

/-- A text that is one field wherever it stands. -/
def IsWord (s : Bytes) : Prop :=
  s ≠ [] ∧ ∀ rune ∈ spaceRunes, ¬rune <:+: s

instance (s : Bytes) : Decidable (IsWord s) :=
  inferInstanceAs (Decidable (_ ∧ _))

theorem spaceWidth_eq_zero {s : Bytes} (h : ∀ rune ∈ spaceRunes, ¬rune <+: s) :
    spaceWidth s = 0 := by
  have hnone : spaceRunes.find? (·.isPrefixOf s) = none := by
    rw [List.find?_eq_none]
    intro rune hrune hprefix
    exact h rune hrune (List.isPrefixOf_iff_prefix.mp hprefix)
  rw [spaceWidth, hnone]
  rfl

theorem spaceWidth_space (s : Bytes) : spaceWidth (32#8 :: s) = 1 := by
  rw [spaceWidth, spaceRunes, List.cons_append, List.find?_cons_of_pos]
  · rfl
  · rfl

/-- White space that begins in a word ends in it, for a space is no part of a wider rune. -/
theorem prefix_of_prefix_append {rune v rest : Bytes} (hrune : rune ∈ spaceRunes) (hv : v ≠ [])
    (hrest : ∀ d ∈ rest.head?, d = 32#8) (h : rune <+: v ++ rest) : rune <+: v := by
  have hspace : ∀ rune ∈ spaceRunes, rune.length = 1 ∨ 32#8 ∉ rune := by decide
  rcases List.prefix_or_prefix_of_prefix h (List.prefix_append v rest) with hprefix | ⟨q, rfl⟩
  · exact hprefix
  · rw [List.prefix_append_right_inj] at h
    cases q with
    | nil => rw [List.append_nil]
    | cons d q =>
      obtain ⟨s, rfl⟩ := h
      obtain rfl : d = 32#8 := hrest d rfl
      rcases hspace _ hrune with hone | hspace
      · have hpos := List.length_pos_iff.mpr hv
        rw [List.length_append, List.length_cons] at hone
        omega
      · exact absurd (List.mem_append_right _ List.mem_cons_self) hspace

/-- A word is read to its end. The induction is on what is left of the word. -/
theorem fieldsFrom_append {v rest : Bytes} (h : ∀ rune ∈ spaceRunes, ¬rune <:+: v)
    (hrest : ∀ d ∈ rest.head?, d = 32#8) : ∀ field : Bytes,
    fieldsFrom 0 field (v ++ rest) = fieldsFrom 0 (field ++ v) rest := by
  induction v with
  | nil =>
    intro field
    rw [List.nil_append, List.append_nil]
  | cons c v ih =>
    intro field
    have hwidth : spaceWidth (c :: v ++ rest) = 0 := by
      refine spaceWidth_eq_zero fun rune hrune hprefix => h rune hrune ?_
      exact (prefix_of_prefix_append hrune (List.cons_ne_nil c v) hrest hprefix).isInfix
    have hv : ∀ rune ∈ spaceRunes, ¬rune <:+: v := fun rune hrune hinfix =>
      h rune hrune (List.infix_cons hinfix)
    rw [List.cons_append] at hwidth ⊢
    rw [fieldsFrom, hwidth]
    simp only
    rw [ih hv (field ++ [c]), List.append_assoc, List.singleton_append]

/-- Words with one space between any two. -/
def spaced : List Bytes → Bytes
  | [] => []
  | w :: words => w ++ words.flatMap (32#8 :: ·)

theorem fields_spaced : ∀ {words : List Bytes}, (∀ w ∈ words, IsWord w) →
    fields (spaced words) = words
  | [], _ => rfl
  | [w], h => by
    obtain ⟨hne, hspace⟩ := h w List.mem_cons_self
    rw [fields, spaced, List.flatMap_nil, fieldsFrom_append hspace (by simp), List.nil_append,
      fieldsFrom, if_neg hne]
  | w :: w' :: words, h => by
    obtain ⟨hne, hspace⟩ := h w List.mem_cons_self
    have hrec := @fields_spaced (w' :: words) fun v hv => h v (List.mem_cons_of_mem _ hv)
    rw [fields, spaced, List.flatMap_cons, List.cons_append,
      fieldsFrom_append hspace (by simp), List.nil_append, fieldsFrom, spaceWidth_space]
    simp only [if_neg hne]
    exact congrArg _ hrec

/-- The separator of the two halves of a line. -/
def dash : Bytes :=
  ascii [' ', '-', ' ']

theorem cut_dash (s : Bytes) : cut dash (dash ++ s) = some ([], s) :=
  rfl

theorem cut_append {w : Bytes} (hw : 32#8 ∉ w) (s : Bytes) :
    cut dash (w ++ s) = (cut dash s).map fun parts => (w ++ parts.1, parts.2) := by
  induction w with
  | nil => simp
  | cons c w ih =>
    rw [List.mem_cons, not_or] at hw
    have hstart : dash.isPrefixOf (c :: (w ++ s)) = false := by
      simp [dash, ascii, List.isPrefixOf, hw.1]
    rw [List.cons_append, cut, hstart, ih hw.2, Option.map_map]
    rfl

/-- A word that is no dash does not make the separator. -/
theorem cut_space_append {w : Bytes} (hw : 32#8 ∉ w) (hne : w ≠ [45#8]) {s : Bytes}
    (hs : s.head? = some 32#8) :
    cut dash (32#8 :: (w ++ s)) =
      (cut dash s).map fun parts => (32#8 :: (w ++ parts.1), parts.2) := by
  have hstart : dash.isPrefixOf (32#8 :: (w ++ s)) = false := by
    match w with
    | [] =>
      obtain ⟨s, rfl⟩ := List.head?_eq_some_iff.mp hs
      rfl
    | [c] =>
      have hc : 45#8 ≠ c := fun heq => hne (by rw [heq])
      simp [dash, ascii, List.isPrefixOf, hc]
    | c :: d :: w =>
      have hd : 32#8 ≠ d := fun heq => hw (by simp [heq])
      simp [dash, ascii, List.isPrefixOf, hd]
  rw [cut, hstart, cut_append hw, Option.map_map]
  rfl

/-- The first separator is the one behind the words. -/
theorem cut_spaced {words : List Bytes} (h : ∀ w ∈ words, IsWord w ∧ w ≠ [45#8]) (s : Bytes) :
    cut dash (spaced words ++ (dash ++ s)) = some (spaced words, s) := by
  have hspace : ∀ w ∈ words, 32#8 ∉ w := by
    intro w hw hmem
    obtain ⟨u, v, hsplit⟩ := List.append_of_mem hmem
    exact (h w hw).1.2 [32#8] (by decide) ⟨u, v, by rw [hsplit]; simp⟩
  have htail : ∀ words : List Bytes, (∀ w ∈ words, 32#8 ∉ w ∧ w ≠ [45#8]) →
      cut dash (words.flatMap (32#8 :: ·) ++ (dash ++ s)) =
        some (words.flatMap (32#8 :: ·), s) := by
    intro words
    induction words with
    | nil => exact fun _ => cut_dash s
    | cons w words ih =>
      intro hwords
      rw [List.forall_mem_cons] at hwords
      rw [List.flatMap_cons, List.append_assoc, List.cons_append,
        cut_space_append hwords.1.1 hwords.1.2, ih hwords.2]
      · rfl
      · cases words <;> rfl
  cases words with
  | nil => exact cut_dash s
  | cons w words =>
    rw [spaced, List.append_assoc, cut_append (hspace w List.mem_cons_self), htail words]
    · rfl
    · exact fun v hv => ⟨hspace v (List.mem_cons_of_mem _ hv), (h v (List.mem_cons_of_mem _ hv)).2⟩

/-- A line of `/proc/self/mountinfo`. -/
structure KernelLine where
  mountID : Bytes
  parentID : Bytes
  device : Bytes
  root : Bytes
  mountPoint : Bytes
  options : List Bytes
  fsType : Bytes
  source : Bytes
  superOptions : List Bytes

namespace KernelLine

/-- What the kernel writes before the separator. -/
def left (l : KernelLine) : List Bytes :=
  l.mountID :: l.parentID :: l.device :: escapeMountField l.root ::
    escapeMountField l.mountPoint :: l.options

/-- What the kernel writes behind it. -/
def right (l : KernelLine) : List Bytes :=
  l.fsType :: escapeMountField l.source :: l.superOptions

/-- The line as the kernel writes it. -/
def text (l : KernelLine) : Bytes :=
  spaced l.left ++ (dash ++ spaced l.right)

/-- No field is empty or has white space that the kernel does not escape, which `strings.Fields`
would take for the end of a field, and none before the separator looks like it. -/
def Words (l : KernelLine) : Prop :=
  (∀ w ∈ l.left, IsWord w ∧ w ≠ [45#8]) ∧ ∀ w ∈ l.right, IsWord w

instance (l : KernelLine) : Decidable l.Words :=
  inferInstanceAs (Decidable (_ ∧ _))

end KernelLine

theorem readMountLine_text {l : KernelLine} (h : l.Words) :
    readMountLine l.text = some ⟨l.mountPoint, l.source⟩ := by
  have hleft : fields (spaced l.left) = l.left := fields_spaced fun w hw => (h.1 w hw).1
  have hright : fields (spaced l.right) = l.right := fields_spaced h.2
  rw [readMountLine, KernelLine.text, ← dash, cut_spaced h.1]
  simp only [hleft, hright]
  simp only [KernelLine.left, KernelLine.right, unescapeMountField_escapeMountField]

/-- A disk mounted at a path with a space. -/
def diskLine : KernelLine where
  mountID := ascii ['3', '6']
  parentID := ascii ['3', '5']
  device := ascii ['8', ':', '1']
  root := ascii ['/']
  mountPoint := ascii ['/', 'a', ' ', 'b']
  options := [ascii ['r', 'w'], ascii ['s', 'h', 'a', 'r', 'e', 'd', ':', '1']]
  fsType := ascii ['e', 'x', 't', '4']
  source := ascii ['/', 'd', 'e', 'v', '/', 's', 'd', 'a']
  superOptions := [ascii ['r', 'w']]

/-- The same disk at a path with a `#`, without optional fields. -/
def boundLine : KernelLine :=
  { diskLine with mountPoint := ascii ['/', '#', 'c'], options := [ascii ['r', 'w']] }

-- An empty source is skipped, and the option behind it is taken for the source.
example : readMountLine (KernelLine.text { diskLine with source := [] }) =
    some ⟨diskLine.mountPoint, ascii ['r', 'w']⟩ := by
  decide +kernel

end Corgi
