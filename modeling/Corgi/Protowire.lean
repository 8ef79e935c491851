import Corgi.Bytes
import Corgi.Decoders
import Mathlib.Data.Nat.Log
import Mathlib.Tactic.IntervalCases

/-!
# The protobuf wire format

Varints, tags, fields and UTF-8 strings, as `encoding/protowire` reads and writes them. A reader
takes from the front of the data and leaves the rest, and reads the same whatever follows
(`Reads`). A loop takes such steps until nothing is left (`readAll`).

`consumeVarint_appendVarint` : a varint is read back, and `sizeVarint` is its length.

`readAll_append` : what follows is read from where the first part has led.

`reads_consumeFieldValueD` : a value is skipped whatever follows, groups of any depth included.
-/

namespace Corgi

/-! ## Readers -/

section

variable {σ ε α β : Type} {d : StateT (List σ) (Except ε) α}

/-- It takes from the front, and reads the same when more follows. -/
structure Reads (d : StateT (List σ) (Except ε) α) : Prop where
  append : ∀ {data a rest} (more : List σ), d.run data = .ok (a, rest) →
    d.run (data ++ more) = .ok (a, rest ++ more)
  length_le : ∀ {data a rest}, d.run data = .ok (a, rest) → rest.length ≤ data.length

/-- What is left is shorter. -/
def Shortens (d : StateT (List σ) (Except ε) α) : Prop :=
  ∀ ⦃data a rest⦄, d.run data = .ok (a, rest) → rest.length < data.length

theorem Reads.pure (a : α) : Reads (pure a : StateT (List σ) (Except ε) α) := by
  constructor
  · intro data b rest more h
    cases h
    rfl
  · intro data b rest h
    cases h
    exact le_rfl

theorem Reads.throw (e : ε) : Reads (throw e : StateT (List σ) (Except ε) α) := by
  constructor
  · intro data b rest more h
    cases h
  · intro data b rest h
    cases h

theorem Reads.bind {f : α → StateT (List σ) (Except ε) β} (h : Reads d)
    (hf : ∀ a, Reads (f a)) : Reads (d >>= f) := by
  constructor
  · intro data b rest more hrun
    obtain ⟨a, mid, hd, hfa⟩ := run_bind_eq_ok.mp hrun
    exact run_bind_eq_ok.mpr ⟨a, mid ++ more, h.append more hd, (hf a).append more hfa⟩
  · intro data b rest hrun
    obtain ⟨a, mid, hd, hfa⟩ := run_bind_eq_ok.mp hrun
    exact ((hf a).length_le hfa).trans (h.length_le hd)

theorem Shortens.bind {f : α → StateT (List σ) (Except ε) β} (h : Shortens d)
    (hf : ∀ a, Reads (f a)) : Shortens (d >>= f) := by
  intro data b rest hrun
  obtain ⟨a, mid, hd, hfa⟩ := run_bind_eq_ok.mp hrun
  exact ((hf a).length_le hfa).trans_lt (h hd)

/-- The same, with other errors. -/
def withErr {ε' : Type} (f : ε → ε') (d : StateT (List σ) (Except ε) α) :
    StateT (List σ) (Except ε') α :=
  fun data => (d.run data).mapError f

theorem withErr_eq_ok {ε' : Type} {f : ε → ε'} {data : List σ} {r : α × List σ} :
    (withErr f d).run data = .ok r ↔ d.run data = .ok r := by
  change (d.run data).mapError f = _ ↔ _
  cases d.run data <;> simp [Except.mapError]

theorem Reads.withErr {ε' : Type} (f : ε → ε') (h : Reads d) : Reads (withErr f d) :=
  ⟨fun more hrun => withErr_eq_ok.mpr (h.append more (withErr_eq_ok.mp hrun)),
    fun hrun => h.length_le (withErr_eq_ok.mp hrun)⟩

theorem Shortens.withErr {ε' : Type} (f : ε → ε') (h : Shortens d) : Shortens (withErr f d) :=
  fun _ _ _ hrun => h (withErr_eq_ok.mp hrun)

end

section

variable {σ ε M : Type} {step : M → StateT (List σ) (Except ε) M}

/-- Read one thing after another, at most so many, until nothing is left. -/
def readAllFrom (step : M → StateT (List σ) (Except ε) M) : ℕ → M → List σ → Except ε M
  | 0, m, _ => .ok m
  | _ + 1, m, [] => .ok m
  | k + 1, m, x :: data =>
    match (step m).run (x :: data) with
    | .error e => .error e
    | .ok (m, rest) => readAllFrom step k m rest

/-- Take steps until nothing is left. -/
def readAll (step : M → StateT (List σ) (Except ε) M) (m : M) (data : List σ) : Except ε M :=
  readAllFrom step data.length m data

theorem readAllFrom_congr (hstep : ∀ m, Shortens (step m)) :
    ∀ {k k' : ℕ} {m : M} {data : List σ}, data.length ≤ k → data.length ≤ k' →
    readAllFrom step k m data = readAllFrom step k' m data
  | 0, k', m, data, h, _ => by
    rw [List.length_eq_zero_iff.mp (Nat.le_zero.mp h)]
    cases k' <;> rfl
  | k + 1, 0, m, data, _, h => by
    rw [List.length_eq_zero_iff.mp (Nat.le_zero.mp h)]
    rfl
  | k + 1, k' + 1, m, [], _, _ => rfl
  | k + 1, k' + 1, m, x :: data, h, h' => by
    rw [readAllFrom, readAllFrom]
    cases hread : (step m).run (x :: data) with
    | error e => rfl
    | ok r =>
      obtain ⟨m', rest⟩ := r
      have hlt := hstep m hread
      exact readAllFrom_congr hstep (Nat.le_of_lt_succ (hlt.trans_le h))
        (Nat.le_of_lt_succ (hlt.trans_le h'))

@[simp] theorem readAll_nil (m : M) : readAll step m [] = .ok m :=
  rfl

/-- One step, then the others. -/
theorem readAll_of_step (hstep : ∀ m, Shortens (step m)) {m m' : M} {data rest : List σ}
    (h : (step m).run data = .ok (m', rest)) : readAll step m data = readAll step m' rest := by
  cases data with
  | nil => exact absurd (hstep m h) (Nat.not_lt_zero _)
  | cons x data =>
    have hlt : rest.length < data.length + 1 := hstep m h
    rw [readAll, List.length_cons, readAllFrom, h]
    exact readAllFrom_congr hstep (Nat.le_of_lt_succ hlt) le_rfl

theorem readAll_eq_ok (hstep : ∀ m, Shortens (step m)) {m m' : M} {x : σ} {data : List σ} :
    readAll step m (x :: data) = .ok m' ↔
      ∃ mid rest, (step m).run (x :: data) = .ok (mid, rest) ∧ readAll step mid rest = .ok m' := by
  constructor
  · intro h
    cases hread : (step m).run (x :: data) with
    | error e =>
      rw [readAll, List.length_cons, readAllFrom, hread] at h
      cases h
    | ok r =>
      obtain ⟨mid, rest⟩ := r
      exact ⟨mid, rest, rfl, readAll_of_step hstep hread ▸ h⟩
  · rintro ⟨mid, rest, hread, h⟩
    rw [readAll_of_step hstep hread, h]

/-- What follows is read from where the first part has led. -/
theorem readAll_append (hstep : ∀ m, Shortens (step m)) (hreads : ∀ m, Reads (step m))
    (more : List σ) {data : List σ} {m m' : M} (h : readAll step m data = .ok m') :
    readAll step m (data ++ more) = readAll step m' more := by
  induction hn : data.length using Nat.strong_induction_on generalizing data m with
  | h n ih =>
    cases data with
    | nil =>
      cases h
      rfl
    | cons x data =>
      obtain ⟨mid, rest, hread, h⟩ := (readAll_eq_ok hstep).mp h
      rw [readAll_of_step hstep ((hreads m).append more hread)]
      exact ih _ (hn ▸ hstep m hread) h rfl

end

/-! ## Varints -/

/-- The codes of `ParseError`. -/
inductive WireError
  | truncated
  | fieldNumber
  | overflow
  | reserved
  | endGroup
  | recursionDepth
  deriving DecidableEq, Repr

/-- A reader of the wire format. -/
abbrev Consume (α : Type) := StateT Bytes (Except WireError) α

/-- The bytes of a varint, at most `k` of which are followed by more. -/
def varintBytes : ℕ → ℕ → Bytes
  | 0, v => [BitVec.ofNat 8 v]
  | k + 1, v =>
    if v < 128 then [BitVec.ofNat 8 v]
    else BitVec.ofNat 8 (v % 128 + 128) :: varintBytes k (v / 128)

/-- What `AppendVarint` appends. -/
def appendVarint (v : ℕ) : Bytes :=
  varintBytes 9 v

/-- `1 + log2 v / 7`, in the form that the source computes. -/
def sizeVarint (v : ℕ) : ℕ :=
  (Nat.log2 (v ||| 1) * 9 + (64 + 9)) / 64

/-- A number of which so many bytes may follow. -/
def consumeVarintFrom : ℕ → Bytes → Except WireError (ℕ × Bytes)
  | _, [] => .error .truncated
  -- Only one bit is left in the last byte.
  | 0, y :: rest => if y.toNat < 2 then .ok (y.toNat, rest) else .error .overflow
  | k + 1, y :: rest =>
    if y.toNat < 128 then .ok (y.toNat, rest)
    else match consumeVarintFrom k rest with
      | .error e => .error e
      | .ok (v, rest) => .ok (y.toNat - 128 + 128 * v, rest)

/-- A number of at most ten bytes. -/
def consumeVarint : Consume ℕ :=
  consumeVarintFrom 9

theorem consumeVarintFrom_nil (k : ℕ) : consumeVarintFrom k [] = .error .truncated := by
  cases k <;> rfl

theorem consumeVarintFrom_varintBytes : ∀ (k : ℕ) {v : ℕ} (rest : Bytes), v < 2 * 128 ^ k →
    consumeVarintFrom k (varintBytes k v ++ rest) = .ok (v, rest)
  | 0, v, rest, h => by
    have hv : (BitVec.ofNat 8 v).toNat = v := by
      rw [BitVec.toNat_ofNat]
      omega
    rw [varintBytes, List.singleton_append, consumeVarintFrom, hv, if_pos (by omega)]
  | k + 1, v, rest, h => by
    rw [varintBytes]
    split_ifs with hlt
    · have hv : (BitVec.ofNat 8 v).toNat = v := by
        rw [BitVec.toNat_ofNat]
        omega
      rw [List.singleton_append, consumeVarintFrom, hv, if_pos hlt]
    · have hv : (BitVec.ofNat 8 (v % 128 + 128)).toNat = v % 128 + 128 := by
        rw [BitVec.toNat_ofNat]
        omega
      have hdiv : v / 128 < 2 * 128 ^ k := by
        rw [Nat.div_lt_iff_lt_mul (by decide)]
        rw [pow_succ] at h
        omega
      rw [List.cons_append, consumeVarintFrom, hv, if_neg (by omega),
        consumeVarintFrom_varintBytes k rest hdiv]
      change Except.ok (v % 128 + 128 - 128 + 128 * (v / 128), rest) = _
      rw [show v % 128 + 128 - 128 + 128 * (v / 128) = v by omega]

theorem consumeVarint_appendVarint {v : ℕ} (h : v < 2 ^ 64) (rest : Bytes) :
    consumeVarint.run (appendVarint v ++ rest) = .ok (v, rest) :=
  consumeVarintFrom_varintBytes 9 rest (by omega)

theorem varintBytes_ne_nil (k v : ℕ) : varintBytes k v ≠ [] := by
  cases k with
  | zero => simp [varintBytes]
  | succ k =>
    rw [varintBytes]
    split_ifs <;> simp

theorem consumeVarintFrom_append : ∀ {k : ℕ} {data rest : Bytes} {v : ℕ} (more : Bytes),
    consumeVarintFrom k data = .ok (v, rest) →
    consumeVarintFrom k (data ++ more) = .ok (v, rest ++ more)
  | k, [], _, _, _, h => by
    rw [consumeVarintFrom_nil] at h
    cases h
  | 0, y :: data, rest, v, more, h => by
    rw [consumeVarintFrom] at h
    rw [List.cons_append, consumeVarintFrom]
    split_ifs at h ⊢ with hlt
    cases h
    rfl
  | k + 1, y :: data, rest, v, more, h => by
    rw [consumeVarintFrom] at h
    rw [List.cons_append, consumeVarintFrom]
    split_ifs at h ⊢ with hlt
    · cases h
      rfl
    · cases hread : consumeVarintFrom k data with
      | error e =>
        rw [hread] at h
        cases h
      | ok r =>
        obtain ⟨u, mid⟩ := r
        rw [hread] at h
        rw [consumeVarintFrom_append more hread]
        cases h
        rfl

theorem length_of_consumeVarintFrom : ∀ {k : ℕ} {data rest : Bytes} {v : ℕ},
    consumeVarintFrom k data = .ok (v, rest) → rest.length < data.length
  | k, [], _, _, h => by
    rw [consumeVarintFrom_nil] at h
    cases h
  | 0, y :: data, rest, v, h => by
    rw [consumeVarintFrom] at h
    split_ifs at h
    cases h
    exact Nat.lt_succ_self _
  | k + 1, y :: data, rest, v, h => by
    rw [consumeVarintFrom] at h
    split_ifs at h
    · cases h
      exact Nat.lt_succ_self _
    · cases hread : consumeVarintFrom k data with
      | error e =>
        rw [hread] at h
        cases h
      | ok r =>
        obtain ⟨u, mid⟩ := r
        rw [hread] at h
        cases h
        exact (length_of_consumeVarintFrom hread).trans (Nat.lt_succ_self _)

theorem shortens_consumeVarint : Shortens consumeVarint :=
  fun _ _ _ h => length_of_consumeVarintFrom h

theorem reads_consumeVarint : Reads consumeVarint :=
  ⟨fun more h => consumeVarintFrom_append more h, fun h => (shortens_consumeVarint h).le⟩

theorem length_varintBytes : ∀ {k v : ℕ}, v < 2 * 128 ^ k →
    (varintBytes k v).length = Nat.log2 v / 7 + 1
  | 0, v, h => by
    have hlog : Nat.log2 v = 0 := by
      interval_cases v <;> rfl
    rw [hlog]
    rfl
  | k + 1, v, h => by
    rw [varintBytes]
    split_ifs with hlt
    · have hlog : Nat.log2 v < 7 := by
        rcases Nat.eq_zero_or_pos v with rfl | hpos
        · decide
        · exact (Nat.log2_lt (by omega)).mpr hlt
      rw [List.length_singleton]
      omega
    · have hdiv : v / 128 < 2 * 128 ^ k := by
        rw [Nat.div_lt_iff_lt_mul (by decide)]
        rw [pow_succ] at h
        omega
      have hlog : Nat.log2 (v / 128) = Nat.log2 v - 7 := by
        rw [Nat.log2_eq_log_two, Nat.log2_eq_log_two]
        exact Nat.log_div_base_pow 2 v 7
      have hle : 7 ≤ Nat.log2 v := (Nat.le_log2 (by omega)).mpr (by omega)
      rw [List.length_cons, length_varintBytes hdiv, hlog]
      omega

/-- The size that is computed from the highest bit is the length. -/
theorem sizeVarint_eq {v : ℕ} (h : v < 2 ^ 64) : sizeVarint v = (appendVarint v).length := by
  rw [sizeVarint, appendVarint, length_varintBytes (by omega)]
  have hlog : Nat.log2 (v ||| 1) = Nat.log2 v := by
    rcases Nat.eq_zero_or_pos v with rfl | hpos
    · decide
    have hle : v ≤ v ||| 1 := Nat.left_le_or
    rw [Nat.log2_eq_iff (by omega)]
    refine ⟨(Nat.log2_self_le (by omega)).trans hle, Nat.or_lt_two_pow Nat.lt_log2_self ?_⟩
    exact Nat.one_lt_two_pow (by omega)
  have hlt : Nat.log2 v < 64 := by
    rcases Nat.eq_zero_or_pos v with rfl | hpos
    · decide
    · exact (Nat.log2_lt (by omega)).mpr h
  rw [hlog]
  omega

/-- The varint of a number whose low seven bits are zero begins with a byte that no UTF-8 text
begins with, unless it is the one of 0. -/
theorem appendVarint_of_dvd {v : ℕ} (h : 128 ∣ v) (hv : v ≠ 0) :
    ∃ rest, appendVarint v = 0x80#8 :: rest := by
  refine ⟨varintBytes 8 (v / 128), ?_⟩
  rw [appendVarint, varintBytes, if_neg (by omega), Nat.mod_eq_zero_of_dvd h]

/-- A varint more. -/
def consumeNext (vals : List ℕ) : Consume (List ℕ) :=
  consumeVarint >>= fun v => pure (vals ++ [v])

/-- The varints that the data is made of. -/
def consumeVarints (data : Bytes) : Except WireError (List ℕ) :=
  readAll consumeNext [] data

theorem shortens_consumeNext (vals : List ℕ) : Shortens (consumeNext vals) :=
  shortens_consumeVarint.bind fun _ => .pure _

theorem readAll_consumeNext : ∀ {vals : List ℕ} (acc : List ℕ), (∀ v ∈ vals, v < 2 ^ 64) →
    readAll consumeNext acc (vals.flatMap appendVarint) = .ok (acc ++ vals)
  | [], acc, _ => by rw [List.append_nil]; rfl
  | v :: vals, acc, h => by
    obtain ⟨hv, hvals⟩ := List.forall_mem_cons.mp h
    have hread : (consumeNext acc).run ((v :: vals).flatMap appendVarint) =
        .ok (acc ++ [v], vals.flatMap appendVarint) := by
      rw [List.flatMap_cons, consumeNext, run_bind_eq_ok]
      exact ⟨v, _, consumeVarint_appendVarint hv _, rfl⟩
    rw [readAll_of_step shortens_consumeNext hread, readAll_consumeNext _ hvals,
      List.append_assoc]
    rfl

theorem consumeVarints_flatMap {vals : List ℕ} (h : ∀ v ∈ vals, v < 2 ^ 64) :
    consumeVarints (vals.flatMap appendVarint) = .ok vals :=
  readAll_consumeNext [] h

/-! ## Fields -/

/-- The types of a field, two of which are reserved. -/
inductive WireType
  | varint
  | fixed64
  | bytes
  | startGroup
  | endGroup
  | fixed32
  | reserved6
  | reserved7
  deriving DecidableEq, Repr

namespace WireType

/-- The three bits of the type in a tag. -/
def toNat : WireType → ℕ
  | varint => 0
  | fixed64 => 1
  | bytes => 2
  | startGroup => 3
  | endGroup => 4
  | fixed32 => 5
  | reserved6 => 6
  | reserved7 => 7

/-- The low three bits of a tag. -/
def ofTag (tag : ℕ) : WireType :=
  match tag % 8 with
  | 0 => varint
  | 1 => fixed64
  | 2 => bytes
  | 3 => startGroup
  | 4 => endGroup
  | 5 => fixed32
  | 6 => reserved6
  | _ => reserved7

end WireType

/-- The number and the type of a field. -/
def encodeTag (num : ℕ) (typ : WireType) : ℕ :=
  num * 8 + typ.toNat

theorem encodeTag_div (num : ℕ) (typ : WireType) : encodeTag num typ / 8 = num := by
  cases typ <;> simp only [encodeTag, WireType.toNat] <;> omega

theorem ofTag_encodeTag (num : ℕ) (typ : WireType) : WireType.ofTag (encodeTag num typ) = typ := by
  have hmod : encodeTag num typ % 8 = typ.toNat := by
    cases typ <;> simp only [encodeTag, WireType.toNat] <;> omega
  rw [WireType.ofTag, hmod]
  cases typ <;> rfl

theorem encodeTag_lt {num : ℕ} (h : num < 2 ^ 31) (typ : WireType) :
    encodeTag num typ < 2 ^ 64 := by
  cases typ <;> simp only [encodeTag, WireType.toNat] <;> omega

/-- A number that does not fit an `int32` is taken for -1. -/
def consumeTag : Consume (ℕ × WireType) := do
  let tag ← consumeVarint
  if tag / 8 < 1 ∨ 2 ^ 31 ≤ tag / 8 then throw .fieldNumber else return (tag / 8, .ofTag tag)

/-- The first `w` bytes. -/
def consumeRaw (w : ℕ) : Consume Bytes :=
  fun data => if data.length < w then .error .truncated else .ok (data.take w, data.drop w)

/-- `ConsumeFixed32` and `ConsumeFixed64`. -/
def consumeFixed (w : ℕ) : Consume ℕ :=
  leNat <$> consumeRaw w

/-- Bytes after their length. -/
def appendBytes (v : Bytes) : Bytes :=
  appendVarint v.length ++ v

/-- As many bytes as their length says. -/
def consumeBytes : Consume Bytes :=
  consumeVarint >>= consumeRaw

/-- The fields of the group `num` up to its end. -/
def consumeGroupFrom (consumeValue : ℕ → WireType → Consume Unit) (num : ℕ) : ℕ → Consume Unit
  | 0 => throw .truncated
  | k + 1 => do
    let (num2, typ2) ← consumeTag
    if typ2 = .endGroup then
      if num = num2 then return () else throw .endGroup
    else
      consumeValue num2 typ2
      consumeGroupFrom consumeValue num k

/-- Read and forget. -/
def skip {α : Type} (d : Consume α) : Consume Unit :=
  d >>= fun _ => pure ()

/-- Groups may be nested `depth` deep. -/
def consumeFieldValueD : ℕ → ℕ → WireType → Consume Unit
  | _, _, .varint => skip consumeVarint
  | _, _, .fixed32 => skip (consumeFixed 4)
  | _, _, .fixed64 => skip (consumeFixed 8)
  | _, _, .bytes => skip consumeBytes
  | 0, _, .startGroup => throw .recursionDepth
  -- A tag takes a byte, so that the data bounds the number of fields.
  | depth + 1, num, .startGroup =>
    fun data => consumeGroupFrom (consumeFieldValueD depth) num data.length data
  | _, _, .endGroup => throw .endGroup
  | _, _, .reserved6 | _, _, .reserved7 => throw .reserved

/-- Skip the value of a field. -/
def consumeFieldValue (num : ℕ) (typ : WireType) : Consume Unit :=
  consumeFieldValueD 10001 num typ

/-! ### What is read -/

theorem consumeTag_encodeTag {num : ℕ} (hpos : 0 < num) (hlt : num < 2 ^ 31) (typ : WireType)
    (rest : Bytes) :
    consumeTag.run (appendVarint (encodeTag num typ) ++ rest) = .ok ((num, typ), rest) := by
  rw [consumeTag, run_bind_eq_ok]
  refine ⟨_, rest, consumeVarint_appendVarint (encodeTag_lt hlt typ) rest, ?_⟩
  rw [encodeTag_div, ofTag_encodeTag, if_neg (by omega)]
  rfl

theorem consumeRaw_append {v : Bytes} {w : ℕ} (h : v.length = w) (rest : Bytes) :
    (consumeRaw w).run (v ++ rest) = .ok (v, rest) := by
  change (if _ then _ else _) = _
  rw [if_neg (by rw [List.length_append]; omega), List.take_left' h, List.drop_left' h]

theorem consumeBytes_appendBytes {v : Bytes} (h : v.length < 2 ^ 64) (rest : Bytes) :
    consumeBytes.run (appendBytes v ++ rest) = .ok (v, rest) := by
  rw [consumeBytes, run_bind_eq_ok, appendBytes, List.append_assoc]
  exact ⟨_, _, consumeVarint_appendVarint h _, consumeRaw_append rfl rest⟩

theorem consumeRaw_eq_ok {w : ℕ} {data v rest : Bytes} :
    (consumeRaw w).run data = .ok (v, rest) ↔ v.length = w ∧ data = v ++ rest := by
  constructor
  · intro h
    change (if _ then _ else _) = _ at h
    split_ifs at h with hlt
    cases h
    exact ⟨List.length_take_of_le (Nat.le_of_not_lt hlt), (List.take_append_drop _ _).symm⟩
  · rintro ⟨h, rfl⟩
    exact consumeRaw_append h rest

theorem reads_consumeRaw (w : ℕ) : Reads (consumeRaw w) := by
  constructor
  · intro data v rest more h
    obtain ⟨hlen, rfl⟩ := consumeRaw_eq_ok.mp h
    rw [List.append_assoc]
    exact consumeRaw_append hlen _
  · intro data v rest h
    obtain ⟨-, rfl⟩ := consumeRaw_eq_ok.mp h
    rw [List.length_append]
    omega

theorem reads_consumeBytes : Reads consumeBytes :=
  reads_consumeVarint.bind reads_consumeRaw

theorem reads_consumeFixed (w : ℕ) : Reads (consumeFixed w) := by
  rw [consumeFixed, map_eq_pure_bind]
  exact (reads_consumeRaw w).bind fun _ => .pure _

/-- The number and the type of a tag. -/
theorem reads_tag (tag : ℕ) : Reads (if tag / 8 < 1 ∨ 2 ^ 31 ≤ tag / 8 then throw .fieldNumber
    else return (tag / 8, .ofTag tag) : Consume (ℕ × WireType)) := by
  split_ifs
  · exact .throw _
  · exact .pure _

theorem reads_consumeTag : Reads consumeTag :=
  reads_consumeVarint.bind reads_tag

theorem shortens_consumeTag : Shortens consumeTag :=
  shortens_consumeVarint.bind reads_tag

/-- The reader of a group finds its end with more rounds than it needs. -/
theorem consumeGroupFrom_mono {consumeValue : ℕ → WireType → Consume Unit} {num : ℕ} :
    ∀ {k k' : ℕ} {data rest : Bytes}, k ≤ k' →
    (consumeGroupFrom consumeValue num k).run data = .ok ((), rest) →
    (consumeGroupFrom consumeValue num k').run data = .ok ((), rest)
  | 0, _, _, _, _, h => by cases h
  | k + 1, 0, _, _, hle, _ => absurd hle (Nat.not_succ_le_zero k)
  | k + 1, k' + 1, data, rest, hle, h => by
    rw [consumeGroupFrom, run_bind_eq_ok] at h ⊢
    obtain ⟨⟨num2, typ2⟩, mid, htag, h⟩ := h
    refine ⟨(num2, typ2), mid, htag, ?_⟩
    dsimp only at h ⊢
    split_ifs at h ⊢
    · exact h
    · exact h
    · obtain ⟨u, mid', hvalue, h⟩ := run_bind_eq_ok.mp h
      exact run_bind_eq_ok.mpr ⟨u, mid', hvalue, consumeGroupFrom_mono (by omega) h⟩

theorem reads_consumeGroupFrom {consumeValue : ℕ → WireType → Consume Unit}
    (h : ∀ num typ, Reads (consumeValue num typ)) (num : ℕ) :
    ∀ k : ℕ, Reads (consumeGroupFrom consumeValue num k)
  | 0 => .throw _
  | k + 1 => by
    refine reads_consumeTag.bind fun tag => ?_
    dsimp only
    split_ifs
    · exact .pure _
    · exact .throw _
    · exact (h _ _).bind fun _ => reads_consumeGroupFrom h num k

theorem Reads.skip {α : Type} {d : Consume α} (h : Reads d) : Reads (skip d) :=
  h.bind fun _ => .pure _

theorem reads_consumeFieldValueD (depth num : ℕ) (typ : WireType) :
    Reads (consumeFieldValueD depth num typ) := by
  induction depth generalizing num typ with
  | zero =>
    cases typ with
    | varint => exact reads_consumeVarint.skip
    | fixed32 => exact (reads_consumeFixed 4).skip
    | fixed64 => exact (reads_consumeFixed 8).skip
    | bytes => exact reads_consumeBytes.skip
    | startGroup | endGroup | reserved6 | reserved7 => exact .throw _
  | succ depth ih =>
    cases typ with
    | varint => exact reads_consumeVarint.skip
    | fixed32 => exact (reads_consumeFixed 4).skip
    | fixed64 => exact (reads_consumeFixed 8).skip
    | bytes => exact reads_consumeBytes.skip
    | startGroup =>
      constructor
      · intro data u rest more h
        refine consumeGroupFrom_mono ?_ ((reads_consumeGroupFrom ih num data.length).append more h)
        rw [List.length_append]
        omega
      · intro data u rest h
        exact (reads_consumeGroupFrom ih num data.length).length_le h
    | endGroup | reserved6 | reserved7 => exact .throw _

/-! ## UTF-8 -/

/-- The second byte of a character, by the first one. -/
def acceptRange (a : ℕ) : ℕ × ℕ :=
  if a = 0xE0 then (0xA0, 0xBF)
  else if a = 0xED then (0x80, 0x9F)
  else if a = 0xF0 then (0x90, 0xBF)
  else if a = 0xF4 then (0x80, 0x8F)
  else (0x80, 0xBF)

/-- The byte is in the range, with its ends. -/
def inRange (range : ℕ × ℕ) (b : Byte) : Bool :=
  range.1 ≤ b.toNat && b.toNat ≤ range.2

/-- The characters of a text, if it is valid. -/
def runes : Bytes → Option (List ℕ)
  | [] => some []
  | a :: rest =>
    if a.toNat < 0x80 then (runes rest).map (a.toNat :: ·)
    else match rest with
      | [] => none
      | b :: rest =>
        if 0xC2 ≤ a.toNat ∧ a.toNat ≤ 0xDF then
          if inRange (0x80, 0xBF) b then
            (runes rest).map ((a.toNat % 32 * 64 + b.toNat % 64) :: ·)
          else none
        else match rest with
          | [] => none
          | c :: rest =>
            if 0xE0 ≤ a.toNat ∧ a.toNat ≤ 0xEF then
              if inRange (acceptRange a.toNat) b && inRange (0x80, 0xBF) c then
                (runes rest).map
                  ((a.toNat % 16 * 4096 + b.toNat % 64 * 64 + c.toNat % 64) :: ·)
              else none
            else match rest with
              | [] => none
              | d :: rest =>
                if 0xF0 ≤ a.toNat ∧ a.toNat ≤ 0xF4 then
                  if inRange (acceptRange a.toNat) b && inRange (0x80, 0xBF) c &&
                      inRange (0x80, 0xBF) d then
                    (runes rest).map ((a.toNat % 8 * 262144 + b.toNat % 64 * 4096 +
                      c.toNat % 64 * 64 + d.toNat % 64) :: ·)
                  else none
                else none

/-- `utf8.Valid`. -/
def utf8Valid (data : Bytes) : Bool :=
  (runes data).isSome

example : runes [0x68#8, 0xC3#8, 0xA9#8, 0xE2#8, 0x82#8, 0xAC#8, 0xF0#8, 0x9F#8, 0x90#8, 0x95#8] =
    some [0x68, 0xE9, 0x20AC, 0x1F415] := by
  decide

/-! ### ASCII -/

/-- Every byte is below `0x80`. -/
def IsASCII (b : Bytes) : Prop :=
  ∀ x ∈ b, x.toNat < 0x80

instance (b : Bytes) : Decidable (IsASCII b) :=
  inferInstanceAs (Decidable (∀ x ∈ b, _))

theorem IsASCII.append {a b : Bytes} (ha : IsASCII a) (hb : IsASCII b) : IsASCII (a ++ b) :=
  List.forall_mem_append.mpr ⟨ha, hb⟩

theorem IsASCII.cons {x : Byte} {b : Bytes} (hx : x.toNat < 0x80) (hb : IsASCII b) :
    IsASCII (x :: b) :=
  List.forall_mem_cons.mpr ⟨hx, hb⟩

/-- No byte below `0x80` follows the first one of a longer character. -/
theorem inRange_of_lt {a : ℕ} {b : Byte} (h : b.toNat < 0x80) :
    inRange (acceptRange a) b = false ∧ inRange (0x80, 0xBF) b = false := by
  constructor
  · unfold acceptRange
    split_ifs <;> simp only [inRange, Bool.and_eq_false_iff, decide_eq_false_iff_not] <;> omega
  · simp only [inRange, Bool.and_eq_false_iff, decide_eq_false_iff_not]
    omega

theorem isSome_runes_of_isASCII : ∀ {b : Bytes}, IsASCII b → (runes b).isSome = true
  | [], _ => by rw [runes.eq_def]; rfl
  | x :: b, h => by
    obtain ⟨hx, hb⟩ := List.forall_mem_cons.mp h
    rw [runes.eq_def]
    simp only
    rw [if_pos hx, Option.isSome_map]
    exact isSome_runes_of_isASCII hb

/-- What is ASCII does not complete a character. -/
theorem runes_of_incomplete {b : Bytes} (hb : IsASCII b) {a : Byte} (ha : ¬a.toNat < 0x80) :
    runes (a :: b) = none ∧
    (¬(0xC2 ≤ a.toNat ∧ a.toNat ≤ 0xDF) → ∀ d, runes (a :: d :: b) = none) ∧
    (¬(0xC2 ≤ a.toNat ∧ a.toNat ≤ 0xDF) → ¬(0xE0 ≤ a.toNat ∧ a.toNat ≤ 0xEF) →
      ∀ d d', runes (a :: d :: d' :: b) = none) := by
  cases b with
  | nil =>
    refine ⟨?_, fun h2 d => ?_, fun h2 h3 d d' => ?_⟩ <;> rw [runes.eq_def] <;> simp [*]
  | cons y b =>
    obtain ⟨haccept, hrange⟩ := @inRange_of_lt a.toNat y (hb y List.mem_cons_self)
    refine ⟨?_, fun h2 d => ?_, fun h2 h3 d d' => ?_⟩
    · cases b with
      | nil => rw [runes.eq_def]; simp [*]
      | cons z b => cases b <;> rw [runes.eq_def] <;> simp [*]
    · cases b <;> rw [runes.eq_def] <;> simp [*]
    · rw [runes.eq_def]
      simp [*]

/-- What is ASCII may follow a text, and makes no text of what is none. -/
theorem isSome_runes_append {b : Bytes} (hb : IsASCII b) (a : Bytes) :
    (runes (a ++ b)).isSome = (runes a).isSome := by
  fun_induction runes a with
  | case1 => exact isSome_runes_of_isASCII hb
  | case2 a rest ha ih =>
    rw [List.cons_append, runes.eq_def]
    simp [*]
  | case3 a ha => exact congrArg Option.isSome (runes_of_incomplete hb ha).1
  | case4 a ha d rest h2 hd ih =>
    rw [List.cons_append, List.cons_append, runes.eq_def]
    simp [*]
  | case5 a ha d rest h2 hd =>
    rw [List.cons_append, List.cons_append, runes.eq_def]
    simp [*]
  | case6 a ha d h2 => exact congrArg Option.isSome ((runes_of_incomplete hb ha).2.1 h2 d)
  | case7 a ha d h2 d' rest h3 hd ih =>
    simp only [List.cons_append]
    rw [runes.eq_def]
    simp [*]
  | case8 a ha d h2 d' rest h3 hd =>
    simp only [List.cons_append]
    rw [runes.eq_def]
    simp [*]
  | case9 a ha d h2 d' h3 =>
    exact congrArg Option.isSome ((runes_of_incomplete hb ha).2.2 h2 h3 d d')
  | case10 a ha d h2 d' h3 d'' rest h4 hd ih =>
    simp only [List.cons_append]
    rw [runes.eq_def]
    simp [*]
  | case11 a ha d h2 d' h3 d'' rest h4 hd =>
    simp only [List.cons_append]
    rw [runes.eq_def]
    simp [*]
  | case12 a ha d h2 d' h3 d'' rest h4 =>
    simp only [List.cons_append]
    rw [runes.eq_def]
    simp [*]

theorem utf8Valid_of_isASCII {b : Bytes} (hb : IsASCII b) : utf8Valid b = true :=
  isSome_runes_of_isASCII hb

end Corgi
