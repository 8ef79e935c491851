import Mathlib.Order.Bounds.Basic
import Corgi.Channel

/-!
# Where a buffer is placed

`WriteAllocated` checks extents one by one until those checked hold the buffer, and submits
nothing before that. So it looks at the shortest prefix of the extents that is long enough
(`PrefixFits`), and the last extent of it may be used in part (`clip`).

`writeAllocated_exact` : the call succeeds exactly if that prefix exists and is made of whole
blocks. Then the buffer is at the first addresses of the extents, in order, and nowhere else
(`Places`). If not, nothing is written. `writeAllocated_splitResults` : how the addresses are
cut into extents does not matter.
-/

namespace Corgi

/-! ## The extents that are needed -/

/-- The addresses of extents, in order. -/
def addresses (results : List Result) : List ℕ :=
  results.flatMap fun r => List.range' r.offset.toNat r.size.toNat

/-- The size of the first `n` extents. -/
def prefixSize (results : List Result) (n : ℕ) : ℤ :=
  ((results.take n).map Result.size).sum

/-- The shortest prefix of the extents that holds `length` bytes is there, and it is made of
whole blocks. -/
def PrefixFits (results : List Result) (length : ℕ) : Prop :=
  ∃ n, IsLeast {n | (length : ℤ) ≤ prefixSize results n} n ∧ Blockwise (results.take n)

/-- The extents of the first `length` bytes. -/
def clip : List Result → ℕ → List Result
  | _, 0 => []
  | [], _ + 1 => []
  | r :: results, length + 1 =>
    ⟨r.offset, min r.size (length + 1)⟩ :: clip results (length + 1 - r.size.toNat)

section PrefixFits

variable {r : Result} {results : List Result} {length : ℕ}

theorem blockwise_cons_iff : Blockwise (r :: results) ↔ Blockwise [r] ∧ Blockwise results := by
  rw [Blockwise, Blockwise, Blockwise, List.forall_mem_cons, List.forall_mem_singleton]

theorem validateAlignedResult_eq_ok_iff : validateAlignedResult r = .ok () ↔ Blockwise [r] := by
  rw [Blockwise, List.forall_mem_singleton, validateAlignedResult]
  split_ifs with h1 h2 h3
  · exact iff_of_false (by simp) (by omega)
  · exact iff_of_false (by simp) (by omega)
  · exact iff_of_false (by simp) (by omega)
  · exact iff_of_true rfl (by omega)

theorem prefixSize_zero : prefixSize results 0 = 0 :=
  rfl

theorem prefixSize_succ (n : ℕ) :
    prefixSize (r :: results) (n + 1) = r.size + prefixSize results n := by
  rw [prefixSize, List.take_succ_cons, List.map_cons, List.sum_cons, prefixSize]

theorem prefixFits_iff : PrefixFits results length ↔ ∃ n, (length : ℤ) ≤ prefixSize results n ∧
    (∀ m, (length : ℤ) ≤ prefixSize results m → n ≤ m) ∧ Blockwise (results.take n) := by
  simp only [← and_assoc]
  rfl

theorem prefixFits_zero : PrefixFits results 0 :=
  prefixFits_iff.mpr ⟨0, le_rfl, fun _ _ => Nat.zero_le _, by simp [Blockwise]⟩

theorem not_prefixFits_nil : ¬PrefixFits [] (length + 1) := by
  rw [prefixFits_iff]
  rintro ⟨n, hn, -⟩
  rw [prefixSize, List.take_nil, List.map_nil, List.sum_nil] at hn
  omega

/-- The first extent is checked, and then those for what is left. -/
theorem prefixFits_cons_iff : PrefixFits (r :: results) (length + 1) ↔
    Blockwise [r] ∧ PrefixFits results (length + 1 - r.size.toNat) := by
  have hzero := @prefixSize_zero (r :: results)
  rw [prefixFits_iff]
  constructor
  · rintro ⟨n, hn, hleast, hblock⟩
    cases n with
    | zero => omega
    | succ n =>
      rw [prefixSize_succ] at hn
      rw [List.take_succ_cons, blockwise_cons_iff] at hblock
      have hpos := (hblock.1 r List.mem_cons_self).2.1
      refine ⟨hblock.1, ?_⟩
      by_cases hlong : (length + 1 : ℤ) ≤ r.size
      · rw [Nat.sub_eq_zero_of_le (by omega)]
        exact prefixFits_zero
      · refine prefixFits_iff.mpr ⟨n, by omega, fun m hm => ?_, hblock.2⟩
        have hle := hleast (m + 1) (by rw [prefixSize_succ]; omega)
        omega
  · rintro ⟨hr, hrest⟩
    obtain ⟨n, hn, hleast, hblock⟩ := prefixFits_iff.mp hrest
    have hpos := (hr r List.mem_cons_self).2.1
    refine ⟨n + 1, by rw [prefixSize_succ]; omega, fun m hm => ?_,
      blockwise_cons_iff.mpr ⟨hr, hblock⟩⟩
    cases m with
    | zero => omega
    | succ m =>
      rw [prefixSize_succ] at hm
      -- If the first extent is long enough, no other one is needed.
      by_cases hlong : (length + 1 : ℤ) ≤ r.size
      · have hle := hleast 0 (by rw [prefixSize_zero]; omega)
        omega
      · have hle := hleast m (by omega)
        omega

end PrefixFits

/-! ## The first bytes of extents -/

theorem mem_addresses {results : List Result} {a : ℕ} :
    a ∈ addresses results ↔ ∃ r ∈ results, r.HasByte a := by
  simp only [addresses, List.mem_flatMap, List.mem_range'_1, Result.HasByte]

theorem nodup_addresses_iff {results : List Result} : (addresses results).Nodup ↔
    results.Pairwise fun r t => ∀ a, r.HasByte a → ¬t.HasByte a := by
  rw [addresses, List.nodup_flatMap]
  refine (and_iff_right fun r _ => List.nodup_range').trans (List.Pairwise.iff fun r t => ?_)
  simp only [Function.onFun, List.Disjoint, List.mem_range'_1, Result.HasByte]

theorem Disk.extents_eq (disk : Disk) (results : List Result) :
    disk.extents results = (addresses results).map disk := by
  rw [Disk.extents, addresses, List.map_flatMap]
  rfl

theorem addresses_cons (r : Result) (results : List Result) :
    addresses (r :: results) =
      List.range' r.offset.toNat r.size.toNat ++ addresses results :=
  rfl

theorem addresses_clip : ∀ (results : List Result) (length : ℕ),
    addresses (clip results length) = (addresses results).take length
  | _, 0 => by rw [clip, List.take_zero]; rfl
  | [], _ + 1 => by rw [clip]; rfl
  | r :: results, length + 1 => by
    have hneed : (min r.size (length + 1 : ℤ)).toNat = min (length + 1) r.size.toNat := by omega
    have hrec := addresses_clip results (length + 1 - r.size.toNat)
    rw [clip, addresses_cons, addresses_cons, hneed, hrec, List.take_append, List.length_range',
      take_range']

theorem byteCount_clip : ∀ {results : List Result} {length : ℕ}, PrefixFits results length →
    byteCount (clip results length) = length
  | _, 0, _ => by rw [clip]; rfl
  | [], _ + 1, h => absurd h not_prefixFits_nil
  | r :: results, length + 1, h => by
    obtain ⟨hr, hrest⟩ := prefixFits_cons_iff.mp h
    have hrec := byteCount_clip hrest
    have hpos := (hr r List.mem_cons_self).2.1
    rw [byteCount, clip, List.map_cons, List.sum_cons, ← byteCount, hrec]
    simp only
    omega

theorem hasByte_of_mem_clip : ∀ {results : List Result} {length : ℕ}, PrefixFits results length →
    ∀ t ∈ clip results length, ∃ r ∈ results, ∀ a, t.HasByte a →
      r.offset ≤ a ∧ (a : ℤ) < r.offset + r.size
  | _, 0, _ => by rw [clip]; simp
  | [], _ + 1, h => absurd h not_prefixFits_nil
  | r :: results, length + 1, h => by
    obtain ⟨hr, hrest⟩ := prefixFits_cons_iff.mp h
    rw [clip, List.forall_mem_cons]
    refine ⟨⟨r, List.mem_cons_self, fun a ha => ?_⟩, fun t ht => ?_⟩
    · have hpos := hr r List.mem_cons_self
      simp only [Result.HasByte] at ha
      omega
    · obtain ⟨r', hr', hbyte⟩ := hasByte_of_mem_clip hrest t ht
      exact ⟨r', List.mem_cons_of_mem _ hr', hbyte⟩

/-- Extents no two of which have an address in common. -/
def DisjointExtents (results : List Result) : Prop :=
  results.Pairwise fun r t => ∀ x, r.offset ≤ x → x < r.offset + r.size → t.offset ≤ x →
    ¬x < t.offset + t.size

theorem DisjointExtents.clip : ∀ {results : List Result} {length : ℕ}, DisjointExtents results →
    PrefixFits results length →
    (clip results length).Pairwise fun r t => ∀ a, r.HasByte a → ¬t.HasByte a
  | _, 0, _, _ => by rw [Corgi.clip]; exact .nil
  | [], _ + 1, _, h => absurd h not_prefixFits_nil
  | r :: results, length + 1, hdisjoint, h => by
    obtain ⟨hfirst, hdisjoint⟩ := List.pairwise_cons.mp hdisjoint
    obtain ⟨hr, hrest⟩ := prefixFits_cons_iff.mp h
    rw [Corgi.clip]
    refine List.pairwise_cons.mpr ⟨fun t ht a ha hta => ?_, DisjointExtents.clip hdisjoint hrest⟩
    obtain ⟨r', hr', hbyte⟩ := hasByte_of_mem_clip hrest t ht
    have hpos := hr r List.mem_cons_self
    simp only [Result.HasByte] at ha
    exact hfirst r' hr' a (by omega) (by omega) (hbyte a hta).1 (hbyte a hta).2

/-- The reader takes the first bytes of the extents. -/
theorem readResults_of_prefixFits (disk : Disk) : ∀ {results : List Result} {length : ℕ},
    PrefixFits results length →
    readResults disk results length = .ok (((addresses results).take length).map disk)
  | _, 0, _ => by rw [readResults, List.take_zero, List.map_nil]
  | [], _ + 1, h => absurd h not_prefixFits_nil
  | r :: results, length + 1, h => by
    obtain ⟨hr, hrest⟩ := prefixFits_cons_iff.mp h
    have hpos := (hr r List.mem_cons_self).2.1
    have hneed : (min r.size (length + 1 : ℤ)).toNat = min (length + 1) r.size.toNat := by omega
    have hleft : length + 1 - min (length + 1) r.size.toNat = length + 1 - r.size.toNat := by omega
    rw [readResults, if_neg (by omega), hneed, hleft, readResults_of_prefixFits disk hrest,
      addresses_cons, List.take_append, List.length_range', take_range', List.map_append]
    rfl

/-! ## Cutting the buffer -/

section Cut

variable {data : Bytes} {r : Result} {results : List Result} {cursor : ℕ}

/-- A turn of the loop on whole blocks. -/
theorem buildSegments_cons (hdata : data.length % 4096 = 0) (hcursor : cursor % 4096 = 0)
    (hlt : cursor < data.length) (hr : Blockwise [r]) {need : ℕ}
    (hneed : need = min r.size.toNat (data.length - cursor)) :
    buildSegments data (r :: results) none cursor =
      (buildSegments data results none (cursor + need)).map fun cut =>
        (⟨(data.drop cursor).take need, r.offset.toNat⟩ :: cut.1, cut.2) := by
  obtain ⟨-, hpos, -, hsize⟩ := hr r List.mem_cons_self
  have hmin : min r.size (data.length - cursor : ℤ) = need := by omega
  rw [buildSegments]
  simp only [Context.check]
  rw [if_neg (by omega), validateAlignedResult_eq_ok_iff.mpr hr]
  simp only [hmin]
  rw [if_neg (by omega), Int.toNat_natCast]
  cases buildSegments data results none (cursor + need) <;> rfl

theorem buildSegments_of_le (hle : data.length ≤ cursor) :
    buildSegments data results none cursor = .ok ([], cursor, none) := by
  cases results with
  | nil => rfl
  | cons r results =>
    rw [buildSegments]
    simp only [Context.check]
    rw [if_pos hle]

/-- Along a prefix that fits, the buffer is cut to its end. -/
theorem buildSegments_of_prefixFits (hdata : data.length % 4096 = 0) :
    ∀ (results : List Result) (cursor : ℕ), cursor ≤ data.length → cursor % 4096 = 0 →
    PrefixFits results (data.length - cursor) →
    buildSegments data results none cursor =
      .ok (layout (clip results (data.length - cursor)) (data.drop cursor), data.length, none)
  | results, cursor, hle, hcursor, h => by
    rcases hle.eq_or_lt with rfl | hlt
    · rw [buildSegments_of_le (le_refl _), Nat.sub_self, clip]
      rfl
    · obtain ⟨length, hlen⟩ := Nat.exists_eq_add_one_of_ne_zero (Nat.sub_ne_zero_of_lt hlt)
      rw [hlen] at h ⊢
      cases results with
      | nil => exact absurd h not_prefixFits_nil
      | cons r results =>
        obtain ⟨hr, hrest⟩ := prefixFits_cons_iff.mp h
        obtain ⟨-, hpos, -, hsize⟩ := hr r List.mem_cons_self
        obtain ⟨need, hneed⟩ : ∃ need, need = min r.size.toNat (data.length - cursor) := ⟨_, rfl⟩
        have hleft : data.length - (cursor + need) = length + 1 - r.size.toNat := by omega
        have hmin : (min r.size (length + 1 : ℤ)).toNat = need := by omega
        have hrec := buildSegments_of_prefixFits hdata results (cursor + need)
          (by omega) (by omega) (hleft ▸ hrest)
        rw [buildSegments_cons hdata hcursor hlt hr hneed, hrec, hleft, clip, layout, hmin,
          List.drop_drop]
        rfl

/-- Otherwise it is not, whether an extent is refused or the extents are used up. -/
theorem buildSegments_of_not_prefixFits (hdata : data.length % 4096 = 0) :
    ∀ (results : List Result) (cursor : ℕ), cursor ≤ data.length → cursor % 4096 = 0 →
    ¬PrefixFits results (data.length - cursor) →
    (∃ e, buildSegments data results none cursor = .error e) ∨
    ∃ segments stop, buildSegments data results none cursor = .ok (segments, stop, none) ∧
      stop ≠ data.length
  | results, cursor, hle, hcursor, h => by
    rcases hle.eq_or_lt with rfl | hlt
    · rw [Nat.sub_self] at h
      exact absurd prefixFits_zero h
    · obtain ⟨length, hlen⟩ := Nat.exists_eq_add_one_of_ne_zero (Nat.sub_ne_zero_of_lt hlt)
      rw [hlen] at h
      cases results with
      | nil => exact Or.inr ⟨[], cursor, rfl, hlt.ne⟩
      | cons r results =>
        rw [prefixFits_cons_iff, not_and] at h
        by_cases hr : Blockwise [r]
        · obtain ⟨-, hpos, -, hsize⟩ := hr r List.mem_cons_self
          obtain ⟨need, hneed⟩ : ∃ need, need = min r.size.toNat (data.length - cursor) := ⟨_, rfl⟩
          have hleft : data.length - (cursor + need) = length + 1 - r.size.toNat := by omega
          have hrec := buildSegments_of_not_prefixFits hdata results (cursor + need)
            (by omega) (by omega) (hleft ▸ h hr)
          rw [buildSegments_cons hdata hcursor hlt hr hneed]
          rcases hrec with ⟨e, hrec⟩ | ⟨segments, stop, hrec, hstop⟩
          · exact Or.inl ⟨e, by rw [hrec]; rfl⟩
          · exact Or.inr ⟨_, stop, by rw [hrec]; rfl, hstop⟩
        · left
          rw [buildSegments]
          simp only [Context.check]
          rw [if_neg (by omega)]
          cases hvalid : validateAlignedResult r with
          | error e => exact ⟨_, rfl⟩
          | ok u => exact absurd (validateAlignedResult_eq_ok_iff.mp hvalid) hr

end Cut

/-! ## Writing the buffer -/

/-- `disk'` is `disk` with `data` at the first addresses of the extents. -/
structure Places (disk : Disk) (data : Bytes) (results : List Result) (disk' : Disk) : Prop where
  stored : ((addresses results).take data.length).map disk' = data
  kept : ∀ a ∉ (addresses results).take data.length, disk' a = disk a

/-- Only the order of the addresses matters, not how they are cut into extents. -/
theorem Places.unique {disk disk₁ disk₂ : Disk} {data : Bytes} {results₁ results₂ : List Result}
    (h₁ : Places disk data results₁ disk₁) (h₂ : Places disk data results₂ disk₂)
    (h : addresses results₁ = addresses results₂) : disk₁ = disk₂ := by
  funext a
  by_cases ha : a ∈ (addresses results₁).take data.length
  · have hmap := h₁.stored.trans h₂.stored.symm
    rw [← h] at hmap
    exact List.map_inj_left.mp hmap a ha
  · rw [h₁.kept a ha, h₂.kept a (h ▸ ha)]

theorem Places.exists_address {disk disk' : Disk} {data : Bytes} {results : List Result}
    (h : Places disk data results disk') {k : ℕ} (hk : k < data.length) :
    ∃ a, (addresses results)[k]? = some a ∧ data[k]? = some (disk' a) := by
  have hget := congrArg (·[k]?) h.stored
  simp only [List.getElem?_map, List.getElem?_take_of_lt hk] at hget
  rw [List.getElem?_eq_getElem hk, Option.map_eq_some_iff] at hget
  obtain ⟨a, ha, hbyte⟩ := hget
  exact ⟨a, ha, by rw [hbyte, List.getElem?_eq_getElem hk]⟩

section Write

variable {outcome : Segment → SubmitOutcome} {data : Bytes} {results : List Result}

theorem writeAllocated_of_prefixFits (hfull : Completes outcome) (disk : Disk) (hne : data ≠ [])
    (hdata : data.length % 4096 = 0) (h : PrefixFits results data.length) :
    writeAllocated outcome none disk data results =
      (disk.writeAll (layout (clip results data.length) data), data.length, none) := by
  have hbuild := buildSegments_of_prefixFits hdata results 0 (Nat.zero_le _) rfl h
  rw [Nat.sub_zero, List.drop_zero] at hbuild
  rw [writeAllocated, if_neg hne, if_neg (not_not.mpr hdata), hbuild]
  simp only [ne_eq, not_true_eq_false, if_false]
  rw [submitSegments_full hfull, sum_length_layout (byteCount_clip h).symm, Nat.zero_add]

theorem places_writeAllocated (hfull : Completes outcome) (disk : Disk) (hne : data ≠ [])
    (hdata : data.length % 4096 = 0) (h : PrefixFits results data.length)
    (hnodup : ((addresses results).take data.length).Nodup) :
    Places disk data results (writeAllocated outcome none disk data results).1 := by
  rw [writeAllocated_of_prefixFits hfull disk hne hdata h]
  rw [← addresses_clip] at hnodup
  have hstored := extents_writeAll_layout disk (nodup_addresses_iff.mp hnodup)
    (byteCount_clip h).symm
  rw [Disk.extents_eq, addresses_clip] at hstored
  refine ⟨hstored, fun a ha => writeAll_layout_of_not_hasByte fun r hr hbyte => ha ?_⟩
  rw [← addresses_clip, mem_addresses]
  exact ⟨r, hr, hbyte⟩

/-- Nothing is submitted before the whole buffer is cut. -/
theorem writeAllocated_of_not_prefixFits (hne : data ≠ []) (hdata : data.length % 4096 = 0)
    (h : ¬PrefixFits results data.length) : ∃ n e, ∀ outcome disk,
    writeAllocated outcome none disk data results = (disk, n, some e) := by
  rcases buildSegments_of_not_prefixFits hdata results 0 (Nat.zero_le _) rfl h with
    ⟨⟨cursor, e⟩, hbuild⟩ | ⟨segments, stop, hbuild, hstop⟩
  · refine ⟨cursor, e, fun outcome disk => ?_⟩
    rw [writeAllocated, if_neg hne, if_neg (not_not.mpr hdata), hbuild]
  · refine ⟨0, .shortWrite, fun outcome disk => ?_⟩
    rw [writeAllocated, if_neg hne, if_neg (not_not.mpr hdata), hbuild]
    simp only
    rw [if_pos hstop]

/-- A buffer of whole blocks is written exactly if the shortest prefix of the extents that
can hold it is made of whole blocks. It is then at the first addresses of the extents, and
is read back. Otherwise the error comes before anything is submitted. -/
theorem writeAllocated_exact (hfull : Completes outcome) (disk : Disk) (hne : data ≠ [])
    (hdata : data.length % 4096 = 0) (hdisjoint : DisjointExtents results) :
    ((writeAllocated outcome none disk data results).2 = (data.length, none) ↔
      PrefixFits results data.length) ∧
    (PrefixFits results data.length →
      (∀ k < data.length, ∃ a, (addresses results)[k]? = some a ∧
        data[k]? = some ((writeAllocated outcome none disk data results).1 a)) ∧
      (∀ a ∉ (addresses results).take data.length,
        (writeAllocated outcome none disk data results).1 a = disk a) ∧
      readResults (writeAllocated outcome none disk data results).1 results data.length =
        .ok data) ∧
    (¬PrefixFits results data.length → ∃ n e, ∀ outcome disk,
      writeAllocated outcome none disk data results = (disk, n, some e)) := by
  refine ⟨?_, fun h => ?_, writeAllocated_of_not_prefixFits hne hdata⟩
  · by_cases h : PrefixFits results data.length
    · rw [writeAllocated_of_prefixFits hfull disk hne hdata h]
      exact iff_of_true rfl h
    · obtain ⟨n, e, hwrite⟩ := writeAllocated_of_not_prefixFits hne hdata h
      rw [hwrite]
      exact iff_of_false (by simp) h
  · have hnodup : ((addresses results).take data.length).Nodup := by
      rw [← addresses_clip]
      exact nodup_addresses_iff.mpr (hdisjoint.clip h)
    have hplaces := places_writeAllocated hfull disk hne hdata h hnodup
    refine ⟨fun k hk => hplaces.exists_address hk, hplaces.kept, ?_⟩
    rw [readResults_of_prefixFits _ h, hplaces.stored]

/-- A block in an extent of two : the second one is left as it was. -/
theorem writeAllocated_exact_partial_last :
    let write := writeAllocated SubmitOutcome.full none (fun _ => 0#8) (List.replicate 4096 1#8)
      [⟨8192, 8192⟩]
    write.2 = (4096, none) ∧ write.1 12288 = 0#8 ∧
      readResults write.1 [⟨8192, 8192⟩] 4096 = .ok (List.replicate 4096 1#8) := by
  have hwrite : ∀ data : Bytes, data.length = 4096 →
      let write := writeAllocated SubmitOutcome.full none (fun _ => 0#8) data [⟨8192, 8192⟩]
      write.2 = (4096, none) ∧ write.1 12288 = 0#8 ∧
        readResults write.1 [⟨8192, 8192⟩] 4096 = .ok data := by
    intro data hlen
    have hfits : PrefixFits [⟨8192, 8192⟩] data.length := by
      rw [hlen]
      refine prefixFits_iff.mpr ⟨1, by decide, fun m hm => ?_, by simp [Blockwise]⟩
      cases m with
      | zero => exact absurd hm (by decide)
      | succ m => omega
    have hne : data ≠ [] := List.ne_nil_of_length_pos (by omega)
    obtain ⟨hwritten, hplaced, -⟩ := writeAllocated_exact completes_full (fun _ => 0#8) hne
      (by omega) (List.pairwise_singleton _ (⟨8192, 8192⟩ : Result))
    obtain ⟨-, hkept, hread⟩ := hplaced hfits
    have htail : 12288 ∉ (addresses [⟨8192, 8192⟩]).take data.length := by
      rw [hlen, ← addresses_clip, mem_addresses]
      simp [clip, Result.HasByte]
    rw [hlen] at hwritten hread
    exact ⟨hwritten.mpr (hlen ▸ hfits), hkept _ htail, hread⟩
  exact hwrite _ List.length_replicate

end Write

/-! ## Extents cut smaller -/

/-- The inner loop of `splitResults`. -/
def splitExtent (maxSize : ℤ) (hmax : 0 < maxSize) (offset left : ℤ) : List Result :=
  if 0 < left then
    ⟨offset, min maxSize left⟩ ::
      splitExtent maxSize hmax (offset + min maxSize left) (left - min maxSize left)
  else []
termination_by left.toNat

/-- Cut extents into pieces of at most `maxSize` bytes. -/
def splitResults (results : List Result) (maxSize : ℤ) : List Result :=
  if hmax : 0 < maxSize then results.flatMap fun r => splitExtent maxSize hmax r.offset r.size
  else results

theorem splitExtent_spec {maxSize : ℤ} (hmax : 0 < maxSize) (hblock : maxSize % 4096 = 0)
    (offset left : ℤ) (hpos : 0 ≤ offset) (ho : offset % 4096 = 0) (hl : left % 4096 = 0) :
    Blockwise (splitExtent maxSize hmax offset left) ∧
      addresses (splitExtent maxSize hmax offset left) =
        List.range' offset.toNat left.toNat := by
  induction offset, left using splitExtent.induct maxSize hmax with
  | case1 offset left hleft ih =>
    obtain ⟨hrec, haddr⟩ := ih (by omega) (by omega) (by omega)
    rw [splitExtent, if_pos hleft, addresses_cons, haddr]
    refine ⟨blockwise_cons_iff.mpr ⟨?_, hrec⟩, ?_⟩
    · simp only [Blockwise, List.forall_mem_singleton]
      omega
    · have hstart : (offset + min maxSize left).toNat =
          offset.toNat + (min maxSize left).toNat := by omega
      have hsum : left.toNat = (min maxSize left).toNat + (left - min maxSize left).toNat := by
        omega
      rw [hstart, hsum, List.range'_append_1]
  | case2 offset left hleft =>
    rw [splitExtent, if_neg hleft, show left.toNat = 0 by omega]
    exact ⟨by simp [Blockwise], rfl⟩

theorem splitResults_spec {results : List Result} {maxSize : ℤ} (hmax : maxSize % 4096 = 0)
    (h : Blockwise results) : Blockwise (splitResults results maxSize) ∧
      addresses (splitResults results maxSize) = addresses results := by
  rw [splitResults]
  split_ifs with hpos
  · have hsplit : ∀ r ∈ results, _ := fun r hr =>
      splitExtent_spec hpos hmax r.offset r.size (h r hr).1 (h r hr).2.2.1 (h r hr).2.2.2
    refine ⟨fun t ht => ?_, ?_⟩
    · obtain ⟨r, hr, ht⟩ := List.mem_flatMap.mp ht
      exact (hsplit r hr).1 t ht
    · rw [addresses, addresses, List.flatMap_assoc]
      exact List.flatMap_congr fun r hr => (hsplit r hr).2
  · exact ⟨h, rfl⟩

theorem length_addresses (results : List Result) :
    (addresses results).length = byteCount results := by
  rw [addresses, List.length_flatMap]
  simp only [List.length_range']
  rfl

theorem prefixFits_of_blockwise : ∀ {results : List Result} {length : ℕ}, Blockwise results →
    length ≤ byteCount results → PrefixFits results length
  | _, 0, _, _ => prefixFits_zero
  | [], length + 1, _, hle => absurd hle (by simp [byteCount])
  | r :: results, length + 1, h, hle => by
    rw [byteCount, List.map_cons, List.sum_cons, ← byteCount] at hle
    obtain ⟨hr, hrest⟩ := blockwise_cons_iff.mp h
    exact prefixFits_cons_iff.mpr ⟨hr, prefixFits_of_blockwise hrest (by omega)⟩

/-- It does not matter into which pieces of whole blocks the extents are cut. -/
theorem writeAllocated_splitResults {outcome : Segment → SubmitOutcome} {data : Bytes}
    {results : List Result} {maxSize : ℤ} (hfull : Completes outcome) (disk : Disk)
    (hne : data ≠ []) (hdata : data.length % 4096 = 0) (hmax : maxSize % 4096 = 0)
    (hblock : Blockwise results) (hnodup : (addresses results).Nodup)
    (hle : data.length ≤ byteCount results) :
    writeAllocated outcome none disk data (splitResults results maxSize) =
      writeAllocated outcome none disk data results := by
  obtain ⟨hsplit, haddr⟩ := splitResults_spec hmax hblock
  have hfits := prefixFits_of_blockwise hblock hle
  have hfits' : PrefixFits (splitResults results maxSize) data.length :=
    prefixFits_of_blockwise hsplit (by rwa [← length_addresses, haddr, length_addresses])
  have htake := hnodup.sublist (List.take_sublist data.length _)
  have hplaces := places_writeAllocated hfull disk hne hdata hfits htake
  have hplaces' := places_writeAllocated hfull disk hne hdata hfits' (haddr ▸ htake)
  refine Prod.ext (hplaces'.unique hplaces haddr) ?_
  rw [writeAllocated_of_prefixFits hfull disk hne hdata hfits,
    writeAllocated_of_prefixFits hfull disk hne hdata hfits']

/-- An extent of two blocks, cut into blocks. -/
theorem writeAllocated_splitResults_blocks :
    splitResults [⟨0, 8192⟩] 4096 = [⟨0, 4096⟩, ⟨4096, 4096⟩] ∧
    ∃ data : Bytes, data.length = 8192 ∧
      writeAllocated SubmitOutcome.full none (fun _ => 0#8) data (splitResults [⟨0, 8192⟩] 4096) =
        writeAllocated SubmitOutcome.full none (fun _ => 0#8) data [⟨0, 8192⟩] := by
  constructor
  · rw [splitResults, dif_pos (by decide), List.flatMap_cons, List.flatMap_nil, splitExtent,
      if_pos (by decide), splitExtent, if_pos (by decide), splitExtent, if_neg (by decide)]
    rfl
  obtain ⟨data, hdata⟩ : ∃ data : Bytes, data.length = 8192 :=
    ⟨List.replicate 8192 1#8, List.length_replicate⟩
  have hne : data ≠ [] := List.ne_nil_of_length_pos (by omega)
  refine ⟨data, hdata, writeAllocated_splitResults completes_full _ hne (by omega) (by decide)
    (List.forall_mem_singleton.mpr (by decide)) ?_ ?_⟩
  · rw [addresses, List.flatMap_cons, List.flatMap_nil, List.append_nil]
    exact List.nodup_range'
  · rw [hdata]
    decide

end Corgi
