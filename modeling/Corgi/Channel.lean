import Corgi.Padding
import Corgi.Device

/-!
# Writing to and reading from the device

The model of `AioChannel.WriteAllocated`, which cuts a buffer along the extents it was
allocated and submits the pieces one after another, and of the reader that concatenates
extents. How each submitted write ends, and what of a failed one reached the disk, is left
to the kernel.

`writeAllocated_spec` : when the call succeeds on extents that were allocated for the buffer,
the extents hold the buffer and nothing else on the disk has changed.
-/

namespace Corgi

/-! ## The model -/

/-- The errors of the channel. -/
inductive ChannelError
  | alignment (kind : String) (offset size : ℤ)
  | shortWrite
  | unexpectedEOF
  | negativeLength
  | context
  | aio (text : String)
  deriving DecidableEq, Repr

/-- The text of the error. -/
def ChannelError.message : ChannelError → String
  | alignment kind offset size =>
    s!"{kind} is not 4096-byte aligned: offset={offset} size={size}"
  | shortWrite => "short write"
  | unexpectedEOF => "unexpected EOF"
  | negativeLength => "read length must be >= 0"
  | context => "context canceled"
  | aio text => text

/-- The bytes of the device, by address. -/
abbrev Disk := ℕ → Byte

/-- The disk after `data` is written at `offset`. -/
def Disk.write (disk : Disk) (offset : ℕ) (data : Bytes) : Disk := fun a =>
  if offset ≤ a ∧ a < offset + data.length then data.getD (a - offset) 0#8 else disk a

/-- The `length` bytes at `offset`. -/
def Disk.read (disk : Disk) (offset length : ℕ) : Bytes :=
  (List.range' offset length).map disk

/-- Round up to the block size. -/
def alignBlockSize (size : ℤ) : ℤ :=
  if size ≤ 0 then 0 else if size % 4096 = 0 then size else (size / 4096 + 1) * 4096

/-- A buffer of zeros, empty if the size is not positive. -/
def newAlignedBlockBuffer (size : ℤ) : Bytes :=
  if size ≤ 0 then [] else List.replicate size.toNat 0#8

/-- The checks of an extent: it is not empty, and its ends are multiples of 4096. -/
def validateAlignedResult (r : Result) : Except ChannelError Unit :=
  if r.offset < 0 ∨ r.size ≤ 0 then .error (.alignment "result" r.offset r.size)
  else if r.offset % 4096 ≠ 0 then .error (.alignment "offset" r.offset r.size)
  else if r.size % 4096 ≠ 0 then .error (.alignment "len" r.offset r.size)
  else .ok ()

/-- A buffer and where it is written. -/
structure Segment where
  data : Bytes
  offset : ℕ

/-- A context : how many more of its checks pass before it is cancelled, if it is. -/
abbrev Context := Option ℕ

/-- `ctx.Err()`. -/
def Context.check : Context → Except ChannelError Context
  | none => .ok none
  | some 0 => .error .context
  | some (k + 1) => .ok (some k)

/-- Cut `data` from `cursor` on along the extents. An error comes with the bytes cut so
far. -/
def buildSegments (data : Bytes) : List Result → Context → ℕ →
    Except (ℕ × ChannelError) (List Segment × ℕ × Context)
  | [], ctx, cursor => .ok ([], cursor, ctx)
  | r :: results, ctx, cursor =>
    match ctx.check with
    | .error e => .error (cursor, e)
    | .ok ctx =>
      if data.length ≤ cursor then .ok ([], cursor, ctx)
      else match validateAlignedResult r with
        | .error e => .error (cursor, e)
        | .ok () =>
          let need := min r.size (data.length - cursor)
          if need ≤ 0 ∨ need % 4096 ≠ 0 then .error (cursor, .alignment "len" r.offset need)
          else match buildSegments data results ctx (cursor + need.toNat) with
            | .error e => .error e
            | .ok (segments, stop) =>
              .ok (⟨(data.drop cursor).take need.toNat, r.offset.toNat⟩ :: segments, stop)

/-- How `submitAndWait` ends. `junk` is what of the rest of the data reached the disk. -/
inductive SubmitOutcome
  | submitError (text : String)
  | contextDone (junk : Bytes)
  | completed (n : ℕ) (err : Option String) (junk : Bytes)

/-- The bytes of a segment that are on the disk after `submitAndWait`. A completion of `n`
bytes has written the first `n`. -/
def SubmitOutcome.stored (data : Bytes) : SubmitOutcome → Bytes
  | submitError _ => []
  | contextDone junk => junk.take data.length
  | completed n _ junk => data.take n ++ junk.take (data.length - n)

/-- Submit the segments in order, up to the first that fails. -/
def submitSegments (outcome : Segment → SubmitOutcome) : List Segment → Context → Disk → ℕ →
    Disk × ℕ × Option ChannelError
  | [], _, disk, writtenTotal => (disk, writtenTotal, none)
  | segment :: segments, ctx, disk, writtenTotal =>
    match ctx.check with
    | .error e => (disk, writtenTotal, some e)
    | .ok ctx =>
      let disk := disk.write segment.offset ((outcome segment).stored segment.data)
      match outcome segment with
      | .submitError text => (disk, writtenTotal, some (.aio text))
      | .contextDone _ => (disk, writtenTotal, some .context)
      | .completed n (some text) _ => (disk, writtenTotal + n, some (.aio text))
      | .completed n none _ =>
        if n ≠ segment.data.length then (disk, writtenTotal + n, some .shortWrite)
        else submitSegments outcome segments ctx disk (writtenTotal + n)

/-- Write a buffer to the extents it was allocated. The buffer's address is aligned. -/
def writeAllocated (outcome : Segment → SubmitOutcome) (ctx : Context) (disk : Disk)
    (data : Bytes) (results : List Result) : Disk × ℕ × Option ChannelError :=
  if data = [] then (disk, 0, none)
  else if data.length % 4096 ≠ 0 then (disk, 0, some (.alignment "buffer" 0 data.length))
  else match buildSegments data results ctx 0 with
    | .error (cursor, e) => (disk, cursor, some e)
    | .ok (segments, cursor, ctx) =>
      if cursor ≠ data.length then (disk, 0, some .shortWrite)
      else submitSegments outcome segments ctx disk 0

/-- Read `length` bytes of extents. The extents lie on the device. -/
def readResults (disk : Disk) : List Result → ℕ → Except ChannelError Bytes
  | _, 0 => .ok []
  | [], _ + 1 => .error .unexpectedEOF
  | r :: results, length + 1 =>
    let need := min r.size (length + 1)
    if need < 0 then .error .negativeLength
    else match readResults disk results (length + 1 - need.toNat) with
      | .error e => .error e
      | .ok out => .ok (disk.read r.offset.toNat need.toNat ++ out)

/-! ## Writing and reading back -/

theorem Disk.write_nil (disk : Disk) (offset : ℕ) : disk.write offset [] = disk := by
  funext a
  rw [Disk.write, List.length_nil, if_neg (by omega)]

theorem Disk.read_congr {disk disk' : Disk} {offset length : ℕ}
    (h : ∀ a, offset ≤ a → a < offset + length → disk' a = disk a) :
    disk'.read offset length = disk.read offset length :=
  List.map_congr_left fun a ha => by
    rw [List.mem_range'_1] at ha
    exact h a ha.1 ha.2

theorem Disk.read_write (disk : Disk) (offset : ℕ) (data : Bytes) :
    (disk.write offset data).read offset data.length = data := by
  refine List.ext_getElem (by simp [Disk.read]) fun i h1 h2 => ?_
  simp only [Disk.read, List.getElem_map, List.getElem_range', Nat.one_mul]
  rw [Disk.write, if_pos (by omega), Nat.add_sub_cancel_left, List.getD_eq_getElem _ _ h2]

theorem Disk.length_read (disk : Disk) (offset length : ℕ) :
    (disk.read offset length).length = length := by
  rw [Disk.read, List.length_map, List.length_range']

theorem take_range' (s n m : ℕ) : (List.range' s n).take m = List.range' s (min m n) := by
  refine List.ext_getElem (by simp) fun i h1 h2 => ?_
  rw [List.getElem_take, List.getElem_range', List.getElem_range']

theorem Disk.take_read (disk : Disk) (offset length n : ℕ) :
    (disk.read offset length).take n = disk.read offset (min n length) := by
  rw [Disk.read, ← List.map_take, take_range', Disk.read]

/-- The pieces of `data` along extents that hold it exactly. -/
def layout : List Result → Bytes → List Segment
  | [], _ => []
  | r :: results, data =>
    ⟨data.take r.size.toNat, r.offset.toNat⟩ :: layout results (data.drop r.size.toNat)

/-- The disk with segments written in order. -/
def Disk.writeAll (disk : Disk) (segments : List Segment) : Disk :=
  segments.foldl (fun disk segment => disk.write segment.offset segment.data) disk

/-- The bytes of extents. -/
def Disk.extents (disk : Disk) (results : List Result) : Bytes :=
  results.flatMap fun r => disk.read r.offset.toNat r.size.toNat

/-- Size in bytes. -/
def byteCount (results : List Result) : ℕ :=
  (results.map fun r => r.size.toNat).sum

/-- Extents of whole blocks. -/
def Blockwise (results : List Result) : Prop :=
  ∀ r ∈ results, 0 ≤ r.offset ∧ 0 < r.size ∧ r.offset % 4096 = 0 ∧ r.size % 4096 = 0

theorem blockwise_toBytes {token : List Result} (h : ∀ r ∈ token, 0 ≤ r.offset ∧ 0 < r.size) :
    Blockwise (token.map Result.toBytes) := by
  intro t ht
  obtain ⟨r, hr, rfl⟩ := List.mem_map.mp ht
  have hpos := h r hr
  refine ⟨?_, ?_, ?_, ?_⟩ <;> simp only [Result.toBytes] <;> omega

theorem byteCount_toBytes : ∀ {token : List Result}, (∀ r ∈ token, 0 ≤ r.offset ∧ 0 < r.size) →
    byteCount (token.map Result.toBytes) = 4096 * (blocksOf token).length
  | [], _ => rfl
  | r :: token, h => by
    have ih := byteCount_toBytes fun t ht => h t (List.mem_cons_of_mem _ ht)
    have hr := (h r List.mem_cons_self).2
    rw [blocksOf_cons, List.length_append, Result.blocks, List.length_range', Nat.mul_add, ← ih]
    simp only [byteCount, List.map_cons, List.sum_cons, Result.toBytes]
    omega

theorem Context.check_cases (ctx : Context) :
    ctx.check = .error .context ∨ ∃ ctx', ctx.check = .ok ctx' ∧ (ctx = none → ctx' = none) := by
  match ctx with
  | none => exact Or.inr ⟨none, rfl, fun _ => rfl⟩
  | some 0 => exact Or.inl rfl
  | some (k + 1) => exact Or.inr ⟨some k, rfl, fun h => by simp at h⟩

/-- The segments are not empty and lie in the extents. -/
theorem buildSegments_spec (data : Bytes) : ∀ {results : List Result} {ctx ctx' : Context}
    {cursor stop : ℕ} {segments : List Segment},
    buildSegments data results ctx cursor = .ok (segments, stop, ctx') →
    (ctx = none → ctx' = none) ∧ ∀ segment ∈ segments, 0 < segment.data.length ∧
      ∃ r ∈ results, segment.offset = r.offset.toNat ∧ segment.data.length ≤ r.size.toNat
  | [], ctx, ctx', cursor, stop, segments, h => by
    rw [buildSegments] at h
    obtain ⟨rfl, hpair⟩ := Prod.mk.inj (Except.ok.inj h)
    obtain ⟨-, rfl⟩ := Prod.mk.inj hpair
    exact ⟨id, by simp⟩
  | r :: results, ctx, ctx', cursor, stop, segments, h => by
    rw [buildSegments] at h
    rcases ctx.check_cases with hctx | ⟨ctx₁, hctx, hnone⟩
    · rw [hctx] at h
      exact absurd h (by simp)
    rw [hctx] at h
    simp only at h
    by_cases hlen : data.length ≤ cursor
    · rw [if_pos hlen] at h
      obtain ⟨rfl, hpair⟩ := Prod.mk.inj (Except.ok.inj h)
      obtain ⟨-, rfl⟩ := Prod.mk.inj hpair
      exact ⟨hnone, by simp⟩
    rw [if_neg hlen] at h
    cases hvalid : validateAlignedResult r with
    | error e =>
      rw [hvalid] at h
      exact absurd h (by simp)
    | ok u =>
      rw [hvalid] at h
      simp only at h
      split_ifs at h with hneed
      generalize hrec : buildSegments data results ctx₁ _ = res at h
      obtain e | ⟨rest, stop', ctx₂⟩ := res
      · exact absurd h (by simp)
      · obtain ⟨rfl, hpair⟩ := Prod.mk.inj (Except.ok.inj h)
        obtain ⟨-, rfl⟩ := Prod.mk.inj hpair
        obtain ⟨hnone', hrest⟩ := buildSegments_spec data hrec
        refine ⟨fun h => hnone' (hnone h), List.forall_mem_cons.mpr ⟨⟨?_, r, List.mem_cons_self,
          rfl, ?_⟩, fun segment hsegment => ?_⟩⟩
        · simp only [List.length_take, List.length_drop]
          omega
        · simp only [List.length_take, List.length_drop]
          omega
        · obtain ⟨hpos, t, ht, hin⟩ := hrest segment hsegment
          exact ⟨hpos, t, List.mem_cons_of_mem _ ht, hin⟩

/-- Along extents that hold the data exactly, cutting fails only when the context is
cancelled. -/
theorem buildSegments_of_exact (data : Bytes) : ∀ (results : List Result) (ctx : Context)
    (cursor : ℕ), Blockwise results → data.length = cursor + byteCount results →
    (∃ k, ctx = some k ∧ ∃ e, buildSegments data results ctx cursor = .error e) ∨
    ∃ ctx', buildSegments data results ctx cursor =
      .ok (layout results (data.drop cursor), data.length, ctx') ∧ (ctx = none → ctx' = none)
  | [], ctx, cursor, _, hlen => by
    refine Or.inr ⟨ctx, ?_, id⟩
    rw [buildSegments, hlen]
    rfl
  | r :: results, ctx, cursor, hblock, hlen => by
    obtain ⟨h1, h2, h3, h4⟩ := hblock r List.mem_cons_self
    rw [byteCount, List.map_cons, List.sum_cons, ← byteCount] at hlen
    have hvalid : validateAlignedResult r = .ok () := by
      rw [validateAlignedResult, if_neg (by omega), if_neg (by omega), if_neg (by omega)]
    have hneed : min r.size (data.length - cursor : ℤ) = r.size := min_eq_left (by omega)
    rcases ctx.check_cases with hctx | ⟨ctx', hctx, hnone⟩
    · left
      cases ctx with
      | none => exact absurd hctx (by simp [Context.check])
      | some k => exact ⟨k, rfl, _, by rw [buildSegments, hctx]⟩
    · have hrec := buildSegments_of_exact data results ctx' (cursor + r.size.toNat)
        (fun t ht => hblock t (List.mem_cons_of_mem _ ht)) (by omega)
      rw [buildSegments, hctx]
      simp only
      rw [if_neg (by omega), hvalid]
      simp only [hneed]
      rw [if_neg (by omega)]
      rcases hrec with ⟨k, rfl, e, hrec⟩ | ⟨ctx'', hrec, hnone'⟩
      · left
        cases ctx with
        | none => exact absurd (hnone rfl) (by simp)
        | some k' => exact ⟨k', rfl, e, by rw [hrec]⟩
      · refine Or.inr ⟨ctx'', ?_, fun h => hnone' (hnone h)⟩
        rw [hrec, layout, List.drop_drop]

/-- Segments that are all submitted are all written, and with no cancellation and full
completions they are. -/
theorem submitSegments_of_none (outcome : Segment → SubmitOutcome) :
    ∀ (segments : List Segment) (ctx : Context) {disk disk' : Disk} {written written' : ℕ},
    submitSegments outcome segments ctx disk written = (disk', written', none) →
    disk' = disk.writeAll segments ∧
      written' = written + (segments.map fun segment => segment.data.length).sum
  | [], ctx, disk, disk', written, written', h => by
    obtain ⟨h1, h2⟩ := Prod.mk.inj h
    exact ⟨h1.symm, (Prod.mk.inj h2).1.symm⟩
  | segment :: segments, ctx, disk, disk', written, written', h => by
    rw [submitSegments] at h
    cases hctx : ctx.check with
    | error e =>
      rw [hctx] at h
      exact absurd (Prod.mk.inj (Prod.mk.inj h).2).2 (by simp)
    | ok ctx' =>
      rw [hctx] at h
      simp only at h
      cases hout : outcome segment with
      | submitError text =>
        rw [hout] at h
        exact absurd (Prod.mk.inj (Prod.mk.inj h).2).2 (by simp)
      | contextDone junk =>
        rw [hout] at h
        exact absurd (Prod.mk.inj (Prod.mk.inj h).2).2 (by simp)
      | completed n err junk =>
        rw [hout] at h
        cases err with
        | some text => exact absurd (Prod.mk.inj (Prod.mk.inj h).2).2 (by simp)
        | none =>
          simp only at h
          split_ifs at h with hn
          · exact absurd (Prod.mk.inj (Prod.mk.inj h).2).2 (by simp)
          · rw [not_not] at hn
            obtain ⟨h1, h2⟩ := submitSegments_of_none outcome segments ctx' h
            rw [SubmitOutcome.stored, hn, List.take_length, Nat.sub_self, List.take_zero,
              List.append_nil] at h1
            refine ⟨h1, ?_⟩
            rw [h2, hn, List.map_cons, List.sum_cons, Nat.add_assoc]

/-- Every write completes in full. -/
def SubmitOutcome.full (segment : Segment) : SubmitOutcome :=
  .completed segment.data.length none []

/-- Every write of `outcome` completes in full. -/
def Completes (outcome : Segment → SubmitOutcome) : Prop :=
  ∀ segment, ∃ junk, outcome segment = .completed segment.data.length none junk

theorem completes_full : Completes SubmitOutcome.full :=
  fun _ => ⟨[], rfl⟩

theorem submitSegments_full {outcome : Segment → SubmitOutcome} (hfull : Completes outcome) :
    ∀ (segments : List Segment) (disk : Disk) (written : ℕ),
    submitSegments outcome segments none disk written =
      (disk.writeAll segments,
        written + (segments.map fun segment => segment.data.length).sum, none)
  | [], _, _ => rfl
  | segment :: segments, disk, written => by
    obtain ⟨junk, hjunk⟩ := hfull segment
    rw [submitSegments]
    simp only [Context.check, hjunk, SubmitOutcome.stored, ne_eq, not_true_eq_false, if_false,
      List.take_length, Nat.sub_self, List.take_zero, List.append_nil]
    refine (submitSegments_full hfull segments _ _).trans ?_
    rw [List.map_cons, List.sum_cons, Nat.add_assoc]
    rfl

theorem sum_length_layout : ∀ {results : List Result} {data : Bytes},
    data.length = byteCount results →
    ((layout results data).map fun segment => segment.data.length).sum = data.length
  | [], _, h => h.symm
  | r :: results, data, h => by
    rw [byteCount, List.map_cons, List.sum_cons, ← byteCount] at h
    have hrec := @sum_length_layout results (data.drop r.size.toNat)
      (by rw [List.length_drop]; omega)
    rw [layout, List.map_cons, List.sum_cons, hrec, List.length_take, List.length_drop]
    omega

/-- Whether an address belongs to an extent. -/
def Result.HasByte (r : Result) (a : ℕ) : Prop :=
  r.offset.toNat ≤ a ∧ a < r.offset.toNat + r.size.toNat

theorem writeAll_layout_of_not_hasByte : ∀ {results : List Result} {data : Bytes} {disk : Disk}
    {a : ℕ}, (∀ r ∈ results, ¬r.HasByte a) → disk.writeAll (layout results data) a = disk a
  | [], _, _, _, _ => rfl
  | r :: results, data, disk, a, h => by
    refine (writeAll_layout_of_not_hasByte fun t ht => h t (List.mem_cons_of_mem _ ht)).trans ?_
    refine if_neg fun ha => h r List.mem_cons_self ⟨ha.1, ha.2.trans_le ?_⟩
    exact Nat.add_le_add_left (List.length_take_le _ _) _

/-- Data written along disjoint extents is read back. -/
theorem extents_writeAll_layout : ∀ {results : List Result} {data : Bytes} (disk : Disk),
    results.Pairwise (fun r t => ∀ a, r.HasByte a → ¬t.HasByte a) →
    data.length = byteCount results →
    (disk.writeAll (layout results data)).extents results = data
  | [], _, _, _, h => (List.length_eq_zero_iff.mp h).symm
  | r :: results, data, disk, hpair, h => by
    rw [byteCount, List.map_cons, List.sum_cons, ← byteCount] at h
    obtain ⟨hr, hpair⟩ := List.pairwise_cons.mp hpair
    have hlen : (data.take r.size.toNat).length = r.size.toNat := by
      rw [List.length_take]
      omega
    have hfirst : (disk.writeAll (layout (r :: results) data)).read r.offset.toNat r.size.toNat =
        data.take r.size.toNat := by
      rw [layout, Disk.writeAll, List.foldl_cons, ← Disk.writeAll]
      refine (Disk.read_congr fun a ha1 ha2 => ?_).trans
        ((congrArg _ hlen.symm).trans (disk.read_write r.offset.toNat _))
      exact writeAll_layout_of_not_hasByte fun t ht => hr t ht a ⟨ha1, ha2⟩
    have hrest := extents_writeAll_layout (disk.write r.offset.toNat (data.take r.size.toNat))
      hpair (show (data.drop r.size.toNat).length = _ by rw [List.length_drop]; omega)
    rw [Disk.extents, List.flatMap_cons, hfirst]
    exact (congrArg _ hrest).trans (List.take_append_drop _ _)

theorem Result.hasByte_toBytes {r : Result} (h : 0 ≤ r.offset) (a : ℕ) :
    r.toBytes.HasByte a ↔ a / 4096 ∈ r.blocks := by
  rw [HasByte, Result.mem_blocks, Result.toBytes]
  simp only
  omega

theorem pairwise_toBytes {token : List Result} (hnodup : (blocksOf token).Nodup)
    (hpos : ∀ r ∈ token, 0 ≤ r.offset ∧ 0 < r.size) :
    (token.map Result.toBytes).Pairwise fun r t => ∀ a, r.HasByte a → ¬t.HasByte a := by
  rw [List.pairwise_map]
  refine (nodup_blocksOf_iff.mp hnodup).imp_of_mem fun hr ht hdisj a ha ha' => ?_
  rw [Result.hasByte_toBytes (hpos _ hr).1] at ha
  rw [Result.hasByte_toBytes (hpos _ ht).1] at ha'
  exact hdisj ha ha'

/-- A buffer written without an error to the extents of its token is on the disk, and
nothing else has changed. -/
theorem writeAllocated_spec {outcome : Segment → SubmitOutcome} {ctx : Context} {disk disk' : Disk}
    {data : Bytes} {token : List Result} {written : ℕ} (hnodup : (blocksOf token).Nodup)
    (hpos : ∀ r ∈ token, 0 ≤ r.offset ∧ 0 < r.size)
    (hlen : data.length = 4096 * (blocksOf token).length)
    (h : writeAllocated outcome ctx disk data (token.map Result.toBytes) = (disk', written, none)) :
    disk'.extents (token.map Result.toBytes) = data ∧
      ∀ a, a / 4096 ∉ blocksOf token → disk' a = disk a := by
  have hcount := byteCount_toBytes hpos
  have hwrite : disk' = disk.writeAll (layout (token.map Result.toBytes) data) := by
    rw [writeAllocated] at h
    split_ifs at h with h1 h2
    · cases token with
      | nil => exact (Prod.mk.inj h).1.symm
      | cons r token =>
        have hr := hpos r List.mem_cons_self
        rw [h1, blocksOf_cons, List.length_append, Result.blocks, List.length_range',
          List.length_nil] at hlen
        omega
    · exact absurd (Prod.mk.inj (Prod.mk.inj h).2).2 (by simp)
    · rcases buildSegments_of_exact data _ ctx 0 (blockwise_toBytes hpos) (by omega) with
        ⟨-, -, ⟨cursor, e⟩, hbuild⟩ | ⟨ctx', hbuild, -⟩
      · rw [hbuild] at h
        exact absurd (Prod.mk.inj (Prod.mk.inj h).2).2 (by simp)
      · rw [hbuild] at h
        simp only [ne_eq, not_true_eq_false, if_false, List.drop_zero] at h
        exact (submitSegments_of_none outcome _ ctx' h).1
  rw [hwrite]
  refine ⟨extents_writeAll_layout disk (pairwise_toBytes hnodup hpos) (by omega), fun a ha => ?_⟩
  refine writeAll_layout_of_not_hasByte fun t ht hbyte => ha ?_
  obtain ⟨r, hr, rfl⟩ := List.mem_map.mp ht
  exact mem_blocksOf.mpr ⟨r, hr, (Result.hasByte_toBytes (hpos r hr).1 a).mp hbyte⟩

/-- With no cancellation and full completions the write succeeds. -/
theorem writeAllocated_full (disk : Disk) {data : Bytes} {token : List Result}
    (hpos : ∀ r ∈ token, 0 ≤ r.offset ∧ 0 < r.size)
    (hlen : data.length = 4096 * (blocksOf token).length) :
    ∃ disk', writeAllocated SubmitOutcome.full none disk data (token.map Result.toBytes) =
      (disk', data.length, none) := by
  have hcount := byteCount_toBytes hpos
  rw [writeAllocated]
  split_ifs with h1 h2
  · exact ⟨disk, by rw [h1]; rfl⟩
  · omega
  · rcases buildSegments_of_exact data _ none 0 (blockwise_toBytes hpos) (by omega) with
      ⟨k, hk, -⟩ | ⟨ctx', hbuild, hnone⟩
    · exact absurd hk (by simp)
    · obtain rfl := hnone rfl
      rw [hbuild]
      simp only [ne_eq, not_true_eq_false, if_false, List.drop_zero]
      rw [submitSegments_full completes_full, sum_length_layout (by omega), Nat.zero_add]
      exact ⟨_, rfl⟩

/-- Reading no more than the extents hold. -/
theorem readResults_of_le (disk : Disk) : ∀ {results : List Result} {length : ℕ},
    (∀ r ∈ results, 0 < r.size) → length ≤ byteCount results →
    readResults disk results length = .ok ((disk.extents results).take length)
  | results, 0, _, _ => by rw [readResults, List.take_zero]
  | [], length + 1, _, h => absurd h (by simp [byteCount])
  | r :: results, length + 1, hpos, h => by
    rw [byteCount, List.map_cons, List.sum_cons, ← byteCount] at h
    have hr := hpos r List.mem_cons_self
    have hneed : (min r.size (length + 1 : ℤ)).toNat = min r.size.toNat (length + 1) := by omega
    have hrec := @readResults_of_le disk results (length + 1 - min r.size.toNat (length + 1))
      (fun t ht => hpos t (List.mem_cons_of_mem _ ht)) (by omega)
    rw [readResults, if_neg (by omega), hneed, hrec]
    rw [Disk.extents, Disk.extents, List.flatMap_cons, List.take_append, Disk.take_read,
      Disk.length_read, Nat.min_comm (length + 1),
      show length + 1 - r.size.toNat = length + 1 - min r.size.toNat (length + 1) by omega]

end Corgi
