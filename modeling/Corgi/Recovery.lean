import Corgi.Upload

/-!
# What an upload leaves on the disk

An upload's chunks are flushed in pieces, cut where a mebibyte is pending, and each piece is
padded to whole blocks on its own. The record keeps the extents and the total size. `Active`
and `Closing` say where an upload stands, and that what it has flushed is on the disk, after
the calls made so far and whatever happened in between (`history_of_run`).
-/

namespace Corgi

/-! ## The pieces -/

/-- Add a chunk to the pieces that are complete and the one that is pending. -/
def cutChunk (acc : List Bytes × Bytes) (chunk : Bytes) : List Bytes × Bytes :=
  if 1048576 ≤ (acc.2 ++ chunk).length then (acc.1 ++ [acc.2 ++ chunk], [])
  else (acc.1, acc.2 ++ chunk)

/-- The pieces flushed while the chunks come in, and what is pending after them. -/
def cutChunks (chunks : List Bytes) : List Bytes × Bytes :=
  chunks.foldl cutChunk ([], [])

/-- The pieces that the upload of `chunks` flushes. -/
def flushPieces (chunks : List Bytes) : List Bytes :=
  let cut := cutChunks chunks
  if cut.2 = [] then cut.1 else cut.1 ++ [cut.2]

theorem cutChunks_concat (chunks : List Bytes) (chunk : Bytes) :
    cutChunks (chunks ++ [chunk]) = cutChunk (cutChunks chunks) chunk := by
  rw [cutChunks, List.foldl_append]
  rfl

theorem length_pending_lt (chunks : List Bytes) : (cutChunks chunks).2.length < 1048576 := by
  induction chunks using List.reverseRecOn with
  | nil => decide
  | append_singleton chunks chunk ih =>
    rw [cutChunks_concat, cutChunk]
    split_ifs with h
    · simp
    · simpa using h

theorem flatten_cutChunks (chunks : List Bytes) :
    (cutChunks chunks).1.flatten ++ (cutChunks chunks).2 = chunks.flatten := by
  induction chunks using List.reverseRecOn with
  | nil => rfl
  | append_singleton chunks chunk ih =>
    rw [cutChunks_concat, cutChunk, List.flatten_append, ← ih]
    split_ifs <;> simp

theorem flatten_flushPieces (chunks : List Bytes) :
    (flushPieces chunks).flatten = chunks.flatten := by
  have h := flatten_cutChunks chunks
  rw [flushPieces]
  split_ifs with hrest
  · rwa [hrest, List.append_nil] at h
  · rwa [List.flatten_append, List.flatten_singleton]

theorem cutChunks_concat_nil (chunks : List Bytes) :
    cutChunks (chunks ++ [[]]) = cutChunks chunks := by
  have h := length_pending_lt chunks
  rw [cutChunks_concat, cutChunk, List.append_nil, if_neg (by omega)]

theorem ne_nil_of_mem_cutChunks (chunks : List Bytes) :
    ∀ piece ∈ (cutChunks chunks).1, piece ≠ [] := by
  induction chunks using List.reverseRecOn with
  | nil => exact fun _ h => absurd h (by simp [cutChunks])
  | append_singleton chunks chunk ih =>
    rw [cutChunks_concat, cutChunk]
    split_ifs with h
    · intro piece hpiece
      rcases List.mem_append.mp hpiece with hpiece | hpiece
      · exact ih piece hpiece
      · rw [List.mem_singleton.mp hpiece]
        exact List.ne_nil_of_length_pos (by omega)
    · exact ih

theorem ne_nil_of_mem_flushPieces {chunks : List Bytes} {piece : Bytes}
    (h : piece ∈ flushPieces chunks) : piece ≠ [] := by
  rw [flushPieces] at h
  split_ifs at h with hrest
  · exact ne_nil_of_mem_cutChunks chunks piece h
  · rcases List.mem_append.mp h with h | h
    · exact ne_nil_of_mem_cutChunks chunks piece h
    · rwa [List.mem_singleton.mp h]

/-! ## The buffer of a flush -/

theorem copyAt_append (u c : Bytes) {k : ℕ} (h : c.length ≤ k) :
    Handler.copyAt (u ++ List.replicate k 0#8) u.length c =
      (u ++ c) ++ List.replicate (k - c.length) 0#8 := by
  rw [Handler.copyAt, List.take_left, List.drop_left, List.length_append, Nat.add_sub_cancel_left,
    List.length_replicate, List.drop_replicate, List.take_of_length_le (by simp; omega),
    List.append_assoc]

theorem foldl_copyAt : ∀ (chunks : List Bytes) (u : Bytes) {k : ℕ}, chunks.flatten.length ≤ k →
    (chunks.foldl (fun (x : Bytes × ℕ) chunk =>
      (Handler.copyAt x.1 x.2 chunk, x.2 + chunk.length)) (u ++ List.replicate k 0#8, u.length)).1 =
      (u ++ chunks.flatten) ++ List.replicate (k - chunks.flatten.length) 0#8
  | [], u, k, _ => by simp
  | c :: chunks, u, k, h => by
    rw [List.flatten_cons, List.length_append] at h
    have hrec := foldl_copyAt chunks (u ++ c) (k := k - c.length) (by omega)
    rw [List.foldl_cons, copyAt_append u c (by omega), ← List.length_append, hrec,
      List.flatten_cons, List.length_append, List.append_assoc u c, Nat.sub_sub]

/-- The buffer is the pending data padded to whole blocks. -/
theorem startFlush_snd {h : Handler} (hlen : h.pendingLen = h.chunks.flatten.length)
    (hpos : 0 < h.pendingLen) : h.startFlush.2 = pad 4096 0#8 h.chunks.flatten := by
  have halign : (alignBlockSize h.pendingLen).toNat =
      h.pendingLen + (4096 - h.pendingLen % 4096) % 4096 := by
    rw [alignBlockSize, if_neg (by omega)]
    split_ifs <;> omega
  have hbuf : newAlignedBlockBuffer (alignBlockSize h.pendingLen) =
      [] ++ List.replicate (h.pendingLen + (4096 - h.pendingLen % 4096) % 4096) 0#8 := by
    rw [newAlignedBlockBuffer, if_neg (by omega), halign, List.nil_append]
  rw [Handler.startFlush]
  simp only
  rw [Handler.copyChunks, hbuf]
  refine (foldl_copyAt h.chunks [] (by omega)).trans ?_
  rw [pad, ← hlen, Nat.add_sub_cancel_left, List.nil_append]

/-! ## What an upload holds -/

open AllocatorV3 in
theorem BlockDevice.kept_rollbackAlloc {d : BlockDevice} (h : d.allocator.Inv)
    {token : List Result} (hb : ∀ r ∈ token, r.Bounded) :
    Kept d.allocator (d.rollbackAlloc token).allocator := by
  rw [rollbackAlloc]
  split_ifs
  · exact Kept.refl h
  · exact kept_release h hb

open AllocatorV3 in
theorem BlockDevice.kept_foldl_rollbackAlloc : ∀ {tokens : List (List Result)} {d : BlockDevice},
    d.allocator.Inv → (∀ token ∈ tokens, ∀ r ∈ token, r.Bounded) →
    Kept d.allocator (tokens.foldl BlockDevice.rollbackAlloc d).allocator
  | [], _, h, _ => Kept.refl h
  | token :: tokens, d, h, hb => by
    have hfirst := d.kept_rollbackAlloc h (hb token List.mem_cons_self)
    exact hfirst.trans (kept_foldl_rollbackAlloc hfirst.toInv
      fun t ht => hb t (List.mem_cons_of_mem _ ht))

/-- An allocation from a sound allocator returns blocks that were free, and they are not
any more. -/
theorem BlockDevice.alloc_of_inv {d : BlockDevice} (h : d.allocator.Inv) (size : ℤ) :
    (∃ d' results token, d.alloc size = (d', .ok (results, token)) ∧
      FlushBlockInfo.Proper ⟨results, token⟩ ∧ d'.allocator.Inv ∧
      d'.allocator.total = d.allocator.total ∧
      ((blocksOf token).length : ℤ) = fitBlock size / 4096 ∧ (blocksOf token).Nodup ∧
      (∀ b ∈ blocksOf token, b < d.allocator.total ∧ d.allocator.isFree b = true ∧
        d'.allocator.isFree b = false) ∧
      ∀ b < d.allocator.total, d.allocator.isFree b = false → d'.allocator.isFree b = false) ∨
    ∃ d' e, d.alloc size = (d', .error e) ∧ d'.allocator.Inv ∧
      d'.allocator.total = d.allocator.total ∧
      ∀ b < d.allocator.total, d.allocator.isFree b = false → d'.allocator.isFree b = false := by
  have howns := h.owns (m := ((List.range d.allocator.total).filter fun b =>
    !d.allocator.isFree b : List ℕ)) (Multiset.coe_nodup.mpr (List.nodup_range.filter _))
    fun b => by simp
  have hpos : 0 < d.allocator.total := Nat.zero_lt_of_lt h.lastPos_lt
  rcases d.alloc_spec howns size with ⟨d', results, token, hres, hproper, howns', htotal, hlen⟩ |
    ⟨d', e, hres, howns', htotal⟩
  · refine Or.inl ⟨d', results, token, hres, hproper, howns'.inv (htotal ▸ hpos), htotal,
      hlen, ?_, fun b hb => ?_, fun b hb hfree => ?_⟩
    · exact Multiset.coe_nodup.mp (Multiset.nodup_add.mp howns'.nodup).2.1
    · have hb' := (howns'.mem_iff b).mp (Multiset.mem_add.mpr (Or.inr (Multiset.mem_coe.mpr hb)))
      refine ⟨htotal ▸ hb'.1, ?_, hb'.2⟩
      by_contra hfree
      refine Multiset.disjoint_left.mp (Multiset.nodup_add.mp howns'.nodup).2.2
        ((howns.mem_iff b).mpr ⟨htotal ▸ hb'.1, Bool.eq_false_iff.mpr hfree⟩)
        (Multiset.mem_coe.mpr hb)
    · exact ((howns'.mem_iff b).mp (Multiset.mem_add.mpr (Or.inl
        ((howns.mem_iff b).mpr ⟨hb, hfree⟩)))).2
  · exact Or.inr ⟨d', e, hres, howns'.inv (htotal ▸ hpos), htotal, fun b hb hfree =>
      ((howns'.mem_iff b).mp ((howns.mem_iff b).mpr ⟨hb, hfree⟩)).2⟩

/-- An allocation of whole blocks for which there is room. -/
theorem BlockDevice.alloc_of_room {d : BlockDevice} (h : d.allocator.Inv) {size : ℕ}
    (hdvd : 4096 ∣ size) (hpos : 0 < size)
    (hroom : ((size / 4096 : ℕ) : ℤ) ≤ d.allocator.available) :
    ∃ d' results token, d.alloc size = (d', .ok (results, token)) ∧
      FlushBlockInfo.Proper ⟨results, token⟩ ∧ size = 4096 * (blocksOf token).length ∧
      d'.allocator.available = d.allocator.available - (size / 4096 : ℕ) ∧
      d'.allocator.total = d.allocator.total := by
  have hfit : fitBlock size / 4096 = (size / 4096 : ℕ) := by
    rw [fitBlock_of_nonneg (by omega), if_pos (by omega)]
    omega
  obtain ⟨d', results, token, hres, hlen, havail⟩ :=
    d.alloc_of_le h (Nat.cast_pos.mpr hpos) (hfit ▸ hroom)
  rcases d.alloc_of_inv h size with
    ⟨d₁, results₁, token₁, hres₁, hproper, -, htotal, -⟩ | ⟨d₁, e, hres₁, -⟩
  · obtain ⟨rfl, hok⟩ := Prod.mk.inj (hres.symm.trans hres₁)
    obtain ⟨rfl, rfl⟩ := Prod.mk.inj (Except.ok.inj hok)
    exact ⟨d', results, token, hres, hproper, by omega, hfit ▸ havail, htotal⟩
  · exact absurd (congrArg Prod.snd (hres.symm.trans hres₁)) (by simp)

namespace Session

/-- The tokens of an upload. -/
def tokens (s : Session) : List (List Result) :=
  s.handler.blockInfoList.map FlushBlockInfo.token ++ match s.phase with
    | .write _ _ token _ => [token]
    | _ => []

theorem held_eq (s : Session) : s.held = blocksOf s.tokens.flatten := by
  rw [held, tokens, List.flatten_append, blocksOf_append, ← blocksOf_flatMap_token]
  congr 1
  cases s.phase <;> simp

/-- The allocator is sound, and what the upload holds is allocated to it alone. -/
structure Sound (s : Session) : Prop where
  inv : s.device.allocator.Inv
  lt : s.device.allocator.total < 2 ^ 63
  nodup : s.held.Nodup
  allocated : ∀ b ∈ s.held,
    b < s.device.allocator.total ∧ s.device.allocator.isFree b = false
  bounded : ∀ token ∈ s.tokens, ∀ r ∈ token, r.Bounded

/-- After a rollback the upload holds nothing. -/
theorem sound_abort {s : Session} (hinv : s.device.allocator.Inv)
    (hlt : s.device.allocator.total < 2 ^ 63)
    (hb : ∀ info ∈ s.handler.blockInfoList, ∀ r ∈ info.token, r.Bounded) (e : UploadError) :
    (s.abort e).Sound := by
  have hkept := BlockDevice.kept_foldl_rollbackAlloc hinv (List.forall_mem_map.mpr hb)
  have htokens : ∀ token ∈ (s.abort e).tokens, token = [] := by
    intro token htoken
    simp only [tokens, abort, respond, Handler.rollbackCompletedFlushes, List.map_map,
      List.append_nil, List.mem_map] at htoken
    obtain ⟨info, -, rfl⟩ := htoken
    rfl
  have hheld : (s.abort e).held = [] := by
    rw [held_eq, List.flatten_eq_nil_iff.mpr htokens, blocksOf_nil]
  refine ⟨hkept.toInv, hkept.total_eq ▸ hlt, by rw [hheld]; exact List.nodup_nil,
    by rw [hheld]; simp, fun token htoken r hr => ?_⟩
  rw [htokens token htoken] at hr
  exact absurd hr (by simp)

/-- A flush has put a piece on the disk. -/
structure Holds (disk : Disk) (info : FlushBlockInfo) (piece : Bytes) : Prop where
  proper : info.Proper
  length : (pad 4096 0#8 piece).length = 4096 * (blocksOf info.token).length
  bytes : disk.extents info.results = pad 4096 0#8 piece

theorem Holds.congr {disk disk' : Disk} {info : FlushBlockInfo} {piece : Bytes}
    (h : Holds disk info piece) (heq : ∀ a, a / 4096 ∈ blocksOf info.token → disk' a = disk a) :
    Holds disk' info piece := by
  refine ⟨h.proper, h.length, ?_⟩
  rw [← h.bytes, h.proper.results_eq, Disk.extents, Disk.extents]
  refine List.flatMap_congr fun r hr => Disk.read_congr fun a ha1 ha2 => heq a ?_
  obtain ⟨t, ht, rfl⟩ := List.mem_map.mp hr
  exact mem_blocksOf.mpr ⟨t, ht,
    (Result.hasByte_toBytes (h.proper.pos t ht).1 a).mp ⟨ha1, ha2⟩⟩

theorem forall₂_holds_congr {disk disk' : Disk} {infos : List FlushBlockInfo}
    {pieces : List Bytes} (h : List.Forall₂ (Holds disk) infos pieces)
    (heq : ∀ a, a / 4096 ∈ infoBlocks infos → disk' a = disk a) :
    List.Forall₂ (Holds disk') infos pieces := by
  induction h with
  | nil => exact .nil
  | cons h _ ih =>
    rw [infoBlocks, List.flatMap_cons] at heq
    exact .cons (h.congr fun a ha => heq a (List.mem_append_left _ ha))
      (ih fun a ha => heq a (List.mem_append_right _ ha))

/-- The flush of the last of `pieces` is under way, those before it are on the disk. -/
structure Flushing (s : Session) (pieces : List Bytes) (respond : Bool) : Prop where
  state : ∃ infos done piece, s.handler.blockInfoList = infos ++ [⟨[], []⟩] ∧
    pieces = done ++ [piece] ∧ List.Forall₂ (Holds s.disk) infos done ∧
    (s.phase = .alloc (pad 4096 0#8 piece) respond ∨ ∃ results token,
      s.phase = .write (pad 4096 0#8 piece) results token respond ∧
      FlushBlockInfo.Proper ⟨results, token⟩ ∧
      (pad 4096 0#8 piece).length = 4096 * (blocksOf token).length)

/-- What stays the same while an upload flushes. -/
structure Frame (s t : Session) : Prop where
  initReq : t.handler.initReq = s.handler.initReq
  finalized : t.handler.finalized = s.handler.finalized
  fileSize : t.handler.fileSize = s.handler.fileSize
  chunks : t.handler.chunks = s.handler.chunks
  pendingLen : t.handler.pendingLen = s.handler.pendingLen
  stored : t.stored = s.stored

theorem infoBlocks_append (infos infos' : List FlushBlockInfo) :
    infoBlocks (infos ++ infos') = infoBlocks infos ++ infoBlocks infos' :=
  List.flatMap_append

theorem Sound.fail {s : Session} (hinv : s.device.allocator.Inv)
    (hlt : s.device.allocator.total < 2 ^ 63)
    (hb : ∀ info ∈ s.handler.blockInfoList, ∀ r ∈ info.token, r.Bounded) (e : UploadError) :
    (s.fail e).Sound ∧ (s.fail e).phase = .idle ∧ (s.fail e).handler.flushErr ≠ none ∧
      s.Frame (s.fail e) := by
  refine ⟨sound_abort (s := { s with handler := s.handler.failFlush e }) hinv hlt hb e, rfl, ?_,
    rfl, rfl, rfl, rfl, rfl, rfl⟩
  change (s.handler.flushErr.or (some e)) ≠ none
  cases s.handler.flushErr <;> simp

theorem bounded_of_lt {token : List Result} {total : ℕ} (hlt : total < 2 ^ 63)
    (hpos : ∀ r ∈ token, 0 ≤ r.offset ∧ 0 < r.size) (hmem : ∀ b ∈ blocksOf token, b < total) :
    ∀ r ∈ token, r.Bounded := by
  intro r hr
  have hr' := hpos r hr
  have hle := add_size_le_of_lt hpos hmem r hr
  exact ⟨by omega, by omega⟩

theorem Sound.bounded_infos {s : Session} (h : s.Sound) :
    ∀ info ∈ s.handler.blockInfoList, ∀ r ∈ info.token, r.Bounded := fun info hinfo =>
  h.bounded info.token (List.mem_append_left _ (List.mem_map_of_mem hinfo))

/-- The allocation of a flush. -/
theorem Flushing.flushAlloc {s : Session} {pieces : List Bytes} {respond : Bool} {buf : Bytes}
    (hs : s.Sound) (h : s.Flushing pieces respond) (hphase : s.phase = .alloc buf respond) :
    (s.flushAlloc buf respond).Sound ∧ s.Frame (s.flushAlloc buf respond) ∧
    (((s.flushAlloc buf respond).phase = .idle ∧
      (s.flushAlloc buf respond).handler.flushErr ≠ none) ∨
    ((s.flushAlloc buf respond).Flushing pieces respond ∧
      (s.flushAlloc buf respond).handler.flushErr = s.handler.flushErr)) := by
  obtain ⟨infos, done, piece, hinfos, hpieces, hholds, hbuf | ⟨results, token, hbuf, -⟩⟩ := h.state
  swap
  · rw [hphase] at hbuf
    exact absurd hbuf (by simp)
  obtain ⟨rfl, -⟩ := Phase.alloc.inj (hphase.symm.trans hbuf)
  have hheld : s.held = infoBlocks s.handler.blockInfoList := by
    rw [held, hphase, List.append_nil]
  have hnodup := hs.nodup
  have hallocated := hs.allocated
  rw [hheld] at hnodup hallocated
  rw [Session.flushAlloc]
  rcases s.device.alloc_of_inv hs.inv (pad 4096 0#8 piece).length with
    ⟨d, results, token, hres, hproper, hinv, htotal, hlen, hnodup', hnew, hold⟩ |
    ⟨d, e, hres, hinv, htotal, -⟩
  · rw [hres]
    have hblocks : (pad 4096 0#8 piece).length = 4096 * (blocksOf token).length := by
      have hdvd := @dvd_length_pad _ 4096 0#8 (by decide) piece
      rw [fitBlock_of_nonneg (by omega), if_pos (by omega)] at hlen
      omega
    refine ⟨⟨hinv, htotal ▸ hs.lt, ?_, fun b hb => ?_, fun t ht => ?_⟩,
      ⟨rfl, rfl, rfl, rfl, rfl, rfl⟩, Or.inr ⟨⟨infos, done, piece, hinfos, hpieces, hholds,
        Or.inr ⟨results, token, rfl, hproper, hblocks⟩⟩, rfl⟩⟩
    · refine List.nodup_append.mpr ⟨hnodup, hnodup', fun b hb c hc heq => ?_⟩
      subst heq
      have hb' := (hallocated b hb).2
      rw [(hnew b hc).2.1] at hb'
      exact Bool.false_ne_true hb'.symm
    · change b < d.allocator.total ∧ d.allocator.isFree b = false
      rw [htotal]
      rcases List.mem_append.mp hb with hb | hb
      · exact ⟨(hallocated b hb).1, hold b (hallocated b hb).1 (hallocated b hb).2⟩
      · exact ⟨(hnew b hb).1, (hnew b hb).2.2⟩
    · rcases List.mem_append.mp ht with ht | ht
      · exact hs.bounded t (List.mem_append_left _ ht)
      · rw [List.mem_singleton.mp ht]
        exact bounded_of_lt hs.lt hproper.pos fun b hb => (hnew b hb).1
  · rw [hres]
    obtain ⟨h1, h2, h3, h4⟩ := Sound.fail (s := { s with device := d }) hinv (htotal ▸ hs.lt)
      hs.bounded_infos (.alloc e)
    exact ⟨h1, ⟨h4.initReq, h4.finalized, h4.fileSize, h4.chunks, h4.pendingLen, h4.stored⟩,
      Or.inl ⟨h2, h3⟩⟩

/-- Nothing is being written. -/
def Phase.Quiet : Phase → Prop
  | .write _ _ _ _ => False
  | _ => True

theorem held_of_quiet {s : Session} (h : Phase.Quiet s.phase) :
    s.held = infoBlocks s.handler.blockInfoList := by
  rw [held]
  cases hp : s.phase with
  | write _ _ _ _ =>
    rw [hp] at h
    exact h.elim
  | _ => exact List.append_nil _

theorem tokens_of_quiet {s : Session} (h : Phase.Quiet s.phase) :
    s.tokens = s.handler.blockInfoList.map FlushBlockInfo.token := by
  rw [tokens]
  cases hp : s.phase with
  | write _ _ _ _ =>
    rw [hp] at h
    exact h.elim
  | _ => exact List.append_nil _

theorem Sound.congr {s t : Session} (h : s.Sound) (hdevice : t.device = s.device)
    (hinfos : t.handler.blockInfoList = s.handler.blockInfoList) (hs : Phase.Quiet s.phase)
    (ht : Phase.Quiet t.phase) : t.Sound := by
  have hheld : t.held = s.held := by rw [held_of_quiet ht, held_of_quiet hs, hinfos]
  have htokens : t.tokens = s.tokens := by rw [tokens_of_quiet ht, tokens_of_quiet hs, hinfos]
  exact ⟨hdevice ▸ h.inv, hdevice ▸ h.lt, hheld ▸ h.nodup,
    by rw [hheld, hdevice]; exact h.allocated,
    htokens ▸ h.bounded⟩

theorem infoBlocks_concat (infos : List FlushBlockInfo) (results token : List Result) :
    infoBlocks (infos ++ [⟨results, token⟩]) = infoBlocks infos ++ blocksOf token := by
  rw [infoBlocks_append]
  simp [infoBlocks]

/-- The blocks of a write in progress are those of its token and of the flushes before it. -/
theorem held_of_write {s : Session} {infos : List FlushBlockInfo} {buf : Bytes}
    {results token : List Result} {respond : Bool}
    (hinfos : s.handler.blockInfoList = infos ++ [⟨[], []⟩])
    (hphase : s.phase = .write buf results token respond) :
    s.held = infoBlocks infos ++ blocksOf token := by
  rw [held, hphase, hinfos, infoBlocks_concat, blocksOf_nil, List.append_nil]

/-- A write that fails gives its token back. -/
theorem Sound.failWrite {s : Session} (hs : s.Sound) {token : List Result}
    (hbounded : ∀ r ∈ token, r.Bounded) (disk : Disk) (e : UploadError) {t : Session}
    (ht : t = Session.fail { s with disk := disk, device := s.device.rollbackAlloc token } e) :
    t.Sound ∧ s.Frame t ∧ t.phase = .idle ∧ t.handler.flushErr ≠ none := by
  subst ht
  have hkept := s.device.kept_rollbackAlloc hs.inv hbounded
  obtain ⟨h1, h2, h3, h4⟩ := Sound.fail
    (s := { s with disk := disk, device := s.device.rollbackAlloc token }) hkept.toInv
    (hkept.total_eq ▸ hs.lt) hs.bounded_infos e
  exact ⟨h1, ⟨h4.initReq, h4.finalized, h4.fileSize, h4.chunks, h4.pendingLen, h4.stored⟩, h2, h3⟩

theorem blockInfoList_completeFlush {h : Handler} {infos : List FlushBlockInfo}
    (hinfos : h.blockInfoList = infos ++ [⟨[], []⟩]) (results token : List Result) :
    (h.completeFlush results token).blockInfoList = infos ++ [⟨results, token⟩] := by
  rw [Handler.completeFlush, hinfos, List.dropLast_concat]

/-- A write that is complete leaves its token to the handler. -/
theorem Sound.completeFlush {s : Session} (hs : s.Sound) {infos : List FlushBlockInfo}
    {buf : Bytes} {results token : List Result} {respond : Bool}
    (hinfos : s.handler.blockInfoList = infos ++ [⟨[], []⟩])
    (hphase : s.phase = .write buf results token respond) (disk : Disk) :
    Sound { s with
      disk := disk, phase := .idle, handler := s.handler.completeFlush results token } := by
  have hlist := blockInfoList_completeFlush hinfos results token
  have hheld := held_of_write hinfos hphase
  refine ⟨hs.inv, hs.lt, ?_, ?_, ?_⟩
  · rw [held_of_quiet (by exact trivial), hlist, infoBlocks_concat, ← hheld]
    exact hs.nodup
  · rw [held_of_quiet (by exact trivial), hlist, infoBlocks_concat, ← hheld]
    exact hs.allocated
  · rw [tokens_of_quiet (by exact trivial), hlist, List.map_append]
    intro t ht
    rcases List.mem_append.mp ht with ht | ht
    · refine hs.bounded t (List.mem_append_left _ ?_)
      rw [hinfos, List.map_append]
      exact List.mem_append_left _ ht
    · rw [List.mem_singleton.mp ht]
      exact hs.bounded token (List.mem_append_right _ (by rw [hphase]; simp))

/-- The write of a flush fails, or the flush is complete and `Put` or `Complete` goes on. -/
theorem Flushing.flushWrite {s : Session} {pieces : List Bytes} {respond : Bool} {buf : Bytes}
    {results token : List Result} (pb : Protobuf) (outcome : Segment → SubmitOutcome)
    (ctx : Context) (hs : s.Sound) (h : s.Flushing pieces respond)
    (hphase : s.phase = .write buf results token respond) {t : Session}
    (ht : t = s.flushWrite pb outcome ctx buf results token respond) :
    (t.Sound ∧ s.Frame t ∧ t.phase = .idle ∧ t.handler.flushErr ≠ none) ∨
    ∃ u : Session, u.Sound ∧ u.phase = .idle ∧ s.Frame u ∧
      u.handler.flushErr = s.handler.flushErr ∧
      List.Forall₂ (Holds u.disk) u.handler.blockInfoList pieces ∧
      u.responses = s.responses ∧ u.db = s.db ∧
      (respond = true → t = u.respond .cont) ∧
      (respond = false → ∀ req, s.handler.initReq = some req →
        t = Session.submit pb { u with phase := s.phase } req) := by
  obtain ⟨infos, done, piece, hinfos, hpieces, hholds, hbuf | ⟨results', token', hbuf, hproper,
    hlen⟩⟩ := h.state
  · rw [hphase] at hbuf
    exact absurd hbuf (by simp)
  obtain ⟨rfl, rfl, rfl, -⟩ := Phase.write.inj (hphase.symm.trans hbuf)
  have hnodup := hs.nodup
  rw [held_of_write hinfos hphase] at hnodup
  obtain ⟨-, hnodup', hdisj⟩ := List.nodup_append.mp hnodup
  have hbounded : ∀ r ∈ token, r.Bounded := hs.bounded token
    (List.mem_append_right _ (by rw [hphase]; simp))
  rw [Session.flushWrite] at ht
  generalize hwrite : writeAllocated outcome ctx s.disk (pad 4096 0#8 piece) results = w at ht
  obtain ⟨disk, written, err⟩ := w
  cases err with
  | some e => exact Or.inl (hs.failWrite hbounded disk _ ht)
  | none =>
    by_cases hwritten : written = (pad 4096 0#8 piece).length
    swap
    · simp only [ne_eq, hwritten, not_false_eq_true, if_true] at ht
      exact Or.inl (hs.failWrite hbounded disk _ ht)
    right
    simp only [hwritten, ne_eq, not_true_eq_false, if_false] at ht
    rw [show results = token.map Result.toBytes from hproper.results_eq] at hwrite
    obtain ⟨hbytes, hframe⟩ := writeAllocated_spec hnodup' hproper.pos hlen hwrite
    rw [← show results = token.map Result.toBytes from hproper.results_eq] at hbytes
    refine ⟨_, hs.completeFlush hinfos hphase disk, rfl, ⟨rfl, rfl, rfl, rfl, rfl, rfl⟩, rfl, ?_,
      rfl, rfl, ?_, ?_⟩
    · rw [blockInfoList_completeFlush hinfos, hpieces]
      refine List.rel_append (forall₂_holds_congr hholds fun a ha => hframe a fun ha' => ?_)
        (.cons ⟨hproper, hlen, hbytes⟩ .nil)
      exact hdisj _ ha _ ha' rfl
    · rintro rfl
      exact ht
    · rintro rfl req hreq
      have hreq' : (s.handler.completeFlush results token).initReq = some req := hreq
      simp only [Bool.false_eq_true, if_false, hreq'] at ht
      exact ht

/-! ## The invariant -/

/-- The record that `Complete` builds, with a checksum unless that is zero. -/
def Records (s : Session) (req : PutInitRequest) (chunks : List Bytes) (fileMeta : FileMeta) :
    Prop :=
  ∃ v : BitVec 32, fileMeta = (buildFileMetaAndResults req chunks.flatten.length
    (if v ≠ 0#32 then hex8 v else []) s.handler.blockInfoList).1

/-- An upload that was started with `req` and has been given `chunks` : a flush has failed, or
the pieces that are complete are on the disk, with a flush of the last one possibly under
way, and the rest is pending. -/
structure Active (req : PutInitRequest) (chunks : List Bytes) (s : Session) : Prop where
  sound : s.Sound
  initReq : s.handler.initReq = some req
  finalized : s.handler.finalized = false
  stored : s.stored = none
  state : (s.phase = .idle ∧ s.handler.flushErr ≠ none) ∨
    (s.handler.flushErr = none ∧ s.handler.fileSize = chunks.flatten.length ∧
      s.handler.chunks.flatten = (cutChunks chunks).2 ∧
      s.handler.pendingLen = (cutChunks chunks).2.length ∧
      ((s.phase = .idle ∧
        List.Forall₂ (Holds s.disk) s.handler.blockInfoList (cutChunks chunks).1) ∨
      s.Flushing (cutChunks chunks).1 true))

/-- An upload whose `Complete` was called : it has stored nothing and is over, or is flushing
its last piece, or all pieces are on the disk and the record is being committed or is. -/
structure Closing (req : PutInitRequest) (chunks : List Bytes) (s : Session) : Prop where
  sound : s.Sound
  initReq : s.handler.initReq = some req
  state : (s.phase = .idle ∧ s.stored = none) ∨
    (s.handler.fileSize = chunks.flatten.length ∧ s.stored = none ∧
      s.Flushing (flushPieces chunks) false) ∨
    (List.Forall₂ (Holds s.disk) s.handler.blockInfoList (flushPieces chunks) ∧
      ((s.stored = none ∧ ∃ c, s.phase = .commit c ∧ s.Records req chunks c.fileMeta ∧
        c.results = flattenBlockResults s.handler.blockInfoList ∧ c.noGet = req.noGet) ∨
      (s.phase = .idle ∧ ∃ m, s.stored = some m ∧ s.Records req chunks m)))

theorem Sound.others {s : Session} (h : s.Sound) {device : BlockDevice} {disk : Disk} {db : DB}
    (ho : s.Others device disk) : Sound { s with device, disk, db } :=
  ⟨ho.inv, ho.total ▸ h.lt, h.nodup, fun b hb => ⟨ho.total ▸ (h.allocated b hb).1,
    ho.allocated b hb⟩, h.bounded⟩

theorem holds_others {s : Session} {infos : List FlushBlockInfo} {pieces : List Bytes}
    (h : List.Forall₂ (Holds s.disk) infos pieces)
    (hsub : ∀ b ∈ infoBlocks infos, b ∈ infoBlocks s.handler.blockInfoList)
    {device : BlockDevice} {disk : Disk} (ho : s.Others device disk) :
    List.Forall₂ (Holds disk) infos pieces :=
  forall₂_holds_congr h fun a ha => ho.bytes a (List.mem_append_left _ (hsub _ ha))

theorem Flushing.others {s : Session} {pieces : List Bytes} {respond : Bool}
    (h : s.Flushing pieces respond) {device : BlockDevice} {disk : Disk} {db : DB}
    (ho : s.Others device disk) : Flushing { s with device, disk, db } pieces respond := by
  obtain ⟨infos, done, piece, hinfos, hpieces, hholds, hphase⟩ := h.state
  refine ⟨infos, done, piece, hinfos, hpieces, holds_others hholds (fun b hb => ?_) ho, hphase⟩
  rw [hinfos, infoBlocks_append]
  exact List.mem_append_left _ hb

theorem Active.others {s : Session} {req : PutInitRequest} {chunks : List Bytes}
    (h : Active req chunks s) {device : BlockDevice} {disk : Disk} {db : DB}
    (ho : s.Others device disk) : Active req chunks { s with device, disk, db } := by
  refine ⟨h.sound.others ho, h.initReq, h.finalized, h.stored, h.state.imp_right ?_⟩
  rintro ⟨h1, h2, h3, h4, ⟨h5, h6⟩ | h5⟩
  · exact ⟨h1, h2, h3, h4, Or.inl ⟨h5, holds_others h6 (fun _ => id) ho⟩⟩
  · exact ⟨h1, h2, h3, h4, Or.inr (h5.others ho)⟩

theorem Closing.others {s : Session} {req : PutInitRequest} {chunks : List Bytes}
    (h : Closing req chunks s) {device : BlockDevice} {disk : Disk} {db : DB}
    (ho : s.Others device disk) : Closing req chunks { s with device, disk, db } := by
  refine ⟨h.sound.others ho, h.initReq, h.state.imp_right (Or.imp ?_ ?_)⟩
  · exact fun ⟨h1, h2, h3⟩ => ⟨h1, h2, h3.others ho⟩
  · exact fun ⟨h1, h2⟩ => ⟨holds_others h1 (fun _ => id) ho, h2⟩

theorem Flushing.not_idle {s : Session} {pieces : List Bytes} {respond : Bool}
    (h : s.Flushing pieces respond) : s.phase ≠ .idle := by
  obtain ⟨infos, done, piece, -, -, -, hphase | ⟨results, token, hphase, -⟩⟩ := h.state <;>
    simp [hphase]

theorem Flushing.not_commit {s : Session} {pieces : List Bytes} {respond : Bool}
    (h : s.Flushing pieces respond) (c : Commit) : s.phase ≠ .commit c := by
  obtain ⟨infos, done, piece, -, -, -, hphase | ⟨results, token, hphase, -⟩⟩ := h.state <;>
    simp [hphase]

theorem Flushing.respond_eq {s : Session} {pieces : List Bytes} {respond respond' : Bool}
    {buf : Bytes} (h : s.Flushing pieces respond) (hphase : s.phase = .alloc buf respond' ∨
      ∃ results token, s.phase = .write buf results token respond') : respond' = respond := by
  obtain ⟨infos, done, piece, -, -, -, h' | ⟨results, token, h', -⟩⟩ := h.state
  · rcases hphase with hphase | ⟨_, _, hphase⟩
    · exact (Phase.alloc.inj (hphase.symm.trans h')).2
    · exact absurd (hphase.symm.trans h') (by simp)
  · rcases hphase with hphase | ⟨_, _, hphase⟩
    · exact absurd (hphase.symm.trans h') (by simp)
    · exact (Phase.write.inj (hphase.symm.trans h')).2.2.2

theorem Closing.flushing {s : Session} {req : PutInitRequest} {chunks : List Bytes}
    (h : Closing req chunks s) (hidle : s.phase ≠ .idle) (hcommit : ∀ c, s.phase ≠ .commit c) :
    s.handler.fileSize = chunks.flatten.length ∧ s.stored = none ∧
      s.Flushing (flushPieces chunks) false := by
  rcases h.state with ⟨h1, -⟩ | h1 | ⟨-, ⟨-, c, h1, -⟩ | ⟨h1, -⟩⟩
  · exact absurd h1 hidle
  · exact h1
  · exact absurd h1 (hcommit c)
  · exact absurd h1 hidle

/-- What an upload hands to the group commit. -/
theorem Closing.committing {s : Session} {req : PutInitRequest} {chunks : List Bytes}
    (h : Closing req chunks s) {c : Commit} (hphase : s.phase = .commit c) :
    List.Forall₂ (Holds s.disk) s.handler.blockInfoList (flushPieces chunks) ∧ s.stored = none ∧
      s.Records req chunks c.fileMeta ∧
      c.results = flattenBlockResults s.handler.blockInfoList ∧ c.noGet = req.noGet := by
  rcases h.state with ⟨hidle, -⟩ | ⟨-, -, hf⟩ | ⟨hholds, ⟨hnone, c', hc, h1⟩ | ⟨hidle, -⟩⟩
  · exact absurd (hphase.symm.trans hidle) (by simp)
  · exact absurd hphase (hf.not_commit c)
  · obtain rfl := Phase.commit.inj (hphase.symm.trans hc)
    exact ⟨hholds, hnone, h1⟩
  · exact absurd (hphase.symm.trans hidle) (by simp)

theorem Closing.of_stored {s : Session} {req : PutInitRequest} {chunks : List Bytes}
    (h : Closing req chunks s) {fileMeta : FileMeta} (hstored : s.stored = some fileMeta) :
    List.Forall₂ (Holds s.disk) s.handler.blockInfoList (flushPieces chunks) ∧
      s.Records req chunks fileMeta := by
  have hsome : s.stored ≠ none := by simp [hstored]
  rcases h.state with ⟨-, hnone⟩ | ⟨-, hnone, -⟩ | ⟨hholds, ⟨hnone, -⟩ | ⟨-, m, hm, hrec⟩⟩
  · exact absurd hnone hsome
  · exact absurd hnone hsome
  · exact absurd hnone hsome
  · obtain rfl := Option.some.inj (hstored.symm.trans hm)
    exact ⟨hholds, hrec⟩

/-- A flush of what is pending starts. -/
theorem flushing_flush {s : Session} {pieces : List Bytes}
    (hlen : s.handler.pendingLen = s.handler.chunks.flatten.length)
    (hpos : 0 < s.handler.pendingLen)
    (hholds : List.Forall₂ (Holds s.disk) s.handler.blockInfoList pieces) (respond : Bool) :
    (s.flush respond).Flushing (pieces ++ [s.handler.chunks.flatten]) respond := by
  refine ⟨s.handler.blockInfoList, pieces, s.handler.chunks.flatten, rfl, rfl, hholds, Or.inl ?_⟩
  rw [← startFlush_snd hlen hpos]
  rfl

theorem sound_flush {s : Session} (h : s.Sound) (hphase : s.phase = .idle) (respond : Bool) :
    (s.flush respond).Sound := by
  have hquiet : Phase.Quiet s.phase := by rw [hphase]; trivial
  have hquiet' : Phase.Quiet (s.flush respond).phase := trivial
  have hheld : (s.flush respond).held = s.held := by
    rw [held_of_quiet hquiet, held_of_quiet hquiet']
    change infoBlocks (s.handler.blockInfoList ++ [⟨[], []⟩]) = _
    rw [infoBlocks_append]
    exact List.append_nil _
  refine ⟨h.inv, h.lt, hheld ▸ h.nodup, by rw [hheld]; exact h.allocated, fun token ht r hr => ?_⟩
  rw [tokens_of_quiet hquiet'] at ht
  change token ∈
    (s.handler.blockInfoList ++ [FlushBlockInfo.mk [] []]).map FlushBlockInfo.token at ht
  rw [List.map_append, List.mem_append] at ht
  rcases ht with ht | ht
  · exact h.bounded token (List.mem_append_left _ ht) r hr
  · rw [List.mem_singleton.mp ht] at hr
    exact absurd hr (by simp)

section

variable {s : Session} {req : PutInitRequest} {chunks : List Bytes} {pb : Protobuf}
  {json : JSONDeleteMark} {crc : BitVec 32 → Bytes → BitVec 32}

theorem Active.put (h : Active req chunks s) (hidle : s.phase = .idle) (data : Bytes) :
    Active req (chunks ++ [data]) (s.put crc data) := by
  have hquiet : Phase.Quiet s.phase := by rw [hidle]; trivial
  rw [Session.put, if_neg (by rw [h.initReq]; simp)]
  rcases h.state with ⟨-, herr⟩ | ⟨herr, hsize, hchunks, hlen, hstate⟩
  · obtain ⟨e, he⟩ := Option.ne_none_iff_exists'.mp herr
    rw [he]
    exact ⟨h.sound.congr rfl rfl hquiet trivial, h.initReq, h.finalized, h.stored,
      Or.inl ⟨rfl, herr⟩⟩
  have hholds := (hstate.resolve_right fun hf => hf.not_idle hidle).2
  rw [herr]
  simp only [h.finalized, Bool.false_eq_true, if_false]
  split_ifs with hnil hfull
  · subst hnil
    refine ⟨h.sound.congr rfl rfl hquiet trivial, h.initReq, h.finalized, h.stored,
      Or.inr ⟨herr, ?_, ?_, ?_, Or.inl ⟨rfl, ?_⟩⟩⟩
    · exact hsize.trans (by simp)
    · rw [cutChunks_concat_nil]
      exact hchunks
    · rw [cutChunks_concat_nil]
      exact hlen
    · rw [cutChunks_concat_nil]
      exact hholds
  all_goals
    have hflat : (s.handler.chunks ++ [data]).flatten = (cutChunks chunks).2 ++ data := by
      rw [List.flatten_append, List.flatten_singleton, hchunks]
    have hlen' : s.handler.pendingLen + data.length = ((cutChunks chunks).2 ++ data).length := by
      rw [hlen, List.length_append]
    have hsize' : s.handler.fileSize + data.length = (chunks ++ [data]).flatten.length := by
      rw [hsize, List.flatten_append, List.length_append, List.flatten_singleton]
    have hsound : Sound { s with handler := s.handler.addChunk crc data } :=
      h.sound.congr rfl rfl hquiet hquiet
    rw [show (s.handler.addChunk crc data).pendingLen = s.handler.pendingLen + data.length from
      rfl] at hfull
  · have hcut : cutChunks (chunks ++ [data]) =
        ((cutChunks chunks).1 ++ [(cutChunks chunks).2 ++ data], []) := by
      rw [cutChunks_concat, cutChunk, if_pos (hlen' ▸ hfull)]
    refine ⟨sound_flush hsound hidle true, h.initReq, h.finalized, h.stored,
      Or.inr ⟨herr, hsize', by rw [hcut]; rfl, by rw [hcut]; rfl, Or.inr ?_⟩⟩
    rw [hcut, ← hflat]
    exact flushing_flush (s := { s with handler := s.handler.addChunk crc data })
      (hlen'.trans (congrArg List.length hflat.symm))
      (show 0 < s.handler.pendingLen + data.length by omega) hholds true
  · have hcut : cutChunks (chunks ++ [data]) =
        ((cutChunks chunks).1, (cutChunks chunks).2 ++ data) := by
      rw [cutChunks_concat, cutChunk, if_neg (hlen' ▸ hfull)]
    exact ⟨hsound.congr rfl rfl hquiet trivial, h.initReq, h.finalized, h.stored,
      Or.inr ⟨herr, hsize', by rw [hcut]; exact hflat, by rw [hcut]; exact hlen',
        Or.inl ⟨rfl, by rw [hcut]; exact hholds⟩⟩⟩

/-- The record is built and submitted. -/
theorem closing_submit (hs : s.Sound) (hquiet : Phase.Quiet s.phase)
    (hreq : s.handler.initReq = some req) (hsize : s.handler.fileSize = chunks.flatten.length)
    (hstored : s.stored = none)
    (hholds : List.Forall₂ (Holds s.disk) s.handler.blockInfoList (flushPieces chunks))
    (phase : Phase) : Closing req chunks (Session.submit pb { s with phase } req) := by
  rw [Session.submit]
  simp only
  split
  · exact ⟨sound_abort (s := { s with phase }) hs.inv hs.lt hs.bounded_infos _, hreq,
      Or.inl ⟨rfl, hstored⟩⟩
  · refine ⟨hs.congr rfl rfl hquiet trivial, hreq, Or.inr (Or.inr ⟨hholds,
      Or.inl ⟨hstored, _, rfl, ⟨s.handler.crc32Value, by rw [← hsize]⟩, rfl, rfl⟩⟩)⟩

theorem Active.complete (h : Active req chunks s) (hidle : s.phase = .idle) :
    Closing req chunks (s.complete pb) := by
  have hquiet : Phase.Quiet s.phase := by rw [hidle]; trivial
  rw [Session.complete, h.initReq]
  rcases h.state with ⟨-, herr⟩ | ⟨herr, hsize, hchunks, hlen, hstate⟩
  · obtain ⟨e, he⟩ := Option.ne_none_iff_exists'.mp herr
    rw [he]
    exact ⟨sound_abort (s := { s with handler := { s.handler with finalized := true } })
      h.sound.inv h.sound.lt h.sound.bounded_infos e, h.initReq, Or.inl ⟨rfl, h.stored⟩⟩
  have hholds := (hstate.resolve_right fun hf => hf.not_idle hidle).2
  rw [herr]
  simp only [h.finalized, Bool.false_eq_true, if_false]
  have hsound : Sound { s with handler := { s.handler with finalized := true } } :=
    h.sound.congr rfl rfl hquiet hquiet
  split_ifs with hzero hpending
  · exact ⟨hsound.congr rfl rfl hquiet trivial, h.initReq, Or.inl ⟨rfl, h.stored⟩⟩
  · have hne : (cutChunks chunks).2 ≠ [] := fun hnil => hpending (by rw [hlen, hnil]; rfl)
    refine ⟨sound_flush hsound hidle false, h.initReq, Or.inr (Or.inl ⟨hsize, h.stored, ?_⟩)⟩
    rw [flushPieces, if_neg hne, ← hchunks]
    exact flushing_flush (s := { s with handler := { s.handler with finalized := true } })
      (hlen.trans (congrArg List.length hchunks.symm)) (Nat.pos_of_ne_zero hpending) hholds false
  · have hnil : (cutChunks chunks).2 = [] := by
      rw [← List.length_eq_zero_iff, ← hlen]
      exact not_not.mp hpending
    have hpieces : flushPieces chunks = (cutChunks chunks).1 := by rw [flushPieces, if_pos hnil]
    exact closing_submit (s := { s with handler := { s.handler with finalized := true } }) hsound
      hquiet h.initReq hsize h.stored (hpieces ▸ hholds) s.phase

/-- What goes on between the calls keeps an upload active. -/
theorem Active.internal (h : Active req chunks s) {e : SessionEvent} {t : Session}
    (hcall : e.isCall = false) (hstep : Step crc pb json s e t) : Active req chunks t := by
  have hflushing : s.phase ≠ .idle → s.handler.flushErr = none ∧
      s.handler.fileSize = chunks.flatten.length ∧
      s.handler.chunks.flatten = (cutChunks chunks).2 ∧
      s.handler.pendingLen = (cutChunks chunks).2.length ∧
      s.Flushing (cutChunks chunks).1 true := by
    intro hne
    rcases h.state with ⟨hidle, -⟩ | ⟨h1, h2, h3, h4, ⟨hidle, -⟩ | h5⟩
    · exact absurd hidle hne
    · exact absurd hidle hne
    · exact ⟨h1, h2, h3, h4, h5⟩
  cases e with
  | start _ | put _ | complete | timeOut => exact absurd hcall (by simp [SessionEvent.isCall])
  | flushAlloc =>
    obtain ⟨buf, respond, hphase, rfl⟩ := hstep
    obtain ⟨h1, h2, h3, h4, h5⟩ := hflushing (by simp [hphase])
    obtain rfl := h5.respond_eq (Or.inl hphase)
    obtain ⟨hs, hf, hfail | ⟨h6, herr⟩⟩ := h5.flushAlloc h.sound hphase
    · exact ⟨hs, hf.initReq.trans h.initReq, hf.finalized.trans h.finalized,
        hf.stored.trans h.stored, Or.inl hfail⟩
    · exact ⟨hs, hf.initReq.trans h.initReq, hf.finalized.trans h.finalized,
        hf.stored.trans h.stored, Or.inr ⟨herr.trans h1, hf.fileSize.trans h2, hf.chunks ▸ h3,
          hf.pendingLen.trans h4, Or.inr h6⟩⟩
  | flushWrite outcome ctx =>
    obtain ⟨buf, results, token, respond, hphase, -, ht⟩ := hstep
    obtain ⟨h1, h2, h3, h4, h5⟩ := hflushing (by simp [hphase])
    obtain rfl := h5.respond_eq (Or.inr ⟨results, token, hphase⟩)
    rcases h5.flushWrite pb outcome ctx h.sound hphase ht with ⟨hs, hf, hfail⟩ |
      ⟨u, hs, hidle, hf, herr, hholds, -, -, hcont, -⟩
    · exact ⟨hs, hf.initReq.trans h.initReq, hf.finalized.trans h.finalized,
        hf.stored.trans h.stored, Or.inl hfail⟩
    · rw [hcont rfl]
      have hquiet : Phase.Quiet u.phase := by rw [hidle]; trivial
      exact ⟨hs.congr rfl rfl hquiet trivial, hf.initReq.trans h.initReq,
        hf.finalized.trans h.finalized, hf.stored.trans h.stored, Or.inr ⟨herr.trans h1,
          hf.fileSize.trans h2, (congrArg List.flatten hf.chunks).trans h3,
          hf.pendingLen.trans h4, Or.inl ⟨rfl, hholds⟩⟩⟩
  | commit before after outcome =>
    obtain ⟨c, hphase, -⟩ := hstep
    obtain ⟨-, -, -, -, h5⟩ := hflushing (by simp [hphase])
    exact absurd hphase (h5.not_commit c)
  | noProcessor =>
    obtain ⟨c, hphase, -⟩ := hstep
    obtain ⟨-, -, -, -, h5⟩ := hflushing (by simp [hphase])
    exact absurd hphase (h5.not_commit c)
  | others device disk db =>
    obtain ⟨ho, rfl⟩ := hstep
    exact h.others ho

/-- What goes on after `Complete` was called. -/
theorem Closing.internal (h : Closing req chunks s) {e : SessionEvent} {t : Session}
    (hcall : e.isCall = false) (hstep : Step crc pb json s e t) : Closing req chunks t := by
  have hover : ∀ {u : Session} {e : UploadError}, u.Sound → Phase.Quiet u.phase →
      u.handler = s.handler → u.stored = none → Closing req chunks (u.abort e) := by
    intro u e hu hquiet hhandler hstored
    exact ⟨sound_abort hu.inv hu.lt hu.bounded_infos e,
      (congrArg Handler.initReq hhandler).trans h.initReq, Or.inl ⟨rfl, hstored⟩⟩
  cases e with
  | start _ | put _ | complete | timeOut => exact absurd hcall (by simp [SessionEvent.isCall])
  | flushAlloc =>
    obtain ⟨buf, respond, hphase, rfl⟩ := hstep
    obtain ⟨hsize, hstored, h5⟩ := h.flushing (by simp [hphase]) (by simp [hphase])
    obtain rfl := h5.respond_eq (Or.inl hphase)
    obtain ⟨hs, hf, ⟨hidle, -⟩ | ⟨h6, -⟩⟩ := h5.flushAlloc h.sound hphase
    · exact ⟨hs, hf.initReq.trans h.initReq, Or.inl ⟨hidle, hf.stored.trans hstored⟩⟩
    · exact ⟨hs, hf.initReq.trans h.initReq, Or.inr (Or.inl ⟨hf.fileSize.trans hsize,
        hf.stored.trans hstored, h6⟩)⟩
  | flushWrite outcome ctx =>
    obtain ⟨buf, results, token, respond, hphase, -, ht⟩ := hstep
    obtain ⟨hsize, hstored, h5⟩ := h.flushing (by simp [hphase]) (by simp [hphase])
    obtain rfl := h5.respond_eq (Or.inr ⟨results, token, hphase⟩)
    rcases h5.flushWrite pb outcome ctx h.sound hphase ht with ⟨hs, hf, hidle, -⟩ |
      ⟨u, hs, hidle, hf, -, hholds, -, -, -, hsubmit⟩
    · exact ⟨hs, hf.initReq.trans h.initReq, Or.inl ⟨hidle, hf.stored.trans hstored⟩⟩
    · rw [hsubmit rfl req h.initReq]
      have hquiet : Phase.Quiet u.phase := by rw [hidle]; trivial
      exact closing_submit hs hquiet (hf.initReq.trans h.initReq) (hf.fileSize.trans hsize)
        (hf.stored.trans hstored) hholds _
  | commit before after outcome =>
    obtain ⟨c, hphase, rfl⟩ := hstep
    obtain ⟨hholds, hstored, hrec, -⟩ := h.committing hphase
    have hquiet : Phase.Quiet s.phase := by rw [hphase]; trivial
    have hsound : ∀ db, Sound { s with db } := fun db => h.sound.congr rfl rfl hquiet hquiet
    rw [Session.commit]
    simp only
    split
    · exact hover (hsound _) hquiet rfl hstored
    · split_ifs
      · -- Rolled back as by `abort`, with another answer.
        have habort := sound_abort (e := .timeout) (hsound default).inv (hsound default).lt
          (hsound default).bounded_infos
        exact ⟨habort.congr rfl rfl trivial trivial, h.initReq, Or.inl ⟨rfl, hstored⟩⟩
      · exact ⟨(hsound _).congr rfl rfl hquiet trivial, h.initReq,
          Or.inr (Or.inr ⟨hholds, Or.inr ⟨rfl, c.fileMeta, rfl, hrec⟩⟩)⟩
  | noProcessor =>
    obtain ⟨c, hphase, rfl⟩ := hstep
    exact hover h.sound (by rw [hphase]; trivial) rfl (h.committing hphase).2.1
  | others device disk db =>
    obtain ⟨ho, rfl⟩ := hstep
    exact h.others ho

/-- The calls among the events of a run. -/
def calls (events : List SessionEvent) : List SessionEvent :=
  events.filter (·.isCall)

theorem calls_append (events events' : List SessionEvent) :
    calls (events ++ events') = calls events ++ calls events' :=
  List.filter_append _ _

theorem calls_commit (events : List SessionEvent) (before after : List Commit)
    (outcome : Option BatchError) :
    calls (events ++ [.commit before after outcome]) = calls events := by
  rw [calls_append]
  exact List.append_nil _

theorem calls_others (events : List SessionEvent) (device : BlockDevice) (disk : Disk) (db : DB) :
    calls (events ++ [.others device disk db]) = calls events := by
  rw [calls_append]
  exact List.append_nil _

/-- What the calls made so far say of an upload. -/
structure History (events : List SessionEvent) (s : Session) : Prop where
  fresh : calls events = [] →
    s.handler = .new ∧ s.phase = .idle ∧ s.stored = none ∧ s.Sound
  active : ∀ req chunks, calls events = .start req :: chunks.map .put → Active req chunks s
  closing : ∀ req chunks, calls events = (.start req :: chunks.map .put) ++ [.complete] →
    Closing req chunks s

theorem active_start (hhandler : s.handler = .new) (hphase : s.phase = .idle)
    (hstored : s.stored = none) (hs : s.Sound) (req : PutInitRequest) :
    Active req [] { s with handler := s.handler.start req } := by
  have hquiet : Phase.Quiet s.phase := by rw [hphase]; trivial
  refine ⟨hs.congr rfl ?_ hquiet hquiet, rfl, rfl, hstored, Or.inr ⟨rfl, rfl, ?_, rfl,
    Or.inl ⟨hphase, .nil⟩⟩⟩
  · rw [hhandler]
    rfl
  · change s.handler.chunks.flatten = _
    rw [hhandler]
    rfl

theorem concat_eq_start_puts {l : List SessionEvent} {e : SessionEvent}
    (h : l ++ [e] = .start req :: chunks.map .put) : (l = [] ∧ e = .start req ∧ chunks = []) ∨
      ∃ cs c, chunks = cs ++ [c] ∧ e = .put c ∧ l = .start req :: cs.map .put := by
  rcases List.eq_nil_or_concat chunks with rfl | ⟨cs, c, rfl⟩
  · obtain ⟨h1, h2⟩ := List.append_inj' (show l ++ [e] = [] ++ [.start req] from h) rfl
    exact Or.inl ⟨h1, (List.singleton_inj.mp h2), rfl⟩
  · rw [List.concat_eq_append, List.map_append, ← List.cons_append] at h
    obtain ⟨h1, h2⟩ := List.append_inj' h rfl
    exact Or.inr ⟨cs, c, List.concat_eq_append, List.singleton_inj.mp h2, h1⟩

theorem History.step {events : List SessionEvent} {e : SessionEvent} {t : Session}
    (h : History events s) (hstep : Step crc pb json s e t) : History (events ++ [e]) t := by
  cases hcall : e.isCall with
  | false =>
    have hcalls : calls (events ++ [e]) = calls events := by
      rw [calls_append, calls, calls, List.filter_singleton, hcall]
      exact List.append_nil _
    refine ⟨fun hnil => ?_, fun req chunks hc => ?_, fun req chunks hc => ?_⟩
    · rw [hcalls] at hnil
      obtain ⟨h1, h2, h3, h4⟩ := h.fresh hnil
      cases e with
      | start _ | put _ | complete | timeOut =>
        exact absurd hcall (by simp [SessionEvent.isCall])
      | flushAlloc =>
        obtain ⟨buf, respond, hphase, -⟩ := hstep
        exact absurd (hphase.symm.trans h2) (by simp)
      | flushWrite outcome ctx =>
        obtain ⟨buf, results, token, respond, hphase, -⟩ := hstep
        exact absurd (hphase.symm.trans h2) (by simp)
      | commit before after outcome =>
        obtain ⟨c, hphase, -⟩ := hstep
        exact absurd (hphase.symm.trans h2) (by simp)
      | noProcessor =>
        obtain ⟨c, hphase, -⟩ := hstep
        exact absurd (hphase.symm.trans h2) (by simp)
      | others device disk db =>
        obtain ⟨ho, rfl⟩ := hstep
        exact ⟨h1, h2, h3, h4.others ho⟩
    · exact (h.active req chunks (hcalls ▸ hc)).internal hcall hstep
    · exact (h.closing req chunks (hcalls ▸ hc)).internal hcall hstep
  | true =>
    have hcalls : calls (events ++ [e]) = calls events ++ [e] := by
      rw [calls_append, calls, calls, List.filter_singleton, hcall]
      rfl
    refine ⟨fun hnil => ?_, fun req chunks hc => ?_, fun req chunks hc => ?_⟩
    · rw [hcalls] at hnil
      exact absurd hnil (by simp)
    · rw [hcalls] at hc
      rcases concat_eq_start_puts hc with ⟨hnil, rfl, rfl⟩ | ⟨cs, c, rfl, rfl, hcs⟩
      · obtain ⟨h1, h2, h3, h4⟩ := h.fresh hnil
        obtain ⟨-, rfl⟩ := hstep
        exact active_start h1 h2 h3 h4 req
      · obtain ⟨hidle, rfl⟩ := hstep
        exact (h.active req cs hcs).put hidle c
    · rw [hcalls] at hc
      obtain ⟨h1, h2⟩ := List.append_inj' hc rfl
      obtain rfl := List.singleton_inj.mp h2
      obtain ⟨hidle, rfl⟩ := hstep
      exact (h.active req chunks h1).complete hidle

theorem history_of_run {device : BlockDevice} {disk : Disk} {db : DB}
    (hinv : device.allocator.Inv) (hlt : device.allocator.total < 2 ^ 63)
    {events : List SessionEvent}
    (h : Run (Step crc pb json) (Session.new device disk db) events s) :
    History events s := by
  refine h.history (fun _ _ _ _ ht hstep => ht.step hstep) ⟨fun _ => ⟨rfl, rfl, rfl, hinv, hlt,
    List.nodup_nil, ?_, ?_⟩, fun req chunks hc => ?_, fun req chunks hc => ?_⟩
  · exact fun b hb => absurd hb (by simp [held, Session.new, Handler.new, infoBlocks])
  · exact fun token ht => absurd ht (by simp [tokens, Session.new, Handler.new])
  · exact absurd hc (by simp [calls])
  · exact absurd hc (by simp [calls])

end

end Session

end Corgi
