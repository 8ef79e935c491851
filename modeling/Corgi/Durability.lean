import Corgi.Messages
import Corgi.Node

/-!
# Durable blocks are never handed out again

In every state that a node reaches, whatever the crashes, the blocks of every record ever
committed are set in the persisted bitmap and allocated in memory, an allocation returns
none of them, and no two records share one (`durable_blocks`).

Uploads do go through : `Node.Inv.exists_upload` commits one on any node that is up and has
room.
-/

set_option linter.unusedSectionVars false

namespace Corgi

variable {U : Type} [DecidableEq U] {json : JSONDeleteMark} {pb : Protobuf} {name : String}
  {n : ℕ} {s : Node U}

/-- Blocks of committed records stay allocated, in memory and on disk, and a node that is
down can be opened. -/
theorem durable_blocks (hn : 0 < n) (hlt : n < 2 ^ 63) {db : DB} (hfresh : Fresh db)
    {events : List (NodeEvent U)}
    (h : Run (Node.Step json pb name n) (Node.initial U db) events s) :
    (∃ value : ℕ → Option Bytes, (∀ i, s.db.get (familySpaceKey i) = .ok (value i)) ∧
      ∀ fileMeta ∈ s.committed, ∀ x ∈ fileMeta.blocks, spaceBit value x = true) ∧
    (∀ d, s.device = some d → ∀ fileMeta ∈ s.committed, ∀ x ∈ fileMeta.blocks,
      x < d.allocator.total ∧ d.allocator.isFree x = false ∧
      ∀ size d' results token, d.alloc size = (d', .ok (results, token)) →
        x ∉ blocksOf token ∧ ∀ r ∈ results, ¬CoversBlock r.offset.toNat r.size.toNat x) ∧
    (∀ fileMeta ∈ s.committed, fileMeta.blocks.Nodup) ∧
    s.committed.Pairwise (fun f g => List.Disjoint f.blocks g.blocks) ∧
    (s.device = none → ∃ d db', newBlockDevice json name (4096 * n) s.db = .ok (d, db')) := by
  have hinv := Node.inv_of_run hn hlt hfresh h
  have hmem : ∀ fileMeta ∈ s.committed, ∀ x ∈ fileMeta.blocks, x ∈ s.committedBlocks :=
    fun fileMeta hf x hx => List.mem_flatMap.mpr ⟨fileMeta, hf, hx⟩
  obtain ⟨hnodup, hpair⟩ := List.nodup_flatMap.mp hinv.nodup
  refine ⟨?_, fun d hd fileMeta hf x hx => ?_, hnodup, hpair, fun hdown => ?_⟩
  · obtain ⟨value, hget, hbits⟩ := hinv.space.get
    exact ⟨value, hget, fun fileMeta hf x hx => (hbits x).mpr (hmem fileMeta hf x hx)⟩
  · obtain ⟨-, howns⟩ := hinv.owns d hd
    have hx' : x ∈ (s.pendingBlocks + s.committedBlocks : Multiset ℕ) :=
      Multiset.mem_add.mpr (Or.inr (Multiset.mem_coe.mpr (hmem fileMeta hf x hx)))
    obtain ⟨h1, h2⟩ := (howns.mem_iff x).mp hx'
    refine ⟨h1, h2, fun size d' results token hres => ?_⟩
    rcases d.alloc_spec howns size with ⟨d₁, results₁, token₁, hres', hproper, howns', -, -⟩ |
      ⟨d₁, e, hres', -, -⟩
    · obtain ⟨-, hok⟩ := Prod.mk.inj (hres.symm.trans hres')
      obtain ⟨rfl, rfl⟩ := Prod.mk.inj (Except.ok.inj hok)
      have hnew : x ∉ blocksOf token := fun hx'' =>
        Multiset.disjoint_left.mp (Multiset.nodup_add.mp howns'.nodup).2.2 hx'
          (Multiset.mem_coe.mpr hx'')
      refine ⟨hnew, fun r hr hcovers => hnew ?_⟩
      rw [show results = token.map Result.toBytes from hproper.results_eq] at hr
      obtain ⟨t, ht, rfl⟩ := List.mem_map.mp hr
      exact mem_blocksOf.mpr ⟨t, ht, (coversBlock_toBytes (hproper.pos t ht).1 x).mp hcovers⟩
    · rw [hres'] at hres
      exact absurd (Prod.mk.inj hres).2 (by simp)
  · obtain ⟨d, db', hnew, -⟩ := hinv.start json name hn hlt hdown
    exact ⟨d, db', hnew⟩

/-! ## Records that are marshalled -/

/-- Every record is marshalled that flushes to a device of `n` blocks can give. -/
def Protobuf.Marshals (pb : Protobuf) (n : ℕ) (req : PutInitRequest) (size : ℤ) (etag : Bytes) :
    Prop :=
  ∀ infos : List FlushBlockInfo, (∀ info ∈ infos, info.Proper) → (infoBlocks infos).Nodup →
    (∀ b ∈ infoBlocks infos, b < n) →
    ∃ data, pb.marshal (buildFileMetaAndResults req size etag infos).1 = .ok data

/-- Extents are no more than their blocks. -/
theorem length_le_length_blocksOf : ∀ {token : List Result}, (∀ r ∈ token, 0 < r.size) →
    token.length ≤ (blocksOf token).length
  | [], _ => Nat.zero_le _
  | r :: token, h => by
    obtain ⟨hr, htoken⟩ := List.forall_mem_cons.mp h
    have hblocks : r.blocks.length = r.size.toNat := by simp [Result.blocks]
    have hrest := length_le_length_blocksOf htoken
    rw [blocksOf, List.flatMap_cons, List.length_append, List.length_cons, hblocks]
    rw [blocksOf] at hrest
    omega

/-- An extent whose blocks are all below `n`. -/
theorem Result.offset_add_size_le {r : Result} {n : ℕ} (hpos : 0 ≤ r.offset ∧ 0 < r.size)
    (h : ∀ b ∈ r.blocks, b < n) : r.offset + r.size ≤ n := by
  have hlast := h (r.offset + r.size - 1).toNat (Result.mem_blocks.mpr (by omega))
  omega

/-- A request with names in UTF-8 gives records that are marshalled on any device that an
`int64` can address. -/
theorem protobuf_marshals {n : ℕ} (hn : n ≤ 2 ^ 50) {req : PutInitRequest} {size : ℤ}
    {etag : Bytes} (hlen : ∀ v ∈ [req.lun, req.fileName, etag, req.metaKey], v.length < 2 ^ 63)
    (hutf8 : ∀ v ∈ [req.lun, req.fileName, etag, req.metaKey], utf8Valid v = true)
    (hsize : IsInt64 size) : protobuf.Marshals n req size etag := by
  intro infos hproper hnodup hlt
  obtain ⟨data, hdata⟩ := (exists_marshalFileMeta_iff
    (buildFileMetaAndResults req size etag infos).1).mpr hutf8
  refine ⟨data, protobuf_marshal_iff.mpr ⟨⟨hlen, hsize, ?_⟩, hdata⟩⟩
  have hresults := flattenBlockResults_eq hproper
  have hpos : ∀ r ∈ infos.flatMap FlushBlockInfo.token, 0 ≤ r.offset ∧ 0 < r.size := by
    intro r hr
    obtain ⟨info, hinfo, hr⟩ := List.mem_flatMap.mp hr
    exact (hproper info hinfo).pos r hr
  have hblocks : infoBlocks infos = blocksOf (infos.flatMap FlushBlockInfo.token) :=
    List.flatMap_assoc.symm
  have hcount : (flattenBlockResults infos).length < 2 ^ 60 := by
    have hle := length_le_length_blocksOf fun r hr => (hpos r hr).2
    have hbound := (List.subperm_of_subset hnodup
      fun b hb => List.mem_range.mpr (hlt b hb)).length_le
    rw [List.length_range, hblocks] at hbound
    rw [hresults, List.length_map]
    omega
  have hint : ∀ r ∈ flattenBlockResults infos, IsInt64 r.offset ∧ IsInt64 r.size := by
    rw [hresults]
    intro r hr
    obtain ⟨token, htoken, rfl⟩ := List.mem_map.mp hr
    have hle := Result.offset_add_size_le (hpos token htoken) (n := n) fun b hb => hlt b (by
      rw [hblocks]
      exact List.mem_flatMap.mpr ⟨token, htoken, hb⟩)
    have hpos := hpos token htoken
    simp only [Result.toBytes, IsInt64]
    omega
  simp only [List.forall_mem_cons, List.not_mem_nil, false_implies, implies_true, and_true]
  refine ⟨⟨?_, ?_⟩, ?_, ?_⟩
  · exact (List.length_map _).trans_lt hcount
  · intro v hv
    obtain ⟨r, hr, rfl⟩ := List.mem_map.mp hv
    exact (hint r hr).1
  · exact (List.length_map _).trans_lt hcount
  · intro v hv
    obtain ⟨r, hr, rfl⟩ := List.mem_map.mp hv
    exact (hint r hr).2

/-! ## Uploads that go through -/

namespace Node

/-- What an upload has flushed gives a record that is marshalled. -/
theorem Inv.exists_marshal (h : Inv n s) {d : BlockDevice} (hd : s.device = some d)
    {req : PutInitRequest} {size : ℤ} {etag : Bytes} (hmarshal : pb.Marshals n req size etag)
    (u : U) :
    ∃ data, pb.marshal (buildFileMetaAndResults req size etag (s.infos u)).1 = .ok data := by
  obtain ⟨htotal, howns⟩ := h.owns d hd
  have hsub : (infoBlocks (s.infos u)).Sublist s.pendingBlocks :=
    (List.filter_sublist.map Prod.snd).flatMap _
  refine hmarshal _ (fun info hinfo => ?_) (hsub.nodup ?_) fun b hb => ?_
  · obtain ⟨x, hx, rfl⟩ := List.mem_map.mp hinfo
    exact h.proper x (List.mem_filter.mp hx).1
  · exact Multiset.coe_nodup.mp (Multiset.nodup_add.mp howns.nodup).1
  · rw [← htotal]
    exact ((howns.mem_iff b).mp (Multiset.mem_add.mpr (Or.inl (hsub.subset hb)))).1

/-- On a node that is up, has a free block and no other upload, an upload of one block
whose record is not found goes through. -/
theorem Inv.exists_upload (h : Inv n s) (hup : s.device ≠ none) (hidle : s.pending = [])
    (hroom : s.committedBlocks.length < n) (json : JSONDeleteMark) (name : String) (hn : 0 < n)
    (hlt : n < 2 ^ 63) (u : U) {req : PutInitRequest} {size : ℤ} {etag : Bytes}
    (hmarshal : pb.Marshals n req size etag) (hnil : s.db (fileMetaKey req.metaKey) = []) :
    ∃ metaBytes t, Run (Step json pb name n) s
        [.alloc u 4096, .commit [⟨u, req, size, etag, metaBytes⟩] none] t ∧
      t.device ≠ none ∧ t.pending = [] ∧
      t.committedBlocks.length = s.committedBlocks.length + 1 ∧
      (∀ metaKey, t.db (fileMetaKey metaKey) = s.db (fileMetaKey metaKey)) ∧
      ∃ fileMeta, t.committed = s.committed ++ [fileMeta] ∧ fileMeta.fileName = req.fileName ∧
        fileMeta.size = size := by
  obtain ⟨d, hd⟩ := Option.ne_none_iff_exists'.mp hup
  obtain ⟨htotal, howns⟩ := h.owns d hd
  have havail : 1 ≤ d.allocator.available := by
    have hsum := howns.available
    rw [pendingBlocks, hidle, htotal] at hsum
    simp only [List.map_nil, infoBlocks, List.flatMap_nil, Multiset.coe_nil, zero_add,
      Multiset.coe_card] at hsum
    omega
  obtain ⟨d', results, token, hres, hlen, -⟩ := d.alloc_of_le
    (howns.inv (htotal ▸ hn)) (show 0 < (4096 : ℤ) by decide) (by
      rw [fitBlock_of_nonneg (by decide)]; simpa using havail)
  -- After the allocation, the upload's only flush is the one just made.
  let s₁ : Node U := { s with device := some d', pending := [(u, ⟨results, token⟩)] }
  have hstep₁ : Step json pb name n s (.alloc u 4096) s₁ := by
    refine ⟨d, hd, ?_⟩
    rw [hres, hidle]
    rfl
  have hinv₁ := (h.step hn hlt hstep₁).1
  have hinfos : s₁.infos u = [⟨results, token⟩] := by simp [infos, s₁]
  obtain ⟨metaBytes, hbytes⟩ := hinv₁.exists_marshal rfl hmarshal u
  obtain ⟨stored, -, heq, hstored⟩ := hinv₁.afterCommit json [⟨u, req, size, etag, metaBytes⟩] none
  obtain rfl := hstored rfl (by simpa using hnil)
  refine ⟨metaBytes, s₁.store [⟨u, req, size, etag, metaBytes⟩],
    .cons hstep₁ (.cons ?_ .nil), Option.some_ne_none d',
    by simp [Node.store, s₁], ?_,
    fun metaKey => ?_, _, rfl, rfl, rfl⟩
  · refine ⟨rfl, List.nodup_singleton _, fun c hc => ?_, heq.symm⟩
    rw [List.mem_singleton.mp hc]
    exact ⟨by rw [hinfos]; simp, hbytes⟩
  · have hnodup : ([⟨u, req, size, etag, metaBytes⟩].map (@Completion.upload U)).Nodup :=
      List.nodup_singleton u
    rw [(hinv₁.blocks_store hnodup).1, List.length_append]
    simp only [List.flatMap_cons, List.flatMap_nil, List.append_nil, hinfos, infoBlocks, hlen]
    rfl
  · exact applyAll_ops_fileMetaKey _ _ _

end Node

/-! ## A run with a crash -/

/-- An empty database. -/
def emptyDB : DB :=
  fun _ => []

theorem fresh_emptyDB : Fresh emptyDB :=
  fun _ _ => rfl

/-- A new node can be opened. -/
theorem Node.exists_start (json : JSONDeleteMark) (pb : Protobuf) (name : String) (hn : 0 < n)
    (hlt : n < 2 ^ 63) :
    ∃ t : Node U, Run (Step json pb name n) (initial U emptyDB) [.start] t ∧ t.Inv n ∧
      t.device ≠ none ∧ t.pending = [] ∧ t.committed = [] ∧
      ∀ metaKey, t.db (fileMetaKey metaKey) = [] := by
  obtain ⟨d, db, hnew, hinv, hframe⟩ :=
    (Inv.initial fresh_emptyDB : Inv n (initial U emptyDB)).start json name hn hlt rfl
  refine ⟨_, .cons ⟨rfl, d, db, hnew, rfl⟩ .nil, hinv, Option.some_ne_none d, rfl, rfl,
    fun metaKey => ?_⟩
  refine hframe _ fun i h => ?_
  exact absurd (List.cons.inj h).1 (by decide)

/-- A file of one block on a device of two, before and after a crash. -/
theorem durable_blocks_after_crash : ∃ (events : List (NodeEvent ℕ)) (s : Node ℕ),
    Run (Node.Step (fun _ => none) protobuf "lun" 2) (Node.initial ℕ emptyDB) events s ∧
    .crash ∈ events ∧ s.device ≠ none ∧ s.committedBlocks.length = 1 ∧
    ∀ d, s.device = some d → ∀ fileMeta ∈ s.committed, ∀ x ∈ fileMeta.blocks,
      d.allocator.isFree x = false := by
  obtain ⟨s₁, hrun₁, hinv₁, hup₁, hidle₁, hnone₁, hnil₁⟩ :=
    @Node.exists_start ℕ _ 2 (fun _ => none) protobuf "lun" (by decide) (by decide)
  have hlen₁ : s₁.committedBlocks.length = 0 := by rw [Node.committedBlocks, hnone₁]; rfl
  have hmarshal : protobuf.Marshals 2 ⟨[], [97#8], [98#8], false⟩ 4096 [] :=
    protobuf_marshals (by decide) (by decide) (by decide) (by decide)
  obtain ⟨metaBytes, s₂, hrun₂, -, -, hlen₂, -, -⟩ := hinv₁.exists_upload hup₁ hidle₁
    (by omega) (fun _ => none) "lun" (by decide) (by decide) 0 hmarshal (hnil₁ _)
  have hrun := (hrun₁.append hrun₂).snoc (show Node.Step (fun _ => none) protobuf "lun" 2 s₂
    .crash ⟨s₂.db, none, [], s₂.committed⟩ from rfl)
  obtain ⟨d, db, hnew⟩ := (durable_blocks (by decide) (by decide) fresh_emptyDB hrun).2.2.2.2 rfl
  have hrun' := hrun.snoc (show Node.Step (fun _ => none) protobuf "lun" 2 _ .start
    ⟨db, some d, [], s₂.committed⟩ from ⟨rfl, d, db, hnew, rfl⟩)
  refine ⟨_, _, hrun', by simp, Option.some_ne_none d, hlen₂.trans (by omega), fun d' hd => ?_⟩
  exact fun fileMeta hf x hx => ((durable_blocks (by decide) (by decide) fresh_emptyDB hrun').2.1
    d' hd fileMeta hf x hx).2.1

end Corgi
