import Corgi.SharedBatch
import Corgi.Aio

/-!
# The allocator and the bitmap of one device

Requests stage `PersistAllocBatch` and `Release` calls into the batch of their group, while
uploads allocate and give back. `Release` frees its blocks in the allocator at once, and the
bits it clears reach the database only with the batch.

`isFree_imp_clear` says that between batches a block that is free in memory is clear on disk,
in every run whose steps are `Careful` : no batch is abandoned after a release, no two releases
of a batch meet in a space, and no block of an upload in progress is released.
`abandoned_release` is a run that abandons a release and then hands its block out again.
-/

set_option linter.unusedSectionVars false

namespace Corgi

/-! ## The model -/

/-- A device with the batch of the group in progress. -/
structure Volume (U : Type) where
  device : BlockDevice
  db : DB
  /-- What the group in progress has staged. -/
  batch : Option (List BatchOp)
  /-- A request of the group has failed. -/
  failed : Bool
  /-- What uploads hold that are not committed. -/
  pending : List (U × FlushBlockInfo)
  /-- The uploads whose extents the batch holds. -/
  staged : List U
  /-- The releases that the batch holds. -/
  released : List (List Result)

/-- What uploads and the processor do with a device. -/
inductive VolumeEvent (U : Type)
  | alloc (upload : U) (size : ℤ)
  | persistAllocBatch (upload : U)
  | release (results : List Result)
  | commit
  /-- A request of the group fails, or the commit does. -/
  | abort
  | rollbackAlloc (upload : U) (info : FlushBlockInfo)

namespace Volume

variable {U : Type} [DecidableEq U]

/-- A device that has just been opened. -/
def opened (d : BlockDevice) (db : DB) : Volume U :=
  ⟨d, db, none, false, [], [], []⟩

/-- The flushes of an upload, in order. -/
def infos (v : Volume U) (u : U) : List FlushBlockInfo :=
  (v.pending.filter (·.1 = u)).map Prod.snd

/-- `Alloc` for upload `u`. -/
def alloc (v : Volume U) (u : U) (size : ℤ) : Volume U :=
  match v.device.alloc size with
  | (d, .ok (results, token)) =>
    { v with device := d, pending := v.pending ++ [(u, ⟨results, token⟩)] }
  | (d, .error _) => { v with device := d }

/-- The operations staged so far. -/
def ops (v : Volume U) : List BatchOp :=
  v.batch.getD []

/-- The consumer of `u` persists what its flushes got. -/
def persistAllocBatch (v : Volume U) (u : U) : Volume U :=
  match (Corgi.persistAllocBatch (flattenBlockResults (v.infos u))).run mossMergeValues v.db
    v.ops with
  | (batch, .ok ()) => { v with batch := some batch, staged := u :: v.staged }
  | (batch, .error _) => { v with batch := some batch, failed := true }

variable (json : JSONDeleteMark)

/-- The consumer of a request releases extents. -/
def release (v : Volume U) (results : List Result) : Volume U :=
  match v.device.release json v.db v.ops results with
  | (d, batch, .ok ()) =>
    { v with device := d, batch := some batch, released := results :: v.released }
  | (d, batch, .error _) => { v with device := d, batch := some batch, failed := true }

/-- The group ends. -/
def close (v : Volume U) : Volume U :=
  { v with batch := none, failed := false, staged := [], released := [] }

/-- The batch is committed, and the uploads it holds are done. -/
def commit (v : Volume U) : Volume U :=
  { v with db := v.db.applyAll v.ops, pending := v.pending.filter (·.1 ∉ v.staged) }.close

/-- An upload gives back what one flush got. -/
def rollbackAlloc (v : Volume U) (u : U) (info : FlushBlockInfo) : Volume U :=
  { v with
    device := v.device.rollbackAlloc info.token
    pending := v.pending.erase (u, info) }

/-- One step. A request that fails ends the staging of its group, and an upload gives back what
no batch holds. -/
def Step (v : Volume U) : VolumeEvent U → Volume U → Prop
  | .alloc u size, w => u ∉ v.staged ∧ w = v.alloc u size
  | .persistAllocBatch u, w => v.failed = false ∧ u ∉ v.staged ∧ w = v.persistAllocBatch u
  | .release results, w =>
    v.failed = false ∧ (∀ r ∈ results, r.Bounded) ∧ w = v.release json results
  | .commit, w => v.batch ≠ none ∧ v.failed = false ∧ w = v.commit
  | .abort, w => v.batch ≠ none ∧ w = v.close
  | .rollbackAlloc u info, w =>
    u ∉ v.staged ∧ (u, info) ∈ v.pending ∧ w = v.rollbackAlloc u info

/-- The blocks that uploads in progress hold. -/
def heldBlocks (v : Volume U) : List ℕ :=
  infoBlocks (v.pending.map Prod.snd)

/-- No release of the batch touches space `i`. -/
def Unreleased (v : Volume U) (i : ℕ) : Prop :=
  ∀ results ∈ v.released, ¬(BitmapCall.release results).TouchesSpace i

/-- The steps that keep memory and disk together. -/
def Careful (v : Volume U) : VolumeEvent U → Prop
  | .release results =>
    (∀ b ∈ v.heldBlocks, (BitmapCall.release results).touches b = false) ∧
      ∀ i, (BitmapCall.release results).TouchesSpace i → v.Unreleased i
  | .abort => v.released = []
  | _ => True

/-! ## What the calls do -/

/-- Between batches and in them : what is free is clear in the batch, so is what uploads hold
that is not staged, and where no release is staged the batch only adds what uploads hold. -/
structure Consistent (v : Volume U) (committed next : ℕ → Bool) : Prop where
  inv : v.device.allocator.Inv
  lt : v.device.allocator.total < 2 ^ 63
  proper : ∀ p ∈ v.pending, p.2.Proper
  nodup : v.heldBlocks.Nodup
  allocated : ∀ b ∈ v.heldBlocks,
    b < v.device.allocator.total ∧ v.device.allocator.isFree b = false
  space : SpaceHolds v.db (committed · = true)
  staging : SpaceHolds (v.db.applyAll v.ops) (next · = true)
  free : ∀ b < v.device.allocator.total, v.device.allocator.isFree b = true → next b = false
  waiting : ∀ p ∈ v.pending, p.1 ∉ v.staged → ∀ b ∈ blocksOf p.2.token, next b = false
  kept : ∀ b, v.Unreleased (b / 4096) → committed b = true → next b = true
  fresh : ∀ b ∈ v.heldBlocks, v.Unreleased (b / 4096) → committed b = false

variable {v w : Volume U} {committed next : ℕ → Bool}

theorem mem_heldBlocks {b : ℕ} :
    b ∈ v.heldBlocks ↔ ∃ p ∈ v.pending, b ∈ blocksOf p.2.token := by
  simp only [heldBlocks, infoBlocks, List.mem_flatMap, List.mem_map, exists_exists_and_eq_and]

theorem heldBlocks_eq (v : Volume U) :
    v.heldBlocks = v.pending.flatMap fun p => blocksOf p.2.token := by
  rw [heldBlocks, infoBlocks, List.flatMap_map]

theorem mem_infos {u : U} {info : FlushBlockInfo} : info ∈ v.infos u ↔ (u, info) ∈ v.pending := by
  simp [infos]

variable {json : JSONDeleteMark}

/-- Uploads that hold the same block are the same. -/
theorem Consistent.upload_eq (h : v.Consistent committed next) {p q : U × FlushBlockInfo}
    (hp : p ∈ v.pending) (hq : q ∈ v.pending) {b : ℕ} (hbp : b ∈ blocksOf p.2.token)
    (hbq : b ∈ blocksOf q.2.token) : p = q := by
  have hnodup := h.nodup
  rw [heldBlocks_eq, List.nodup_flatMap] at hnodup
  by_contra hne
  have : Std.Symm (Function.onFun List.Disjoint fun p : U × FlushBlockInfo => blocksOf p.2.token) :=
    ⟨fun _ _ hd => hd.symm⟩
  exact hnodup.2.forall hp hq hne hbp hbq

theorem Consistent.alloc (h : v.Consistent committed next) (u : U) (size : ℤ) :
    (v.alloc u size).Consistent committed next := by
  rw [Volume.alloc]
  rcases v.device.alloc_of_inv h.inv size with
    ⟨d, results, token, hres, hproper, hinv, htotal, -, hnodup, hnew, hold⟩ |
    ⟨d, e, hres, hinv, htotal, hold⟩
  · have hfree : ∀ b < d.allocator.total, d.allocator.isFree b = true →
        v.device.allocator.isFree b = true := by
      intro b hb hf
      by_contra hb'
      rw [hold b (htotal ▸ hb) (Bool.eq_false_iff.mpr hb')] at hf
      cases hf
    have hheld : ∀ v' : Volume U, v'.pending = v.pending ++ [(u, ⟨results, token⟩)] →
        v'.heldBlocks = v.heldBlocks ++ blocksOf token := by
      intro v' hv'
      rw [heldBlocks_eq, heldBlocks_eq, hv', List.flatMap_append, List.flatMap_singleton]
    -- what is allocated was free, hence clear in the batch, and clear on disk with it
    have hclear : ∀ b ∈ blocksOf token, next b = false := fun b hb =>
      h.free b (hnew b hb).1 (hnew b hb).2.1
    rw [hres]
    refine ⟨hinv, htotal ▸ h.lt, fun p hp => ?_, ?_, fun b hb => ?_, h.space, h.staging,
      fun b hb hf => h.free b (htotal ▸ hb) (hfree b hb hf), fun p hp hs b hb => ?_, h.kept,
      fun b hb hrel => ?_⟩
    · rcases List.mem_append.mp hp with hp | hp
      · exact h.proper p hp
      · obtain rfl := List.mem_singleton.mp hp
        exact hproper
    · rw [hheld _ rfl]
      refine List.nodup_append.mpr ⟨h.nodup, hnodup, fun b hb c hc heq => ?_⟩
      subst heq
      have := (h.allocated b hb).2
      rw [(hnew b hc).2.1] at this
      cases this
    · rw [hheld _ rfl] at hb
      simp only [htotal]
      rcases List.mem_append.mp hb with hb | hb
      · exact ⟨(h.allocated b hb).1, hold b (h.allocated b hb).1 (h.allocated b hb).2⟩
      · exact ⟨(hnew b hb).1, (hnew b hb).2.2⟩
    · rcases List.mem_append.mp hp with hp | hp
      · exact h.waiting p hp hs b hb
      · obtain rfl := List.mem_singleton.mp hp
        exact hclear b hb
    · rw [hheld _ rfl] at hb
      rcases List.mem_append.mp hb with hb | hb
      · exact h.fresh b hb hrel
      · by_contra hc
        have := h.kept b hrel (Bool.eq_true_of_not_eq_false hc)
        rw [hclear b hb] at this
        cases this
  · rw [hres]
    refine ⟨hinv, htotal ▸ h.lt, h.proper, h.nodup, fun b hb => ?_, h.space, h.staging,
      fun b hb hf => ?_, h.waiting, h.kept, h.fresh⟩
    · have hb' := h.allocated b hb
      exact ⟨htotal ▸ hb'.1, hold b hb'.1 hb'.2⟩
    · refine h.free b (htotal ▸ hb) ?_
      by_contra hb'
      rw [hold b (htotal ▸ hb) (Bool.eq_false_iff.mpr hb')] at hf
      cases hf

theorem Consistent.held (h : v.Consistent committed next) {p : U × FlushBlockInfo}
    (hp : p ∈ v.pending) : v.device.Held p.2.token := by
  have hnodup := h.nodup
  rw [heldBlocks_eq, List.nodup_flatMap] at hnodup
  exact ⟨(h.proper p hp).pos, hnodup.1 p hp, fun b hb =>
    h.allocated b (mem_heldBlocks.mpr ⟨p, hp, hb⟩)⟩

/-- What is given back is clear in the batch, as no batch holds it. -/
theorem Consistent.rollbackAlloc (h : v.Consistent committed next) {u : U} {info : FlushBlockInfo}
    (hu : u ∉ v.staged) (hmem : (u, info) ∈ v.pending) :
    (v.rollbackAlloc u info).Consistent committed next := by
  obtain ⟨hinv, htotal, hfree⟩ := (h.held hmem).rollbackAlloc h.inv h.lt
  have hperm : v.heldBlocks.Perm (blocksOf info.token ++ (v.rollbackAlloc u info).heldBlocks) := by
    rw [heldBlocks_eq, heldBlocks_eq]
    exact (List.perm_cons_erase hmem).flatMap_right _
  have hsub : ∀ b ∈ (v.rollbackAlloc u info).heldBlocks, b ∈ v.heldBlocks := fun b hb =>
    hperm.mem_iff.mpr (List.mem_append_right _ hb)
  obtain ⟨-, hnodup, hdisj⟩ := List.nodup_append.mp (hperm.nodup_iff.mp h.nodup)
  refine ⟨hinv, htotal.trans_lt h.lt, fun p hp => h.proper p (List.mem_of_mem_erase hp), hnodup,
    fun b hb => ?_, h.space, h.staging, fun b hb hf => ?_,
    fun p hp => h.waiting p (List.mem_of_mem_erase hp), h.kept, fun b hb => h.fresh b (hsub b hb)⟩
  · have hb' := h.allocated b (hsub b hb)
    refine ⟨htotal.symm ▸ hb'.1, (hfree b).trans ?_⟩
    rw [hb'.2, Bool.false_or, decide_eq_false]
    exact fun hmem => hdisj b hmem b hb rfl
  · rcases Bool.or_eq_true_iff.mp ((hfree b).symm.trans hf) with hf | hf
    · exact h.free b (htotal ▸ hb) hf
    · exact h.waiting _ hmem hu b (of_decide_eq_true hf)

/-- The masks of an upload are staged. -/
theorem persistAllocBatch_eq (u : U) (hproper : ∀ info ∈ v.infos u, info.Proper)
    (hstaging : SpaceHolds (v.db.applyAll v.ops) (next · = true)) :
    ∃ batch, v.persistAllocBatch u = { v with batch := some batch, staged := u :: v.staged } ∧
      SpaceHolds (v.db.applyAll batch) fun x => next x = true ∨ x ∈ infoBlocks (v.infos u) := by
  have hexec := exec_persistAllocBatch (aligned_flattenBlockResults hproper) (v.db.applyAll v.ops)
  obtain ⟨h1, h2⟩ := Prog.run_eq_exec mossMergeValues
    (Corgi.persistAllocBatch (flattenBlockResults (v.infos u))) v.db v.ops
  rw [hexec] at h1 h2
  obtain ⟨batch, hrun⟩ : ∃ batch, (Corgi.persistAllocBatch (flattenBlockResults (v.infos u))).run
      mossMergeValues v.db v.ops = (batch, .ok ()) := ⟨_, Prod.ext rfl h2⟩
  rw [hrun] at h1
  refine ⟨batch, by rw [Volume.persistAllocBatch, hrun], ?_⟩
  rw [h1, flattenBlockResults_eq hproper, ← blocksOf_flatMap_token]
  refine hstaging.persist fun r hr => ?_
  obtain ⟨info, hinfo, hr⟩ := List.mem_flatMap.mp hr
  exact (hproper info hinfo).pos r hr

theorem Consistent.persistAllocBatch (h : v.Consistent committed next) (u : U) :
    ∃ next', (v.persistAllocBatch u).Consistent committed next' := by
  obtain ⟨batch, heq, hholds⟩ := v.persistAllocBatch_eq u
    (fun info hinfo => h.proper _ (mem_infos.mp hinfo)) h.staging
  have hmem : ∀ b, b ∈ infoBlocks (v.infos u) ↔
      ∃ p ∈ v.pending, p.1 = u ∧ b ∈ blocksOf p.2.token := by
    intro b
    rw [infoBlocks, List.mem_flatMap]
    constructor
    · rintro ⟨info, hinfo, hb⟩
      exact ⟨(u, info), mem_infos.mp hinfo, rfl, hb⟩
    · rintro ⟨⟨_, info⟩, hp, rfl, hb⟩
      exact ⟨info, mem_infos.mpr hp, hb⟩
  refine ⟨fun x => next x || decide (x ∈ infoBlocks (v.infos u)), ?_⟩
  rw [heq]
  refine ⟨h.inv, h.lt, h.proper, h.nodup, h.allocated, h.space, hholds.congr fun x => by simp,
    fun b hb hf => ?_, fun p hp hs b hb => ?_, fun b hrel hc => ?_, h.fresh⟩
  · rw [h.free b hb hf, Bool.false_or, decide_eq_false]
    rw [hmem]
    rintro ⟨p, hp, -, hbp⟩
    have := (h.allocated b (mem_heldBlocks.mpr ⟨p, hp, hbp⟩)).2
    rw [show v.device.allocator.isFree b = true from hf] at this
    cases this
  · obtain ⟨hpu, hs⟩ := not_or.mp (mt List.mem_cons.mpr hs)
    rw [h.waiting p hp hs b hb, Bool.false_or, decide_eq_false]
    rw [hmem]
    rintro ⟨q, hq, hqu, hbq⟩
    rw [h.upload_eq hp hq hb hbq] at hpu
    exact hpu hqu
  · rw [h.kept b hrel hc, Bool.true_or]

/-- A release leaves clear what is clear in the batch, and on disk where it is read from there. -/
theorem stagedBit_release_eq_false {bit staged : ℕ → Bool} {results : List Result} {b : ℕ}
    (hbit : (BitmapCall.release results).TouchesSpace (b / 4096) → bit b = false)
    (hstaged : staged b = false) :
    BitmapCall.stagedBit bit staged (.release results) b = false := by
  rw [BitmapCall.stagedBit]
  split_ifs with htouch
  · rw [hbit htouch, BitmapCall.edit]
    split_ifs <;> rfl
  · exact hstaged

theorem stagedBit_release_of_touches {bit staged : ℕ → Bool} {results : List Result} {b : ℕ}
    (h : (BitmapCall.release results).touches b = true) :
    BitmapCall.stagedBit bit staged (.release results) b = false := by
  rw [BitmapCall.stagedBit, if_pos (BitmapCall.touchesSpace_of_touches h), BitmapCall.edit,
    if_pos h]
  rfl

theorem Consistent.release (h : v.Consistent committed next) {results : List Result}
    (hb : ∀ r ∈ results, r.Bounded) (hc : v.Careful (.release results)) :
    ∃ next', (v.release json results).Consistent committed next' := by
  obtain ⟨hheld, hspaces⟩ := hc
  rcases v.device.release_cases json h.space h.staging results with
    ⟨batch, heq, hal, hholds⟩ | ⟨-, e, heq⟩
  swap
  · refine ⟨next, ?_⟩
    rw [Volume.release, heq]
    exact ⟨h.inv, h.lt, h.proper, h.nodup, h.allocated, h.space, h.staging, h.free, h.waiting,
      h.kept, h.fresh⟩
  have hkept := AllocatorV3.kept_release h.inv (bounded_byteResults hb)
  have hframe : ∀ b, (BitmapCall.release results).touches b = false →
      (v.device.allocator.release (byteResultsToBlockResults results)).1.isFree b =
        v.device.allocator.isFree b := by
    intro b hb'
    refine AllocatorV3.isFree_release_of_notMem h.inv (bounded_byteResults hb) ?_
    rw [mem_blocksOf_byteResults hal]
    exact of_decide_eq_false hb'
  -- what is clear in the batch and not committed stays clear
  have hclear : ∀ b, next b = false → (v.Unreleased (b / 4096) → committed b = false) →
      BitmapCall.stagedBit committed next (.release results) b = false := fun b hn hcom =>
    stagedBit_release_eq_false (fun ht => hcom (hspaces _ ht)) hn
  have hunrel : ∀ w : Volume U, w.released = results :: v.released → ∀ i, w.Unreleased i →
      ¬(BitmapCall.release results).TouchesSpace i ∧ v.Unreleased i := by
    intro w hw i hi
    rw [Unreleased, hw] at hi
    exact List.forall_mem_cons.mp hi
  refine ⟨BitmapCall.stagedBit committed next (.release results), ?_⟩
  rw [Volume.release, heq]
  refine ⟨hkept.toInv, hkept.total_eq.trans_lt h.lt, h.proper, h.nodup, fun b hmem => ?_, h.space,
    hholds, fun b hlt hf => ?_, fun p hp hs b hmem => ?_, fun b hrel hcom => ?_,
    fun b hmem hrel => h.fresh b hmem (hunrel _ rfl _ hrel).2⟩
  · have hb' := h.allocated b hmem
    exact ⟨hkept.total_eq.symm ▸ hb'.1, (hframe b (hheld b hmem)).trans hb'.2⟩
  · cases htouch : (BitmapCall.release results).touches b with
    | true => exact stagedBit_release_of_touches htouch
    | false =>
      have hnext := h.free b (hkept.total_eq ▸ hlt) ((hframe b htouch).symm.trans hf)
      refine hclear b hnext fun hrel => Bool.eq_false_iff.mpr fun hcom => ?_
      rw [h.kept b hrel hcom] at hnext
      cases hnext
  · exact hclear b (h.waiting p hp hs b hmem) (h.fresh b (mem_heldBlocks.mpr ⟨p, hp, hmem⟩))
  · obtain ⟨htouch, hrel⟩ := hunrel _ rfl _ hrel
    rw [BitmapCall.stagedBit, if_neg htouch]
    exact h.kept b hrel hcom

theorem Consistent.commit (h : v.Consistent committed next) : v.commit.Consistent next next := by
  have hsub : ∀ b ∈ v.commit.heldBlocks, b ∈ v.heldBlocks ∧ next b = false := by
    intro b hb
    obtain ⟨p, hp, hb⟩ := mem_heldBlocks.mp hb
    obtain ⟨hp, hs⟩ := List.mem_filter.mp hp
    exact ⟨mem_heldBlocks.mpr ⟨p, hp, hb⟩, h.waiting p hp (of_decide_eq_true hs) b hb⟩
  refine ⟨h.inv, h.lt, fun p hp => h.proper p (List.mem_filter.mp hp).1, ?_,
    fun b hb => h.allocated b (hsub b hb).1, h.staging, h.staging, h.free, fun p hp _ b hb => ?_,
    fun _ _ hb => hb, fun b hb _ => (hsub b hb).2⟩
  · rw [heldBlocks_eq]
    have hnodup := h.nodup
    rw [heldBlocks_eq] at hnodup
    exact hnodup.sublist (List.filter_sublist.flatMap _)
  · exact (hsub b (mem_heldBlocks.mpr ⟨p, hp, hb⟩)).2

/-- A batch without a release is abandoned. -/
theorem Consistent.abort (h : v.Consistent committed next) (hc : v.released = []) :
    v.close.Consistent committed committed := by
  have hrel : ∀ i, v.Unreleased i := by
    intro i
    rw [Unreleased, hc]
    simp
  refine ⟨h.inv, h.lt, h.proper, h.nodup, h.allocated, h.space, h.space, fun b hb hf => ?_,
    fun p hp _ b hb => h.fresh b (mem_heldBlocks.mpr ⟨p, hp, hb⟩) (hrel _), fun _ _ hb => hb,
    fun b hb _ => h.fresh b hb (hrel _)⟩
  refine Bool.eq_false_iff.mpr fun hcom => ?_
  have := h.free b hb hf
  rw [h.kept b (hrel _) hcom] at this
  cases this

/-! ## Every run -/

theorem Consistent.step (h : v.Consistent committed next) {e : VolumeEvent U}
    (hstep : Step json v e w) (hc : v.Careful e) :
    ∃ committed' next', w.Consistent committed' next' := by
  cases e with
  | alloc u size =>
    obtain ⟨-, rfl⟩ := hstep
    exact ⟨_, _, h.alloc u size⟩
  | persistAllocBatch u =>
    obtain ⟨-, -, rfl⟩ := hstep
    exact ⟨_, h.persistAllocBatch u⟩
  | release results =>
    obtain ⟨-, hb, rfl⟩ := hstep
    exact ⟨_, h.release hb hc⟩
  | commit =>
    obtain ⟨-, -, rfl⟩ := hstep
    exact ⟨_, _, h.commit⟩
  | abort =>
    obtain ⟨-, rfl⟩ := hstep
    exact ⟨_, _, h.abort hc⟩
  | rollbackAlloc u info =>
    obtain ⟨hu, hmem, rfl⟩ := hstep
    exact ⟨_, _, h.rollbackAlloc hu hmem⟩

/-- Memory and disk agree when the device is opened : the allocator is sound and the bitmap
marks `bit`, which is clear for every free block. -/
structure Agrees (d : BlockDevice) (db : DB) (bit : ℕ → Bool) : Prop where
  inv : d.allocator.Inv
  lt : d.allocator.total < 2 ^ 63
  space : SpaceHolds db (bit · = true)
  free : ∀ b < d.allocator.total, d.allocator.isFree b = true → bit b = false

theorem Agrees.consistent {d : BlockDevice} {db : DB} {bit : ℕ → Bool} (h : Agrees d db bit) :
    (opened d db : Volume U).Consistent bit bit :=
  ⟨h.inv, h.lt, nofun, List.nodup_nil, nofun, h.space, h.space, h.free, nofun, fun _ _ hb => hb,
    nofun⟩

/-- In every run whose steps are careful, from a device that agrees with its bitmap, a block that
is free in memory between batches is clear on disk. -/
theorem isFree_imp_clear {d : BlockDevice} {db : DB} {bit : ℕ → Bool} (h : Agrees d db bit)
    {events : List (VolumeEvent U)} {v : Volume U}
    (hrun : Run (fun v e w => Step json v e w ∧ v.Careful e) (opened d db) events v)
    (hidle : v.batch = none) :
    ∀ b < v.device.allocator.total, v.device.allocator.isFree b = true →
      v.db.blockBit b = some false := by
  obtain ⟨committed, next, hv⟩ := hrun.invariant
    (I := fun v => ∃ committed next, v.Consistent committed next)
    (fun v e w ⟨_, _, hv⟩ hstep => hv.step hstep.1 hstep.2) ⟨_, _, h.consistent⟩
  intro b hb hf
  have hstaging := hv.staging
  rw [show v.ops = [] by rw [ops, hidle]; rfl] at hstaging
  exact (SpaceHolds.blockBit hstaging b).trans (congrArg some (hv.free b hb hf))

/-- An opened device agrees with its bitmap. -/
theorem agrees_newBlockDevice (json : JSONDeleteMark) (name : String) {n : ℕ} (hn : 0 < n)
    (hlt : n < 2 ^ 63) {db : DB} {marked : List ℕ} (h : SpaceHolds db (· ∈ marked))
    (hfirst : db (familySpaceKey 0) = [] → marked = []) (hnodup : marked.Nodup)
    (hmarked : ∀ x ∈ marked, x < n) :
    ∃ d db', newBlockDevice json name (4096 * n) db = .ok (d, db') ∧
      Agrees d db' fun x => decide (x ∈ marked) := by
  obtain ⟨d, db', hopen, hspace, -, -, htotal, howns⟩ := newBlockDevice_spec json name hn hlt h
    hfirst hnodup hmarked
  refine ⟨d, db', hopen, howns.inv (htotal.symm ▸ hn), htotal.trans_lt hlt,
    hspace.congr fun x => by simp, fun b hb hf => decide_eq_false fun hmem => ?_⟩
  have := ((howns.mem_iff b).mp (Multiset.mem_coe.mpr hmem)).2
  rw [hf] at this
  cases this

/-! ## A release whose batch is abandoned -/

theorem agrees_freeDevice {n : ℕ} (hn : 0 < n) (hlt : n < 2 ^ 63) :
    Agrees (freeDevice n) zeroDB fun _ => false := by
  refine ⟨inv_freeDevice hn, (total_freeDevice hn).trans_lt hlt, ?_, fun _ _ _ => rfl⟩
  exact spaceHolds_zeroDB.congr fun x => by simp

/-- The one block of a device is allocated and stored. -/
theorem exists_stored_block (json : JSONDeleteMark) : ∃ v : Volume ℕ,
    Run (fun v e w => Step json v e w ∧ v.Careful e) (opened (freeDevice 1) zeroDB)
      [.alloc 0 4096, .persistAllocBatch 0, .commit] v ∧
    v = opened v.device v.db ∧ v.device.allocator.Inv ∧ v.device.allocator.total = 1 ∧
    v.device.allocator.isFree 0 = false ∧ SpaceHolds v.db fun x => decide (x = 0) = true := by
  obtain ⟨d, results, token, halloc, hproper, hinv, htotal, hb, hfree⟩ :=
    BlockDevice.alloc_one_block (inv_freeDevice Nat.one_pos) (total_freeDevice Nat.one_pos)
      (isFree_freeDevice Nat.one_pos)
  have hstep₁ : Step json (opened (freeDevice 1) zeroDB) (.alloc 0 4096)
      ⟨d, zeroDB, none, false, [(0, ⟨results, token⟩)], [], []⟩ := by
    refine ⟨List.not_mem_nil, ?_⟩
    rw [Volume.alloc, opened, halloc]
    rfl
  obtain ⟨batch, hpersist, hholds⟩ := @persistAllocBatch_eq ℕ _
    ⟨d, zeroDB, none, false, [(0, ⟨results, token⟩)], [], []⟩ (fun _ => false) 0
    (fun info hinfo => by
      obtain rfl : info = ⟨results, token⟩ := by simpa [mem_infos] using hinfo
      exact hproper)
    (spaceHolds_zeroDB.congr fun x => by simp)
  refine ⟨_, (Run.nil.snoc ⟨hstep₁, trivial⟩).snoc ⟨⟨rfl, List.not_mem_nil, rfl⟩, trivial⟩ |>.snoc
    ⟨⟨?_, ?_, rfl⟩, trivial⟩, ?_⟩
  · rw [hpersist]
    exact Option.some_ne_none _
  · rw [hpersist]
  · rw [hpersist]
    refine ⟨rfl, hinv, htotal, hfree, hholds.congr fun x => ?_⟩
    simp [infoBlocks, infos, hb]

/-- One block is allocated, stored and released. -/
theorem exists_released_block (json : JSONDeleteMark) : ∃ v : Volume ℕ,
    Run (fun v e w => Step json v e w ∧ v.Careful e) (opened (freeDevice 1) zeroDB)
      [.alloc 0 4096, .persistAllocBatch 0, .commit, .release [blockExtent 0]] v ∧
    v.batch ≠ none ∧ v.failed = false ∧ v.device.allocator.Inv ∧
    v.device.allocator.total = 1 ∧ v.device.allocator.isFree 0 = true ∧
    SpaceHolds v.db fun x => decide (x = 0) = true := by
  obtain ⟨v, hrun, hv, hinv, htotal, halloc, hspace⟩ := exists_stored_block json
  have hextent : byteResultsToBlockResults [blockExtent 0] = [⟨0, 1⟩] := by decide
  have hcontains : ∀ r ∈ [(⟨0, 1⟩ : Result)], v.device.allocator.Contains r := by
    intro r hr
    obtain rfl := List.mem_singleton.mp hr
    exact ⟨le_rfl, by decide, by rw [htotal]; decide⟩
  have hblocks : ∀ b ∈ blocksOf [⟨0, 1⟩], v.device.allocator.isFree b = false := by
    intro b hb
    obtain rfl : b = 0 := List.mem_singleton.mp hb
    exact halloc
  obtain ⟨-, htotal', -, hfree⟩ := AllocatorV3.release_of_allocated hinv (by omega) hcontains
    hblocks (by decide)
  have hkept := @AllocatorV3.kept_release _ hinv [⟨0, 1⟩] (by
    intro r hr
    obtain rfl := List.mem_singleton.mp hr
    exact ⟨by decide, by decide⟩)
  have hops : SpaceHolds (v.db.applyAll v.ops) fun x => decide (x = 0) = true := by
    rw [hv]
    exact hspace
  have hheld : v.heldBlocks = [] := by rw [hv]; rfl
  have hreleased : v.released = [] := by rw [hv]; rfl
  have hfailed : v.failed = false := by rw [hv]; rfl
  rcases v.device.release_cases json hspace hops [blockExtent 0] with
    ⟨batch, heq, -, -⟩ | ⟨hal, -⟩
  · refine ⟨v.release json [blockExtent 0], hrun.snoc ⟨⟨hfailed, ?_, rfl⟩, ?_, ?_⟩, ?_⟩
    · intro r hr
      obtain rfl := List.mem_singleton.mp hr
      exact ⟨by decide, by decide⟩
    · rw [hheld]
      simp
    · intro i _
      rw [Unreleased, hreleased]
      simp
    · rw [Volume.release, heq, hextent]
      refine ⟨Option.some_ne_none _, hfailed, hkept.toInv, htotal'.trans htotal, ?_, hspace⟩
      rw [hfree, decide_eq_true (by decide), Bool.or_true]
  · exact absurd (by simpa using aligned_blockExtent 0) hal

/-- Once the release is committed the block is clear. -/
theorem released_block_clear : ∃ v : Volume ℕ,
    Run (fun v e w => Step (fun _ => none) v e w ∧ v.Careful e) (opened (freeDevice 1) zeroDB)
      [.alloc 0 4096, .persistAllocBatch 0, .commit, .release [blockExtent 0], .commit] v ∧
    v.device.allocator.isFree 0 = true ∧ v.db.blockBit 0 = some false := by
  obtain ⟨v, hrun, hbatch, hfailed, hinv, htotal, hfree, -⟩ := exists_released_block fun _ => none
  have hstep : Step (fun _ => none) v .commit v.commit := ⟨hbatch, hfailed, rfl⟩
  have hrun' := hrun.snoc ⟨hstep, trivial⟩
  refine ⟨v.commit, hrun', hfree, ?_⟩
  exact isFree_imp_clear (agrees_freeDevice (by decide) (by decide)) hrun' rfl 0
    (htotal.symm ▸ Nat.one_pos) hfree

/-- The batch of a release is abandoned : the block is free in memory and set on disk, and
the next upload gets it. -/
theorem abandoned_release : ∃ v w : Volume ℕ,
    Run (Step fun _ => none) (opened (freeDevice 1) zeroDB)
      [.alloc 0 4096, .persistAllocBatch 0, .commit, .release [blockExtent 0], .abort] v ∧
    v.batch = none ∧ v.device.allocator.isFree 0 = true ∧ v.db.blockBit 0 = some true ∧
    Step (fun _ => none) v (.alloc 1 4096) w ∧ 0 ∈ w.heldBlocks := by
  obtain ⟨v, hrun, hbatch, hfailed, hinv, htotal, hfree, hspace⟩ :=
    exists_released_block fun _ => none
  have hrun' := hrun.mono fun _ _ _ h => h.1
  refine ⟨v.close, v.close.alloc 1 4096, hrun'.snoc ⟨hbatch, rfl⟩, rfl, hfree,
    SpaceHolds.blockBit hspace 0, ⟨List.not_mem_nil, rfl⟩, ?_⟩
  obtain ⟨d, results, token, halloc, -, -, -, hb, -⟩ :=
    BlockDevice.alloc_one_block hinv htotal hfree
  rw [Volume.alloc, close, halloc]
  exact mem_heldBlocks.mpr ⟨(1, ⟨results, token⟩),
    List.mem_append_right _ (List.mem_singleton_self _), by
      rw [hb]
      exact List.mem_singleton_self 0⟩

end Volume

end Corgi
