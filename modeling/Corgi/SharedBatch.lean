import Corgi.Persist

/-!
# Bitmap calls that share a batch

Requests stage `PersistAllocBatch` and `Release` calls into one batch. An allocation is
staged as masks on top of what the batch holds. A release reads the committed bitmaps and
stages them whole, so that it drops what the batch held of the spaces it touches.

`commitTogether_eq_iff` says exactly when nothing is lost, and `lost_alloc` is a batch of two
calls that loses an allocation.
-/

namespace Corgi

variable (json : JSONDeleteMark)

/-! ## The model -/

/-- A call that stages updates of the bitmap, for extents in bytes. -/
inductive BitmapCall
  | persistAllocBatch (results : List Result)
  | release (results : List Result)
  deriving DecidableEq, Repr

/-- What the call stages over the committed database `db`. -/
def BitmapCall.prog (db : DB) : BitmapCall → BatchProg Unit
  | persistAllocBatch results => Corgi.persistAllocBatch results
  | release results => persistSpaceBits json db results false

/-- A request whose consumer makes the call. -/
def BitmapCall.request (db : DB) (call : BitmapCall) : BatchRequest Unit where
  type := .customizeOperate
  consumer := some (call.prog json db)
  keys := []
  values := []
  lowPriority := false

/-- Commit the calls in one batch. -/
def commitTogether (db : DB) (calls : List BitmapCall) : DB :=
  (flush json db [] (calls.map (·.request json db)) none).after

/-- Commit each call in a batch of its own. -/
def commitEach (db : DB) (calls : List BitmapCall) : DB :=
  calls.foldl (fun db call => commitTogether json db [call]) db

/-- The bit of block `x` that a load of the bitmap finds, if it can be read. -/
def DB.blockBit (db : DB) (x : ℕ) : Option Bool :=
  (db.get (familySpaceKey (x / 4096))).toOption.map fun value =>
    msbBit (normalizeSpaceValue value) (x % 4096)

/-! ## What a call means for a block -/

namespace BitmapCall

/-- The extents are ones that the bitmap functions accept. -/
def Valid : BitmapCall → Prop
  | persistAllocBatch results => ∀ r ∈ results, r.Aligned
  | release results => ∀ r ∈ results, r.Aligned

/-- The call is about block `x`. -/
def touches : BitmapCall → ℕ → Bool
  | persistAllocBatch results, x => decide (∃ r ∈ results, r.Covers x)
  | release results, x => decide (∃ r ∈ results, r.Writes x)

/-- The call is about a block of space `i`. -/
def TouchesSpace (call : BitmapCall) (i : ℕ) : Prop :=
  ∃ j < 4096, call.touches (4096 * i + j) = true

instance (call : BitmapCall) (i : ℕ) : Decidable (call.TouchesSpace i) :=
  inferInstanceAs (Decidable (∃ j < 4096, _))

/-- What the call does to block `x`. -/
def edit (call : BitmapCall) (x : ℕ) : Edit :=
  if call.touches x then
    match call with
    | persistAllocBatch _ => .set
    | release _ => .clear
  else .keep

/-- The bit of block `x` in the batch after one more call, the committed bits being `bit`
and those of the batch `staged`. -/
def stagedBit (bit staged : ℕ → Bool) (call : BitmapCall) (x : ℕ) : Bool :=
  match call with
  | persistAllocBatch _ => (call.edit x).act (staged x)
  | release _ => if call.TouchesSpace (x / 4096) then (call.edit x).act (bit x) else staged x

theorem touchesSpace_of_touches {call : BitmapCall} {x : ℕ} (h : call.touches x = true) :
    call.TouchesSpace (x / 4096) :=
  ⟨x % 4096, Nat.mod_lt x (by decide), by rwa [Nat.div_add_mod]⟩

theorem edit_ne_keep_iff (call : BitmapCall) (x : ℕ) :
    call.edit x ≠ .keep ↔ call.touches x = true := by
  unfold edit
  cases call <;> split_ifs <;> simp_all

end BitmapCall

/-! ## What is staged -/

theorem SpaceHolds.shows {db : DB} {bit : ℕ → Bool} (h : SpaceHolds db (bit · = true)) :
    Shows Set.univ db ∅ bit := by
  obtain ⟨value, hget, hbits⟩ := h.get
  intro i _
  refine ⟨normalizeSpaceValue (value i), ?_, length_normalizeSpaceValue _, fun j hj => ?_⟩
  · rw [loadSpaceValue, AList.lookup_empty]
    simp only
    rw [hget]
    rfl
  · have hbit := hbits (4096 * i + j)
    rw [spaceBit, show (4096 * i + j) / 4096 = i by omega,
      show (4096 * i + j) % 4096 = j by omega] at hbit
    exact Bool.eq_iff_iff.mpr hbit

/-- A bitmap set whole. -/
theorem any_singleton_bitmap {v : Bytes} (hv : v.length = 512) :
    IsSpaceSeq [v] ∧ ∀ j, ([v].any fun u => msbBit u j) = msbBit v j := by
  refine ⟨⟨fun u hu => ?_, by simp⟩, fun j => by simp⟩
  obtain rfl : v = u := Option.some.inj hu
  exact Or.inl hv

theorem touchesSpace_release_iff {results : List Result} {i : ℕ} :
    (BitmapCall.release results).TouchesSpace i ↔
      ∃ x, x / 4096 = i ∧ ∃ r ∈ results, r.Writes x := by
  constructor
  · rintro ⟨j, hj, htouch⟩
    exact ⟨4096 * i + j, by omega, of_decide_eq_true htouch⟩
  · rintro ⟨x, rfl, hx⟩
    exact BitmapCall.touchesSpace_of_touches (decide_eq_true hx)

/-- A release replaces the bitmaps it touches by the committed ones, with its bits clear. -/
theorem SpaceHolds.release {db db' : DB} {bit staged : ℕ → Bool} (h : SpaceHolds db (bit · = true))
    (h' : SpaceHolds db' (staged · = true)) {results : List Result}
    (hal : ∀ r ∈ results, r.Aligned) :
    ∃ db'', (persistSpaceBits json db results false).exec mossMergeValues db' = (db'', .ok ()) ∧
      SpaceHolds db'' (BitmapCall.stagedBit bit staged (.release results) · = true) := by
  obtain ⟨updates, hrun, hshows, hmem⟩ := @foldlM_setResultBits_spec Set.univ db false results ∅ bit
    hal (fun _ _ _ _ => Set.mem_univ _) h.shows
  have htouch : ∀ i, i ∈ updates ↔ (BitmapCall.release results).TouchesSpace i := by
    intro i
    rw [hmem, touchesSpace_release_iff]
    exact or_iff_right (AList.notMem_empty i)
  refine ⟨_, exec_persistSpaceBits json hrun db', ?_⟩
  have hcell : ∀ i, (∃ v, v.length = 512 ∧ (BitmapCall.release results).TouchesSpace i ∧
      (∀ j < 4096, msbBit v j =
        if ∃ r ∈ results, r.Writes (4096 * i + j) then false else bit (4096 * i + j)) ∧
      db'.applyAll (updates.entries.map fun e => .set (familySpaceKey e.1) e.2)
        (familySpaceKey i) = [v]) ∨
      (¬(BitmapCall.release results).TouchesSpace i ∧
        db'.applyAll (updates.entries.map fun e => .set (familySpaceKey e.1) e.2)
          (familySpaceKey i) = db' (familySpaceKey i)) := by
    intro i
    rw [applyAll_set_entries db' updates.nodupKeys, ← htouch]
    obtain ⟨v, hload, hlen, hbits⟩ := hshows i (Set.mem_univ i)
    rw [loadSpaceValue] at hload
    cases hlook : updates.lookup i with
    | some w =>
      rw [hlook] at hload
      obtain rfl : w = v := Except.ok.inj hload
      exact Or.inl ⟨w, hlen, AList.lookup_isSome.mp (by rw [hlook]; rfl), hbits,
        by rw [show updates.entries.dlookup i = some w from hlook]⟩
    | none =>
      exact Or.inr ⟨AList.lookup_eq_none.mp hlook,
        by rw [show updates.entries.dlookup i = none from hlook]⟩
  refine ⟨fun i => ?_, fun i j hj => ?_⟩
  · rcases hcell i with ⟨v, hlen, -, -, heq⟩ | ⟨-, heq⟩
    · rw [heq]
      exact (any_singleton_bitmap hlen).1
    · rw [heq]
      exact h'.seq i
  · rw [BitmapCall.stagedBit, show (4096 * i + j) / 4096 = i by omega]
    rcases hcell i with ⟨v, hlen, htouches, hbits, heq⟩ | ⟨htouches, heq⟩
    · rw [heq, (any_singleton_bitmap hlen).2, hbits j hj, if_pos htouches, BitmapCall.edit,
        BitmapCall.touches]
      by_cases hw : ∃ r ∈ results, r.Writes (4096 * i + j) <;> simp [hw, Edit.act]
    · rw [heq, if_neg htouches]
      exact h'.bits i j hj

/-- A release that fails stages nothing and frees nothing. One that succeeds does both. -/
theorem BlockDevice.release_cases (d : BlockDevice) {db : DB} {batch : List BatchOp}
    {bit staged : ℕ → Bool} (h : SpaceHolds db (bit · = true))
    (h' : SpaceHolds (db.applyAll batch) (staged · = true)) (results : List Result) :
    (∃ batch', d.release json db batch results =
        ({ d with allocator := (d.allocator.release (byteResultsToBlockResults results)).1 },
          batch', .ok ()) ∧ (∀ r ∈ results, r.Aligned) ∧
      SpaceHolds (db.applyAll batch')
        (BitmapCall.stagedBit bit staged (.release results) · = true)) ∨
    (¬∀ r ∈ results, r.Aligned) ∧ ∃ e, d.release json db batch results = (d, batch, .error e) := by
  by_cases hal : ∀ r ∈ results, r.Aligned
  · obtain ⟨db'', hexec, hholds⟩ := h.release json h' hal
    obtain ⟨h1, h2⟩ := Prog.run_eq_exec mossMergeValues (persistSpaceBits json db results false)
      db batch
    rw [hexec] at h1 h2
    obtain ⟨batch', hrun⟩ : ∃ batch', (persistSpaceBits json db results false).run
        mossMergeValues db batch = (batch', .ok ()) := ⟨_, Prod.ext rfl h2⟩
    rw [hrun] at h1
    refine Or.inl ⟨batch', ?_, hal, h1 ▸ hholds⟩
    rw [BlockDevice.release, hrun]
  · obtain ⟨e, hrun⟩ := run_persistSpaceBits_of_not_aligned json db hal false batch
    exact Or.inr ⟨hal, e, by rw [BlockDevice.release, hrun]⟩

/-- An allocation adds its blocks. -/
theorem SpaceHolds.persistAllocBatch : ∀ {results : List Result} {db : DB} {marked : ℕ → Prop},
    SpaceHolds db marked → (∀ r ∈ results, r.Aligned) →
    SpaceHolds (db.applyAll (results.flatMap (Corgi.spaceOps true))) fun x =>
      marked x ∨ ∃ r ∈ results, r.Covers x
  | [], db, marked, h, _ => h.congr fun x => by simp
  | r :: results, db, marked, h, hal => by
    have hrec := SpaceHolds.persistAllocBatch (h.spaceOps (hal r List.mem_cons_self))
      fun s hs => hal s (List.mem_cons_of_mem _ hs)
    rw [List.flatMap_cons, Store.applyAll_append]
    refine hrec.congr fun x => ?_
    rw [or_assoc, List.exists_mem_cons_iff]
    rfl

/-- What one call makes of the batch. -/
theorem BitmapCall.exec_prog {db db' : DB} {bit staged : ℕ → Bool}
    (h : SpaceHolds db (bit · = true)) (h' : SpaceHolds db' (staged · = true)) {call : BitmapCall}
    (hvalid : call.Valid) :
    ∃ db'', (call.prog json db).exec mossMergeValues db' = (db'', .ok ()) ∧
      SpaceHolds db'' (stagedBit bit staged call · = true) := by
  cases call with
  | persistAllocBatch results =>
    refine ⟨_, exec_persistAllocBatch hvalid db', (h'.persistAllocBatch hvalid).congr fun x => ?_⟩
    simp only [stagedBit, edit, touches, decide_eq_true_eq]
    split_ifs with hx <;> simp [hx, Edit.act]
  | release results => exact h.release json h' hvalid

/-- What calls make of the batch, one after another. -/
theorem execAll_requests {db : DB} {bit : ℕ → Bool} (h : SpaceHolds db (bit · = true)) :
    ∀ {calls : List BitmapCall} {db' : DB} {staged : ℕ → Bool}, (∀ c ∈ calls, c.Valid) →
    SpaceHolds db' (staged · = true) →
    ∃ db'', execAll json (calls.map (·.request json db)) db' =
        (db'', .ok (calls.map fun _ => some ())) ∧
      SpaceHolds db'' (calls.foldl (BitmapCall.stagedBit bit) staged · = true)
  | [], db', staged, _, h' => ⟨db', rfl, h'⟩
  | call :: calls, db', staged, hvalid, h' => by
    obtain ⟨db₁, hexec₁, hholds₁⟩ := BitmapCall.exec_prog json h h' (hvalid call List.mem_cons_self)
    obtain ⟨db₂, hexec₂, hholds₂⟩ := execAll_requests h
      (fun c hc => hvalid c (List.mem_cons_of_mem _ hc)) hholds₁
    refine ⟨db₂, ?_, hholds₂⟩
    have hreq : (handleRequest json (call.request json db)).exec mossMergeValues db' =
        (db₁, .ok (some ())) := by
      rw [handleRequest, BitmapCall.request, handleCustomizeOperate, Prog.exec_bind, hexec₁]
      rfl
    rw [List.map_cons, execAll, hreq]
    simp only
    rw [hexec₂]
    rfl

theorem spaceHolds_commitTogether {db : DB} {bit : ℕ → Bool} (h : SpaceHolds db (bit · = true))
    {calls : List BitmapCall} (hvalid : ∀ c ∈ calls, c.Valid) :
    SpaceHolds (commitTogether json db calls)
      (calls.foldl (BitmapCall.stagedBit bit) bit · = true) := by
  obtain ⟨db', hexec, hholds⟩ := execAll_requests json h hvalid h
  have horder : flushOrder (calls.map (·.request json db)) = calls.map (·.request json db) := by
    rw [flushOrder, List.filter_eq_self.mpr, List.filter_eq_nil_iff.mpr, List.append_nil]
    · intro req hreq
      obtain ⟨call, -, rfl⟩ := List.mem_map.mp hreq
      exact Bool.false_ne_true
    · intro req hreq
      obtain ⟨call, -, rfl⟩ := List.mem_map.mp hreq
      rfl
  rw [← horder] at hexec
  rw [commitTogether, (flush_of_ok json hexec).1]
  exact hholds

/-- Committed in a batch of its own, a call edits the bits of its blocks. -/
theorem BitmapCall.stagedBit_self (bit : ℕ → Bool) (call : BitmapCall) (x : ℕ) :
    stagedBit bit bit call x = (call.edit x).act (bit x) := by
  cases call with
  | persistAllocBatch results => rfl
  | release results =>
    rw [stagedBit]
    split_ifs with hspace
    · rfl
    · rw [edit, if_neg (mt touchesSpace_of_touches hspace)]
      rfl

theorem spaceHolds_commitEach : ∀ {calls : List BitmapCall} {db : DB} {bit : ℕ → Bool},
    SpaceHolds db (bit · = true) → (∀ c ∈ calls, c.Valid) →
    SpaceHolds (commitEach json db calls)
      fun x => Edit.actAll (bit x) (calls.map (·.edit x)) = true
  | [], _, _, h, _ => h
  | call :: calls, db, bit, h, hvalid => by
    have hone := @spaceHolds_commitTogether json db bit h [call] (by
      simpa using hvalid call List.mem_cons_self)
    have hrec := spaceHolds_commitEach hone fun c hc => hvalid c (List.mem_cons_of_mem _ hc)
    refine hrec.congr fun x => ?_
    rw [List.foldl_cons, List.foldl_nil, BitmapCall.stagedBit_self]
    rfl

/-! ## Where the two differ -/

/-- A release that touches space `i`. -/
def BitmapCall.ReleasesIn (call : BitmapCall) (i : ℕ) : Prop :=
  match call with
  | persistAllocBatch _ => False
  | release _ => call.TouchesSpace i

/-- Calls of which no release touches the space of block `x` edit its bit one by one. -/
theorem foldl_stagedBit_of_not_releasesIn {bit : ℕ → Bool} {x : ℕ} :
    ∀ {calls : List BitmapCall} {staged : ℕ → Bool}, (∀ c ∈ calls, ¬c.ReleasesIn (x / 4096)) →
    calls.foldl (BitmapCall.stagedBit bit) staged x =
      Edit.actAll (staged x) (calls.map (·.edit x))
  | [], _, _ => rfl
  | call :: calls, staged, h => by
    have hcall := h call List.mem_cons_self
    have hstep : BitmapCall.stagedBit bit staged call x = (call.edit x).act (staged x) := by
      cases call with
      | persistAllocBatch results => rfl
      | release results =>
        have hspace : ¬(BitmapCall.release results).TouchesSpace (x / 4096) := hcall
        rw [BitmapCall.stagedBit, if_neg hspace, BitmapCall.edit,
          if_neg (mt BitmapCall.touchesSpace_of_touches hspace)]
        rfl
    rw [List.foldl_cons, foldl_stagedBit_of_not_releasesIn fun c hc =>
      h c (List.mem_cons_of_mem _ hc), hstep]
    rfl

/-- Either no release touches a space or there is a last one that does. -/
theorem exists_last_release (i : ℕ) : ∀ calls : List BitmapCall,
    (∀ c ∈ calls, ¬c.ReleasesIn i) ∨ ∃ pre results post,
      calls = pre ++ .release results :: post ∧ (BitmapCall.release results).TouchesSpace i ∧
        ∀ c ∈ post, ¬c.ReleasesIn i
  | [] => Or.inl (by simp)
  | call :: calls => by
    rcases exists_last_release i calls with hnone | ⟨pre, results, post, rfl, htouch, hpost⟩
    · by_cases hcall : call.ReleasesIn i
      · cases call with
        | persistAllocBatch results => exact absurd hcall id
        | release results => exact Or.inr ⟨[], results, calls, rfl, hcall, hnone⟩
      · exact Or.inl (List.forall_mem_cons.mpr ⟨hcall, hnone⟩)
    · exact Or.inr ⟨call :: pre, results, post, rfl, htouch, hpost⟩

/-- The bit of block `x` after a batch whose last release in its space is given, and after
the same calls one by one. -/
theorem foldl_stagedBit_of_last {bit : ℕ → Bool} {x : ℕ} {pre post : List BitmapCall}
    {results : List Result} (htouch : (BitmapCall.release results).TouchesSpace (x / 4096))
    (hpost : ∀ c ∈ post, ¬c.ReleasesIn (x / 4096)) :
    (pre ++ .release results :: post).foldl (BitmapCall.stagedBit bit) bit x =
        Edit.actAll (((BitmapCall.release results).edit x).act (bit x)) (post.map (·.edit x)) ∧
      Edit.actAll (bit x) ((pre ++ .release results :: post).map (·.edit x)) =
        Edit.actAll (((BitmapCall.release results).edit x).act
          (Edit.actAll (bit x) (pre.map (·.edit x)))) (post.map (·.edit x)) := by
  constructor
  · rw [List.foldl_append, List.foldl_cons, foldl_stagedBit_of_not_releasesIn hpost,
      BitmapCall.stagedBit, if_pos htouch]
  · rw [List.map_append, Edit.actAll_append]
    rfl

theorem edit_of_not_releasesIn {call : BitmapCall} {x : ℕ} (h : ¬call.ReleasesIn (x / 4096)) :
    call.edit x = if call.touches x then .set else .keep := by
  cases call with
  | persistAllocBatch results => rfl
  | release results =>
    have htouch : ¬(BitmapCall.release results).touches x = true :=
      mt BitmapCall.touchesSpace_of_touches h
    rw [BitmapCall.edit, if_neg htouch, if_neg htouch]

/-- Calls of which no release touches the space of block `x` allocate it if they touch it. -/
theorem actAll_edits_of_not_releasesIn {x : ℕ} {calls : List BitmapCall}
    (h : ∀ c ∈ calls, ¬c.ReleasesIn (x / 4096)) (b : Bool) :
    Edit.actAll b (calls.map (·.edit x)) = (b || calls.any (·.touches x)) := by
  rw [Edit.actAll_of_set fun e he => ?_]
  · congr 1
    rw [Bool.eq_iff_iff, decide_eq_true_eq, List.any_eq_true, List.mem_map]
    refine exists_congr fun call => and_congr_right fun hcall => ?_
    rw [edit_of_not_releasesIn (h call hcall)]
    cases call.touches x <;> simp
  · obtain ⟨call, hcall, rfl⟩ := List.mem_map.mp he
    rw [edit_of_not_releasesIn (h call hcall)]
    cases call.touches x <;> simp

theorem countP_edits (calls : List BitmapCall) (x : ℕ) :
    (calls.map (·.edit x)).countP (· ≠ .keep) = calls.countP (·.touches x) := by
  rw [List.countP_map]
  refine List.countP_congr fun call _ => ?_
  rw [Function.comp_apply, decide_eq_true_eq, BitmapCall.edit_ne_keep_iff]

/-- Calls that each change the blocks they touch leave a block as it was when an even number
of them touch it. -/
theorem actAll_edits_eq_iff {calls : List BitmapCall} {x : ℕ} {b : Bool}
    (h : Edit.Each Edit.Effective b (calls.map (·.edit x))) :
    Edit.actAll b (calls.map (·.edit x)) = b ↔ Even (calls.countP (·.touches x)) := by
  rw [Edit.actAll_of_effective h, countP_edits, Nat.even_iff]
  rcases Nat.mod_two_eq_zero_or_one (calls.countP (·.touches x)) with hm | hm <;>
    cases b <;> simp [hm]

/-- The bit of block `x` is right after a batch unless the last release in its space drops a
change of it : an odd number of the calls before touch it, and neither the release nor a
later call does. -/
theorem foldl_stagedBit_eq_iff {bit : ℕ → Bool} {x : ℕ} {calls : List BitmapCall}
    (h : Edit.Each Edit.Effective (bit x) (calls.map (·.edit x))) :
    calls.foldl (BitmapCall.stagedBit bit) bit x = Edit.actAll (bit x) (calls.map (·.edit x)) ↔
      ∀ pre results post, calls = pre ++ .release results :: post →
        (BitmapCall.release results).TouchesSpace (x / 4096) →
        (∀ c ∈ post, ¬c.ReleasesIn (x / 4096)) → (BitmapCall.release results).touches x = false →
        (∀ c ∈ post, c.touches x = false) → Even (pre.countP (·.touches x)) := by
  constructor
  · rintro heq pre results post rfl htouch hpost hrel hlater
    obtain ⟨h₁, h₂⟩ := @foldl_stagedBit_of_last bit x pre post results htouch hpost
    have hkeep : (BitmapCall.release results).edit x = .keep := by
      rw [BitmapCall.edit, hrel]
      rfl
    have hnone : post.any (·.touches x) = false := by
      rw [List.any_eq_false]
      exact fun c hc => by rw [hlater c hc]; exact Bool.false_ne_true
    rw [h₁, h₂, hkeep, actAll_edits_of_not_releasesIn hpost, actAll_edits_of_not_releasesIn hpost,
      hnone, Bool.or_false, Bool.or_false] at heq
    rw [List.map_append] at h
    exact (actAll_edits_eq_iff (Edit.each_append.mp h).1).mp heq.symm
  · intro hcond
    rcases exists_last_release (x / 4096) calls with
      hnone | ⟨pre, results, post, rfl, htouch, hpost⟩
    · exact foldl_stagedBit_of_not_releasesIn hnone
    · obtain ⟨h₁, h₂⟩ := @foldl_stagedBit_of_last bit x pre post results htouch hpost
      rw [h₁, h₂, actAll_edits_of_not_releasesIn hpost, actAll_edits_of_not_releasesIn hpost]
      cases hrel : (BitmapCall.release results).touches x with
      | true =>
        rw [BitmapCall.edit, hrel]
        rfl
      | false =>
        cases hany : post.any (·.touches x) with
        | true => rw [Bool.or_true, Bool.or_true]
        | false =>
          have heven := hcond pre results post rfl htouch hpost hrel fun c hc =>
            Bool.eq_false_iff.mpr (List.any_eq_false.mp hany c hc)
          rw [List.map_append] at h
          have hpre := (actAll_edits_eq_iff (Edit.each_append.mp h).1).mpr heven
          rw [hpre]

theorem SpaceHolds.blockBit {db : DB} {bit : ℕ → Bool} (h : SpaceHolds db (bit · = true)) (x : ℕ) :
    db.blockBit x = some (bit x) := by
  obtain ⟨value, hget, hbits⟩ := h.get
  rw [DB.blockBit, hget]
  exact congrArg some (Bool.eq_iff_iff.mpr (hbits x))

/-- Calls that share a batch and each change the blocks they touch leave the bitmap that they
leave one by one exactly when no release drops a change : of each block of a space that a
release touches and that neither the last such release nor a later call touches, the calls
before that release touch it an even number of times. -/
theorem commitTogether_eq_iff {db : DB} {bit : ℕ → Bool} (hdb : SpaceHolds db (bit · = true))
    {calls : List BitmapCall} (hvalid : ∀ c ∈ calls, c.Valid)
    (hdisc : ∀ x, Edit.Each Edit.Effective (bit x) (calls.map (·.edit x))) :
    (∀ x, (commitTogether json db calls).blockBit x = (commitEach json db calls).blockBit x) ↔
      ∀ x pre results post, calls = pre ++ .release results :: post →
        (BitmapCall.release results).TouchesSpace (x / 4096) →
        (∀ c ∈ post, ¬c.ReleasesIn (x / 4096)) → (BitmapCall.release results).touches x = false →
        (∀ c ∈ post, c.touches x = false) → Even (pre.countP (·.touches x)) := by
  refine forall_congr' fun x => ?_
  rw [(spaceHolds_commitTogether json hdb hvalid).blockBit,
    (spaceHolds_commitEach json hdb hvalid).blockBit, Option.some_inj]
  exact foldl_stagedBit_eq_iff (hdisc x)

/-! ## A lost allocation -/

/-- The bytes of block `b`. -/
def blockExtent (b : ℕ) : Result :=
  ⟨4096 * b, 4096⟩

theorem aligned_blockExtent (b : ℕ) : (blockExtent b).Aligned := by
  refine ⟨?_, ?_, ?_⟩ <;> simp only [blockExtent] <;> omega

theorem covers_blockExtent (b x : ℕ) : (blockExtent b).Covers x ↔ x = b := by
  rw [Result.Covers, CoversBlock, blockExtent]
  simp only
  omega

theorem touches_alloc_block (b x : ℕ) :
    (BitmapCall.persistAllocBatch [blockExtent b]).touches x = decide (x = b) := by
  simp only [BitmapCall.touches, List.mem_singleton, exists_eq_left, covers_blockExtent]

theorem touches_release_block (b x : ℕ) :
    (BitmapCall.release [blockExtent b]).touches x = decide (x = b) := by
  have hwrites : (blockExtent b).Writes x ↔ x = b := by
    rw [Result.Writes, blockExtent, show fitBlocks 4096 = 1 by decide]
    simp only
    omega
  simp only [BitmapCall.touches, List.mem_singleton, exists_eq_left, hwrites]

/-- A database whose block 1 is allocated. -/
def blockOneDB : DB :=
  zeroDB.applyAll (spaceOps true (blockExtent 1))

theorem spaceHolds_zeroDB : SpaceHolds zeroDB fun _ => False := by
  have hlen : zeroSpace.length = 512 := List.length_replicate
  refine ⟨fun i => (any_singleton_bitmap hlen).1, fun i j hj => ?_⟩
  rw [show zeroDB (familySpaceKey i) = [zeroSpace] from rfl, (any_singleton_bitmap hlen).2,
    msbBit_zeroSpace hj]
  simp

theorem spaceHolds_blockOneDB : SpaceHolds blockOneDB fun x => decide (x = 1) = true := by
  refine (spaceHolds_zeroDB.spaceOps (aligned_blockExtent 1)).congr fun x => ?_
  rw [false_or, decide_eq_true_eq]
  exact covers_blockExtent 1 x

/-- Block 0 is allocated and block 1 released. -/
def allocReleaseCalls : List BitmapCall :=
  [.persistAllocBatch [blockExtent 0], .release [blockExtent 1]]

/-- Block 1 is released and block 0 allocated. -/
def releaseAllocCalls : List BitmapCall :=
  [.release [blockExtent 1], .persistAllocBatch [blockExtent 0]]

theorem valid_block_calls :
    (∀ c ∈ allocReleaseCalls, c.Valid) ∧ ∀ c ∈ releaseAllocCalls, c.Valid := by
  simp [allocReleaseCalls, releaseAllocCalls, BitmapCall.Valid, aligned_blockExtent]

theorem edits_block_calls (x : ℕ) :
    allocReleaseCalls.map (·.edit x) =
        [if x = 0 then .set else .keep, if x = 1 then .clear else .keep] ∧
      releaseAllocCalls.map (·.edit x) =
        [if x = 1 then .clear else .keep, if x = 0 then .set else .keep] := by
  simp only [allocReleaseCalls, releaseAllocCalls, List.map_cons, List.map_nil, BitmapCall.edit,
    touches_alloc_block, touches_release_block, decide_eq_true_eq, and_self]

theorem disciplined_block_calls (x : ℕ) :
    Edit.Each Edit.Effective (decide (x = 1)) (allocReleaseCalls.map (·.edit x)) ∧
      Edit.Each Edit.Effective (decide (x = 1)) (releaseAllocCalls.map (·.edit x)) := by
  rw [(edits_block_calls x).1, (edits_block_calls x).2]
  rcases Nat.lt_trichotomy x 1 with hx | rfl | hx
  · obtain rfl : x = 0 := by omega
    decide
  · decide
  · rw [if_neg (by omega), if_neg (by omega), decide_eq_false (by omega)]
    decide

/-- The release that comes first drops nothing. -/
theorem commitTogether_releaseAllocCalls :
    (commitTogether (fun _ => none) blockOneDB releaseAllocCalls).blockBit =
      (commitEach (fun _ => none) blockOneDB releaseAllocCalls).blockBit := by
  refine funext ((commitTogether_eq_iff (fun _ => none) spaceHolds_blockOneDB valid_block_calls.2
    fun x => (disciplined_block_calls x).2).mpr fun x pre results post heq _ _ _ _ => ?_)
  rcases pre with _ | ⟨c, _ | ⟨c', pre⟩⟩
  · exact Even.zero
  · cases heq
  · have hlen := congrArg List.length heq
    simp only [releaseAllocCalls, List.length_cons, List.length_nil, List.length_append] at hlen
    omega

/-- The release of block 1 stages the committed bitmap, in which block 0 is free. -/
theorem lost_alloc :
    (∀ x, Edit.Each Edit.Effective (decide (x = 1)) (allocReleaseCalls.map (·.edit x))) ∧
      (commitTogether (fun _ => none) blockOneDB allocReleaseCalls).blockBit 0 = some false ∧
      (commitEach (fun _ => none) blockOneDB allocReleaseCalls).blockBit 0 = some true := by
  refine ⟨fun x => (disciplined_block_calls x).1, ?_, ?_⟩
  · have htouch : (BitmapCall.release [blockExtent 1]).TouchesSpace (0 / 4096) :=
      @BitmapCall.touchesSpace_of_touches _ 1 (by rw [touches_release_block]; rfl)
    have hbit := (@foldl_stagedBit_of_last (fun x => decide (x = 1)) 0
      [.persistAllocBatch [blockExtent 0]] [] _ htouch (by simp)).1
    rw [(spaceHolds_commitTogether _ spaceHolds_blockOneDB valid_block_calls.1).blockBit]
    refine congrArg some (hbit.trans ?_)
    rw [BitmapCall.edit, touches_release_block]
    rfl
  · rw [(spaceHolds_commitEach _ spaceHolds_blockOneDB valid_block_calls.1).blockBit,
      (edits_block_calls 0).1]
    rfl

end Corgi
