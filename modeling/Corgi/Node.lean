import Corgi.Metadata

/-!
# One device over crashes and restarts

The state machine of a storage node : one device, its database, and any number of uploads
that allocate, roll back and commit, in any order and in any groups, with a crash possible
at every point. A crash loses the allocator and what uploads hold, and keeps the database.

`Node.Inv` is what holds in every state : the allocator holds exactly what uploads in
progress and committed records occupy, and the persisted bitmap exactly what committed
records occupy. Blocks of a committed record are therefore never handed out again
(`durable_blocks`).
-/

set_option linter.unusedSectionVars false

namespace Corgi

/-! ## The model -/

/-- The blocks of a record's extents. -/
def FileMeta.blocks (fileMeta : FileMeta) : List ℕ :=
  (fileMeta.offset.zip fileMeta.len).flatMap fun extent =>
    Result.blocks ⟨extent.1 / 4096, extent.2 / 4096⟩

/-- What an upload commits with, apart from what it has flushed. -/
structure Completion (U : Type) where
  upload : U
  req : PutInitRequest
  size : ℤ
  etag : Bytes
  metaBytes : Bytes

/-- A storage node. -/
structure Node (U : Type) where
  db : DB
  /-- The device, while the process is up. -/
  device : Option BlockDevice
  /-- The flushes of uploads that are in progress, in the order they were made. -/
  pending : List (U × FlushBlockInfo)
  /-- The records of all uploads ever committed. -/
  committed : List FileMeta

/-- The starts and crashes of a process, and what its uploads do with the device in between. -/
inductive NodeEvent (U : Type)
  /-- Open the device. -/
  | start
  /-- The process stops while it initialises the bitmap. -/
  | startCrash (done : ℕ)
  | alloc (upload : U) (size : ℤ)
  | rollbackAlloc (upload : U) (info : FlushBlockInfo)
  | commit (group : List (Completion U)) (outcome : Option BatchError)
  | crash

namespace Node

variable {U : Type} [DecidableEq U]

/-- The flushes of an upload, in order. -/
def infos (s : Node U) (u : U) : List FlushBlockInfo :=
  (s.pending.filter (·.1 = u)).map Prod.snd

/-- What an upload hands to its consumers. -/
def commitOf (s : Node U) (c : Completion U) : Commit :=
  let (fileMeta, results, totalSize) :=
    buildFileMetaAndResults c.req c.size c.etag (s.infos c.upload)
  { fileMeta, metaBytes := c.metaBytes, results, totalSize, noGet := c.req.noGet }

variable (json : JSONDeleteMark)

/-- A group of uploads is flushed. Those that `consumer0` was committed for are done. The
others still hold what they allocated. -/
def afterCommit (s : Node U) (group : List (Completion U)) (outcome : Option BatchError) :
    Node U :=
  let o := flush json s.db [] (group.map fun c => commitRequest json (s.commitOf c)) outcome
  let stored := if o.committed.isSome
    then ((group.zip o.outputs).filter (·.2 = some false)).map Prod.fst else []
  { s with
    db := o.after
    pending := s.pending.filter (·.1 ∉ stored.map Completion.upload)
    committed := s.committed ++ stored.map fun c => (s.commitOf c).fileMeta }

/-- One step of a node whose device has `n` blocks. -/
def Step (pb : Protobuf) (name : String) (n : ℕ) (s : Node U) : NodeEvent U → Node U → Prop
  | .start, t => s.device = none ∧ ∃ d db,
    newBlockDevice json name (4096 * n) s.db = .ok (d, db) ∧
      t = { s with db := db, device := some d }
  | .startCrash done, t => s.device = none ∧ ∃ db,
    tryInitBlockSpace json (4096 * n) done s.db = .ok db ∧ t = { s with db := db }
  | .alloc u size, t => ∃ d, s.device = some d ∧ match d.alloc size with
    | (d, .ok (results, token)) => t = { s with
        device := some d
        pending := s.pending ++ [(u, ⟨results, token⟩)] }
    | (d, .error _) => t = { s with device := some d }
  | .rollbackAlloc u info, t => ∃ d before after, s.device = some d ∧
    s.pending = before ++ (u, info) :: after ∧
      t = { s with device := some (d.rollbackAlloc info.token), pending := before ++ after }
  | .commit group outcome, t => s.device.isSome ∧ (group.map Completion.upload).Nodup ∧
    (∀ c ∈ group, s.infos c.upload ≠ [] ∧
      pb.marshal (s.commitOf c).fileMeta = .ok c.metaBytes) ∧
    t = s.afterCommit json group outcome
  | .crash, t => t = { s with device := none, pending := [] }

/-- A node that has never been up. -/
def initial (U : Type) (db : DB) : Node U :=
  { db, device := none, pending := [], committed := [] }

end Node

/-- A database that holds no record, bitmap or counter. -/
def Fresh (db : DB) : Prop :=
  ∀ key : Bytes, key.head? = some pebbleFileMetaPrefix ∨ key.head? = some 46#8 → db key = []

/-! ## The steps -/

/-- A flush whose extents are those of its token. -/
structure FlushBlockInfo.Proper (info : FlushBlockInfo) : Prop where
  results_eq : info.results = info.token.map Result.toBytes
  token_ne : info.token ≠ []
  pos : ∀ r ∈ info.token, 0 ≤ r.offset ∧ 0 < r.size

theorem FlushBlockInfo.Proper.results_ne {info : FlushBlockInfo} (h : info.Proper) :
    info.results ≠ [] :=
  fun hnil => h.token_ne (List.map_eq_nil_iff.mp (h.results_eq.symm.trans hnil))

/-- The blocks of flushes. -/
def infoBlocks (infos : List FlushBlockInfo) : List ℕ :=
  infos.flatMap fun info => blocksOf info.token

theorem flattenBlockResults_eq {infos : List FlushBlockInfo} (h : ∀ info ∈ infos, info.Proper) :
    flattenBlockResults infos = (infos.flatMap FlushBlockInfo.token).map Result.toBytes := by
  rw [flattenBlockResults, List.map_flatMap]
  exact List.flatMap_congr fun info hinfo => (h info hinfo).results_eq

theorem aligned_flattenBlockResults {infos : List FlushBlockInfo}
    (h : ∀ info ∈ infos, info.Proper) : ∀ r ∈ flattenBlockResults infos, r.Aligned := by
  intro r hr
  obtain ⟨info, hinfo, hr⟩ := List.mem_flatMap.mp hr
  rw [(h info hinfo).results_eq] at hr
  obtain ⟨t, ht, rfl⟩ := List.mem_map.mp hr
  exact t.aligned_toBytes ((h info hinfo).pos t ht).1 ((h info hinfo).pos t ht).2

theorem blocksOf_flatMap_token (infos : List FlushBlockInfo) :
    blocksOf (infos.flatMap FlushBlockInfo.token) = infoBlocks infos :=
  List.flatMap_assoc

theorem blocks_buildFileMeta (req : PutInitRequest) (total : ℤ) (etag : Bytes)
    {infos : List FlushBlockInfo} (h : ∀ info ∈ infos, info.Proper) :
    (buildFileMetaAndResults req total etag infos).1.blocks = infoBlocks infos := by
  rw [← blocksOf_flatMap_token, FileMeta.blocks, buildFileMetaAndResults]
  simp only
  rw [flattenBlockResults_eq h, List.map_map, List.map_map, List.zip_map', List.flatMap_map,
    blocksOf]
  refine List.flatMap_congr fun r _ => ?_
  simp only [Function.comp_apply, Result.toBytes,
    Int.mul_ediv_cancel _ (by decide : (4096 : ℤ) ≠ 0)]

namespace BlockDevice

open AllocatorV3

variable {d : BlockDevice} {m : Multiset ℕ}

/-- An allocation adds the blocks of its token, or fails and changes nothing that is
held. -/
theorem alloc_spec (h : d.allocator.Owns m) (size : ℤ) :
    (∃ d' results token, d.alloc size = (d', .ok (results, token)) ∧
      FlushBlockInfo.Proper ⟨results, token⟩ ∧ d'.allocator.Owns (m + blocksOf token) ∧
      d'.allocator.total = d.allocator.total ∧
      ((blocksOf token).length : ℤ) = fitBlock size / 4096) ∨
    ∃ d' e, d.alloc size = (d', .error e) ∧ d'.allocator.Owns m ∧
      d'.allocator.total = d.allocator.total := by
  rw [alloc]
  split_ifs with hsize
  · exact Or.inr ⟨d, _, rfl, h, rfl⟩
  · generalize hres : d.allocator.allocate (fitBlock size / 4096) = x
    obtain ⟨a, res⟩ := x
    cases res with
    | error e =>
      right
      have ha := h.allocate_error (congrArg Prod.snd hres)
      rw [hres] at ha
      refine ⟨_, _, rfl, ?_, ?_⟩
      · change a.Owns m
        rw [show a = d.allocator from ha]
        exact h
      · change a.total = _
        rw [show a = d.allocator from ha]
    | ok results =>
      obtain ⟨howns, htotal, hc, hlen⟩ := h.allocate (congrArg Prod.snd hres)
      rw [hres] at howns htotal
      cases results with
      | nil => exact Or.inr ⟨_, _, rfl, by simpa using howns, htotal⟩
      | cons r rs =>
        exact Or.inl ⟨_, _, _, rfl, ⟨rfl, List.cons_ne_nil r rs, fun t ht =>
          ⟨(hc t ht).1, (hc t ht).2.1⟩⟩, howns, htotal, hlen⟩

/-- With enough space an allocation succeeds. -/
theorem alloc_of_le (h : d.allocator.Inv) {size : ℤ} (hsize : 0 < size)
    (hle : fitBlock size / 4096 ≤ d.allocator.available) :
    ∃ d' results token, d.alloc size = (d', .ok (results, token)) ∧
      (blocksOf token).length = (fitBlock size / 4096).toNat ∧
      d'.allocator.available = d.allocator.available - fitBlock size / 4096 := by
  have hwant : 1 ≤ fitBlock size / 4096 := by
    rw [fitBlock_of_nonneg hsize.le]
    split_ifs <;> omega
  obtain ⟨results, hok, ha⟩ := AllocatorV3.allocate_of_le h hwant hle
  have hlen : (blocksOf results).length = (fitBlock size / 4096).toNat := by
    rw [ha.blocks]
    exact AllocatorV3.length_nextBlocks h _ (by omega)
  have havail := ha.available
  rw [Int.toNat_of_nonneg (by omega)] at havail
  rw [alloc, if_neg (by omega)]
  generalize d.allocator.allocate (fitBlock size / 4096) = x at hok havail
  obtain ⟨a, res⟩ := x
  simp only at hok
  subst hok
  cases results with
  | nil =>
    rw [blocksOf_nil, List.length_nil] at hlen
    omega
  | cons r rs => exact ⟨_, _, _, rfl, hlen, havail⟩

/-- A token that is held is given back. -/
theorem rollbackAlloc_spec {token : List Result} (h : d.allocator.Owns (blocksOf token + m))
    (hn : d.allocator.total < 2 ^ 63) (hpos : ∀ r ∈ token, 0 ≤ r.offset ∧ 0 < r.size) :
    (d.rollbackAlloc token).allocator.Owns m ∧
      (d.rollbackAlloc token).allocator.total = d.allocator.total := by
  rw [rollbackAlloc]
  split_ifs with ht
  · subst ht
    exact ⟨by simpa using h, rfl⟩
  · obtain ⟨-, howns, htotal⟩ := h.release hn hpos
    exact ⟨howns, htotal⟩

end BlockDevice

theorem familySpaceKey_ne_getKey (i : ℕ) (fileMeta : FileMeta) :
    familySpaceKey i ≠ fileMeta.getKey := by
  obtain ⟨name, hname⟩ := getFileMetaKey_eq_cons fileMeta.fileName
  rw [FileMeta.getKey, hname]
  exact fun h => absurd (List.cons.inj h).1 (by decide)

/-- A commit marks exactly the blocks of its tokens. -/
theorem SpaceHolds.commit {db : DB} {marked : ℕ → Prop} (h : SpaceHolds db marked) {c : Commit}
    {token : List Result} (hresults : c.results = token.map Result.toBytes)
    (hpos : ∀ r ∈ token, 0 ≤ r.offset ∧ 0 < r.size) :
    SpaceHolds (db.applyAll c.ops) fun x => marked x ∨ x ∈ blocksOf token := by
  rw [Commit.ops, Store.applyAll_append, hresults]
  refine (h.persist hpos).of_eq fun i => Store.applyAll_of_forall_ne _ fun op hop => ?_
  fin_cases hop
  · exact familySpaceKey_ne_getKey i c.fileMeta
  all_goals
    intro h
    exact absurd (List.cons.inj (List.cons.inj h).2).1 (by decide)

theorem SpaceHolds.commits {γ : Type} {f : γ → Commit} {token : γ → List Result} :
    ∀ {l : List γ} {db : DB} {marked : ℕ → Prop}, SpaceHolds db marked →
    (∀ c ∈ l, (f c).results = (token c).map Result.toBytes ∧
      ∀ r ∈ token c, 0 ≤ r.offset ∧ 0 < r.size) →
    SpaceHolds (db.applyAll ((l.map f).flatMap Commit.ops)) fun x =>
      marked x ∨ x ∈ l.flatMap fun c => blocksOf (token c)
  | [], _, _, h, _ => h.congr fun x => by simp
  | c :: l, _, _, h, hl => by
    obtain ⟨h1, h2⟩ := hl c List.mem_cons_self
    have hrec := SpaceHolds.commits (h.commit h1 h2) fun c' h' => hl c' (List.mem_cons_of_mem _ h')
    rw [List.map_cons, List.flatMap_cons, Store.applyAll_append]
    refine hrec.congr fun x => ?_
    rw [List.flatMap_cons, List.mem_append, or_assoc]

theorem ne_nil_applyAll_ops (cs : List Commit) {db : DB} {key : Bytes} (h : db key ≠ []) :
    db.applyAll (cs.flatMap Commit.ops) key ≠ [] := by
  refine Store.ne_nil_applyAll (fun op hop k => ?_) h
  obtain ⟨c, -, hc⟩ := List.mem_flatMap.mp hop
  rcases List.mem_append.mp hc with hc | hc
  · obtain ⟨r, -, hr⟩ := List.mem_flatMap.mp hc
    exact ne_delete_of_mem_spaceOps hr k
  · fin_cases hc <;> exact fun heq => by cases heq

theorem newBlockDevice_of_ok {json : JSONDeleteMark} {name : String} {size : ℕ} {db db' : DB}
    {a : AllocatorV3}
    (h₁ : tryInitBlockSpace json size (initBatches (spaceKeyCount size)).length db = .ok db')
    (h₂ : loadAllocator db' size (AllocatorV3.newAllocatorV3 (size / 4096)) = .ok a) :
    newBlockDevice json name size db = .ok (⟨name, size, a⟩, db') := by
  unfold newBlockDevice
  exact (bind_of_ok h₁ _).trans (bind_of_ok h₂ _)

/-- Opening a device whose bitmap marks the blocks `marked` succeeds, and the allocator
holds exactly these. -/
theorem newBlockDevice_spec (json : JSONDeleteMark) (name : String) {n : ℕ} (hn : 0 < n)
    (hlt : n < 2 ^ 63) {db : DB} {marked : List ℕ} (h : SpaceHolds db (· ∈ marked))
    (hfirst : db (familySpaceKey 0) = [] → marked = []) (hnodup : marked.Nodup)
    (hmarked : ∀ x ∈ marked, x < n) :
    ∃ d db', newBlockDevice json name (4096 * n) db = .ok (d, db') ∧
      SpaceHolds db' (· ∈ marked) ∧ db' (familySpaceKey 0) ≠ [] ∧
      (∀ key, (∀ i, key ≠ familySpaceKey i) → db' key = db key) ∧
      d.allocator.total = n ∧ d.allocator.Owns marked := by
  obtain ⟨db', hinit, hspace, hne, hframe⟩ : ∃ db', tryInitBlockSpace json (4096 * n)
      (initBatches (spaceKeyCount (4096 * n))).length db = .ok db' ∧
      SpaceHolds db' (· ∈ marked) ∧ db' (familySpaceKey 0) ≠ [] ∧
      ∀ key, (∀ i, key ≠ familySpaceKey i) → db' key = db key := by
    by_cases hnil : db (familySpaceKey 0) = []
    · obtain rfl := hfirst hnil
      have hempty : ∀ x : ℕ, x ∈ ([] : List ℕ) ↔ False := by simp
      obtain ⟨db', h1, h2, h3, h4⟩ := tryInitBlockSpace_of_nil json (4096 * n)
        (initBatches (spaceKeyCount (4096 * n))).length (h.congr hempty) hnil
      refine ⟨db', h1, h2.congr fun x => (hempty x).symm, h4 (by omega) ?_, h3⟩
      have hkeys : 0 < spaceKeyCount (4096 * n) := by
        rw [spaceKeyCount]
        omega
      rw [initBatches, List.length_map, List.length_range]
      omega
    · exact ⟨db, tryInitBlockSpace_of_ne_nil json _ _ h hnil, h, hnil, fun _ _ => rfl⟩
  obtain ⟨value, hget, hbits⟩ := hspace.get
  obtain ⟨a, hload, hinv, htotal, hfree⟩ := loadAllocator_spec hn hlt fun i _ => hget i
  refine ⟨⟨name, 4096 * n, a⟩, db', ?_, hspace, hne, hframe, htotal,
    hinv.owns (Multiset.coe_nodup.mpr hnodup) fun b => ?_⟩
  · refine newBlockDevice_of_ok hinit ?_
    rw [Nat.mul_div_cancel_left n (by decide)]
    exact hload
  · rw [Multiset.mem_coe, htotal, ← hbits]
    have hb := hfree b
    constructor
    · intro hbit
      have hlt' := hmarked b ((hbits b).mp hbit)
      refine ⟨hlt', Bool.eq_false_iff.mpr fun hf => ?_⟩
      rw [(hb.mp hf).2] at hbit
      exact Bool.false_ne_true hbit
    · rintro ⟨h1, h2⟩
      by_contra hbit
      rw [hb.mpr ⟨h1, Bool.eq_false_iff.mpr hbit⟩] at h2
      exact Bool.false_ne_true h2.symm

/-! ## The invariant -/

namespace Node

variable {U : Type} [DecidableEq U] {json : JSONDeleteMark} {pb : Protobuf} {name : String}
  {n : ℕ} {s t : Node U}

/-- The blocks that uploads in progress hold. -/
def pendingBlocks (s : Node U) : List ℕ :=
  infoBlocks (s.pending.map Prod.snd)

/-- The blocks of committed records. -/
def committedBlocks (s : Node U) : List ℕ :=
  s.committed.flatMap FileMeta.blocks

/-- What holds in every state of a node. -/
structure Inv (n : ℕ) (s : Node U) : Prop where
  space : SpaceHolds s.db (· ∈ s.committedBlocks)
  nodup : s.committedBlocks.Nodup
  lt : ∀ x ∈ s.committedBlocks, x < n
  owns : ∀ d, s.device = some d → d.allocator.total = n ∧
    d.allocator.Owns (s.pendingBlocks + s.committedBlocks)
  down : s.device = none → s.pending = []
  first : s.device ≠ none ∨ s.committed ≠ [] → s.db (familySpaceKey 0) ≠ []
  proper : ∀ x ∈ s.pending, x.2.Proper

theorem Inv.initial {db : DB} (h : Fresh db) : Inv n (Node.initial U db) := by
  have hnil : ∀ i, db (familySpaceKey i) = [] := fun i => h _ (Or.inr rfl)
  refine ⟨⟨fun i => ?_, fun i j _ => ?_⟩, List.nodup_nil, by simp [Node.initial, committedBlocks],
    by simp [Node.initial], fun _ => rfl, by simp [Node.initial], by simp [Node.initial]⟩
  · change IsSpaceSeq (db _)
    rw [hnil]
    exact ⟨by simp, by simp⟩
  · change ((db _).any _) = true ↔ _
    rw [hnil]
    simp [Node.initial, committedBlocks]

/-- The database of a node that is down may be initialised. -/
theorem Inv.first_eq_nil (h : Inv n s) (hnil : s.db (familySpaceKey 0) = []) :
    s.device = none ∧ s.committed = [] := by
  by_contra hne
  rw [not_and_or] at hne
  exact h.first hne hnil

theorem Inv.start (json : JSONDeleteMark) (name : String) (h : Inv n s) (hn : 0 < n)
    (hlt : n < 2 ^ 63) (hdown : s.device = none) :
    ∃ d db, newBlockDevice json name (4096 * n) s.db = .ok (d, db) ∧
      Inv n { s with db := db, device := some d } ∧
      ∀ key, (∀ i, key ≠ familySpaceKey i) → db key = s.db key := by
  obtain ⟨d, db, hnew, hspace, hne, hframe, htotal, howns⟩ := newBlockDevice_spec json name hn hlt
    h.space (fun hnil => by simp [committedBlocks, (h.first_eq_nil hnil).2]) h.nodup h.lt
  refine ⟨d, db, hnew, ⟨hspace, h.nodup, h.lt, fun d' hd => ?_, fun hd => by simp at hd,
    fun _ => hne, h.proper⟩, hframe⟩
  obtain rfl := Option.some.inj hd
  refine ⟨htotal, ?_⟩
  have hpending : pendingBlocks { s with db := db, device := some d } = [] := by
    rw [pendingBlocks, h.down hdown]
    rfl
  rw [hpending, Multiset.coe_nil, zero_add]
  exact howns

theorem Inv.startCrash (h : Inv n s) (hdown : s.device = none) {done : ℕ} {db : DB}
    (hinit : tryInitBlockSpace json (4096 * n) done s.db = .ok db) :
    Inv n { s with db := db } ∧ ∀ key, (∀ i, key ≠ familySpaceKey i) → db key = s.db key := by
  by_cases hnil : s.db (familySpaceKey 0) = []
  · obtain ⟨-, hcommitted⟩ := h.first_eq_nil hnil
    have hempty : ∀ x, x ∈ s.committedBlocks ↔ False := by simp [committedBlocks, hcommitted]
    obtain ⟨db', hinit', hspace, hframe, -⟩ := tryInitBlockSpace_of_nil json (4096 * n) done
      (h.space.congr hempty) hnil
    obtain rfl : db' = db := Except.ok.inj (hinit'.symm.trans hinit)
    refine ⟨⟨hspace.congr fun x => (hempty x).symm, h.nodup, h.lt, h.owns, h.down, ?_,
      h.proper⟩, hframe⟩
    rintro (hup | hne)
    · exact absurd hdown hup
    · exact absurd hcommitted hne
  · rw [tryInitBlockSpace_of_ne_nil json _ _ h.space hnil] at hinit
    obtain rfl := Except.ok.inj hinit
    exact ⟨h, fun _ _ => rfl⟩

theorem Inv.crash (h : Inv n s) : Inv n (⟨s.db, none, [], s.committed⟩ : Node U) :=
  ⟨h.space, h.nodup, h.lt, by simp, fun _ => rfl, fun hne => h.first (Or.inr (by simpa using hne)),
    by simp⟩

theorem pendingBlocks_append (s : Node U) (l : List (U × FlushBlockInfo)) :
    infoBlocks ((s.pending ++ l).map Prod.snd) =
      s.pendingBlocks ++ infoBlocks (l.map Prod.snd) := by
  rw [pendingBlocks, List.map_append, infoBlocks, List.flatMap_append]
  rfl

theorem Inv.alloc (h : Inv n s) {d : BlockDevice} (hd : s.device = some d) {u : U} {size : ℤ}
    (hstep : Step json pb name n s (.alloc u size) t) :
    Inv n t ∧ t.db = s.db ∧ t.committed = s.committed := by
  obtain ⟨d', hd', hstep⟩ := hstep
  obtain rfl := Option.some.inj (hd'.symm.trans hd)
  obtain ⟨htotal, howns⟩ := h.owns d' hd
  have hfirst : s.db (familySpaceKey 0) ≠ [] := h.first (Or.inl (by simp [hd]))
  rcases d'.alloc_spec howns size with ⟨e, results, token, hres, hproper, howns', htotal', -⟩ |
    ⟨e, err, hres, howns', htotal'⟩
  · rw [hres] at hstep
    obtain rfl := hstep
    refine ⟨⟨h.space, h.nodup, h.lt, fun e' he => ?_, by simp, fun _ => hfirst, fun x hx => ?_⟩,
      rfl, rfl⟩
    · obtain rfl := Option.some.inj he
      refine ⟨htotal'.trans htotal, ?_⟩
      have hinfo : infoBlocks ([(u, FlushBlockInfo.mk results token)].map Prod.snd) =
          blocksOf token := List.flatMap_singleton _ _
      rw [pendingBlocks, pendingBlocks_append, hinfo, ← Multiset.coe_add, add_right_comm]
      exact howns'
    · rcases List.mem_append.mp hx with hx | hx
      · exact h.proper x hx
      · rw [List.mem_singleton.mp hx]
        exact hproper
  · rw [hres] at hstep
    obtain rfl := hstep
    refine ⟨⟨h.space, h.nodup, h.lt, fun e' he => ?_, by simp, fun _ => hfirst, h.proper⟩, rfl, rfl⟩
    obtain rfl := Option.some.inj he
    exact ⟨htotal'.trans htotal, howns'⟩

theorem Inv.rollbackAlloc (h : Inv n s) (hlt : n < 2 ^ 63) {u : U} {info : FlushBlockInfo}
    (hstep : Step json pb name n s (.rollbackAlloc u info) t) :
    Inv n t ∧ t.db = s.db ∧ t.committed = s.committed := by
  obtain ⟨d, before, after, hd, hpending, rfl⟩ := hstep
  obtain ⟨htotal, howns⟩ := h.owns d hd
  have hinfo : info.Proper := h.proper (u, info) (by rw [hpending]; simp)
  have hblocks : (s.pendingBlocks : Multiset ℕ) + s.committedBlocks = blocksOf info.token +
      ((infoBlocks ((before ++ after).map Prod.snd) : Multiset ℕ) + s.committedBlocks) := by
    rw [pendingBlocks, hpending, List.map_append, List.map_cons, infoBlocks, List.flatMap_append,
      List.flatMap_cons, List.map_append, infoBlocks, List.flatMap_append]
    simp only [← Multiset.coe_add]
    ac_rfl
  rw [hblocks] at howns
  obtain ⟨howns', htotal'⟩ := BlockDevice.rollbackAlloc_spec howns (htotal ▸ hlt) hinfo.pos
  refine ⟨⟨h.space, h.nodup, h.lt, fun e he => ?_, by simp,
    fun _ => h.first (Or.inl (by simp [hd])),
    fun x hx => h.proper x ?_⟩, rfl, rfl⟩
  · obtain rfl := Option.some.inj he
    exact ⟨htotal'.trans htotal, howns'⟩
  · rw [hpending]
    rcases List.mem_append.mp hx with hx | hx
    · exact List.mem_append_left _ hx
    · exact List.mem_append_right _ (List.mem_cons_of_mem _ hx)

theorem filter_zip_map {α β : Type} (f : α → β) (p : β → Bool) : ∀ l : List α,
    ((l.zip (l.map f)).filter fun x => p x.2).map Prod.fst = l.filter fun a => p (f a)
  | [] => rfl
  | a :: l => by
    rw [List.map_cons, List.zip_cons_cons, List.filter_cons, List.filter_cons]
    split_ifs
    · rw [List.map_cons, filter_zip_map f p l]
    · exact filter_zip_map f p l

theorem filter_mem_perm {β : Type} (l : List (U × β)) : ∀ {ids : List U}, ids.Nodup →
    (l.filter (·.1 ∈ ids)).Perm (ids.flatMap fun u => l.filter (·.1 = u))
  | [], _ => by simp
  | u :: ids, h => by
    obtain ⟨hu, hids⟩ := List.nodup_cons.mp h
    rw [List.flatMap_cons]
    refine (List.filter_append_perm (fun x => decide (x.1 = u)) _).symm.trans ?_
    rw [List.filter_filter, List.filter_filter]
    refine List.Perm.append (List.Perm.of_eq ?_) (List.Perm.trans (List.Perm.of_eq ?_)
      (filter_mem_perm l hids))
    · exact List.filter_congr fun x _ => by simp; tauto
    · refine List.filter_congr fun x _ => ?_
      by_cases hx : x.1 = u
      · simp [hx, hu]
      · simp [hx]

/-- The uploads `stored` are committed. -/
def store (s : Node U) (stored : List (Completion U)) : Node U :=
  { s with
    db := s.db.applyAll ((stored.map s.commitOf).flatMap Commit.ops)
    pending := s.pending.filter (·.1 ∉ stored.map Completion.upload)
    committed := s.committed ++ stored.map fun c => (s.commitOf c).fileMeta }

theorem Inv.proper_infos (h : Inv n s) (u : U) : ∀ info ∈ s.infos u, info.Proper := by
  intro info hinfo
  obtain ⟨x, hx, rfl⟩ := List.mem_map.mp hinfo
  exact h.proper x (List.mem_of_mem_filter hx)

theorem Inv.results_commitOf (h : Inv n s) (c : Completion U) :
    (s.commitOf c).results =
      ((s.infos c.upload).flatMap FlushBlockInfo.token).map Result.toBytes ∧
    ∀ r ∈ (s.infos c.upload).flatMap FlushBlockInfo.token, 0 ≤ r.offset ∧ 0 < r.size := by
  refine ⟨flattenBlockResults_eq (h.proper_infos c.upload), fun r hr => ?_⟩
  obtain ⟨info, hinfo, hr⟩ := List.mem_flatMap.mp hr
  exact (h.proper_infos c.upload info hinfo).pos r hr

theorem Inv.aligned_commitOf (h : Inv n s) (c : Completion U) :
    ∀ r ∈ (s.commitOf c).results, r.Aligned :=
  aligned_flattenBlockResults (h.proper_infos c.upload)

/-- A group is dropped or some of its uploads are committed. -/
theorem Inv.afterCommit (json : JSONDeleteMark) (h : Inv n s) (group : List (Completion U))
    (outcome : Option BatchError) :
    ∃ stored, stored.Sublist group ∧ s.afterCommit json group outcome = s.store stored ∧
      (outcome = none → (∀ c ∈ group, s.db (fileMetaKey c.req.metaKey) = []) →
        stored = group) := by
  have hflush := flush_commits json s.db (List.forall_mem_map.mpr
    fun c (_ : c ∈ group) => h.aligned_commitOf c) outcome
  rw [List.map_map] at hflush
  rw [Node.afterCommit]
  change _ ∨ _ at hflush
  simp only [Function.comp_def] at hflush
  generalize flush json s.db [] (group.map fun c => commitRequest json (s.commitOf c)) outcome = o
    at hflush
  rcases hflush with ⟨h1, h2, hbad, -⟩ | ⟨h1, h2, h3, -⟩
  · refine ⟨[], List.nil_sublist _, by simp [h1, h2, store, Store.applyAll], fun hnone hnil => ?_⟩
    obtain ⟨x, hx, hbad⟩ := hbad.resolve_left (by simp [hnone])
    obtain ⟨c, hc, rfl⟩ := List.mem_map.mp hx
    exact absurd hbad (Commit.lookup_of_nil (hnil c hc)).1
  · refine ⟨group.filter fun c => !(s.commitOf c).found s.db, List.filter_sublist, ?_,
      fun _ hnil => List.filter_eq_self.mpr fun c hc => ?_⟩
    swap
    · rw [(Commit.lookup_of_nil (c := s.commitOf c) (hnil c hc)).2]
      rfl
    have hstored : ((group.zip o.outputs).filter (·.2 = some false)).map Prod.fst =
        group.filter fun c => !(s.commitOf c).found s.db := by
      rw [h3, List.map_map, filter_zip_map _ (· = some false)]
      exact List.filter_congr fun c _ => by simp
    simp only [h1, if_true, hstored, store]
    rw [h2, List.filter_map]
    rfl

/-- The blocks of uploads move from those in progress to the committed ones. -/
theorem Inv.blocks_store (h : Inv n s) {stored : List (Completion U)}
    (hnodup : (stored.map Completion.upload).Nodup) :
    (s.store stored).committedBlocks = s.committedBlocks ++
      stored.flatMap (fun c => infoBlocks (s.infos c.upload)) ∧
    ((s.store stored).pendingBlocks ++ (s.store stored).committedBlocks).Perm
      (s.pendingBlocks ++ s.committedBlocks) := by
  have hcommitted : (s.store stored).committedBlocks = s.committedBlocks ++
      stored.flatMap (fun c => infoBlocks (s.infos c.upload)) := by
    rw [committedBlocks, store, List.flatMap_append, List.flatMap_map]
    congr 1
    exact List.flatMap_congr fun c _ => blocks_buildFileMeta _ _ _ (h.proper_infos c.upload)
  have hmoved : (stored.flatMap fun c => infoBlocks (s.infos c.upload)).Perm
      (infoBlocks ((s.pending.filter (·.1 ∈ stored.map Completion.upload)).map Prod.snd)) := by
    refine List.Perm.trans (List.Perm.of_eq ?_)
      (((filter_mem_perm s.pending hnodup).map Prod.snd).flatMap_right _).symm
    rw [List.map_flatMap, List.flatMap_assoc, List.flatMap_map]
    rfl
  have hsplit : s.pendingBlocks.Perm ((s.store stored).pendingBlocks ++
      infoBlocks ((s.pending.filter (·.1 ∈ stored.map Completion.upload)).map Prod.snd)) := by
    refine (((List.filter_append_perm (fun x => decide (x.1 ∈ stored.map Completion.upload))
      s.pending).symm.map Prod.snd).flatMap_right _).trans ?_
    rw [List.map_append, List.flatMap_append]
    refine List.perm_append_comm.trans (List.Perm.of_eq ?_)
    simp only [pendingBlocks, store, decide_not, infoBlocks]
  refine ⟨hcommitted, ?_⟩
  rw [hcommitted]
  refine List.Perm.trans ?_ (hsplit.append_right _).symm
  rw [List.append_assoc]
  refine List.Perm.append_left _ (List.perm_append_comm.trans ?_)
  exact hmoved.append_right _

theorem Inv.store (h : Inv n s) (hup : s.device ≠ none) {stored : List (Completion U)}
    (hnodup : (stored.map Completion.upload).Nodup) : Inv n (s.store stored) := by
  obtain ⟨d, hd⟩ := Option.ne_none_iff_exists'.mp hup
  obtain ⟨htotal, howns⟩ := h.owns d hd
  obtain ⟨hcommitted, hperm⟩ := h.blocks_store hnodup
  rw [Multiset.coe_add, ← Multiset.coe_eq_coe.mpr hperm] at howns
  have hnodup' := Multiset.coe_nodup.mp howns.nodup
  refine ⟨?_, (List.nodup_append.mp hnodup').2.1, fun x hx => ?_, fun e he => ?_, fun hdown => ?_,
    fun _ => ne_nil_applyAll_ops _ (h.first (Or.inl hup)),
    fun x hx => h.proper x (List.mem_of_mem_filter hx)⟩
  · refine (h.space.commits fun c _ => h.results_commitOf c).congr fun x => ?_
    rw [hcommitted, List.mem_append]
    simp only [blocksOf_flatMap_token]
  · rw [← htotal]
    exact ((howns.mem_iff x).mp (Multiset.mem_coe.mpr (List.mem_append_right _ hx))).1
  · obtain rfl := Option.some.inj (he.symm.trans hd)
    rw [Multiset.coe_add]
    exact ⟨htotal, howns⟩
  · exact absurd hdown hup

/-- What a step does to the database and the committed records : nothing but to the bitmap
keys, or the commit of some uploads. -/
theorem Inv.step (h : Inv n s) (hn : 0 < n) (hlt : n < 2 ^ 63) {e : NodeEvent U}
    (hstep : Step json pb name n s e t) :
    Inv n t ∧ ((t.committed = s.committed ∧
      ∀ key, (∀ i, key ≠ familySpaceKey i) → t.db key = s.db key) ∨
    ∃ stored, t = s.store stored ∧ (stored.map Completion.upload).Nodup ∧
      ∀ c ∈ stored, s.infos c.upload ≠ [] ∧
        pb.marshal (s.commitOf c).fileMeta = .ok c.metaBytes) := by
  cases e with
  | start =>
    obtain ⟨hdown, d, db, hnew, rfl⟩ := hstep
    obtain ⟨d', db', hnew', hinv, hframe⟩ := h.start json name hn hlt hdown
    obtain ⟨rfl, rfl⟩ := Prod.mk.inj (Except.ok.inj (hnew'.symm.trans hnew))
    exact ⟨hinv, Or.inl ⟨rfl, hframe⟩⟩
  | startCrash done =>
    obtain ⟨hdown, db, hinit, rfl⟩ := hstep
    obtain ⟨hinv, hframe⟩ := h.startCrash hdown hinit
    exact ⟨hinv, Or.inl ⟨rfl, hframe⟩⟩
  | alloc u size =>
    obtain ⟨d, hd, -⟩ := id hstep
    obtain ⟨hinv, hdb, hcommitted⟩ := h.alloc hd hstep
    exact ⟨hinv, Or.inl ⟨hcommitted, fun _ _ => by rw [hdb]⟩⟩
  | rollbackAlloc u info =>
    obtain ⟨hinv, hdb, hcommitted⟩ := h.rollbackAlloc hlt hstep
    exact ⟨hinv, Or.inl ⟨hcommitted, fun _ _ => by rw [hdb]⟩⟩
  | commit group outcome =>
    obtain ⟨hup, hnodup, hgroup, rfl⟩ := hstep
    obtain ⟨stored, hsub, heq, -⟩ := h.afterCommit json group outcome
    have hnodup' := hnodup.sublist (hsub.map Completion.upload)
    rw [heq]
    exact ⟨h.store (Option.isSome_iff_ne_none.mp hup) hnodup',
      Or.inr ⟨stored, rfl, hnodup', fun c hc => hgroup c (hsub.subset hc)⟩⟩
  | crash =>
    obtain rfl := hstep
    exact ⟨h.crash, Or.inl ⟨rfl, fun _ _ => rfl⟩⟩

theorem inv_of_run (hn : 0 < n) (hlt : n < 2 ^ 63) {db : DB} (hfresh : Fresh db)
    {events : List (NodeEvent U)} (h : Run (Step json pb name n) (initial U db) events s) :
    Inv n s :=
  h.invariant (fun _ _ _ ht hstep => (ht.step hn hlt hstep).1) (Inv.initial hfresh)

end Node

end Corgi
