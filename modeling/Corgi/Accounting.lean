import Mathlib.Data.Set.Card
import Corgi.Durability

/-!
# Counters and bitmap agree

The counters of a node count the uploads that were committed : their number, their sizes
and the space they occupy. `Node.Ledger` is what the database holds in terms of the
committed records, exactly. `space_accounting` reads it back through every way the merge
operands may have been folded, and compares the space used with the bits that are set.
-/

set_option linter.unusedSectionVars false

namespace Corgi

/-! ## What a commit adds to a key -/

/-- The writes of a commit apart from the bitmap. -/
theorem applyAll_ops_of_ne_space (db : DB) (c : Commit) {key : Bytes}
    (h : ∀ i, key ≠ familySpaceKey i) :
    db.applyAll c.ops key = db.applyAll [.set c.fileMeta.getKey c.metaBytes,
      .merge pebbleFileSystemFileNum (toByte 1),
      .merge pebbleFileSystemSize (toByte c.fileMeta.size),
      .merge pebbleFileSystemUsedSize (toByte c.totalSize)] key := by
  rw [Commit.ops, Store.applyAll_append]
  refine Store.applyAll_congr _ (Store.applyAll_of_forall_ne db fun op hop => ?_)
  obtain ⟨r, -, hr⟩ := List.mem_flatMap.mp hop
  obtain ⟨i, hi⟩ := key_of_mem_spaceOps hr
  rw [hi]
  exact h i

/-- A commit appends one operand to each counter. -/
theorem applyAll_ops_counters (db : DB) (c : Commit) :
    db.applyAll c.ops pebbleFileSystemFileNum = db pebbleFileSystemFileNum ++ [toByte 1] ∧
    db.applyAll c.ops pebbleFileSystemSize =
      db pebbleFileSystemSize ++ [toByte c.fileMeta.size] ∧
    db.applyAll c.ops pebbleFileSystemUsedSize =
      db pebbleFileSystemUsedSize ++ [toByte c.totalSize] := by
  obtain ⟨name, hname⟩ := getFileMetaKey_eq_cons c.fileMeta.fileName
  have hspace : ∀ key, key ∈ [pebbleFileSystemFileNum, pebbleFileSystemSize,
      pebbleFileSystemUsedSize] → ∀ i, key ≠ familySpaceKey i := by
    intro key hkey i
    fin_cases hkey <;> exact fun h => absurd (List.cons.inj (List.cons.inj h).2).1 (by decide)
  have hmeta : ∀ key, key ∈ [pebbleFileSystemFileNum, pebbleFileSystemSize,
      pebbleFileSystemUsedSize] → key ≠ c.fileMeta.getKey := by
    intro key hkey
    rw [FileMeta.getKey, hname]
    fin_cases hkey <;> exact fun h => absurd (List.cons.inj h).1 (by decide)
  refine ⟨?_, ?_, ?_⟩
  all_goals
    rw [applyAll_ops_of_ne_space db c (hspace _ (by simp))]
    simp only [Store.applyAll, List.foldl_cons, List.foldl_nil, Store.apply, WriteOp.key,
      WriteOp.act]
    simp only [Function.update_apply, hmeta, List.mem_cons, true_or, or_true, if_false]
    simp [pebbleFileSystemFileNum, pebbleFileSystemSize, pebbleFileSystemUsedSize, ascii]

/-- A commit sets the record of its file and no other. -/
theorem applyAll_ops_record (db : DB) (c : Commit) (name : Bytes) :
    db.applyAll c.ops (pebbleFileMetaPrefix :: name) =
      if c.fileMeta.getKey = pebbleFileMetaPrefix :: name then [c.metaBytes]
      else db (pebbleFileMetaPrefix :: name) := by
  have hdot : ∀ key : Bytes, key.head? = some 46#8 → pebbleFileMetaPrefix :: name ≠ key := by
    rintro key hkey rfl
    exact absurd (Option.some.inj hkey) (by decide)
  rw [applyAll_ops_of_ne_space db c fun i => hdot _ rfl]
  simp only [Store.applyAll, List.foldl_cons, List.foldl_nil, Store.apply, WriteOp.key,
    WriteOp.act]
  rw [Function.update_of_ne (hdot _ rfl), Function.update_of_ne (hdot _ rfl),
    Function.update_of_ne (hdot _ rfl), Function.update_apply]
  exact if_congr eq_comm rfl rfl

/-- Operands that commits append to a key add up. -/
theorem applyAll_ops_append {key : Bytes} {value : Commit → Bytes}
    (h : ∀ (db : DB) c, db.applyAll c.ops key = db key ++ [value c]) :
    ∀ (cs : List Commit) (db : DB),
      db.applyAll (cs.flatMap Commit.ops) key = db key ++ cs.map value
  | [], _ => (List.append_nil _).symm
  | c :: cs, db => by
    rw [List.flatMap_cons, Store.applyAll_append, applyAll_ops_append h cs, h, List.map_cons,
      List.append_assoc, List.singleton_append]

/-- Of the commits to one record, the last one counts. -/
theorem applyAll_ops_records (name : Bytes) : ∀ (cs : List Commit) (db : DB),
    db.applyAll (cs.flatMap Commit.ops) (pebbleFileMetaPrefix :: name) =
      match (cs.filter (·.fileMeta.getKey = pebbleFileMetaPrefix :: name)).getLast? with
      | none => db (pebbleFileMetaPrefix :: name)
      | some c => [c.metaBytes]
  | [], _ => rfl
  | c :: cs, db => by
    rw [List.flatMap_cons, Store.applyAll_append, applyAll_ops_records name cs,
      applyAll_ops_record, List.filter_cons]
    simp only [decide_eq_true_eq]
    split_ifs
    · rw [List.getLast?_cons]
      cases (cs.filter _).getLast? <;> rfl
    · rfl

/-! ## The ledger -/

/-- What is stored of a record. -/
def Protobuf.data (pb : Protobuf) (fileMeta : FileMeta) : Bytes :=
  (pb.marshal fileMeta).toOption.getD []

namespace Node

variable {U : Type} [DecidableEq U] {json : JSONDeleteMark} {pb : Protobuf} {name : String}
  {n : ℕ} {s t : Node U}

/-- The record last committed under a key. -/
def latest (s : Node U) (key : Bytes) : Option FileMeta :=
  (s.committed.filter (·.getKey = key)).getLast?

/-- What the database holds of the committed records, besides the bitmap. -/
structure Ledger (pb : Protobuf) (s : Node U) : Prop where
  num : s.db pebbleFileSystemFileNum = s.committed.map fun _ => toByte 1
  size : s.db pebbleFileSystemSize = s.committed.map fun f => toByte f.size
  used : s.db pebbleFileSystemUsedSize = s.committed.map fun f => toByte f.len.sum
  records : ∀ name, s.db (pebbleFileMetaPrefix :: name) =
    ((s.latest (pebbleFileMetaPrefix :: name)).map pb.data).toList
  marshalled : ∀ f ∈ s.committed, pb.marshal f = .ok (pb.data f)
  len_sum : ∀ f ∈ s.committed, f.len.sum = 4096 * f.blocks.length
  blocks_ne : ∀ f ∈ s.committed, f.blocks ≠ []

theorem Ledger.initial {db : DB} (h : Fresh db) : Ledger pb (Node.initial U db) := by
  refine ⟨?_, ?_, ?_, fun name => ?_, by simp [Node.initial], by simp [Node.initial],
    by simp [Node.initial]⟩
  · exact h _ (Or.inr rfl)
  · exact h _ (Or.inr rfl)
  · exact h _ (Or.inr rfl)
  · exact h _ (Or.inl rfl)

/-- Nothing changes but the bitmap. -/
theorem Ledger.congr (h : Ledger pb s) (hcommitted : t.committed = s.committed)
    (hframe : ∀ key, (∀ i, key ≠ familySpaceKey i) → t.db key = s.db key) : Ledger pb t := by
  have hdot : ∀ (rest : Bytes) i, 46#8 :: 50#8 :: rest ≠ familySpaceKey i := fun rest i heq =>
    absurd (List.cons.inj (List.cons.inj heq).2).1 (by decide)
  refine ⟨?_, ?_, ?_, fun name => ?_, ?_, ?_, ?_⟩
  · exact (hframe _ (hdot _)).trans (hcommitted ▸ h.num)
  · exact (hframe _ (hdot _)).trans (hcommitted ▸ h.size)
  · exact (hframe _ (hdot _)).trans (hcommitted ▸ h.used)
  · rw [latest, hcommitted]
    exact (hframe _ fun i heq => absurd (List.cons.inj heq).1 (by decide)).trans (h.records name)
  · exact hcommitted ▸ h.marshalled
  · exact hcommitted ▸ h.len_sum
  · exact hcommitted ▸ h.blocks_ne

theorem length_infoBlocks {infos : List FlushBlockInfo} (h : ∀ info ∈ infos, info.Proper) :
    ((flattenBlockResults infos).map Result.size).sum = 4096 * ((infoBlocks infos).length : ℤ) := by
  rw [flattenBlockResults_eq h, ← blocksOf_flatMap_token, length_blocksOf, List.map_map,
    ← List.sum_map_mul_left]
  · refine congrArg List.sum (List.map_congr_left fun r _ => ?_)
    simp only [Function.comp_apply, Result.toBytes]
    ring
  · intro r hr
    obtain ⟨info, hinfo, hr⟩ := List.mem_flatMap.mp hr
    exact (h info hinfo).pos r hr

theorem infoBlocks_ne_nil {infos : List FlushBlockInfo} (h : ∀ info ∈ infos, info.Proper)
    (hne : infos ≠ []) : infoBlocks infos ≠ [] := by
  obtain ⟨info, hinfo⟩ := List.exists_mem_of_ne_nil _ hne
  obtain ⟨r, hr⟩ := List.exists_mem_of_ne_nil _ (h info hinfo).token_ne
  have hpos := (h info hinfo).pos r hr
  have hfirst : r.offset.toNat ∈ r.blocks := Result.mem_blocks.mpr (by omega)
  exact List.ne_nil_of_mem
    (List.mem_flatMap.mpr ⟨info, hinfo, mem_blocksOf.mpr ⟨r, hr, hfirst⟩⟩)

theorem Ledger.store (h : Ledger pb s) (hinv : Inv n s) {stored : List (Completion U)}
    (hstored : ∀ c ∈ stored, s.infos c.upload ≠ [] ∧
      pb.marshal (s.commitOf c).fileMeta = .ok c.metaBytes) : Ledger pb (s.store stored) := by
  have hdata : ∀ c ∈ stored, pb.data (s.commitOf c).fileMeta = c.metaBytes := fun c hc => by
    rw [Protobuf.data, (hstored c hc).2]
    rfl
  have hmem : ∀ P : FileMeta → Prop, (∀ f ∈ s.committed, P f) →
      (∀ c ∈ stored, P (s.commitOf c).fileMeta) → ∀ f ∈ (s.store stored).committed, P f := by
    intro P h1 h2 f hf
    rcases List.mem_append.mp hf with hf | hf
    · exact h1 f hf
    · obtain ⟨c, hc, rfl⟩ := List.mem_map.mp hf
      exact h2 c hc
  refine ⟨?_, ?_, ?_, fun name => ?_, hmem _ h.marshalled fun c hc => ?_,
    hmem _ h.len_sum fun c hc => ?_, hmem _ h.blocks_ne fun c hc => ?_⟩
  · refine (applyAll_ops_append (fun db c => (applyAll_ops_counters db c).1) _ _).trans ?_
    rw [h.num, Node.store, List.map_append, List.map_map, List.map_map]
    rfl
  · refine (applyAll_ops_append (fun db c => (applyAll_ops_counters db c).2.1) _ _).trans ?_
    rw [h.size, Node.store, List.map_append, List.map_map, List.map_map]
    rfl
  · refine (applyAll_ops_append (fun db c => (applyAll_ops_counters db c).2.2) _ _).trans ?_
    rw [h.used, Node.store, List.map_append, List.map_map, List.map_map]
    rfl
  · refine (applyAll_ops_records name _ _).trans ?_
    rw [h.records, latest, latest, Node.store, List.filter_append, List.filter_map,
      List.filter_map, List.getLast?_append, List.getLast?_map, List.getLast?_map]
    simp only [Function.comp_def]
    cases hlast : (stored.filter fun c =>
        decide ((s.commitOf c).fileMeta.getKey = pebbleFileMetaPrefix :: name)).getLast? with
    | none => rfl
    | some c =>
      have hc := List.mem_of_mem_filter (List.mem_of_getLast? hlast)
      simp only [Option.map_some, Option.some_or, Option.toList_some, hdata c hc]
      rfl
  · rw [hdata c hc]
    exact (hstored c hc).2
  · have hproper := hinv.proper_infos c.upload
    rw [show (s.commitOf c).fileMeta.blocks = _ from blocks_buildFileMeta _ _ _ hproper]
    exact length_infoBlocks hproper
  · have hproper := hinv.proper_infos c.upload
    rw [show (s.commitOf c).fileMeta.blocks = _ from blocks_buildFileMeta _ _ _ hproper]
    exact infoBlocks_ne_nil hproper (hstored c hc).1

theorem ledger_of_run (hn : 0 < n) (hlt : n < 2 ^ 63) {db : DB} (hfresh : Fresh db)
    {events : List (NodeEvent U)} (h : Run (Step json pb name n) (Node.initial U db) events s) :
    Inv n s ∧ Ledger pb s := by
  refine h.invariant (I := fun s => Inv n s ∧ Ledger pb s) (fun t e u ht hstep => ?_)
    ⟨Inv.initial hfresh, Ledger.initial hfresh⟩
  obtain ⟨hinv, ⟨hcommitted, hframe⟩ | ⟨stored, rfl, -, hstored⟩⟩ := ht.1.step hn hlt hstep
  · exact ⟨hinv, ht.2.congr hcommitted hframe⟩
  · exact ⟨hinv, ht.2.store ht.1 hstored⟩

end Node

/-! ## Reading the ledger -/

theorem leNat_toByte (c : ℤ) : (leNat (toByte c) : ℤ) = c % 2 ^ 64 := by
  rw [toByte, leNat_leBytes, Nat.mod_eq_of_lt]
  · omega
  · rw [show 256 ^ 8 = 2 ^ 64 by norm_num]
    omega

theorem isCounter_toByte (c : ℤ) : IsCounter (toByte c) (leNat (toByte c)) := by
  have h := leNat_toByte c
  exact ⟨length_leBytes _ _, (Nat.mod_eq_of_lt (by omega)).symm⟩

theorem sum_leNat_toByte : ∀ values : List ℤ,
    ((((values.map toByte).map leNat).sum : ℕ) : ℤ) % 2 ^ 64 = values.sum % 2 ^ 64
  | [] => rfl
  | c :: values => by
    rw [List.map_cons, List.map_cons, List.sum_cons, List.sum_cons, Nat.cast_add, leNat_toByte,
      Int.emod_add_emod, Int.add_emod, sum_leNat_toByte values, ← Int.add_emod]

/-- However its operands were folded, a counter gives their sum. -/
theorem reads_counter {db : DB} {key : Bytes} (values : List ℤ) (h : db key = values.map toByte)
    {r : Except MergeError (Option Bytes)} (hr : db.Reads mossMergeValues key r) :
    ∃ v, r = .ok v ∧ (leNat (v.getD []) : ℤ) = values.sum % 2 ^ 64 ∧
      (values ≠ [] → (v.getD []).length = 8) := by
  rcases hr with ⟨hnil, rfl⟩ | ⟨t, ht, rfl⟩
  · rw [h, List.map_eq_nil_iff] at hnil
    exact ⟨none, rfl, by rw [hnil]; rfl, fun hne => absurd hnil hne⟩
  · rw [h] at ht
    obtain ⟨v, hv, hlen, hsum⟩ := eval_counters key leNat t fun v hv => by
      rw [ht] at hv
      obtain ⟨c, -, rfl⟩ := List.mem_map.mp hv
      exact isCounter_toByte c
    refine ⟨some v, by rw [hv]; rfl, ?_, fun _ => hlen⟩
    rw [Option.getD_some, hsum, ht, Int.natCast_emod]
    exact sum_leNat_toByte values

/-- However the masks were folded, the bits that are set are those of the marked blocks. -/
theorem SpaceHolds.reads {db : DB} {marked : ℕ → Prop} (h : SpaceHolds db marked) {i : ℕ}
    {r : Except MergeError (Option Bytes)}
    (hr : db.Reads mossMergeValues (familySpaceKey i) r) :
    ∃ v, r = .ok v ∧
      ∀ j < 4096, msbBit (normalizeSpaceValue v) j = true ↔ marked (4096 * i + j) := by
  rcases hr with ⟨hnil, rfl⟩ | ⟨t, ht, rfl⟩
  · refine ⟨none, rfl, fun j hj => ?_⟩
    rw [← h.bits i j hj, hnil, normalizeSpaceValue_none, msbBit_zeroSpace hj, List.any_nil]
  · obtain ⟨v, hv, hbits⟩ := h.eval i t ht
    exact ⟨some v, by rw [hv]; rfl, hbits⟩

section

variable {U : Type} [DecidableEq U] {json : JSONDeleteMark} {pb : Protobuf} {name : String}
  {n : ℕ} {s : Node U}

/-- In every state that a node reaches and however Pebble folded the operands, the counters
are the number of the committed uploads, the sum of their sizes and the sum of their
extents, and the last is the size of the blocks whose bit is set. -/
theorem space_accounting (hn : 0 < n) (hlt : n < 2 ^ 63) {db : DB} (hfresh : Fresh db)
    {events : List (NodeEvent U)}
    (h : Run (Node.Step json pb name n) (Node.initial U db) events s) :
    (∀ r, s.db.Reads mossMergeValues pebbleFileSystemFileNum r → ∃ v, r = .ok v ∧
      leNat (v.getD []) = s.committed.length % 2 ^ 64 ∧
      (s.committed ≠ [] → (v.getD []).length = 8)) ∧
    (∀ r, s.db.Reads mossMergeValues pebbleFileSystemSize r → ∃ v, r = .ok v ∧
      (leNat (v.getD []) : ℤ) = (s.committed.map FileMeta.size).sum % 2 ^ 64 ∧
      (s.committed ≠ [] → (v.getD []).length = 8)) ∧
    (∀ i r, s.db.Reads mossMergeValues (familySpaceKey i) r → ∃ v, r = .ok v) ∧
    ∀ r, s.db.Reads mossMergeValues pebbleFileSystemUsedSize r → ∃ v, r = .ok v ∧
      (leNat (v.getD []) : ℤ) = (s.committed.map fun f => f.len.sum).sum % 2 ^ 64 ∧
      (s.committed ≠ [] → (v.getD []).length = 8) ∧
      ∀ value : ℕ → Option Bytes,
        (∀ i, s.db.Reads mossMergeValues (familySpaceKey i) (.ok (value i))) →
        4096 * {x | spaceBit value x = true}.ncard < 2 ^ 64 →
        leNat (v.getD []) = 4096 * {x | spaceBit value x = true}.ncard := by
  obtain ⟨hinv, hledger⟩ := Node.ledger_of_run hn hlt hfresh h
  refine ⟨fun r hr => ?_, fun r hr => ?_, fun i r hr => ?_, fun r hr => ?_⟩
  · obtain ⟨v, rfl, hsum, hlen⟩ := reads_counter
      (s.committed.map fun _ => 1) (by rw [hledger.num, List.map_map]; rfl) hr
    refine ⟨v, rfl, ?_, fun hne => hlen (by simpa using hne)⟩
    rw [List.map_const', List.sum_replicate, nsmul_eq_mul, mul_one] at hsum
    omega
  · obtain ⟨v, rfl, hsum, hlen⟩ := reads_counter
      (s.committed.map FileMeta.size) (by rw [hledger.size, List.map_map]; rfl) hr
    exact ⟨v, rfl, hsum, fun hne => hlen (by simpa using hne)⟩
  · obtain ⟨v, hv, -⟩ := hinv.space.reads hr
    exact ⟨v, hv⟩
  · obtain ⟨v, rfl, hsum, hlen⟩ := reads_counter
      (s.committed.map fun f => f.len.sum) (by rw [hledger.used, List.map_map]; rfl) hr
    refine ⟨v, rfl, hsum, fun hne => hlen (by simpa using hne), fun value hvalue hbound => ?_⟩
    have hbits : {x | spaceBit value x = true} = s.committedBlocks.toFinset := by
      ext x
      obtain ⟨w, hw, hbit⟩ := hinv.space.reads (hvalue (x / 4096))
      obtain rfl := Except.ok.inj hw
      rw [Set.mem_ofPred_eq, spaceBit, hbit _ (Nat.mod_lt _ (by decide)), Nat.div_add_mod]
      simp
    have hcount : {x | spaceBit value x = true}.ncard = s.committedBlocks.length := by
      rw [hbits, Set.ncard_coe_finset, List.toFinset_card_of_nodup hinv.nodup]
    have hused : (s.committed.map fun f => f.len.sum).sum =
        4096 * (s.committedBlocks.length : ℤ) := by
      rw [Node.committedBlocks, List.length_flatMap, List.map_congr_left hledger.len_sum,
        List.sum_map_mul_left]
      push_cast
      rw [List.map_map]
      rfl
    rw [hused] at hsum
    rw [hcount] at hbound ⊢
    omega

end

/-- One upload of one block on a device of two. -/
theorem space_accounting_one_upload : ∃ (events : List (NodeEvent ℕ)) (s : Node ℕ),
    Run (Node.Step (fun _ => none) protobuf "lun" 2) (Node.initial ℕ emptyDB) events s ∧
    ∀ r, s.db.Reads mossMergeValues pebbleFileSystemFileNum r → ∃ v, r = .ok v ∧
      leNat (v.getD []) = 1 := by
  obtain ⟨s₁, hrun₁, hinv₁, hup₁, hidle₁, hnone₁, hnil₁⟩ :=
    @Node.exists_start ℕ _ 2 (fun _ => none) protobuf "lun" (by decide) (by decide)
  have hlen₁ : s₁.committedBlocks.length = 0 := by rw [Node.committedBlocks, hnone₁]; rfl
  have hmarshal : protobuf.Marshals 2 ⟨[], [97#8], [98#8], false⟩ 4096 [] :=
    protobuf_marshals (by decide) (by decide) (by decide) (by decide)
  obtain ⟨metaBytes, s₂, hrun₂, -, -, -, -, fileMeta, hcommitted, -⟩ := hinv₁.exists_upload hup₁
    hidle₁ (by omega) (fun _ => none) "lun" (by decide) (by decide) 0 hmarshal (hnil₁ _)
  have hrun := hrun₁.append hrun₂
  refine ⟨_, s₂, hrun, fun r hr => ?_⟩
  obtain ⟨v, rfl, hv, -⟩ := (space_accounting (by decide) (by decide) fresh_emptyDB hrun).1 r hr
  rw [hcommitted, hnone₁] at hv
  exact ⟨v, rfl, hv⟩

end Corgi
