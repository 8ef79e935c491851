import Corgi.Accounting

/-!
# Stored blocks and the records that own them

The blocks set in the bitmap should be those of the records that are stored, each owned
once, with the counter of files their number (`OneOwner`). An upload looks for its record
under `meta/file/` and its `MetaKey`, where nothing is ever written, and stores it under
`#` and a part of its file name. A second upload with the same part is not detected, and
its record replaces the first one, whose blocks stay allocated with no record.

`oneOwner_iff` : the records own the blocks exactly as long as no two uploads were
committed under one key.
-/

set_option linter.unusedSectionVars false

namespace Corgi

/-- The records in a database, with their keys. -/
def storedFiles (pb : Protobuf) (db : DB) : Set (Bytes × FileMeta) :=
  {f | f.1.head? = some pebbleFileMetaPrefix ∧
    ∃ data, db.get f.1 = .ok (some data) ∧ pb.unmarshal data = .ok f.2}

/-- Every block whose bit is set belongs to exactly one record. -/
structure OneOwner (pb : Protobuf) (db : DB) : Prop where
  bits : ∀ value : ℕ → Option Bytes, (∀ i, db.get (familySpaceKey i) = .ok (value i)) →
    ∀ x, spaceBit value x = true ↔ ∃ f ∈ storedFiles pb db, x ∈ f.2.blocks
  nodup : ∀ f ∈ storedFiles pb db, f.2.blocks.Nodup
  disjoint : ∀ f ∈ storedFiles pb db, ∀ g ∈ storedFiles pb db, f ≠ g →
    List.Disjoint f.2.blocks g.2.blocks
  num : ∃ v, db.get pebbleFileSystemFileNum = .ok v ∧
    leNat (v.getD []) = (storedFiles pb db).ncard

namespace Node

variable {U : Type} [DecidableEq U] {json : JSONDeleteMark} {pb : Protobuf} {name : String}
  {n : ℕ} {s : Node U}

theorem getKey_of_latest {key : Bytes} {f : FileMeta} (h : s.latest key = some f) :
    f ∈ s.committed ∧ f.getKey = key := by
  have hmem := List.mem_of_getLast? h
  exact ⟨List.mem_of_mem_filter hmem, by simpa using (List.mem_filter.mp hmem).2⟩

theorem latest_ne_none {f : FileMeta} (hf : f ∈ s.committed) : s.latest f.getKey ≠ none := by
  intro h
  rw [latest, List.getLast?_eq_none_iff, List.filter_eq_nil_iff] at h
  exact h f hf (decide_eq_true rfl)

/-- The records stored are the last ones committed under each key. -/
theorem Ledger.mem_storedFiles (h : Ledger pb s) {f : Bytes × FileMeta} :
    f ∈ storedFiles pb s.db ↔ s.latest f.1 = some f.2 := by
  obtain ⟨key, fileMeta⟩ := f
  have hget : ∀ name, s.db.get (pebbleFileMetaPrefix :: name) =
      .ok ((s.latest (pebbleFileMetaPrefix :: name)).map pb.data) := by
    intro name
    rw [DB.get, Store.get, h.records]
    cases s.latest (pebbleFileMetaPrefix :: name) <;> rfl
  constructor
  · rintro ⟨hhead, data, hdata, hfile⟩
    obtain ⟨name, rfl⟩ : ∃ name, key = pebbleFileMetaPrefix :: name := by
      cases key with
      | nil => exact absurd hhead (by simp)
      | cons b name => exact ⟨name, by rw [Option.some.inj hhead]⟩
    simp only at hdata hfile ⊢
    rw [hget] at hdata
    obtain ⟨f, hf, rfl⟩ := Option.map_eq_some_iff.mp (Except.ok.inj hdata)
    rw [pb.unmarshal_marshal (h.marshalled f (getKey_of_latest hf).1)] at hfile
    rw [hf, Except.ok.inj hfile]
  · intro hlatest
    obtain ⟨hmem, hkey⟩ := getKey_of_latest hlatest
    obtain ⟨name, hname⟩ := getFileMetaKey_eq_cons fileMeta.fileName
    obtain rfl : key = pebbleFileMetaPrefix :: name := hkey.symm.trans hname
    exact ⟨rfl, pb.data fileMeta, by rw [hget, hlatest]; rfl,
      pb.unmarshal_marshal (h.marshalled fileMeta hmem)⟩

/-- There are as many records as keys that uploads were committed under. -/
theorem Ledger.ncard_storedFiles (h : Ledger pb s) :
    (storedFiles pb s.db).ncard = (s.committed.map FileMeta.getKey).toFinset.card := by
  have hinj : Set.InjOn Prod.fst (storedFiles pb s.db) := by
    intro f hf g hg heq
    rw [h.mem_storedFiles] at hf hg
    rw [heq, hg] at hf
    exact Prod.ext heq (Option.some.inj hf).symm
  rw [← hinj.ncard_image, ← Set.ncard_coe_finset]
  congr 1
  ext key
  rw [Set.mem_image, Finset.mem_coe, List.mem_toFinset, List.mem_map]
  constructor
  · rintro ⟨f, hf, rfl⟩
    obtain ⟨hmem, hkey⟩ := getKey_of_latest (h.mem_storedFiles.mp hf)
    exact ⟨f.2, hmem, hkey⟩
  · rintro ⟨f, hf, rfl⟩
    obtain ⟨g, hg⟩ := Option.ne_none_iff_exists'.mp (latest_ne_none hf)
    exact ⟨(f.getKey, g), h.mem_storedFiles.mpr hg, rfl⟩

/-- Records without a block would be too many for the counter. -/
theorem Ledger.length_lt (h : Ledger pb s) (hinv : Inv n s) (hlt : n < 2 ^ 63) :
    s.committed.length < 2 ^ 64 := by
  have hblocks : s.committed.length ≤ s.committedBlocks.length := by
    rw [committedBlocks, List.length_flatMap]
    have hle := List.length_le_sum_of_one_le (s.committed.map fun f => f.blocks.length)
      (List.forall_mem_map.mpr fun f hf => List.length_pos_iff.mpr (h.blocks_ne f hf))
    rwa [List.length_map] at hle
  have hn : s.committedBlocks.length ≤ n := by
    have hsub := List.subperm_of_subset hinv.nodup fun x hx => List.mem_range.mpr (hinv.lt x hx)
    simpa using hsub.length_le
  omega

theorem Ledger.reads_num (h : Ledger pb s) (hinv : Inv n s) (hlt : n < 2 ^ 63) :
    ∃ v, s.db.get pebbleFileSystemFileNum = .ok v ∧ leNat (v.getD []) = s.committed.length := by
  have hlen := h.length_lt hinv hlt
  obtain ⟨v, hv, hsum, -⟩ := reads_counter (s.committed.map fun _ => 1)
    (by rw [h.num, List.map_map]; rfl)
    (Store.reads_get mossMergeValues s.db pebbleFileSystemFileNum)
  refine ⟨v, hv, ?_⟩
  rw [List.map_const', List.sum_replicate, nsmul_eq_mul, mul_one] at hsum
  omega

/-- Under distinct keys, the records stored are those committed. -/
theorem Ledger.mem_storedFiles_of_nodup (h : Ledger pb s)
    (hkeys : (s.committed.map FileMeta.getKey).Nodup) {f : Bytes × FileMeta} :
    f ∈ storedFiles pb s.db ↔ f.2 ∈ s.committed ∧ f.2.getKey = f.1 := by
  rw [h.mem_storedFiles]
  constructor
  · exact getKey_of_latest
  · rintro ⟨hmem, hkey⟩
    obtain ⟨g, hg⟩ := Option.ne_none_iff_exists'.mp (latest_ne_none hmem)
    obtain ⟨hmem', hkey'⟩ := getKey_of_latest hg
    rw [← hkey, hg, List.inj_on_of_nodup_map hkeys hmem' hmem hkey']

/-- The records own the blocks as long as no key was committed twice. -/
theorem Ledger.oneOwner (h : Ledger pb s) (hinv : Inv n s) (hlt : n < 2 ^ 63) :
    OneOwner pb s.db ↔ (s.committed.map FileMeta.getKey).Nodup := by
  obtain ⟨v, hv, hnum⟩ := h.reads_num hinv hlt
  constructor
  · intro howner
    obtain ⟨w, hw, hcount⟩ := howner.num
    obtain rfl := Except.ok.inj (hv.symm.trans hw)
    rw [hnum, h.ncard_storedFiles] at hcount
    rw [← Multiset.coe_nodup, ← Multiset.toFinset_card_eq_card_iff_nodup, Multiset.coe_card,
      List.length_map]
    exact hcount.symm
  · intro hkeys
    have hstored := fun f => h.mem_storedFiles_of_nodup (f := f) hkeys
    obtain ⟨hnodup, hpair⟩ := List.nodup_flatMap.mp hinv.nodup
    refine ⟨fun value hvalue x => ?_, fun f hf => hnodup _ ((hstored f).mp hf).1,
      fun f hf g hg hne => ?_, v, hv, ?_⟩
    · obtain ⟨value', hget, hbits⟩ := hinv.space.get
      obtain rfl : value = value' :=
        funext fun i => Except.ok.inj ((hvalue i).symm.trans (hget i))
      rw [hbits, committedBlocks, List.mem_flatMap]
      constructor
      · rintro ⟨f, hf, hx⟩
        exact ⟨(f.getKey, f), (hstored _).mpr ⟨hf, rfl⟩, hx⟩
      · rintro ⟨f, hf, hx⟩
        exact ⟨f.2, ((hstored f).mp hf).1, hx⟩
    · obtain ⟨hf, hf'⟩ := (hstored f).mp hf
      obtain ⟨hg, hg'⟩ := (hstored g).mp hg
      have : Std.Symm (Function.onFun List.Disjoint FileMeta.blocks) := ⟨fun _ _ hab => hab.symm⟩
      refine hpair.forall hf hg fun heq => hne (Prod.ext ?_ heq)
      rw [← hf', ← hg', heq]
    · rw [hnum, h.ncard_storedFiles, List.toFinset_card_of_nodup hkeys, List.length_map]

end Node

section

variable {U : Type} [DecidableEq U] {json : JSONDeleteMark} {pb : Protobuf} {name : String}
  {n : ℕ} {s : Node U}

/-- In every state that a node reaches, the stored blocks are owned by exactly one record
each if and only if no two uploads were committed under one key. -/
theorem oneOwner_iff (hn : 0 < n) (hlt : n < 2 ^ 63) {db : DB} (hfresh : Fresh db)
    {events : List (NodeEvent U)}
    (h : Run (Node.Step json pb name n) (Node.initial U db) events s) :
    OneOwner pb s.db ↔ (s.committed.map FileMeta.getKey).Nodup := by
  obtain ⟨hinv, hledger⟩ := Node.ledger_of_run hn hlt hfresh h
  exact hledger.oneOwner hinv hlt

end

/-- Two uploads of one block each to a device of two blocks, one after another, from a new
node on. -/
theorem exists_two_uploads {req req' : PutInitRequest} (hreq : protobuf.Marshals 2 req 4096 [])
    (hreq' : protobuf.Marshals 2 req' 4096 []) : ∃ (b b' : Bytes) (s : Node ℕ),
    Run (Node.Step (fun _ => none) protobuf "lun" 2) (Node.initial ℕ emptyDB)
      [.start, .alloc 0 4096, .commit [⟨0, req, 4096, [], b⟩] none,
        .alloc 1 4096, .commit [⟨1, req', 4096, [], b'⟩] none] s ∧
    s.committed.map FileMeta.getKey =
      [getFileMetaKey req.fileName, getFileMetaKey req'.fileName] := by
  obtain ⟨s₁, hrun₁, hinv₁, hup₁, hidle₁, hnone₁, hnil₁⟩ :=
    @Node.exists_start ℕ _ 2 (fun _ => none) protobuf "lun" (by decide) (by decide)
  have hlen₁ : s₁.committedBlocks.length = 0 := by rw [Node.committedBlocks, hnone₁]; rfl
  obtain ⟨b, s₂, hrun₂, hup₂, hidle₂, hlen₂, hframe, f, hf, hname, -⟩ := hinv₁.exists_upload hup₁
    hidle₁ (by omega) (fun _ => none) "lun" (by decide) (by decide) 0 hreq (hnil₁ _)
  have hinv₂ := Node.inv_of_run (by decide) (by decide) fresh_emptyDB (hrun₁.append hrun₂)
  obtain ⟨b', s₃, hrun₃, -, -, -, -, g, hg, hname', -⟩ := hinv₂.exists_upload hup₂ hidle₂
    (by omega) (fun _ => none) "lun" (by decide) (by decide) 1 hreq' (by rw [hframe, hnil₁])
  refine ⟨b, b', s₃, (hrun₁.append hrun₂).append hrun₃, ?_⟩
  rw [hg, hf, hnone₁]
  simp [FileMeta.getKey, hname, hname']

/-- Two files. -/
theorem oneOwner_iff_two_files : ∃ (events : List (NodeEvent ℕ)) (s : Node ℕ),
    Run (Node.Step (fun _ => none) protobuf "lun" 2) (Node.initial ℕ emptyDB) events s ∧
    s.committed.length = 2 ∧ OneOwner protobuf s.db := by
  have ha : protobuf.Marshals 2 ⟨[], ascii ['a'], ascii ['k'], false⟩ 4096 [] :=
    protobuf_marshals (by decide) (by decide) (by decide) (by decide)
  have hb : protobuf.Marshals 2 ⟨[], ascii ['b'], ascii ['k'], false⟩ 4096 [] :=
    protobuf_marshals (by decide) (by decide) (by decide) (by decide)
  obtain ⟨b, b', s, hrun, hkeys⟩ := exists_two_uploads ha hb
  refine ⟨_, s, hrun, by simpa using congrArg List.length hkeys, ?_⟩
  rw [oneOwner_iff (by decide) (by decide) fresh_emptyDB hrun, hkeys]
  decide

/-- The same file twice : the second upload does not find the first one's record, replaces
it and leaves its block without a record. -/
theorem repeated_upload_not_detected : ∃ (b b' : Bytes) (s : Node ℕ),
    Run (Node.Step (fun _ => none) protobuf "lun" 2) (Node.initial ℕ emptyDB)
      [.start, .alloc 0 4096,
        .commit [⟨0, ⟨[], ascii ['a'], ascii ['k'], false⟩, 4096, [], b⟩] none, .alloc 1 4096,
        .commit [⟨1, ⟨[], ascii ['a'], ascii ['k'], false⟩, 4096, [], b'⟩] none] s ∧
    ¬OneOwner protobuf s.db := by
  have ha : protobuf.Marshals 2 ⟨[], ascii ['a'], ascii ['k'], false⟩ 4096 [] :=
    protobuf_marshals (by decide) (by decide) (by decide) (by decide)
  obtain ⟨b, b', s, hrun, hkeys⟩ := exists_two_uploads ha ha
  obtain ⟨hinv, hledger⟩ := Node.ledger_of_run (by decide) (by decide) fresh_emptyDB hrun
  refine ⟨b, b', s, hrun, ?_⟩
  rw [hledger.oneOwner hinv (by decide), hkeys]
  decide

end Corgi
