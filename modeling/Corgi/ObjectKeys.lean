import Corgi.GroupCommit

/-!
# Object keys and their delete markers

What the methods of `WriteBatch` do to a key that starts with a digit and to its delete marker,
the key with `~` in front. The keys that callers use do not start with `~`.

`lookup_eq_last_write` : read through `GetFromBatchAndDB` the batch is a plain map, for `Put`,
`Set`, `Delete` and the requests made of them.

`exclusive_iff` : a key and its marker are both there only after a `Merge` of a key whose marker
was there, and `merge_over_marker` is such a batch.
-/

namespace Corgi

/-! ## The methods -/

/-- A call of a method of `WriteBatch` that writes. -/
inductive BatchMethod
  | put (key value : Bytes)
  | set (key value : Bytes)
  | delete (key : Bytes)
  | merge (key value : Bytes)
  deriving DecidableEq, Repr

namespace BatchMethod

/-- The key that the method is called with. -/
def key : BatchMethod → Bytes
  | put key _ | set key _ | delete key | merge key _ => key

/-- The method adds an operand. -/
def isMerge : BatchMethod → Bool
  | merge _ _ => true
  | _ => false

/-- What a method other than `Merge` leaves under its key. -/
def value : BatchMethod → Option Bytes
  | put _ value | set _ value | merge _ value => some value
  | delete _ => none

variable (json : JSONDeleteMark)

/-- What the method does to the batch. -/
def prog : BatchMethod → BatchProg Unit
  | put key value | set key value => WriteBatch.put json key value
  | delete key => WriteBatch.delete key
  | merge key value => WriteBatch.merge key value

/-- The writes of `WriteBatch.delete`. -/
def deleteOps (key : Bytes) : List BatchOp :=
  if isObjectKey key then [.delete (getDeleteMarkKey key), .delete key] else [.delete key]

/-- The writes of `WriteBatch.put`. -/
def putOps (key value : Bytes) : List BatchOp :=
  if isObjectKey key then
    deleteOps key ++ [.set (if isDeleteMarker json value then getDeleteMarkKey key else key) value]
  else [.set key value]

/-- The writes of a method. -/
def ops : BatchMethod → List BatchOp
  | put key value | set key value => putOps json key value
  | delete key => deleteOps key
  | merge key value => [.merge key value]

theorem exec_delete (key : Bytes) (db : DB) :
    (WriteBatch.delete key).exec mossMergeValues db = (db.applyAll (deleteOps key), .ok ()) := by
  unfold WriteBatch.delete deleteOps
  split_ifs <;> rfl

theorem exec_put (key value : Bytes) (db : DB) : (WriteBatch.put json key value).exec
    mossMergeValues db = (db.applyAll (putOps json key value), .ok ()) := by
  unfold WriteBatch.put putOps
  split_ifs with h
  · rw [Prog.exec_bind, exec_delete, Store.applyAll_append]
    rfl
  · rw [Prog.exec_bind, exec_delete, Store.applyAll_append]
    rfl
  · rfl

theorem exec_prog (m : BatchMethod) (db : DB) :
    (m.prog json).exec mossMergeValues db = (db.applyAll (m.ops json), .ok ()) := by
  cases m with
  | put key value => exact exec_put json key value db
  | set key value => exact exec_put json key value db
  | delete key => exact exec_delete key db
  | merge key value => rfl

end BatchMethod

/-- A call that writes to a batch : a method, or a request that is made of methods. -/
inductive BatchCall
  | method (m : BatchMethod)
  | putOnly (req : BatchRequest Unit)
  | deleteAndPut (req : BatchRequest Unit)

namespace BatchCall

variable (json : JSONDeleteMark)

/-- What the call does to the batch. -/
def prog : BatchCall → BatchProg Unit
  | method m => m.prog json
  | putOnly req => do let _ ← handlePutOnly json req
  | deleteAndPut req => do let _ ← handleDeleteAndPut json req

/-- The methods that a call makes, in order. -/
def methods : BatchCall → List BatchMethod
  | method m => [m]
  | putOnly req =>
    if req.keys.length ≠ req.values.length then []
    else (req.keys.zip req.values).map fun kv => .put kv.1 kv.2
  | deleteAndPut req => req.keys.map .delete ++
    match req.values, req.keys.getLast? with
    | value :: _, some key => [.put key value]
    | _, _ => []

theorem exec_prog (c : BatchCall) (db : DB) : ((c.prog json).exec mossMergeValues db).1 =
    db.applyAll (c.methods.flatMap (BatchMethod.ops json)) := by
  cases c with
  | method m =>
    rw [prog, m.exec_prog, methods, List.flatMap_singleton]
  | putOnly req =>
    rw [prog, methods, Prog.exec_bind, handlePutOnly]
    split_ifs with hlen
    · rfl
    · rw [Prog.exec_bind, Prog.exec_forEach fun kv _ => BatchMethod.exec_put json kv.1 kv.2,
        List.flatMap_map]
      rfl
  | deleteAndPut req =>
    rw [prog, methods, Prog.exec_bind, handleDeleteAndPut, Prog.exec_bind,
      Prog.exec_forEach fun key _ => BatchMethod.exec_delete key,
      List.flatMap_append, List.flatMap_map, Store.applyAll_append]
    cases req.values with
    | nil => rfl
    | cons value values =>
      cases req.keys.getLast? with
      | none => rfl
      | some key =>
        simp only [Prog.exec_bind, BatchMethod.exec_put, List.flatMap_singleton]
        rfl

/-- Stage calls one after another, whether or not they fail. -/
def stage (db : DB) (calls : List BatchCall) : List BatchOp :=
  calls.foldl (fun batch c => ((c.prog json).run mossMergeValues db batch).1) []

theorem applyAll_stage (db : DB) (calls : List BatchCall) : db.applyAll (stage json db calls) =
    db.applyAll ((calls.flatMap methods).flatMap (BatchMethod.ops json)) := by
  induction calls using List.reverseRecOn with
  | nil => rfl
  | append_singleton calls c ih =>
    rw [stage, List.foldl_append, List.foldl_cons, List.foldl_nil, ← stage,
      (Prog.run_eq_exec mossMergeValues _ _ _).1, exec_prog, ih, List.flatMap_append,
      List.flatMap_append, Store.applyAll_append, List.flatMap_singleton]

end BatchCall

/-! ## Where a method writes -/

/-- The keys of delete markers start so, and no key of a caller does. -/
def IsMarkerKey (key : Bytes) : Prop :=
  key.head? = some 126#8

namespace BatchMethod

variable {json : JSONDeleteMark} {m : BatchMethod} {key : Bytes}

theorem isMarkerKey_getDeleteMarkKey (key : Bytes) : IsMarkerKey (getDeleteMarkKey key) :=
  rfl

theorem not_isMarkerKey_of_object (h : isObjectKey key = true) : ¬IsMarkerKey key := by
  intro hmark
  rw [isObjectKey, hmark] at h
  revert h
  decide

theorem ne_getDeleteMarkKey (h : ¬IsMarkerKey key) (key' : Bytes) : key ≠ getDeleteMarkKey key' :=
  fun heq => h (heq ▸ isMarkerKey_getDeleteMarkKey key')

theorem getDeleteMarkKey_ne (key : Bytes) : key ≠ getDeleteMarkKey key := fun h => by
  have hlen := congrArg List.length h
  rw [getDeleteMarkKey, List.length_cons] at hlen
  omega

/-- A method writes to its key and to the marker of that. -/
theorem key_of_mem_ops {op : BatchOp} (hop : op ∈ m.ops json) :
    op.key = m.key ∨ op.key = getDeleteMarkKey m.key := by
  have hdelete : ∀ {key}, op ∈ deleteOps key → op.key = key ∨ op.key = getDeleteMarkKey key := by
    intro key h
    unfold deleteOps at h
    split_ifs at h
    · rcases List.mem_pair.mp h with rfl | rfl
      · exact Or.inr rfl
      · exact Or.inl rfl
    · rw [List.mem_singleton.mp h]
      exact Or.inl rfl
  have hput : ∀ {key value}, op ∈ putOps json key value →
      op.key = key ∨ op.key = getDeleteMarkKey key := by
    intro key value h
    unfold putOps at h
    split_ifs at h with h1 h2
    · rcases List.mem_append.mp h with h | h
      · exact hdelete h
      · rw [List.mem_singleton.mp h]
        exact Or.inr rfl
    · rcases List.mem_append.mp h with h | h
      · exact hdelete h
      · rw [List.mem_singleton.mp h]
        exact Or.inl rfl
    · rw [List.mem_singleton.mp h]
      exact Or.inl rfl
  cases m with
  | put key value => exact hput hop
  | set key value => exact hput hop
  | delete key => exact hdelete hop
  | merge key value =>
    rw [List.mem_singleton.mp hop]
    exact Or.inl rfl

/-- Another key and its marker are left alone. -/
theorem applyAll_ops_of_ne (db : DB) (hm : ¬IsMarkerKey m.key) (hkey : ¬IsMarkerKey key)
    (hne : key ≠ m.key) : db.applyAll (m.ops json) key = db key ∧
      db.applyAll (m.ops json) (getDeleteMarkKey key) = db (getDeleteMarkKey key) := by
  constructor <;> refine Store.applyAll_of_forall_ne db fun op hop heq => ?_
  · rcases key_of_mem_ops hop with h | h
    · exact hne (heq.trans h)
    · exact ne_getDeleteMarkKey hkey m.key (heq.trans h)
  · rcases key_of_mem_ops hop with h | h
    · exact ne_getDeleteMarkKey hm key (h.symm.trans heq.symm)
    · exact hne (List.cons.inj (heq.trans h)).2

theorem applyAll_deleteOps (db : DB) (hkey : isObjectKey key = true) :
    db.applyAll (deleteOps key) key = [] ∧
      db.applyAll (deleteOps key) (getDeleteMarkKey key) = [] := by
  rw [deleteOps, if_pos hkey]
  refine ⟨Function.update_self _ _ _, ?_⟩
  exact (Store.apply_of_ne _ (getDeleteMarkKey_ne key).symm).trans (Function.update_self _ _ _)

/-- A value is under its key or under the marker of that, and the other one is empty. -/
theorem applyAll_putOps (db : DB) (hkey : isObjectKey key = true) (value : Bytes) :
    (isDeleteMarker json value = true ∧ db.applyAll (putOps json key value) key = [] ∧
      db.applyAll (putOps json key value) (getDeleteMarkKey key) = [value]) ∨
    (isDeleteMarker json value = false ∧ db.applyAll (putOps json key value) key = [value] ∧
      db.applyAll (putOps json key value) (getDeleteMarkKey key) = []) := by
  obtain ⟨h1, h2⟩ := applyAll_deleteOps db hkey
  rw [putOps, if_pos hkey, Store.applyAll_append]
  cases hmark : isDeleteMarker json value with
  | true =>
    refine Or.inl ⟨rfl, ?_, Function.update_self _ _ _⟩
    exact (Store.apply_of_ne _ (getDeleteMarkKey_ne key)).trans h1
  | false =>
    refine Or.inr ⟨rfl, Function.update_self _ _ _, ?_⟩
    exact (Store.apply_of_ne _ (getDeleteMarkKey_ne key).symm).trans h2

end BatchMethod

/-! ## A batch is a map -/

/-- What `GetFromBatchAndDB` returns on a database with all batches applied. -/
def DB.lookup (db : DB) (key : Bytes) : Except BatchError (Option Bytes) :=
  ((WriteBatch.getFromBatchAndDB key).exec mossMergeValues db).2

theorem DB.lookup_of_object {db : DB} {key : Bytes} (hkey : isObjectKey key = true) :
    db.lookup key = match db.get key with
      | .ok none => (db.get (getDeleteMarkKey key)).mapError .read
      | r => r.mapError .read := by
  rw [lookup, WriteBatch.getFromBatchAndDB, if_pos hkey, Prog.exec_bind, WriteBatch.exec_getCopy]
  cases db.get key with
  | error e => rfl
  | ok v =>
    cases v with
    | none =>
      change ((WriteBatch.getCopy (getDeleteMarkKey key)).exec mossMergeValues db).2 = _
      rw [WriteBatch.exec_getCopy]
    | some v => rfl

theorem DB.lookup_of_not_object {db : DB} {key : Bytes} (hkey : isObjectKey key = false) :
    db.lookup key = (db.get key).mapError .read := by
  rw [lookup, WriteBatch.getFromBatchAndDB, hkey, if_neg Bool.false_ne_true,
    WriteBatch.exec_getCopy]

theorem DB.lookup_congr {db db' : DB} {key : Bytes} (h₁ : db' key = db key)
    (h₂ : db' (getDeleteMarkKey key) = db (getDeleteMarkKey key)) :
    db'.lookup key = db.lookup key := by
  cases hkey : isObjectKey key with
  | true => rw [lookup_of_object hkey, lookup_of_object hkey, get_congr h₁, get_congr h₂]
  | false => rw [lookup_of_not_object hkey, lookup_of_not_object hkey, get_congr h₁]

namespace BatchMethod

variable {json : JSONDeleteMark} {m : BatchMethod} {key : Bytes}

theorem lookup_deleteOps (db : DB) (key : Bytes) :
    DB.lookup (db.applyAll (deleteOps key)) key = .ok none := by
  cases hkey : isObjectKey key with
  | true =>
    obtain ⟨h1, h2⟩ := applyAll_deleteOps db hkey
    rw [DB.lookup_of_object hkey, DB.get_of_nil h1, DB.get_of_nil h2]
    rfl
  | false =>
    have h : db.applyAll (deleteOps key) key = [] := by
      rw [deleteOps, hkey, if_neg Bool.false_ne_true]
      exact Function.update_self _ _ _
    rw [DB.lookup_of_not_object hkey, DB.get_of_nil h]
    rfl

theorem lookup_putOps (db : DB) (key value : Bytes) :
    DB.lookup (db.applyAll (putOps json key value)) key = .ok (some value) := by
  cases hkey : isObjectKey key with
  | true =>
    rcases @applyAll_putOps json key db hkey value with ⟨-, h1, h2⟩ | ⟨-, h1, -⟩
    · rw [DB.lookup_of_object hkey, DB.get_of_nil h1, DB.get_of_singleton h2]
      rfl
    · rw [DB.lookup_of_object hkey, DB.get_of_singleton h1]
      rfl
  | false =>
    have h : db.applyAll (putOps json key value) key = [value] := by
      rw [putOps, hkey, if_neg Bool.false_ne_true]
      exact Function.update_self _ _ _
    rw [DB.lookup_of_not_object hkey, DB.get_of_singleton h]
    rfl

/-- One method changes the map at its key. -/
theorem lookup_applyAll_ops (db : DB) (hmerge : m.isMerge = false) (hm : ¬IsMarkerKey m.key)
    (hkey : ¬IsMarkerKey key) : DB.lookup (db.applyAll (m.ops json)) key =
      if m.key = key then .ok m.value else db.lookup key := by
  split_ifs with h
  · subst h
    cases m with
    | put key value => exact lookup_putOps db key value
    | set key value => exact lookup_putOps db key value
    | delete key => exact lookup_deleteOps db key
    | merge key value => cases hmerge
  · obtain ⟨h1, h2⟩ := @applyAll_ops_of_ne json m key db hm hkey (Ne.symm h)
    exact DB.lookup_congr h1 h2

/-- The last method on the key decides. -/
theorem lookup_applyAll_flatMap (db : DB) {methods : List BatchMethod}
    (hmerge : ∀ m ∈ methods, m.isMerge = false) (hm : ∀ m ∈ methods, ¬IsMarkerKey m.key)
    (hkey : ¬IsMarkerKey key) : DB.lookup (db.applyAll (methods.flatMap (ops json))) key =
      match (methods.filter fun m => m.key = key).getLast? with
      | none => db.lookup key
      | some m => .ok m.value := by
  induction methods using List.reverseRecOn with
  | nil => rfl
  | append_singleton methods m ih =>
    have hlast : m ∈ methods ++ [m] := List.mem_append_right _ (List.mem_singleton_self m)
    have hrec := ih (fun m' h' => hmerge m' (List.mem_append_left _ h'))
      fun m' h' => hm m' (List.mem_append_left _ h')
    rw [List.flatMap_append, Store.applyAll_append, List.flatMap_singleton,
      lookup_applyAll_ops _ (hmerge m hlast) (hm m hlast) hkey, hrec, List.filter_append]
    by_cases h : m.key = key
    · rw [if_pos h, List.filter_singleton, decide_eq_true h]
      simp
    · rw [if_neg h, List.filter_singleton, decide_eq_false h]
      simp

end BatchMethod

/-- `GetFromBatchAndDB` returns what was last put under the key, nothing if it was deleted after
that, and what it returned before the batch if the batch has not touched the key. Where a value
is stored cannot be seen. -/
theorem lookup_eq_last_write (json : JSONDeleteMark) (db : DB) {calls : List BatchCall}
    (hmerge : ∀ c ∈ calls, ∀ m ∈ c.methods, m.isMerge = false)
    (hcalls : ∀ c ∈ calls, ∀ m ∈ c.methods, ¬IsMarkerKey m.key) {key : Bytes}
    (hkey : ¬IsMarkerKey key) :
    ((WriteBatch.getFromBatchAndDB key).run mossMergeValues db (BatchCall.stage json db calls)).2 =
      match ((calls.flatMap BatchCall.methods).filter fun m => m.key = key).getLast? with
      | none => ((WriteBatch.getFromBatchAndDB key).run mossMergeValues db []).2
      | some m => .ok m.value := by
  have hrun : ∀ batch, ((WriteBatch.getFromBatchAndDB key).run mossMergeValues db batch).2 =
      DB.lookup (db.applyAll batch) key := fun batch =>
    (Prog.run_eq_exec mossMergeValues _ db batch).2
  rw [hrun, hrun, BatchCall.applyAll_stage]
  refine BatchMethod.lookup_applyAll_flatMap db (fun m hm => ?_) (fun m hm => ?_) hkey
  · obtain ⟨c, hc, hm⟩ := List.mem_flatMap.mp hm
    exact hmerge c hc m hm
  · obtain ⟨c, hc, hm⟩ := List.mem_flatMap.mp hm
    exact hcalls c hc m hm

/-- The value `"deleteMark":true`, which is stored under the marker. -/
def deleteMarkTrue : Bytes :=
  deleteMarkName ++ ascii ['t', 'r', 'u', 'e']

/-- A value, then a request that deletes two keys and puts a mark under the second. -/
theorem lookup_flipped :
    ((WriteBatch.getFromBatchAndDB [49#8]).run mossMergeValues (fun _ => [])
      (BatchCall.stage (fun _ => none) (fun _ => []) [.method (.put [49#8] [65#8]),
        .deleteAndPut ⟨.deleteAndPut, none, [[50#8], [49#8]], [deleteMarkTrue], false⟩])).2 =
      .ok (some deleteMarkTrue) :=
  (lookup_eq_last_write (fun _ => none) (fun _ => []) (by decide)
    (by unfold IsMarkerKey; decide) (by unfold IsMarkerKey; decide)).trans rfl

/-! ## A key and its marker -/

/-- There is something under the key, be it that it cannot be read. -/
def DB.Present (db : DB) (key : Bytes) : Prop :=
  db.get key ≠ .ok none

theorem DB.present_iff {db : DB} {key : Bytes} : db.Present key ↔ db key ≠ [] := by
  rw [Present, get, Store.get]
  cases db key with
  | nil => exact iff_of_false (not_not.mpr rfl) (not_not.mpr rfl)
  | cons v operands =>
    refine iff_of_true ?_ (List.cons_ne_nil v operands)
    change (operands.foldlM (mossMergeValues key) v).map some ≠ .ok none
    cases operands.foldlM (mossMergeValues key) v <;> simp [Except.map]

/-- No object key is there together with its marker. -/
def DB.Exclusive (db : DB) : Prop :=
  ∀ key, isObjectKey key = true → ¬(db.Present key ∧ db.Present (getDeleteMarkKey key))

namespace BatchMethod

variable {json : JSONDeleteMark} {m : BatchMethod} {key : Bytes}

/-- After `Put`, `Set` or `Delete` of an object key it is not there with its marker. -/
theorem not_both (db : DB) (hkey : isObjectKey m.key = true) (hmerge : m.isMerge = false) :
    db.applyAll (m.ops json) m.key = [] ∨
      db.applyAll (m.ops json) (getDeleteMarkKey m.key) = [] := by
  have hput : ∀ {key value}, isObjectKey key = true →
      db.applyAll (putOps json key value) key = [] ∨
        db.applyAll (putOps json key value) (getDeleteMarkKey key) = [] := by
    intro key value hkey
    rcases @applyAll_putOps json key db hkey value with ⟨-, h, -⟩ | ⟨-, -, h⟩
    · exact Or.inl h
    · exact Or.inr h
  cases m with
  | put key value => exact hput hkey
  | set key value => exact hput hkey
  | delete key => exact Or.inl (applyAll_deleteOps db hkey).1
  | merge key value => cases hmerge

/-- A `Merge` adds to its key and leaves the marker. -/
theorem applyAll_merge (db : DB) (key value : Bytes) :
    db.applyAll ((merge key value).ops json) key = db key ++ [value] ∧
      db.applyAll ((merge key value).ops json) (getDeleteMarkKey key) =
        db (getDeleteMarkKey key) :=
  ⟨Function.update_self _ _ _, Store.apply_of_ne _ (getDeleteMarkKey_ne key).symm⟩

/-- A `Merge` of an object key whose marker is there, and no other method on the key after it. -/
def Revives (json : JSONDeleteMark) (db : DB) (methods : List BatchMethod) (key : Bytes) : Prop :=
  ∃ before value after, methods = before ++ merge key value :: after ∧
    db.applyAll (before.flatMap (ops json)) (getDeleteMarkKey key) ≠ [] ∧
    ∀ m ∈ after, m.key = key → m.isMerge = true

theorem revives_snoc_iff {db : DB} {methods : List BatchMethod} :
    Revives json db (methods ++ [m]) key ↔
      (Revives json db methods key ∧ (m.key = key → m.isMerge = true)) ∨
      (∃ value, m = merge key value) ∧
        db.applyAll (methods.flatMap (ops json)) (getDeleteMarkKey key) ≠ [] := by
  constructor
  · rintro ⟨before, value, after, heq, hmarker, hafter⟩
    rcases List.eq_nil_or_concat after with rfl | ⟨after, m', rfl⟩
    · obtain ⟨rfl, hm⟩ := List.append_inj' heq rfl
      exact Or.inr ⟨⟨value, List.singleton_inj.mp hm⟩, hmarker⟩
    · rw [List.concat_eq_append, ← List.cons_append, ← List.append_assoc] at heq
      obtain ⟨rfl, hm⟩ := List.append_inj' heq rfl
      obtain rfl := List.singleton_inj.mp hm
      rw [List.concat_eq_append, List.forall_mem_append] at hafter
      exact Or.inl ⟨⟨before, value, after, rfl, hmarker, hafter.1⟩,
        hafter.2 m (List.mem_singleton_self m)⟩
  · rintro (⟨⟨before, value, after, rfl, hmarker, hafter⟩, hm⟩ | ⟨⟨value, rfl⟩, hmarker⟩)
    · refine ⟨before, value, after ++ [m], by rw [List.append_assoc, List.cons_append], hmarker, ?_⟩
      rw [List.forall_mem_append]
      exact ⟨hafter, fun m' hm' => List.mem_singleton.mp hm' ▸ hm⟩
    · exact ⟨methods, value, [], rfl, hmarker, nofun⟩

/-- Both are there exactly after such a `Merge`. The induction is on the last method : only a
`Merge` can make both be there, and every other method on the key clears one of them. -/
theorem both_iff_revives {db : DB} (hkey : isObjectKey key = true) (hplain : ¬IsMarkerKey key)
    (hdb : db key = [] ∨ db (getDeleteMarkKey key) = []) {methods : List BatchMethod}
    (hm : ∀ m ∈ methods, ¬IsMarkerKey m.key) :
    (db.applyAll (methods.flatMap (ops json)) key ≠ [] ∧
      db.applyAll (methods.flatMap (ops json)) (getDeleteMarkKey key) ≠ []) ↔
    Revives json db methods key := by
  induction methods using List.reverseRecOn with
  | nil =>
    refine iff_of_false (fun h => hdb.elim h.1 h.2) ?_
    rintro ⟨before, value, after, h, -⟩
    exact List.append_ne_nil_of_right_ne_nil before (List.cons_ne_nil _ _) h.symm
  | append_singleton methods m ih =>
    have hlast := hm m (List.mem_append_right _ (List.mem_singleton_self m))
    replace ih := ih fun m' h' => hm m' (List.mem_append_left _ h')
    rw [List.flatMap_append, Store.applyAll_append, List.flatMap_singleton, revives_snoc_iff, ← ih]
    by_cases hk : m.key = key
    · subst hk
      cases hmerge : m.isMerge with
      | true =>
        cases m with
        | merge key value =>
          obtain ⟨h1, h2⟩ := @applyAll_merge json (db.applyAll (methods.flatMap (ops json))) key
            value
          rw [BatchMethod.key, h1, h2]
          constructor
          · exact fun h => Or.inr ⟨⟨value, rfl⟩, h.2⟩
          · rintro (⟨h, -⟩ | ⟨-, h⟩)
            · exact ⟨List.append_ne_nil_of_right_ne_nil _ (List.cons_ne_nil _ _), h.2⟩
            · exact ⟨List.append_ne_nil_of_right_ne_nil _ (List.cons_ne_nil _ _), h⟩
        | _ => cases hmerge
      | false =>
        refine iff_of_false (fun h => (not_both _ hkey hmerge).elim h.1 h.2) ?_
        rintro (⟨-, h⟩ | ⟨⟨value, h⟩, -⟩)
        · cases h rfl
        · rw [h] at hmerge
          cases hmerge
    · obtain ⟨h1, h2⟩ := @applyAll_ops_of_ne json m key (db.applyAll (methods.flatMap (ops json)))
        hlast hplain (Ne.symm hk)
      rw [h1, h2]
      constructor
      · exact fun h => Or.inl ⟨h, fun heq => absurd heq hk⟩
      · rintro (⟨h, -⟩ | ⟨⟨value, rfl⟩, -⟩)
        · exact h
        · exact absurd rfl hk

end BatchMethod

/-- A key and its marker are not both there after the batch exactly when every `Merge` of an
object key whose marker is there is followed by a `Put`, `Set` or `Delete` of the key. -/
theorem exclusive_iff (json : JSONDeleteMark) {db : DB} (hdb : db.Exclusive)
    {methods : List BatchMethod} (hm : ∀ m ∈ methods, ¬IsMarkerKey m.key) :
    DB.Exclusive (db.applyAll (BatchCall.stage json db (methods.map .method))) ↔
    ∀ before key value after, methods = before ++ .merge key value :: after →
      isObjectKey key = true →
      DB.Present (db.applyAll (BatchCall.stage json db (before.map .method)))
        (getDeleteMarkKey key) →
      ∃ m ∈ after, m.key = key ∧ m.isMerge = false := by
  have hstage : ∀ ms : List BatchMethod, db.applyAll (BatchCall.stage json db (ms.map .method)) =
      db.applyAll (ms.flatMap (BatchMethod.ops json)) := by
    intro ms
    rw [BatchCall.applyAll_stage, List.flatMap_map]
    congr 2
    exact List.flatMap_singleton' ms
  have hboth : ∀ key, isObjectKey key = true →
      (DB.Present (db.applyAll (methods.flatMap (BatchMethod.ops json))) key ∧
        DB.Present (db.applyAll (methods.flatMap (BatchMethod.ops json))) (getDeleteMarkKey key) ↔
      BatchMethod.Revives json db methods key) := by
    intro key hkey
    have hdb' := hdb key hkey
    rw [DB.present_iff, DB.present_iff, ← not_or, not_not] at hdb'
    rw [DB.present_iff, DB.present_iff]
    exact BatchMethod.both_iff_revives hkey (BatchMethod.not_isMarkerKey_of_object hkey) hdb' hm
  rw [hstage]
  constructor
  · intro h before key value after heq hkey hmarker
    rw [hstage, DB.present_iff] at hmarker
    by_contra hnone
    refine h key hkey ((hboth key hkey).mpr ⟨before, value, after, heq, hmarker, ?_⟩)
    intro m hmem hmkey
    by_contra hmerge
    exact hnone ⟨m, hmem, hmkey, Bool.eq_false_iff.mpr hmerge⟩
  · intro h key hkey hpresent
    obtain ⟨before, value, after, heq, hmarker, hafter⟩ := (hboth key hkey).mp hpresent
    rw [← DB.present_iff, ← hstage] at hmarker
    obtain ⟨m, hmem, hmkey, hmerge⟩ := h before key value after heq hkey hmarker
    rw [hafter m hmem hmkey] at hmerge
    cases hmerge

/-- A mark that is merged over and then put again. -/
theorem exclusive_after_put : DB.Exclusive (Store.applyAll (fun _ => [])
    (BatchCall.stage (fun _ => none) (fun _ => []) (List.map .method
      [.put [49#8] deleteMarkTrue, .merge [49#8] [65#8], .put [49#8] deleteMarkTrue]))) := by
  refine (exclusive_iff (fun _ => none) (fun key _ h => h.1 rfl)
    (by unfold IsMarkerKey; decide)).mpr fun before key value after heq _ _ => ?_
  rcases before with _ | ⟨m₁, _ | ⟨m₂, _ | ⟨m₃, before⟩⟩⟩
  · cases heq
  · cases heq
    exact ⟨.put [49#8] deleteMarkTrue, List.mem_singleton_self _, rfl, rfl⟩
  · cases heq
  · cases before <;> cases heq

/-- `Merge` leaves the marker where it is : the value put under it and the one merged are both
there. -/
theorem merge_over_marker : ¬DB.Exclusive (Store.applyAll (fun _ => [])
    (BatchCall.stage (fun _ => none) (fun _ => [])
      [.method (.put [49#8] deleteMarkTrue), .method (.merge [49#8] [65#8])])) := by
  intro h
  refine h [49#8] rfl ⟨?_, ?_⟩
  · rw [DB.present_iff]
    decide
  · rw [DB.present_iff]
    decide

end Corgi
