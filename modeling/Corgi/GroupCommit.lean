import Mathlib.Data.List.Infix
import Corgi.Merger
import Corgi.IndexedBatch

/-!
# The write batch and its group commit

The model of `WriteBatch` and of the processor that runs requests in groups, one batch
object for all of them. A group stages the writes of its normal requests and then of its
low-priority ones, and commits them together or drops them all.

`group_commit` is the law of a whole run of the processor, whatever the requests, the
cut into groups, the failing consumers and the failing commits : each round takes its group
from the front of the arrivals, a group is all or nothing and all of it is answered, the store
is the committed groups applied one after another, and a commit holds only writes of its own
group.
-/

namespace Corgi

/-! ## `WriteBatch` -/

/-- The errors a request can be answered with. -/
inductive BatchError
  | read (e : MergeError)
  | nilConsumer
  | putOnlyLength (keys values : ℕ)
  | compareAndPut
  | missingPutKey
  | unknownType (type : ℤ)
  | commit (text : String)
  | consumer (text : String)
  deriving DecidableEq, Repr

/-- The text of the error. -/
def BatchError.message : BatchError → String
  | read e => e.message
  | nilConsumer => "CustomizeOperate: Consumer must not be nil"
  | putOnlyLength keys values => s!"PUT_ONLY: keys/values length mismatch: {keys}/{values}"
  | compareAndPut => "COMPARE_AND_PUT not implemented"
  | missingPutKey => "DELETE_AND_PUT: missing put key"
  | unknownType type => s!"BatchPebble: unknown request type {type}"
  | commit text => text
  | consumer text => text

/-- The database. -/
abbrev DB := Store Bytes Bytes

/-- An operation of a batch. -/
abbrev BatchOp := WriteOp Bytes Bytes

/-- What acts on a batch. -/
abbrev BatchProg (α : Type) := Prog Bytes Bytes MergeError BatchError α

/-- Read a key of the database. -/
def DB.get (db : DB) (key : Bytes) : Except MergeError (Option Bytes) :=
  Store.get mossMergeValues db key

theorem DB.get_congr {db db' : DB} {key : Bytes} (h : db' key = db key) :
    db'.get key = db.get key := by
  rw [DB.get, DB.get, Store.get, Store.get, h]

theorem DB.get_of_nil {db : DB} {key : Bytes} (h : db key = []) : db.get key = .ok none := by
  rw [DB.get, Store.get, h]

theorem DB.get_of_singleton {db : DB} {key v : Bytes} (h : db key = [v]) :
    db.get key = .ok (some v) := by
  rw [DB.get, Store.get, h]
  rfl

/-- The `deleteMark` member of a value that is a JSON object, when it is a boolean or a
string. -/
abbrev JSONDeleteMark := Bytes → Option (Bool ⊕ Bytes)

/-- Whether `key` starts with a digit. -/
def isObjectKey (key : Bytes) : Bool :=
  match key.head? with
  | some c => 48 ≤ c.toNat && c.toNat ≤ 57
  | none => false

/-- The key with `~` in front. -/
def getDeleteMarkKey (key : Bytes) : Bytes :=
  126#8 :: key

/-- The value says that its object is deleted. Text that is no JSON is searched for that. -/
def isDeleteMarker (json : JSONDeleteMark) (value : Bytes) : Bool :=
  match json value with
  | some (.inl b) => b
  | some (.inr s) => decide (ascii ['t', 'r', 'u', 'e'] <:+: s)
  | none => decide (deleteMarkName ++ ascii ['t', 'r', 'u', 'e'] <:+: value) ||
    decide (deleteMarkName ++ ascii ['"', 't', 'r', 'u', 'e', '"'] <:+: value)

namespace WriteBatch

/-- The value of a key, as the batch and the database have it. -/
def getCopy (key : Bytes) : BatchProg (Option Bytes) :=
  .get key fun
    | .ok v => pure v
    | .error e => .fail (.read e)

/-- An object key is looked up under itself and then under its delete marker. -/
def getFromBatchAndDB (key : Bytes) : BatchProg (Option Bytes) :=
  if isObjectKey key then do
    let res ← getCopy key
    if res.isSome then pure res else getCopy (getDeleteMarkKey key)
  else getCopy key

/-- An object is deleted together with its mark. -/
def delete (key : Bytes) : BatchProg Unit :=
  if isObjectKey key then do
    Prog.put (.delete (getDeleteMarkKey key))
    Prog.put (.delete key)
  else Prog.put (.delete key)

/-- An object key is deleted first, with its delete marker, and a value that marks a
deletion goes to the marker. -/
def put (json : JSONDeleteMark) (key value : Bytes) : BatchProg Unit :=
  if isObjectKey key then do
    delete key
    Prog.put (.set (if isDeleteMarker json value then getDeleteMarkKey key else key) value)
  else Prog.put (.set key value)

/-- Add an operand. -/
def merge (key value : Bytes) : BatchProg Unit :=
  Prog.put (.merge key value)

theorem exec_getCopy (key : Bytes) (db : DB) :
    (getCopy key).exec mossMergeValues db = (db, (db.get key).mapError .read) := by
  rw [getCopy, Prog.exec_get, DB.get]
  cases Store.get mossMergeValues db key <;> rfl

end WriteBatch

/-! ## Requests -/

/-- The kinds of requests. A request of another number is rejected. -/
inductive RequestType
  | customizeOperate
  | putOnly
  | compareAndPut
  | deleteAndPut
  | other (type : ℤ)
  deriving DecidableEq, Repr

/-- A unit of work. The consumer's result is what it leaves in the variables it
captures. -/
structure BatchRequest (α : Type) where
  type : RequestType
  consumer : Option (BatchProg α)
  keys : List Bytes
  values : List Bytes
  lowPriority : Bool

variable {α : Type} (json : JSONDeleteMark)

/-- Run the consumer of the request. -/
def handleCustomizeOperate (req : BatchRequest α) : BatchProg (Option α) :=
  match req.consumer with
  | none => .fail .nilConsumer
  | some consumer => do return some (← consumer)

/-- Put the values under the keys, in order. -/
def handlePutOnly (req : BatchRequest α) : BatchProg (Option α) :=
  if req.keys.length ≠ req.values.length then
    .fail (.putOnlyLength req.keys.length req.values.length)
  else do
    Prog.forEach (req.keys.zip req.values) fun kv => WriteBatch.put json kv.1 kv.2
    return none

/-- Delete all keys, and put the first value under the last one. -/
def handleDeleteAndPut (req : BatchRequest α) : BatchProg (Option α) := do
  Prog.forEach req.keys WriteBatch.delete
  match req.values, req.keys.getLast? with
  | [], _ => return none
  | _ :: _, none => .fail .missingPutKey
  | value :: _, some key =>
    WriteBatch.put json key value
    return none

/-- What the processor does for one request. -/
def handleRequest (req : BatchRequest α) : BatchProg (Option α) :=
  match req.type with
  | .customizeOperate => handleCustomizeOperate req
  | .putOnly => handlePutOnly json req
  | .compareAndPut => .fail .compareAndPut
  | .deleteAndPut => handleDeleteAndPut json req
  | .other type => .fail (.unknownType type)

/-! ## Flushing a group -/

/-- The normal requests, then the low-priority ones. -/
def flushOrder (requests : List (BatchRequest α)) : List (BatchRequest α) :=
  requests.filter (!·.lowPriority) ++ requests.filter (·.lowPriority)

/-- Stage requests in order, up to the first that fails. -/
def stage (db : DB) : List (BatchRequest α) → List BatchOp →
    List BatchOp × Except BatchError (List (Option α))
  | [], batch => (batch, .ok [])
  | req :: reqs, batch =>
    match (handleRequest json req).run mossMergeValues db batch with
    | (batch, .error e) => (batch, .error e)
    | (batch, .ok a) =>
      match stage db reqs batch with
      | (batch, .error e) => (batch, .error e)
      | (batch, .ok as) => (batch, .ok (a :: as))

/-- What flushing a group did. -/
structure Flushed (α : Type) where
  requests : List (BatchRequest α)
  before : DB
  after : DB
  /-- What was committed, if anything. -/
  committed : Option (List BatchOp)
  /-- What each request is answered, in order. -/
  answers : List (Option BatchError)
  /-- What the consumers left, in the order they ran. -/
  outputs : List (Option α)
  /-- The batch object after the flush. -/
  batch : List BatchOp

/-- Flush a group. `commit` is the outcome of the commit, if it comes to one. -/
def flush (db : DB) (batch : List BatchOp) (requests : List (BatchRequest α))
    (commit : Option BatchError) : Flushed α :=
  let (batch, staged) := stage json db (flushOrder requests) batch
  let batchErr := match staged with
    | .error e => some e
    | .ok _ => commit
  { requests
    before := db
    after := if batchErr = none then db.applyAll batch else db
    committed := if batchErr = none then some batch else none
    answers := requests.map fun _ => batchErr
    outputs := staged.toOption.getD []
    -- The deferred `Clear`.
    batch := [] }

/-- The processor's loop : take the first request, drain more up to 1000 in all, flush.
The schedule says how many are there to drain and how the commit ends. -/
def runProcessor : List (ℕ × Option BatchError) → List (BatchRequest α) → DB → List BatchOp →
    List (Flushed α)
  | (waiting, commit) :: schedule, first :: ch, db, batch =>
    let flushed := flush json db batch (first :: ch.take (min waiting 999)) commit
    flushed :: runProcessor schedule (ch.drop (min waiting 999)) flushed.after flushed.batch
  | _, _, _, _ => []

/-! ## The law of group commit -/

/-- Requests applied directly to the database, one after another. -/
def execAll : List (BatchRequest α) → DB → DB × Except BatchError (List (Option α))
  | [], db => (db, .ok [])
  | req :: reqs, db =>
    match (handleRequest json req).exec mossMergeValues db with
    | (db, .error e) => (db, .error e)
    | (db, .ok a) =>
      match execAll reqs db with
      | (db, .error e) => (db, .error e)
      | (db, .ok as) => (db, .ok (a :: as))

theorem stage_eq_execAll (db : DB) : ∀ (reqs : List (BatchRequest α)) (batch : List BatchOp),
    db.applyAll (stage json db reqs batch).1 = (execAll json reqs (db.applyAll batch)).1 ∧
      (stage json db reqs batch).2 = (execAll json reqs (db.applyAll batch)).2
  | [], _ => ⟨rfl, rfl⟩
  | req :: reqs, batch => by
    obtain ⟨hdb, hres⟩ := (handleRequest json req).run_eq_exec mossMergeValues db batch
    rw [stage, execAll]
    generalize (handleRequest json req).run mossMergeValues db batch = r at hdb hres
    generalize (handleRequest json req).exec mossMergeValues (db.applyAll batch) = x at hdb hres
    obtain ⟨batch', res⟩ := r
    obtain ⟨db', res'⟩ := x
    simp only at hdb hres
    subst hdb hres
    cases res with
    | error e => exact ⟨rfl, rfl⟩
    | ok a =>
      obtain ⟨ih1, ih2⟩ := stage_eq_execAll db reqs batch'
      simp only
      generalize stage json db reqs batch' = r at ih1 ih2
      generalize execAll json reqs (db.applyAll batch') = x at ih1 ih2
      obtain ⟨batch'', res⟩ := r
      obtain ⟨db'', res'⟩ := x
      simp only at ih1 ih2
      subst ih1 ih2
      cases res <;> exact ⟨rfl, rfl⟩

/-- A group none of whose requests fails is committed when the commit goes through. -/
theorem flush_of_ok {db db' : DB} {requests : List (BatchRequest α)} {outputs : List (Option α)}
    (h : execAll json (flushOrder requests) db = (db', .ok outputs)) :
    let o := flush json db [] requests none
    o.after = db' ∧ o.committed = some (stage json db (flushOrder requests) []).1 ∧
      o.outputs = outputs ∧ o.answers = requests.map fun _ => none := by
  obtain ⟨hdb, hres⟩ := stage_eq_execAll json db (flushOrder requests) []
  change _ = (execAll json (flushOrder requests) db).1 at hdb
  change _ = (execAll json (flushOrder requests) db).2 at hres
  rw [h] at hdb hres
  unfold flush
  simp only
  rw [hres]
  exact ⟨hdb, rfl, rfl, rfl⟩

/-- A group is dropped when the commit fails or one of its requests does. -/
theorem flush_of_error {db : DB} {requests : List (BatchRequest α)} {commit : Option BatchError}
    (h : commit ≠ none ∨ ∃ e, (execAll json (flushOrder requests) db).2 = .error e) :
    let o := flush json db [] requests commit
    o.after = db ∧ o.committed = none ∧ ∃ e, o.answers = requests.map fun _ => some e := by
  have hres := (stage_eq_execAll json db (flushOrder requests) []).2
  change _ = (execAll json (flushOrder requests) db).2 at hres
  rw [← hres] at h
  unfold flush
  simp only
  generalize stage json db (flushOrder requests) [] = r at h
  obtain ⟨batch, staged⟩ := r
  cases staged with
  | error e => exact ⟨rfl, rfl, e, rfl⟩
  | ok as =>
    cases commit with
    | none => exact absurd h (by simp)
    | some e => exact ⟨rfl, rfl, e, rfl⟩

/-- All or nothing, for one group on an empty batch. -/
theorem flush_spec (db : DB) (requests : List (BatchRequest α)) (commit : Option BatchError) :
    let o := flush json db [] requests commit
    (commit = none ∧ o.committed = some (stage json db (flushOrder requests) []).1 ∧
      execAll json (flushOrder requests) db = (o.after, .ok o.outputs) ∧
      o.answers = requests.map fun _ => none) ∨
    (o.committed = none ∧ o.after = db ∧ ∃ e, o.answers = requests.map fun _ => some e) := by
  by_cases h : commit ≠ none ∨ ∃ e, (execAll json (flushOrder requests) db).2 = .error e
  · obtain ⟨h1, h2, h3⟩ := flush_of_error json h
    exact Or.inr ⟨h2, h1, h3⟩
  · obtain ⟨rfl, hok⟩ : commit = none ∧ ∃ outputs,
        (execAll json (flushOrder requests) db).2 = .ok outputs := by
      rw [not_or, not_not] at h
      refine ⟨h.1, ?_⟩
      cases hres : (execAll json (flushOrder requests) db).2 with
      | error e => exact absurd ⟨e, hres⟩ h.2
      | ok outputs => exact ⟨outputs, rfl⟩
    obtain ⟨outputs, hok⟩ := hok
    have hexec : execAll json (flushOrder requests) db =
        ((execAll json (flushOrder requests) db).1, .ok outputs) := Prod.ext rfl hok
    obtain ⟨h1, h2, h3, h4⟩ := flush_of_ok json hexec
    refine Or.inl ⟨rfl, h2, ?_, h4⟩
    rw [h1, h3]
    exact hexec

/-- The effects of groups, applied one after another. -/
def applyGroups (groups : List (Flushed α)) (db : DB) : DB :=
  groups.foldl (fun db o => (execAll json (flushOrder o.requests) db).1) db

/-- What holds of each group of a run. -/
structure AllOrNothing (o : Flushed α) : Prop where
  size : 1 ≤ o.requests.length ∧ o.requests.length ≤ 1000
  outcome : (o.after = (execAll json (flushOrder o.requests) o.before).1 ∧
      (∃ outputs, (execAll json (flushOrder o.requests) o.before).2 = .ok outputs) ∧
      o.committed.isSome ∧ o.answers = o.requests.map fun _ => none) ∨
    (o.after = o.before ∧ o.committed = none ∧ ∃ e, o.answers = o.requests.map fun _ => some e)
  own : ∀ ops, o.committed = some ops →
    ops = (stage json o.before (flushOrder o.requests) []).1 ∧ o.after = o.before.applyAll ops

theorem allOrNothing_flush (db : DB) {requests : List (BatchRequest α)}
    (commit : Option BatchError) (hsize : 1 ≤ requests.length ∧ requests.length ≤ 1000) :
    AllOrNothing json (flush json db [] requests commit) := by
  have hdb := (stage_eq_execAll json db (flushOrder requests) []).1
  rcases flush_spec json db requests commit with ⟨-, h1, h2, h3⟩ | ⟨h1, h2, h3⟩
  · have hafter := (congrArg Prod.fst h2).symm
    refine ⟨hsize, Or.inl ⟨hafter, ⟨_, congrArg Prod.snd h2⟩, by rw [h1]; rfl, h3⟩,
      fun ops hops => ?_⟩
    obtain rfl := Option.some.inj (h1.symm.trans hops)
    exact ⟨rfl, hafter.trans hdb.symm⟩
  · refine ⟨hsize, Or.inr ⟨h2, h1, h3⟩, fun ops hops => ?_⟩
    rw [h1] at hops
    exact absurd hops (by simp)

/-- The groups that were committed. -/
def committedGroups (groups : List (Flushed α)) : List (Flushed α) :=
  groups.filter (·.committed.isSome)

theorem AllOrNothing.applyGroups_cons {o : Flushed α} (h : AllOrNothing json o)
    (groups : List (Flushed α)) :
    applyGroups json (committedGroups (o :: groups)) o.before =
      applyGroups json (committedGroups groups) o.after := by
  rw [committedGroups, List.filter_cons]
  rcases h.outcome with ⟨h1, -, h2, -⟩ | ⟨h1, h2, -⟩
  · rw [if_pos h2, h1]
    rfl
  · rw [if_neg (by rw [h2]; decide), h1]
    rfl

/-- What ends a group : the error of its first request that fails, or what the commit returns. -/
def groupError (db : DB) (requests : List (BatchRequest α)) (commit : Option BatchError) :
    Option BatchError :=
  match (execAll json (flushOrder requests) db).2 with
  | .error e => some e
  | .ok _ => commit

/-- What a round makes of the arrivals that are left : it takes the first and those that are
waiting behind it, up to 1000 in all, and answers each of them. -/
structure IsRound (left : List (BatchRequest α)) (round : ℕ × Option BatchError)
    (o : Flushed α) : Prop where
  requests : o.requests = left.take (min round.1 999 + 1)
  committed : o.committed.isSome ↔ groupError json o.before o.requests round.2 = none
  answers : o.answers = o.requests.map fun _ => groupError json o.before o.requests round.2

/-- A group is committed, and its requests are answered, as it ends. -/
theorem flush_ends (db : DB) (requests : List (BatchRequest α)) (commit : Option BatchError) :
    ((flush json db [] requests commit).committed.isSome ↔
      groupError json db requests commit = none) ∧
    (flush json db [] requests commit).answers =
      requests.map fun _ => groupError json db requests commit := by
  have hres := (stage_eq_execAll json db (flushOrder requests) []).2
  change _ = (execAll json _ db).2 at hres
  rw [groupError, ← hres]
  refine ⟨?_, rfl⟩
  unfold flush
  simp only
  split_ifs with h
  · exact iff_of_true rfl h
  · exact iff_of_false Bool.false_ne_true h

theorem isRound_flush (db : DB) (first : BatchRequest α) (ch : List (BatchRequest α)) (waiting : ℕ)
    (commit : Option BatchError) : IsRound json (first :: ch) (waiting, commit)
      (flush json db [] (first :: ch.take (min waiting 999)) commit) :=
  ⟨rfl, (flush_ends json db _ commit).1, (flush_ends json db _ commit).2⟩

/-- One round : the group, and what the processor does with the arrivals that are left. -/
theorem runProcessor_cons (waiting : ℕ) (commit : Option BatchError)
    (schedule : List (ℕ × Option BatchError)) (first : BatchRequest α)
    (ch : List (BatchRequest α)) (db : DB) :
    ∃ o, runProcessor json ((waiting, commit) :: schedule) (first :: ch) db [] =
        o :: runProcessor json schedule (ch.drop (min waiting 999)) o.after [] ∧
      o.before = db ∧ o.requests = first :: ch.take (min waiting 999) ∧ AllOrNothing json o ∧
      IsRound json (first :: ch) (waiting, commit) o := by
  have hsize : 1 ≤ (first :: ch.take (min waiting 999)).length ∧
      (first :: ch.take (min waiting 999)).length ≤ 1000 := by
    simp
  exact ⟨_, rfl, rfl, rfl, allOrNothing_flush json db commit hsize,
    isRound_flush json db first ch waiting commit⟩

/-- What is left once a round has taken its requests. -/
theorem drop_length_take (l : List α) (k m : ℕ) : l.drop ((l.take k).length + m) =
    (l.drop k).drop m := by
  conv_lhs => rw [← List.take_append_drop k l]
  rw [List.take_append_drop, ← List.drop_drop, List.length_take]
  rcases Nat.le_total k l.length with h | h
  · rw [Nat.min_eq_left h]
  · rw [Nat.min_eq_right h, List.drop_length, List.drop_of_length_le h]

/-- Every cut of the arrivals into groups of 1 to 1000 is one that the processor can make. -/
theorem runProcessor_cut : ∀ (cut : List (List (BatchRequest α)))
    (commits : List (Option BatchError)) (db : DB),
    (∀ group ∈ cut, 1 ≤ group.length ∧ group.length ≤ 1000) → commits.length = cut.length →
    (runProcessor json ((cut.map fun group => group.length - 1).zip commits) cut.flatten db []).map
      Flushed.requests = cut
  | [], _, _, _, _ => by simp [runProcessor]
  | group :: cut, [], _, _, hlen => by simp at hlen
  | group :: cut, commit :: commits, db, hsize, hlen => by
    obtain ⟨h1, h1000⟩ := hsize group List.mem_cons_self
    obtain ⟨first, rest, rfl⟩ := List.exists_cons_of_length_pos h1
    have hmin : min ((first :: rest).length - 1) 999 = rest.length := by
      rw [List.length_cons] at h1000 ⊢
      omega
    rw [List.map_cons, List.zip_cons_cons, List.flatten_cons, List.cons_append, runProcessor,
      hmin, List.take_left, List.drop_left, List.map_cons]
    refine congrArg₂ _ rfl ?_
    exact runProcessor_cut cut commits _ (fun g hg => hsize g (List.mem_cons_of_mem _ hg))
      (Nat.succ.inj hlen)

/-- A run of the processor on one batch object. Any cut of the arrivals into groups of 1 to 1000
can be made. Every round of the schedule makes a group of the arrivals that are left, until none
is. Each group is all or nothing, it runs on the database that the committed groups before it leave,
its commit holds only writes that its own requests stage, and each of its requests is answered
with what ended the group. -/
theorem group_commit (schedule : List (ℕ × Option BatchError)) (arrivals : List (BatchRequest α))
    (db : DB) :
    (∀ cut : List (List (BatchRequest α)), cut.flatten = arrivals →
      (∀ group ∈ cut, 1 ≤ group.length ∧ group.length ≤ 1000) →
      ∀ commits : List (Option BatchError), commits.length = cut.length →
      (runProcessor json ((cut.map fun group => group.length - 1).zip commits) arrivals db []).map
        Flushed.requests = cut) ∧
    let groups := runProcessor json schedule arrivals db []
    (∀ pre o post, groups = pre ++ o :: post →
      o.before = applyGroups json (committedGroups pre) db ∧
      ∃ round, schedule[pre.length]? = some round ∧
        IsRound json (arrivals.drop (pre.flatMap Flushed.requests).length) round o) ∧
    groups.flatMap Flushed.requests <+: arrivals ∧
    (groups.length = schedule.length ∨ groups.flatMap Flushed.requests = arrivals) ∧
    (∀ o ∈ groups, AllOrNothing json o) ∧
    groups.foldl (fun _ o => o.after) db = applyGroups json (committedGroups groups) db := by
  refine ⟨fun cut hcut hsize commits hlen =>
    hcut ▸ runProcessor_cut json cut commits db hsize hlen, ?_⟩
  induction schedule generalizing arrivals db with
  | nil => simp [runProcessor, applyGroups, committedGroups]
  | cons round schedule ih =>
    obtain ⟨waiting, commit⟩ := round
    cases arrivals with
    | nil => simp [runProcessor, applyGroups, committedGroups]
    | cons first ch =>
      obtain ⟨o, hrun, hbefore, hreqs, hgroup, hround⟩ :=
        runProcessor_cons json waiting commit schedule first ch db
      obtain ⟨ih1, ih2, ih3, ih4, ih5⟩ := ih (ch.drop (min waiting 999)) o.after
      rw [hrun]
      refine ⟨?_, ?_, ?_, ?_, ?_⟩
      · intro pre o' post hsplit
        cases pre with
        | nil =>
          obtain ⟨rfl, -⟩ := List.cons.inj hsplit
          exact ⟨hbefore, _, rfl, hround⟩
        | cons g pre =>
          rw [List.cons_append] at hsplit
          obtain ⟨rfl, htail⟩ := List.cons.inj hsplit
          obtain ⟨h1, round, h2, h3⟩ := ih1 pre o' post htail
          refine ⟨by rw [h1, ← hbefore, hgroup.applyGroups_cons], round, h2, ?_⟩
          rw [List.flatMap_cons, hreqs, List.cons_append, List.length_cons, List.drop_succ_cons,
            List.length_append, drop_length_take]
          exact h3
      · rw [List.flatMap_cons, hreqs, List.cons_append, List.prefix_cons_inj]
        obtain ⟨rest, hrest⟩ := ih2
        exact ⟨rest, by rw [List.append_assoc, hrest, List.take_append_drop]⟩
      · rcases ih3 with h | h
        · exact Or.inl (congrArg Nat.succ h)
        · refine Or.inr ?_
          rw [List.flatMap_cons, hreqs, h, List.cons_append, List.take_append_drop]
      · exact List.forall_mem_cons.mpr ⟨hgroup, ih4⟩
      · rw [List.foldl_cons, ih5, ← hbefore, hgroup.applyGroups_cons]

/-- Put one value under one key. -/
def putOne (key value : Byte) (lowPriority : Bool) : BatchRequest Unit :=
  { type := .putOnly, consumer := none, keys := [[key]], values := [[value]], lowPriority }

/-- A request that fails. -/
def nilRequest : BatchRequest Unit :=
  { type := .customizeOperate, consumer := none, keys := [], values := [], lowPriority := false }

/-- Four requests in two groups. The first two write the same key, the one of low priority last,
and are committed. The other two are aborted, though only one of them fails. -/
theorem group_commit_two_groups :
    let groups := runProcessor (fun _ => none) [(1, none), (7, none)]
      [putOne 35 2 true, putOne 35 1 false, putOne 36 3 false, nilRequest] (fun _ => []) []
    groups.map Flushed.answers = [[none, none], [some .nilConsumer, some .nilConsumer]] ∧
    groups.map (·.committed.isSome) = [true, false] ∧
    groups.flatMap Flushed.requests =
      [putOne 35 2 true, putOne 35 1 false, putOne 36 3 false, nilRequest] ∧
    (groups.foldl (fun _ o => o.after) fun _ => []) [35] = [[2]] ∧
    (groups.foldl (fun _ o => o.after) fun _ => []) [36] = [] := by
  obtain ⟨-, -, -, -, -, hdb⟩ := group_commit (fun _ => none) [(1, none), (7, none)]
    [putOne 35 2 true, putOne 35 1 false, putOne 36 3 false, nilRequest] fun _ => []
  refine ⟨rfl, rfl, rfl, ?_, ?_⟩
  · rw [hdb]
    rfl
  · rw [hdb]
    rfl

end Corgi
