import Corgi.Metadata
import Corgi.Stages

/-!
# The devices of a process

`Init` opens the devices that were found and puts them into a map, and `Remove` takes one out of
it and closes it. Both may be called any number of times at once : what they share is a
`sync.Map`, and between the look into the map and the store another call may have stored a device
of the same name.

`Registry.one_place` : every device that was opened is in the map, in the hands of one call, or
closed, once. None is lost, closed twice or closed while it is in the map.

`Registry.init_opens` : as long as nothing is removed, a call of `Init` that has returned has every
device that it was to open in the map, or names it in its error.
-/

set_option linter.unusedSectionVars false

namespace Corgi

/-! ## The model -/

/-- What `Init` reads of a `BlockDeviceCandidate`. -/
structure Candidate where
  lun : Bytes
  mountDir : Bytes
  dataPartition : Bytes
  deriving DecidableEq

/-- A device that could not be opened. -/
structure OpenError where
  candidate : Candidate
  err : String

/-- The text of the error. -/
def OpenError.message (e : OpenError) : String :=
  "open block device " ++ textOf e.candidate.lun ++ " (" ++ textOf e.candidate.dataPartition ++
    "): " ++ e.err

/-- A call of `Init` or `Remove`. A device is the number of those opened before it. -/
inductive RegistryTask
  /-- `Init` is at the head of its loop. -/
  | init (testMountdir : Bytes) (left : List Candidate) (errs : List OpenError)
  /-- No device of this name was in the map. -/
  | opening (testMountdir : Bytes) (c : Candidate) (left : List Candidate) (errs : List OpenError)
  | storing (testMountdir : Bytes) (c : Candidate) (device : ℕ) (left : List Candidate)
    (errs : List OpenError)
  /-- Another device of this name was stored first. -/
  | closing (testMountdir : Bytes) (device : ℕ) (left : List Candidate) (errs : List OpenError)
  | initDone (errs : List OpenError)
  | remove (lun : Bytes)
  | removeClosing (device : ℕ)
  | removeDone

/-- The map, the devices that were opened and closed, and the calls. -/
structure Registry where
  deviceMap : List (Bytes × ℕ)
  opened : ℕ
  closed : List ℕ
  tasks : List RegistryTask

/-- What happens to it. -/
inductive RegistryEvent
  | callInit (testMountdir : Bytes) (candidates : List Candidate)
  | callRemove (lun : Bytes)
  /-- A call takes its next step. `outcome` is what opening a device ends in, when it opens one. -/
  | step (k : ℕ) (outcome : Option String)

/-- The device that a call has in its hands. -/
def RegistryTask.held : RegistryTask → Option ℕ
  | storing _ _ d _ _ | closing _ d _ _ | removeClosing d => some d
  | _ => none

/-- `Init` opens only the device that is asked for, if one is. -/
def Candidate.Asked (testMountdir : Bytes) (c : Candidate) : Prop :=
  testMountdir = [] ∨ c.mountDir = testMountdir

instance (testMountdir : Bytes) (c : Candidate) : Decidable (c.Asked testMountdir) :=
  inferInstanceAs (Decidable (_ ∨ _))

namespace Registry

/-- No device is open. -/
def initial : Registry :=
  ⟨[], 0, [], []⟩

/-- `Get`, and `Load` of the map. -/
def get (s : Registry) (lun : Bytes) : Option ℕ :=
  (s.deviceMap.find? (·.1 = lun)).map Prod.snd

/-- Call `k` goes on with `task`. -/
def setTask (s : Registry) (k : ℕ) (task : RegistryTask) : Registry :=
  { s with tasks := s.tasks.set k task }

/-- What a call does next. -/
def next (s : Registry) (k : ℕ) (outcome : Option String) : RegistryTask → Registry
  | .init _ [] errs => s.setTask k (.initDone errs)
  | .init dir (c :: left) errs =>
    if ¬c.Asked dir ∨ (s.get c.lun).isSome then s.setTask k (.init dir left errs)
    else s.setTask k (.opening dir c left errs)
  | .opening dir c left errs => match outcome with
    | some err => s.setTask k (.init dir left (errs ++ [⟨c, err⟩]))
    | none => { s.setTask k (.storing dir c s.opened left errs) with opened := s.opened + 1 }
  | .storing dir c d left errs => match s.get c.lun with
    | some _ => s.setTask k (.closing dir d left errs)
    | none => { s.setTask k (.init dir left errs) with deviceMap := s.deviceMap ++ [(c.lun, d)] }
  | .closing dir d left errs =>
    { s.setTask k (.init dir left errs) with closed := s.closed ++ [d] }
  | .remove lun => match s.get lun with
    | some d => { s.setTask k (.removeClosing d) with
        deviceMap := s.deviceMap.filter (·.1 ≠ lun) }
    | none => s.setTask k .removeDone
  | .removeClosing d => { s.setTask k .removeDone with closed := s.closed ++ [d] }
  | .initDone _ | .removeDone => s

/-- One step. -/
def Step (s : Registry) : RegistryEvent → Registry → Prop
  | .callInit testMountdir candidates, t =>
    t = { s with tasks := s.tasks ++ [.init testMountdir candidates []] }
  | .callRemove lun, t => t = { s with tasks := s.tasks ++ [.remove lun] }
  | .step k outcome, t => ∃ task, s.tasks[k]? = some task ∧ t = s.next k outcome task

variable {s t : Registry}

/-! ## Where the devices are -/

/-- How often a device is in the map, in the hands of calls, and closed. -/
def places (s : Registry) (d : ℕ) : ℕ :=
  (s.deviceMap.map Prod.snd).count d + (s.tasks.filterMap RegistryTask.held).count d +
    s.closed.count d

/-- No lun has two devices in the map, and each device that was opened is in one place. -/
structure Placed (s : Registry) : Prop where
  keys : (s.deviceMap.map Prod.fst).Nodup
  places : ∀ d, s.places d = (List.range s.opened).count d

/-- A call goes on with what it holds. -/
theorem count_setTask {k : ℕ} {task : RegistryTask} (hk : s.tasks[k]? = some task)
    (task' : RegistryTask) (d : ℕ) :
    task.held.toList.count d + ((s.setTask k task').tasks.filterMap RegistryTask.held).count d =
      task'.held.toList.count d + (s.tasks.filterMap RegistryTask.held).count d := by
  have hperm := (perm_filterMap_set RegistryTask.held hk task').count_eq d
  rwa [List.count_append, List.count_append] at hperm

theorem get_eq_none {lun : Bytes} (h : s.get lun = none) : lun ∉ s.deviceMap.map Prod.fst := by
  rw [get, Option.map_eq_none_iff, List.find?_eq_none] at h
  intro hmem
  obtain ⟨x, hx, rfl⟩ := List.mem_map.mp hmem
  exact h x hx (by simp)

/-- What is left of a map when one device is taken out. -/
theorem count_filter_ne {lun : Bytes} {d : ℕ} : ∀ {l : List (Bytes × ℕ)}, (l.map Prod.fst).Nodup →
    (l.find? (·.1 = lun)).map Prod.snd = some d → ∀ x,
    ((l.filter (·.1 ≠ lun)).map Prod.snd).count x + [d].count x = (l.map Prod.snd).count x
  | [], _, h, _ => by cases h
  | a :: l, hnodup, h, x => by
    rw [List.map_cons, List.nodup_cons] at hnodup
    by_cases ha : a.1 = lun
    · rw [List.find?_cons_of_pos (by simpa using ha)] at h
      obtain rfl : a.2 = d := Option.some.inj h
      have hself : l.filter (·.1 ≠ lun) = l := by
        refine List.filter_eq_self.mpr fun y hy => ?_
        have hne : y.1 ≠ lun := fun heq =>
          hnodup.1 (List.mem_map.mpr ⟨y, hy, heq.trans ha.symm⟩)
        simpa using hne
      rw [List.filter_cons_of_neg (by simpa using ha), hself]
      simp only [List.map_cons, List.count_cons, List.count_nil]
      omega
    · rw [List.find?_cons_of_neg (by simpa using ha)] at h
      have ih := count_filter_ne hnodup.2 h x
      rw [List.filter_cons_of_pos (by simpa using ha)]
      simp only [List.map_cons, List.count_cons, List.count_nil] at ih ⊢
      omega

/-- A call goes on, and what it no longer holds is in the map or closed. -/
theorem Placed.of_set (h : s.Placed) {k : ℕ} {task : RegistryTask} (hk : s.tasks[k]? = some task)
    {task' : RegistryTask} (htasks : t.tasks = s.tasks.set k task')
    (hkeys : (t.deviceMap.map Prod.fst).Nodup)
    (hcount : ∀ d, task'.held.toList.count d + (t.deviceMap.map Prod.snd).count d +
        t.closed.count d + (List.range s.opened).count d =
      task.held.toList.count d + (s.deviceMap.map Prod.snd).count d + s.closed.count d +
        (List.range t.opened).count d) : t.Placed := by
  refine ⟨hkeys, fun d => ?_⟩
  have hold := h.places d
  have hset := count_setTask hk task' d
  have hmoved := hcount d
  rw [Registry.places] at hold ⊢
  rw [htasks]
  change _ + ((s.tasks.set k task').filterMap RegistryTask.held).count d = _ at hset
  omega

theorem Placed.call (h : s.Placed) {task : RegistryTask} (htask : task.held = none) :
    Placed { s with tasks := s.tasks ++ [task] } := by
  refine ⟨h.keys, fun d => ?_⟩
  rw [← h.places d, Registry.places, Registry.places, List.filterMap_append]
  simp [htask]

theorem Placed.step (h : s.Placed) {e : RegistryEvent} (hstep : Step s e t) :
    t.Placed := by
  cases e with
  | callInit testMountdir candidates =>
    obtain rfl := hstep
    exact h.call rfl
  | callRemove lun =>
    obtain rfl := hstep
    exact h.call rfl
  | step k outcome =>
    obtain ⟨task, hk, rfl⟩ := hstep
    cases task with
    | init dir left errs =>
      cases left with
      | nil => exact h.of_set hk rfl h.keys fun d => rfl
      | cons c left =>
        rw [next]
        split_ifs
        · exact h.of_set hk rfl h.keys fun d => rfl
        · exact h.of_set hk rfl h.keys fun d => rfl
    | opening dir c left errs =>
      cases outcome with
      | some err => exact h.of_set hk rfl h.keys fun d => rfl
      | none =>
        refine h.of_set hk rfl h.keys fun x => ?_
        simp only [next, setTask, RegistryTask.held, Option.toList, List.range_succ,
          List.count_append, List.count_nil]
        omega
    | storing dir c d left errs =>
      rw [next]
      split
      · exact h.of_set hk rfl h.keys fun x => rfl
      · rename_i hnone
        refine h.of_set hk rfl ?_ fun x => ?_
        · rw [List.map_append]
          exact h.keys.append (List.nodup_singleton _) (List.disjoint_singleton.mpr
            (get_eq_none hnone))
        · simp only [setTask, RegistryTask.held, Option.toList, List.map_append, List.map_cons,
            List.map_nil, List.count_append, List.count_nil]
          omega
    | closing dir d left errs =>
      refine h.of_set hk rfl h.keys fun x => ?_
      simp only [next, setTask, RegistryTask.held, Option.toList, List.count_append,
        List.count_nil]
      omega
    | initDone errs => exact h
    | remove lun =>
      rw [next]
      split
      · rename_i d hd
        refine h.of_set hk rfl (h.keys.sublist (List.filter_sublist.map _)) fun x => ?_
        have hcount := count_filter_ne h.keys hd x
        simp only [setTask, RegistryTask.held, Option.toList, List.count_nil]
        omega
      · exact h.of_set hk rfl h.keys fun x => rfl
    | removeClosing d =>
      refine h.of_set hk rfl h.keys fun x => ?_
      simp only [next, setTask, RegistryTask.held, Option.toList, List.count_append,
        List.count_nil]
      omega
    | removeDone => exact h

/-- Every device that was opened is in one place. -/
theorem one_place {events : List RegistryEvent} (h : Run Step initial events s) :
    (s.deviceMap.map Prod.fst).Nodup ∧
    (s.deviceMap.map Prod.snd ++ s.tasks.filterMap RegistryTask.held ++ s.closed).Perm
      (List.range s.opened) := by
  have hplaced : s.Placed :=
    h.invariant (fun _ _ _ ht hstep => ht.step hstep) ⟨List.nodup_nil, fun _ => rfl⟩
  refine ⟨hplaced.keys, List.perm_iff_count.mpr fun d => ?_⟩
  rw [List.count_append, List.count_append]
  exact hplaced.places d

/-- A device that two calls of `Init` find. -/
def raced : Candidate :=
  ⟨ascii "fs-SP0-1".toList, ascii "/fs-SP0-1".toList, ascii "/dev/sda2".toList⟩

/-- Both look into the map before one has stored the device. -/
def raceEvents : List RegistryEvent :=
  [.callInit [] [raced], .callInit raced.mountDir [raced], .step 0 none, .step 1 none,
    .step 0 none, .step 1 none, .step 1 none, .step 0 none, .step 0 none, .step 0 none,
    .step 1 none]

/-- The second call has stored its device, and the first one has closed its own. -/
def raceEnd : Registry :=
  ⟨[(raced.lun, 1)], 2, [0], [.initDone [], .initDone []]⟩

theorem run_raceEvents : Run Step initial raceEvents raceEnd :=
  .cons rfl <| .cons rfl <| .cons ⟨_, rfl, rfl⟩ <| .cons ⟨_, rfl, rfl⟩ <| .cons ⟨_, rfl, rfl⟩ <|
    .cons ⟨_, rfl, rfl⟩ <| .cons ⟨_, rfl, rfl⟩ <| .cons ⟨_, rfl, rfl⟩ <| .cons ⟨_, rfl, rfl⟩ <|
    .cons ⟨_, rfl, rfl⟩ <| .cons ⟨_, rfl, rfl⟩ .nil

/-- Two calls of `Init` at once : the device that is not stored is closed. -/
theorem one_place_race : Run Step initial raceEvents raceEnd ∧
    (raceEnd.deviceMap.map Prod.fst).Nodup ∧
    (raceEnd.deviceMap.map Prod.snd ++ raceEnd.tasks.filterMap RegistryTask.held ++
      raceEnd.closed).Perm (List.range 2) :=
  ⟨run_raceEvents, one_place run_raceEvents⟩

/-! ## What a call of `Init` has opened -/

/-- The arguments of the calls of `Init`, in the order of the calls. -/
def inits (events : List RegistryEvent) : List (Bytes × List Candidate) :=
  events.filterMap fun
    | .callInit testMountdir candidates => some (testMountdir, candidates)
    | _ => none

/-- The candidate is of no concern, in the map or named in an error. -/
def Decided (testMountdir : Bytes) (s : Registry) (errs : List OpenError) (c : Candidate) : Prop :=
  c.Asked testMountdir → (s.get c.lun).isSome ∨ ∃ e ∈ errs, e.candidate = c

/-- The candidates that are not left are decided. -/
def Leaves (testMountdir : Bytes) (cs left : List Candidate) (errs : List OpenError)
    (s : Registry) : Prop :=
  ∀ c ∈ cs, c ∈ left ∨ s.Decided testMountdir errs c

/-- What a call of `Init` has done so far. -/
def Covers (testMountdir : Bytes) (cs : List Candidate) (s : Registry) : RegistryTask → Prop
  | .init dir left errs | .closing dir _ left errs =>
    dir = testMountdir ∧ s.Leaves testMountdir cs left errs
  | .opening dir c left errs | .storing dir c _ left errs =>
    dir = testMountdir ∧ s.Leaves testMountdir cs (c :: left) errs
  | .initDone errs => s.Leaves testMountdir cs [] errs
  | .remove _ | .removeClosing _ | .removeDone => False

/-- No device is taken out of the map. -/
def Grows (s t : Registry) : Prop :=
  ∀ lun, (s.get lun).isSome → (t.get lun).isSome

variable {testMountdir : Bytes} {cs : List Candidate}

theorem Leaves.mono {left : List Candidate} {errs : List OpenError}
    (h : s.Leaves testMountdir cs left errs) (hgrows : s.Grows t) :
    t.Leaves testMountdir cs left errs :=
  fun c hc => (h c hc).imp_right fun hdecided hasked => (hdecided hasked).imp_left (hgrows _)

theorem Covers.mono {task : RegistryTask} (h : s.Covers testMountdir cs task)
    (hgrows : s.Grows t) : t.Covers testMountdir cs task := by
  cases task with
  | init | closing | opening | storing => exact ⟨h.1, h.2.mono hgrows⟩
  | initDone => exact Leaves.mono h hgrows
  | remove | removeClosing | removeDone => exact h

/-- A call goes on with the candidates that are left. -/
theorem Leaves.next {left : List Candidate} {errs errs' : List OpenError} {c : Candidate}
    (h : s.Leaves testMountdir cs (c :: left) errs) (herrs : errs ⊆ errs') (hgrows : s.Grows t)
    (hc : t.Decided testMountdir errs' c) : t.Leaves testMountdir cs left errs' := by
  intro x hx
  rcases h x hx with hmem | hdecided
  · rcases List.mem_cons.mp hmem with rfl | hmem
    · exact .inr hc
    · exact .inl hmem
  · refine .inr fun hasked => (hdecided hasked).imp (hgrows _) ?_
    rintro ⟨e, he, rfl⟩
    exact ⟨e, herrs he, rfl⟩

theorem get_append (s : Registry) (c : Candidate) (d : ℕ) (tasks : List RegistryTask) :
    let t : Registry := { s with deviceMap := s.deviceMap ++ [(c.lun, d)], tasks := tasks }
    s.Grows t ∧ (t.get c.lun).isSome := by
  intro t
  constructor
  · intro lun h
    rw [get, Option.isSome_map] at h ⊢
    change (List.find? _ (s.deviceMap ++ _)).isSome = true
    rw [List.find?_append, Option.isSome_or, h, Bool.true_or]
  · rw [get, Option.isSome_map, List.find?_isSome]
    exact ⟨(c.lun, d), List.mem_append_right _ (List.mem_singleton_self _), by simp⟩

theorem Covers.step {k : ℕ} {task : RegistryTask} (hk : s.tasks[k]? = some task)
    (h : s.Covers testMountdir cs task) (outcome : Option String) :
    s.Grows (s.next k outcome task) ∧ ∃ task',
      (s.next k outcome task).tasks = s.tasks.set k task' ∧
      (s.next k outcome task).Covers testMountdir cs task' := by
  cases task with
  | init dir left errs =>
    obtain ⟨rfl, h⟩ := h
    cases left with
    | nil => exact ⟨fun _ h => h, _, rfl, h⟩
    | cons c left =>
      rw [Registry.next]
      split_ifs with hskip
      · refine ⟨fun _ h => h, _, rfl, rfl, h.next (List.Subset.refl _) (fun _ h => h) ?_⟩
        exact fun hasked => .inl (hskip.resolve_left (not_not.mpr hasked))
      · exact ⟨fun _ h => h, _, rfl, rfl, h⟩
  | opening dir c left errs =>
    obtain ⟨rfl, h⟩ := h
    cases outcome with
    | some err =>
      refine ⟨fun _ h => h, _, rfl, rfl, h.next (List.subset_append_left _ _) (fun _ h => h) ?_⟩
      exact fun _ => .inr ⟨_, List.mem_append_right _ (List.mem_singleton_self _), rfl⟩
    | none => exact ⟨fun _ h => h, _, rfl, rfl, h⟩
  | storing dir c d left errs =>
    obtain ⟨rfl, h⟩ := h
    rw [Registry.next]
    split
    · rename_i other hother
      refine ⟨fun _ h => h, _, rfl, rfl, h.next (List.Subset.refl _) (fun _ h => h) ?_⟩
      exact fun _ => .inl (Option.isSome_iff_exists.mpr ⟨other, hother⟩)
    · obtain ⟨hgrows, hsome⟩ := s.get_append c d (s.tasks.set k (.init dir left errs))
      exact ⟨hgrows, _, rfl, rfl, h.next (List.Subset.refl _) hgrows fun _ => .inl hsome⟩
  | closing dir d left errs => exact ⟨fun _ h => h, _, rfl, h⟩
  | initDone errs =>
    obtain ⟨hlt, heq⟩ := List.getElem?_eq_some_iff.mp hk
    refine ⟨fun _ h => h, .initDone errs, ?_, h⟩
    change s.tasks = s.tasks.set k (.initDone errs)
    rw [← heq, List.set_getElem_self]
  | remove lun => exact h.elim
  | removeClosing d => exact h.elim
  | removeDone => exact h.elim

/-- The calls of `Init` are those of the events. -/
structure Served (events : List RegistryEvent) (s : Registry) : Prop where
  length : s.tasks.length = (inits events).length
  covers : ∀ (k : ℕ) testMountdir cs task, (inits events)[k]? = some (testMountdir, cs) →
    s.tasks[k]? = some task → s.Covers testMountdir cs task

theorem Served.step {events : List RegistryEvent} (h : s.Served events) {e : RegistryEvent}
    (hstep : Step s e t) (hkeep : ∀ lun, e ≠ .callRemove lun) : t.Served (events ++ [e]) := by
  cases e with
  | callInit dir candidates =>
    obtain rfl := hstep
    have hinits : inits (events ++ [.callInit dir candidates]) =
        inits events ++ [(dir, candidates)] :=
      List.filterMap_append
    refine ⟨?_, fun k testMountdir cs task hcs htask => ?_⟩
    · rw [hinits, List.length_append, List.length_append, h.length]
      rfl
    · rw [hinits] at hcs
      simp only at htask
      rcases Nat.lt_or_ge k s.tasks.length with hlt | hge
      · rw [List.getElem?_append_left (h.length ▸ hlt)] at hcs
        rw [List.getElem?_append_left hlt] at htask
        exact (h.covers k testMountdir cs task hcs htask).mono fun _ h => h
      · rw [List.getElem?_append_right hge] at htask
        rw [List.getElem?_append_right (h.length ▸ hge), ← h.length] at hcs
        cases hsub : k - s.tasks.length with
        | zero =>
          rw [hsub] at hcs htask
          obtain ⟨rfl, rfl⟩ := Prod.mk.inj (Option.some.inj hcs)
          obtain rfl := Option.some.inj htask
          exact ⟨rfl, fun c hc => .inl hc⟩
        | succ i =>
          rw [hsub] at htask
          cases htask
  | callRemove lun => exact absurd rfl (hkeep lun)
  | step k outcome =>
    obtain ⟨task, hk, rfl⟩ := hstep
    have hinits : inits (events ++ [.step k outcome]) = inits events :=
      (List.filterMap_append).trans (List.append_nil _)
    have hlt : k < (inits events).length :=
      h.length ▸ (List.getElem?_eq_some_iff.mp hk).1
    obtain ⟨⟨dir, called⟩, hcalled⟩ : ∃ call, (inits events)[k]? = some call :=
      ⟨_, List.getElem?_eq_getElem hlt⟩
    obtain ⟨hgrows, task', htasks, hcovers⟩ :=
      (h.covers k dir called task hcalled hk).step hk outcome
    refine ⟨?_, fun j testMountdir cs x hcs hx => ?_⟩
    · rw [hinits, htasks, List.length_set]
      exact h.length
    · rw [hinits] at hcs
      rw [htasks, List.getElem?_set] at hx
      split_ifs at hx with hj hj'
      · subst hj
        obtain rfl := Option.some.inj hx
        obtain ⟨rfl, rfl⟩ := Prod.mk.inj (Option.some.inj (hcalled.symm.trans hcs))
        exact hcovers
      · exact (h.covers j testMountdir cs x hcs hx).mono hgrows

/-- As long as nothing is removed, a call of `Init` that has returned has every device that it was
to open in the map, or names it in its error. -/
theorem init_opens {events : List RegistryEvent} (h : Run Step initial events s)
    (hkeep : ∀ lun, .callRemove lun ∉ events) {k : ℕ}
    (hcall : (inits events)[k]? = some (testMountdir, cs)) {errs : List OpenError}
    (hdone : s.tasks[k]? = some (.initDone errs)) :
    ∀ c ∈ cs, c.Asked testMountdir → (s.get c.lun).isSome ∨ ∃ e ∈ errs, e.candidate = c := by
  have hserved : s.Served events := by
    refine h.history (I := fun events s => (∀ lun, .callRemove lun ∉ events) → s.Served events)
      (fun events s e t ih hstep hkeep => ?_) (fun _ => ?_) hkeep
    · refine (ih fun lun hmem => hkeep lun (List.mem_append_left _ hmem)).step hstep ?_
      rintro lun rfl
      exact hkeep lun (List.mem_append_right _ (List.mem_singleton_self _))
    · exact ⟨rfl, fun k testMountdir cs task hcs _ => by cases hcs⟩
  have hleaves : s.Leaves testMountdir cs [] errs := hserved.covers k testMountdir cs _ hcall hdone
  exact fun c hc => (hleaves c hc).resolve_left List.not_mem_nil

/-- Both calls find the device in the map when they have returned. -/
theorem init_opens_race : (raceEnd.get raced.lun).isSome ∨
    ∃ e ∈ ([] : List OpenError), e.candidate = raced :=
  init_opens run_raceEvents (by simp [raceEvents]) (show (inits raceEvents)[1]? =
    some (raced.mountDir, [raced]) from rfl) (show raceEnd.tasks[1]? = some (.initDone []) from rfl)
    raced (List.mem_singleton_self _) (.inr rfl)

end Registry

end Corgi
