import Corgi.Archive

/-!
# The server refines the storage node

`Archive.refines_node` : with all that its handlers do in between, a process is a node of
`Corgi.Node`, which allocates, rolls back and commits. What holds of every node holds of it.

`Archive.accounted` : the allocated blocks of a process are those that uploads in progress hold
and those of records that were stored, and the bitmap marks the latter.
-/

set_option linter.unusedSectionVars false

namespace Corgi

/-! ## The process and the node -/

namespace Archive

variable {crc : BitVec 32 → Bytes → BitVec 32} {pb : Protobuf} {json : JSONDeleteMark}
  {name : String} {n : ℕ} {s t : Archive}

/-- The node that a process is. -/
structure Shows (s : Archive) (m : Node ℕ) : Prop where
  db : m.db = s.db
  device : m.device = s.device
  committed : m.committed = s.stored.map StoredUpload.fileMeta
  infos : ∀ (k : ℕ) (u : Upload), s.uploads[k]? = some u → u.Backed (m.infos k)
  fresh : ∀ k : ℕ, s.uploads[k]? = none → m.infos k = []

/-- What holds of the handlers of a process. -/
def Sound (pb : Protobuf) (s : Archive) : Prop :=
  ∀ u ∈ s.uploads, u.Sound ∧ u.Submits pb

variable {m m' : Node ℕ} {k : ℕ} {u u' : Upload}

theorem shows_of_nil (huploads : s.uploads = []) (hpending : m.pending = []) (hdb : m.db = s.db)
    (hdevice : m.device = s.device)
    (hcommitted : m.committed = s.stored.map StoredUpload.fileMeta) : s.Shows m := by
  refine ⟨hdb, hdevice, hcommitted, fun k u hk => ?_, fun k _ => ?_⟩
  · rw [huploads] at hk
    cases hk
  · rw [Node.infos, hpending]
    rfl

theorem sound_of_nil (huploads : s.uploads = []) : s.Sound pb := by
  rw [Sound, huploads]
  exact List.forall_mem_nil _

/-- One upload moves on, and so does the node. -/
theorem Shows.set (h : s.Shows m) (hk : s.uploads[k]? = some u)
    (ht : t.uploads = s.uploads.set k u') (hdb : m'.db = t.db) (hdevice : m'.device = t.device)
    (hcommitted : m'.committed = t.stored.map StoredUpload.fileMeta)
    (hb : u'.Backed (m'.infos k)) (hother : ∀ j ≠ k, m'.infos j = m.infos j) : t.Shows m' := by
  have hlt : k < s.uploads.length := (List.getElem?_eq_some_iff.mp hk).1
  refine ⟨hdb, hdevice, hcommitted, fun j v hv => ?_, fun j hj => ?_⟩
  · rw [ht, List.getElem?_set] at hv
    split_ifs at hv with hkj
    · subst hkj
      rwa [← Option.some.inj hv]
    · rw [hother j (Ne.symm hkj)]
      exact h.infos j v hv
  · rw [ht, List.getElem?_set] at hj
    split_ifs at hj with hkj
    rw [hother j (Ne.symm hkj)]
    exact h.fresh j hj

theorem Sound.set (h : s.Sound pb) (ht : t.uploads = s.uploads.set k u')
    (hu : u'.Sound ∧ u'.Submits pb) : t.Sound pb := by
  intro v hv
  rw [ht] at hv
  rcases List.mem_or_eq_of_mem_set hv with hv | rfl
  · exact h v hv
  · exact hu

theorem Sound.of_getElem? (h : s.Sound pb) (hk : s.uploads[k]? = some u) :
    u.Sound ∧ u.Submits pb :=
  h u (List.mem_of_getElem? hk)

/-- A step of an upload that the node takes no part in. -/
theorem Shows.idle (h : s.Shows m) (hs : s.Sound pb) (hk : s.uploads[k]? = some u)
    {e : UploadEvent} (hstep : Upload.Step crc pb u e u')
    (hcommit : ∀ found, e ≠ .commit none found) (hgets : Upload.gets e = [])
    (hcalm : u.Calm) (ht : t.uploads = s.uploads.set k u') (hdb : t.db = s.db)
    (hdevice : t.device = s.device) (hstored : t.stored = s.stored) : t.Shows m := by
  have hstage := (hs.of_getElem? hk).1.stage
  have hnone := hstep.stored_none hstage
  refine h.set hk ht (h.db.trans hdb.symm) (h.device.trans hdevice.symm)
    (by rw [hstored]; exact h.committed) ?_ fun _ _ => rfl
  have hgives : u.gives e = [] := by
    cases e with
    | rollbackAlloc =>
      obtain ⟨_, _, _, htask, -⟩ := hstep
      exact absurd htask (hcalm _ _)
    | _ => rfl
  have hb := (h.infos k u hk).step hstage [] hstep
    ((hstep.stored_eq hstage hcommit).trans hnone) hgets.symm hgives hcalm
  rwa [List.append_nil] at hb

theorem infos_append (m : Node ℕ) (d : Option BlockDevice) (info : FlushBlockInfo) (j : ℕ) :
    Node.infos { m with device := d, pending := m.pending ++ [(k, info)] } j =
      m.infos j ++ if k = j then [info] else [] := by
  rw [Node.infos, Node.infos, List.filter_append, List.map_append]
  congr 1
  split_ifs with h
  · simp [h]
  · simp [h]

/-- An allocation is one of the node. -/
theorem Shows.alloc (h : s.Shows m) (hs : s.Sound pb) (hinv : m.Inv n)
    (hstep : Step crc pb json name n s (.alloc k) t) :
    ∃ size m', Node.Step json pb name n m (.alloc k size) m' ∧ t.Shows m' ∧ t.Sound pb := by
  obtain ⟨u, u', d, d', buf, respond, outcome, hk, hd, htask, halloc, hu, rfl⟩ := hstep
  obtain ⟨hsound, -⟩ := hs.of_getElem? hk
  obtain ⟨-, howns⟩ := hinv.owns d (h.device.trans hd)
  have hcalm : u.Calm := Upload.calm_of_task htask nofun
  rcases d.alloc_spec howns buf.length with ⟨d₁, results, token, hres, hproper, -⟩ |
    ⟨d₁, e, hres, -⟩ <;>
    obtain ⟨rfl, rfl⟩ := Prod.mk.inj (hres.symm.trans halloc)
  · refine ⟨buf.length,
      { m with device := some d₁, pending := m.pending ++ [(k, ⟨results, token⟩)] },
      ⟨d, h.device.trans hd, by rw [halloc]⟩, ?_,
      hs.set rfl ⟨hsound.step (e := .alloc (.ok (results, token))) hproper hu,
        .step hsound.stage hu⟩⟩
    refine h.set hk rfl h.db rfl h.committed ?_ fun j hj => ?_
    · rw [infos_append, if_pos rfl]
      exact (h.infos k u hk).step hsound.stage _ hu
        ((hu.stored_eq hsound.stage nofun).trans (hu.stored_none hsound.stage)) rfl rfl hcalm
    · rw [infos_append, if_neg (Ne.symm hj), List.append_nil]
  · refine ⟨buf.length, { m with device := some d₁ }, ⟨d, h.device.trans hd, by rw [halloc]⟩, ?_,
      hs.set rfl ⟨hsound.step (e := .alloc (.error e)) trivial hu, .step hsound.stage hu⟩⟩
    have hidle : (s.setUpload k u').Shows m :=
      h.idle hs hk hu nofun rfl hcalm rfl rfl rfl rfl
    exact ⟨hidle.db, rfl, hidle.committed, hidle.infos, hidle.fresh⟩

theorem infos_erase {before after : List (ℕ × FlushBlockInfo)} {info : FlushBlockInfo}
    (hpending : m.pending = before ++ (k, info) :: after) (d : Option BlockDevice) :
    (m.infos k).Perm
      (info :: Node.infos { m with device := d, pending := before ++ after } k) ∧
    ∀ j ≠ k, Node.infos { m with device := d, pending := before ++ after } j = m.infos j := by
  constructor
  · rw [Node.infos, Node.infos, hpending, List.filter_append, List.filter_append,
      List.filter_cons_of_pos (by simp), List.map_append, List.map_append, List.map_cons]
    exact List.perm_middle
  · intro j hj
    rw [Node.infos, Node.infos, hpending, List.filter_append, List.filter_append,
      List.filter_cons_of_neg (by simpa using Ne.symm hj)]

/-- A token that an upload gives back is one that the node rolls back. -/
theorem Shows.rollbackAlloc (h : s.Shows m) (hs : s.Sound pb)
    (hstep : Step crc pb json name n s (.rollbackAlloc k) t) :
    ∃ info m', Node.Step json pb name n m (.rollbackAlloc k info) m' ∧ t.Shows m' ∧
      t.Sound pb := by
  obtain ⟨u, u', d, token, tokens, r, hk, hd, htask, hu, rfl⟩ := hstep
  obtain ⟨hsound, -⟩ := hs.of_getElem? hk
  have hnone := hu.stored_none hsound.stage
  have hnone' := (hu.stored_eq hsound.stage nofun).trans hnone
  have hperm := (h.infos k u hk).perm
  rw [Upload.liveTokens_of_none hnone, Upload.tokens_of_rollback hsound.stage htask] at hperm
  -- the flush whose token it is
  obtain ⟨info, hinfo, rfl⟩ := List.mem_map.mp (hperm.symm.subset List.mem_cons_self)
  obtain ⟨⟨j, info⟩, hx, rfl⟩ := List.mem_map.mp hinfo
  obtain ⟨hmem, hj⟩ := List.mem_filter.mp hx
  obtain rfl : j = k := of_decide_eq_true hj
  obtain ⟨before, after, hpending⟩ := List.append_of_mem hmem
  obtain ⟨herase, hother⟩ := infos_erase hpending (some (d.rollbackAlloc info.token))
  refine ⟨info, _, ⟨d, before, after, h.device.trans hd, hpending, rfl⟩, ?_,
    hs.set rfl ⟨hsound.step (e := .rollbackAlloc) trivial hu, .step hsound.stage hu⟩⟩
  refine h.set hk rfl h.db rfl h.committed ?_ hother
  have hrest := ((herase.map FlushBlockInfo.token).symm.trans hperm).cons_inv
  obtain ⟨_, _, _, htask', rfl⟩ := hu
  cases htask.symm.trans htask'
  have hkeeps := (@Upload.keeps_rollback { u with released := u.released ++ [info.token] }
    (hsound.stage.of_rollback htask).2.2.1 tokens r).tokens
  refine ⟨?_, fun hcalm => ?_⟩ <;> rw [Upload.liveTokens_of_none hnone']
  · exact hrest.trans hkeeps.symm
  · rw [Upload.eq_nil_of_calm_rollback hcalm] at hrest hkeeps ⊢
    exact hrest.eq_nil.trans hkeeps.eq_nil.symm

/-- A group commit stores some of its uploads, and the others roll back. -/
theorem exists_keep (json : JSONDeleteMark) (hinv : m.Inv n) (group : List (Completion ℕ))
    (outcome : Option BatchError) :
    let o := flush json m.db [] ((group.map m.commitOf).map (commitRequest json)) outcome
    ∃ keep : Commit → Bool,
      m.afterCommit json group outcome = m.store (group.filter fun g => keep (m.commitOf g)) ∧
      ∀ (i : ℕ) (c : Commit) (u : Upload), (group.map m.commitOf)[i]? = some c →
        u.task = .commit c → (keep c = true →
          u.answered o i = Upload.respond { u with stored := some c.fileMeta } .success) ∧
        (keep c = false → ∃ r, u.answered o i = u.rollbackCompletedFlushes r) := by
  intro o
  have hrequests : o = flush json m.db []
      (group.map fun g => commitRequest json (m.commitOf g)) outcome := by
    rw [← Function.comp_def, ← List.map_map]
  rcases flush_commits json m.db (List.forall_mem_map.mpr
      fun g (_ : g ∈ group) => hinv.aligned_commitOf g) outcome with
    ⟨h1, h2, -, e, h3⟩ | ⟨h1, h2, h3, h4⟩ <;> change o.after = _ at h2
  · change o.committed = none at h1
    change o.answers = _ at h3
    refine ⟨fun _ => false, ?_, fun i c u hi htask => ⟨nofun, fun _ => ⟨.error (.commit e), ?_⟩⟩⟩
    · rw [Node.afterCommit, ← hrequests]
      simp [h1, h2, Node.store, Store.applyAll]
    · rw [Upload.answered, htask]
      simp only
      rw [h3, List.getElem?_map, hi]
      rfl
  · change o.committed.isSome = true at h1
    change o.outputs = _ at h3
    change o.answers = _ at h4
    refine ⟨fun c => !c.found m.db, ?_, fun i c u hi htask => ?_⟩
    · have hstored : ((group.zip o.outputs).filter (·.2 = some false)).map Prod.fst =
          group.filter fun g => !(m.commitOf g).found m.db := by
        rw [h3, List.map_map, Node.filter_zip_map _ (· = some false)]
        exact List.filter_congr fun c _ => by simp
      rw [Node.afterCommit, ← hrequests]
      simp only [h1, if_true, hstored, Node.store]
      rw [h2, List.filter_map]
      rfl
    · have hanswered : u.answered o i = u.committed c none (c.found m.db) := by
        rw [Upload.answered, htask]
        simp only
        rw [h3, h4, List.getElem?_map, hi, List.getElem?_map, hi]
        change u.committed c none (decide (some (some (c.found m.db)) = some (some true))) = _
        simp
      rw [hanswered, Upload.committed]
      refine ⟨fun hkeep => if_neg ?_, fun hkeep => ⟨.success, if_pos ?_⟩⟩
      · simpa using hkeep
      · simpa using hkeep

/-- What an upload submits is what the node commits for it. -/
theorem Shows.exists_completion (h : s.Shows m) (hs : s.Sound pb) (hinv : m.Inv n)
    (hk : s.uploads[k]? = some u) {c : Commit} (htask : u.task = .commit c) :
    ∃ g : Completion ℕ, g.upload = k ∧ m.commitOf g = c ∧ m.infos g.upload ≠ [] ∧
      pb.marshal (m.commitOf g).fileMeta = .ok g.metaBytes := by
  obtain ⟨hsound, hsubmits⟩ := hs.of_getElem? hk
  obtain ⟨req, metaBytes, hne, hmarshal, rfl⟩ := hsubmits c htask
  have hinfos := (h.infos k u hk).eq_of_commit hsound.stage htask (hinv.proper_infos k)
  refine ⟨⟨k, req, u.handler.fileSize,
    if u.handler.crc32Value ≠ 0#32 then hex8 u.handler.crc32Value else [], metaBytes⟩, rfl, ?_,
    hinfos ▸ hne, ?_⟩
  · rw [Node.commitOf, hinfos]
    rfl
  · rw [Node.commitOf, hinfos]
    exact hmarshal

theorem Shows.exists_group (h : s.Shows m) (hs : s.Sound pb) (hinv : m.Inv n) {ks : List ℕ}
    {cs : List Commit}
    (hks : List.Forall₂ (fun k c => ∃ u, s.uploads[k]? = some u ∧ u.task = .commit c) ks cs) :
    ∃ group : List (Completion ℕ), group.map Completion.upload = ks ∧ group.map m.commitOf = cs ∧
      ∀ g ∈ group, (m.infos g.upload ≠ [] ∧ pb.marshal (m.commitOf g).fileMeta = .ok g.metaBytes) ∧
        ∃ u : Upload, s.uploads[g.upload]? = some u ∧ u.task = .commit (m.commitOf g) := by
  induction hks with
  | nil => exact ⟨[], rfl, rfl, nofun⟩
  | cons hk _ ih =>
    obtain ⟨u, hk, htask⟩ := hk
    obtain ⟨group, hmap, hmap', hgroup⟩ := ih
    obtain ⟨g, rfl, rfl, hg⟩ := h.exists_completion hs hinv hk htask
    exact ⟨g :: group, by rw [List.map_cons, hmap], by rw [List.map_cons, hmap'],
      List.forall_mem_cons.mpr ⟨⟨hg, u, hk, htask⟩, hgroup⟩⟩

theorem filterMap_eq_map_filter {α β : Type} {f : α → Option β} {p : α → Bool} {g : α → β} :
    ∀ {l : List α}, (∀ a ∈ l, f a = if p a = true then some (g a) else none) →
      l.filterMap f = (l.filter p).map g
  | [], _ => rfl
  | a :: l, h => by
    obtain ⟨ha, hl⟩ := List.forall_mem_cons.mp h
    rw [List.filterMap_cons, ha, List.filter_cons]
    split_ifs
    · exact congrArg _ (filterMap_eq_map_filter hl)
    · exact filterMap_eq_map_filter hl

theorem infos_store (m : Node ℕ) (stored : List (Completion ℕ)) (j : ℕ) :
    (m.store stored).infos j = if j ∈ stored.map Completion.upload then [] else m.infos j := by
  rw [Node.infos, Node.infos, Node.store, List.filter_filter]
  split_ifs with hj
  · rw [List.map_eq_nil_iff, List.filter_eq_nil_iff]
    rintro ⟨k, info⟩ - hk
    simp only [Bool.and_eq_true, decide_eq_true_eq] at hk
    exact hk.2 (hk.1 ▸ hj)
  · refine congrArg _ (List.filter_congr fun x _ => ?_)
    by_cases hx : x.1 = j
    · rw [hx, decide_eq_true hj, Bool.and_true]
    · rw [decide_eq_false hx, Bool.false_and]

/-- The request of an upload stands where the upload does. -/
theorem getElem?_idxOf_upload {group : List (Completion ℕ)}
    (hnodup : (group.map Completion.upload).Nodup) {g : Completion ℕ} (hg : g ∈ group)
    (f : Completion ℕ → Commit) :
    (group.map f)[(group.map Completion.upload).idxOf g.upload]? = some (f g) := by
  obtain ⟨i, hi, rfl⟩ := List.getElem_of_mem hg
  have hidx := hnodup.idxOf_getElem i (by rwa [List.length_map])
  rw [List.getElem_map] at hidx
  rw [hidx, List.getElem?_map, List.getElem?_eq_getElem hi]
  rfl

/-- What becomes of an upload when a group is answered : its record is stored if its place is
in `stored`, and otherwise it rolls back. -/
structure Answers (m : Node ℕ) (group stored : List (Completion ℕ)) (o : Flushed Bool)
    (g : Completion ℕ) (u : Upload) : Prop where
  kept : g.upload ∈ stored.map Completion.upload →
    g ∈ stored ∧ u.answered o ((group.map Completion.upload).idxOf g.upload) =
      Upload.respond { u with stored := some (m.commitOf g).fileMeta } .success
  dropped : g.upload ∉ stored.map Completion.upload →
    g ∉ stored ∧ ∃ r, u.answered o ((group.map Completion.upload).idxOf g.upload) =
      u.rollbackCompletedFlushes r

theorem getElem?_afterCommit (s : Archive) (ks : List ℕ) (cs : List Commit)
    (outcome : Option BatchError) (j : ℕ) :
    (s.afterCommit json ks cs outcome).uploads[j]? = s.uploads[j]?.map fun u =>
      if j ∈ ks then u.answered (flush json s.db [] (cs.map (commitRequest json)) outcome)
        (ks.idxOf j) else u :=
  List.getElem?_mapIdx

/-- A group commit stores some of its uploads, and the others roll back. -/
theorem Shows.exists_stored (json : JSONDeleteMark) (h : s.Shows m) (hinv : m.Inv n)
    {group : List (Completion ℕ)} (hnodup : (group.map Completion.upload).Nodup)
    (outcome : Option BatchError)
    (hgroup : ∀ g ∈ group, ∃ u : Upload,
      s.uploads[g.upload]? = some u ∧ u.task = .commit (m.commitOf g)) :
    ∃ keep : Completion ℕ → Bool,
      m.afterCommit json group outcome = m.store (group.filter keep) ∧
      ∀ g ∈ group, ∃ u : Upload, s.uploads[g.upload]? = some u ∧ u.task = .commit (m.commitOf g) ∧
        Answers m group (group.filter keep)
          (flush json s.db [] ((group.map m.commitOf).map (commitRequest json)) outcome) g u := by
  obtain ⟨keep, hnode, hanswered⟩ := exists_keep json hinv group outcome
  rw [h.db] at hanswered
  refine ⟨fun g => keep (m.commitOf g), hnode, fun g hg => ?_⟩
  obtain ⟨u, hu, htask⟩ := hgroup g hg
  obtain ⟨hkept, hdropped⟩ :=
    hanswered _ _ u (getElem?_idxOf_upload hnodup hg m.commitOf) htask
  refine ⟨u, hu, htask, fun hmem => ?_, fun hmem => ?_⟩
  · obtain ⟨g', hg', heq⟩ := List.mem_map.mp hmem
    obtain rfl := List.inj_on_of_nodup_map hnodup (List.mem_of_mem_filter hg') hg heq
    exact ⟨hg', hkept (List.mem_filter.mp hg').2⟩
  · have hnot : g ∉ group.filter fun g => keep (m.commitOf g) :=
      fun hg' => hmem (List.mem_map_of_mem hg')
    refine ⟨hnot, hdropped (Bool.eq_false_iff.mpr fun hkeep => hnot ?_)⟩
    exact List.mem_filter.mpr ⟨hg, hkeep⟩

/-- The records of a group that are stored are those the node commits. -/
theorem storedBy_afterCommit {group : List (Completion ℕ)} {keep : Completion ℕ → Bool}
    {outcome : Option BatchError}
    (hgroup : ∀ g ∈ group, ∃ u : Upload, s.uploads[g.upload]? = some u ∧
      u.task = .commit (m.commitOf g) ∧ u.stored = none ∧ Answers m group (group.filter keep)
        (flush json s.db [] ((group.map m.commitOf).map (commitRequest json)) outcome) g u) :
    (storedBy (s.afterCommit json (group.map Completion.upload) (group.map m.commitOf)
      outcome).uploads (group.map Completion.upload)).map StoredUpload.fileMeta =
    (group.filter keep).map fun g => (m.commitOf g).fileMeta := by
  rw [storedBy, List.filterMap_map, List.map_filterMap]
  refine filterMap_eq_map_filter fun g hg => ?_
  obtain ⟨u, hu, -, hnone, hkept, hdropped⟩ := hgroup g hg
  rw [Function.comp_apply, getElem?_afterCommit, hu, Option.map_some,
    if_pos (List.mem_map_of_mem hg), Option.bind_some]
  by_cases hmem : g.upload ∈ (group.filter keep).map Completion.upload
  · obtain ⟨hg', heq⟩ := hkept hmem
    rw [heq, if_pos (List.mem_filter.mp hg').2]
    rfl
  · obtain ⟨hg', r, heq⟩ := hdropped hmem
    rw [heq, if_neg fun hkeep => hg' (List.mem_filter.mpr ⟨hg, hkeep⟩),
      Upload.rollbackCompletedFlushes, Upload.stored_rollback]
    simp only
    rw [hnone]
    rfl

/-- A group commit is one of the node. -/
theorem Shows.commit (h : s.Shows m) (hs : s.Sound pb) (hinv : m.Inv n) {ks : List ℕ}
    {outcome : Option BatchError} (hstep : Step crc pb json name n s (.commit ks outcome) t) :
    ∃ group m', Node.Step json pb name n m (.commit group outcome) m' ∧ t.Shows m' ∧
      t.Sound pb := by
  obtain ⟨hup, hnodup, cs, hks, rfl⟩ := hstep
  obtain ⟨group, rfl, rfl, hgroup⟩ := h.exists_group hs hinv hks
  obtain ⟨keep, hnode, hanswers⟩ := h.exists_stored json hinv hnodup outcome
    fun g hg => (hgroup g hg).2
  -- an upload of the group takes the step of an answer
  have hstep : ∀ g ∈ group, ∃ u : Upload, s.uploads[g.upload]? = some u ∧ u.Sound ∧
      u.task = .commit (m.commitOf g) ∧ u.stored = none ∧ (∃ answer found,
        Upload.Step crc pb u (.commit answer found) (u.answered (flush json s.db []
          ((group.map m.commitOf).map (commitRequest json)) outcome)
          ((group.map Completion.upload).idxOf g.upload))) ∧
      Answers m group (group.filter keep)
        (flush json s.db [] ((group.map m.commitOf).map (commitRequest json)) outcome) g u := by
    intro g hg
    obtain ⟨u, hu, htask, hanswer⟩ := hanswers g hg
    obtain ⟨hsound, -⟩ := hs.of_getElem? hu
    obtain ⟨answer, found, hstep⟩ := @Upload.step_answered crc pb u _ htask
      (flush json s.db [] ((group.map m.commitOf).map (commitRequest json)) outcome)
      ((group.map Completion.upload).idxOf g.upload)
    exact ⟨u, hu, hsound, htask, hstep.stored_none hsound.stage, ⟨answer, found, hstep⟩, hanswer⟩
  refine ⟨group, _, ⟨h.device ▸ hup, hnodup, fun g hg => (hgroup g hg).1, rfl⟩,
    ⟨?_, h.device, ?_, fun j v hv => ?_, fun j hj => ?_⟩, fun v hv => ?_⟩
  · rw [Node.afterCommit, afterCommit, List.map_map, h.db]
    rfl
  · rw [hnode, Node.store, h.committed]
    refine Eq.trans ?_ List.map_append.symm
    refine congrArg _ (storedBy_afterCommit fun g hg => ?_).symm
    obtain ⟨u, hu, -, htask, hnone, -, hanswer⟩ := hstep g hg
    exact ⟨u, hu, htask, hnone, hanswer⟩
  · rw [hnode, infos_store]
    rw [getElem?_afterCommit] at hv
    obtain ⟨w, hw, rfl⟩ := Option.map_eq_some_iff.mp hv
    by_cases hmem : j ∈ group.map Completion.upload
    · obtain ⟨g, hg, rfl⟩ := List.mem_map.mp hmem
      obtain ⟨u, hu, hsound, htask, hnone, ⟨answer, found, hu'⟩, hkept, hdropped⟩ := hstep g hg
      obtain rfl := Option.some.inj (hu.symm.trans hw)
      rw [if_pos hmem]
      split_ifs with hkeep
      · rw [(hkept hkeep).2]
        exact ⟨.refl _, fun _ => rfl⟩
      · obtain ⟨-, r, heq⟩ := hdropped hkeep
        have hb := (h.infos _ u hu).step hsound.stage [] hu' ?_ rfl rfl
          (Upload.calm_of_task htask fun _ _ => by simp)
        · rwa [List.append_nil] at hb
        · rw [heq]
          exact (Upload.stored_rollback _ _ _).trans hnone
    · rw [if_neg hmem, if_neg fun hkeep =>
        hmem ((List.filter_sublist.map Completion.upload).subset hkeep)]
      exact h.infos j w hw
  · rw [getElem?_afterCommit, Option.map_eq_none_iff] at hj
    rw [hnode, infos_store, h.fresh j hj, ite_self]
  · obtain ⟨j, hv⟩ := List.mem_iff_getElem?.mp hv
    rw [getElem?_afterCommit] at hv
    obtain ⟨w, hw, rfl⟩ := Option.map_eq_some_iff.mp hv
    split_ifs with hmem
    · obtain ⟨g, hg, rfl⟩ := List.mem_map.mp hmem
      obtain ⟨u, hu, hsound, -, -, ⟨answer, found, hu'⟩, -⟩ := hstep g hg
      obtain rfl := Option.some.inj (hu.symm.trans hw)
      exact ⟨hsound.step (e := .commit answer found) trivial hu', .step hsound.stage hu'⟩
    · exact hs.of_getElem? hw

/-- A step of one upload that the node takes no part in. -/
theorem Shows.of_upload (h : s.Shows m) (hs : s.Sound pb) (hk : s.uploads[k]? = some u)
    {e : UploadEvent} (hstep : Upload.Step crc pb u e u') (he : e.Proper)
    (hcommit : ∀ found, e ≠ .commit none found) (hgets : Upload.gets e = [])
    (hcalm : u.Calm) (ht : t.uploads = s.uploads.set k u') (hdb : t.db = s.db)
    (hdevice : t.device = s.device) (hstored : t.stored = s.stored) :
    t.Shows m ∧ t.Sound pb :=
  have hsound := (hs.of_getElem? hk).1
  ⟨h.idle hs hk hstep hcommit hgets hcalm ht hdb hdevice hstored,
    hs.set ht ⟨hsound.step he hstep, .step hsound.stage hstep⟩⟩

/-- Every step of a process is one of its node, or none. -/
theorem Shows.step (h : s.Shows m) (hs : s.Sound pb) (hinv : m.Inv n) {e : ArchiveEvent}
    (hstep : Step crc pb json name n s e t) :
    ∃ events m', Run (Node.Step json pb name n) m events m' ∧ t.Shows m' ∧ t.Sound pb := by
  have hone : ∀ {e m'}, Node.Step json pb name n m e m' → Run (Node.Step json pb name n) m [e] m' :=
    fun he => Run.cons he .nil
  cases e with
  | start =>
    obtain ⟨hdown, d, db, hnew, rfl⟩ := hstep
    exact ⟨_, _, hone (e := .start) ⟨h.device.trans hdown, d, db, h.db ▸ hnew, rfl⟩,
      ⟨rfl, rfl, h.committed, h.infos, h.fresh⟩, hs⟩
  | startCrash done =>
    obtain ⟨hdown, db, hinit, rfl⟩ := hstep
    exact ⟨_, _, hone (e := .startCrash done) ⟨h.device.trans hdown, db, h.db ▸ hinit, rfl⟩,
      ⟨rfl, h.device, h.committed, h.infos, h.fresh⟩, hs⟩
  | crash disk =>
    obtain ⟨-, rfl⟩ := hstep
    exact ⟨_, _, hone (e := .crash) rfl, shows_of_nil rfl rfl h.db rfl h.committed,
      sound_of_nil rfl⟩
  | accept =>
    obtain ⟨-, rfl⟩ := hstep
    refine ⟨[], m, .nil, ⟨h.db, h.device, h.committed, fun j v hv => ?_, fun j hj => ?_⟩,
      fun v hv => ?_⟩
    · rw [List.getElem?_append] at hv
      split_ifs at hv with hlt
      · exact h.infos j v hv
      · rw [h.fresh j (List.getElem?_eq_none (Nat.le_of_not_lt hlt))]
        obtain rfl := List.mem_singleton.mp (List.mem_of_getElem? hv)
        exact ⟨.refl _, fun _ => rfl⟩
    · rw [List.getElem?_eq_none_iff, List.length_append] at hj
      exact h.fresh j (List.getElem?_eq_none (by omega))
    · rcases List.mem_append.mp hv with hv | hv
      · exact hs v hv
      · obtain rfl := List.mem_singleton.mp hv
        exact ⟨Upload.sound_new, Upload.submits_of_task rfl nofun⟩
  | call k c =>
    obtain ⟨u, u', hk, hu, rfl⟩ := hstep
    exact ⟨[], m, .nil, h.of_upload hs hk hu trivial nofun rfl (Upload.calm_of_task hu.1 nofun)
      rfl rfl rfl rfl⟩
  | alloc k =>
    obtain ⟨size, m', he, h'⟩ := h.alloc hs hinv hstep
    exact ⟨_, m', hone he, h'⟩
  | write k outcome ctx =>
    obtain ⟨u, u', buf, results, token, respond, disk, written, err, hk, htask, -, -, hu, rfl⟩ :=
      hstep
    exact ⟨[], m, .nil, h.of_upload hs hk hu trivial nofun rfl (Upload.calm_of_task htask nofun)
      rfl rfl rfl rfl⟩
  | rollbackAlloc k =>
    obtain ⟨info, m', he, h'⟩ := h.rollbackAlloc hs hstep
    exact ⟨_, m', hone he, h'⟩
  | commit ks outcome =>
    obtain ⟨group, m', he, h'⟩ := h.commit hs hinv hstep
    exact ⟨_, m', hone he, h'⟩
  | noProcessor k =>
    obtain ⟨u, u', d, c, hk, -, htask, hu, rfl⟩ := hstep
    exact ⟨[], m, .nil, h.of_upload hs hk hu trivial nofun rfl (Upload.calm_of_task htask nofun)
      rfl rfl rfl rfl⟩
  | land completion junk =>
    obtain ⟨before, stray, after, -, rfl⟩ := hstep
    exact ⟨[], m, .nil, ⟨h.db, h.device, h.committed, h.infos, h.fresh⟩, hs⟩

/-- What a run of a process keeps. -/
theorem exists_node (hn : 0 < n) (hlt : n < 2 ^ 63) {db : DB} (hfresh : Fresh db) {disk : Disk}
    {events : List ArchiveEvent} (h : Run (Step crc pb json name n) (initial db disk) events s) :
    ∃ events' m, Run (Node.Step json pb name n) (Node.initial ℕ db) events' m ∧ s.Shows m ∧
      s.Sound pb ∧ m.Inv n := by
  refine h.simulate (R := fun s m => s.Shows m ∧ s.Sound pb ∧ m.Inv n)
    (fun s e t m ⟨hshows, hs, hinv⟩ hstep => ?_)
    ⟨shows_of_nil rfl rfl rfl rfl rfl, sound_of_nil rfl, .initial hfresh⟩
  obtain ⟨events, m', hrun, hshows', hs'⟩ := hshows.step hs hinv hstep
  exact ⟨events, m', hrun, hshows', hs',
    hrun.invariant (fun _ _ _ ht he => (ht.step hn hlt he).1) hinv⟩

/-! ## An upload and a crash -/

theorem straySegment_of_waits {outcome : Segment → SubmitOutcome}
    (h : ∀ segment, (outcome segment).Waits) : ∀ (segments : List Segment) (ctx : Context),
    straySegment outcome segments ctx = []
  | [], _ => rfl
  | segment :: segments, ctx => by
    have hsegment := h segment
    unfold straySegment
    split
    · rfl
    split
    · rename_i heq
      rw [heq] at hsegment
      exact hsegment.elim
    · split_ifs
      · rfl
      · exact straySegment_of_waits h segments _
    · rfl

/-- A write that is waited for to its end leaves nothing in flight. -/
theorem strayWrite_of_waits {outcome : Segment → SubmitOutcome}
    (h : ∀ segment, (outcome segment).Waits) (ctx : Context) (data : Bytes)
    (results : List Result) : strayWrite outcome ctx data results = [] := by
  unfold strayWrite
  split_ifs
  · rfl
  split
  · rfl
  split_ifs
  · rfl
  · exact straySegment_of_waits h _ _

theorem waits_full (segment : Segment) : (SubmitOutcome.full segment).Waits :=
  trivial

theorem stored_of_leads {d : BlockDevice} {disk : Disk} {db : DB} {x : Session}
    (h : u.Leads d disk db x) : u.stored = x.stored := by
  obtain ⟨-, -, ⟨hshows, -⟩ | ⟨v, tokens, r, rfl, -, -, -, hstored, -⟩⟩ := h
  · exact hshows.stored
  · exact (Upload.stored_rollback v tokens r).trans hstored

/-- A process that is up, with one upload. -/
def only (db : DB) (d : BlockDevice) (disk : Disk) (u : Upload) : Archive :=
  ⟨db, some d, disk, [u], [], []⟩

theorem Step.call_only {c : UploadCall} (hu : Upload.Step crc pb u (.call c) u') (db : DB)
    (d : BlockDevice) (disk : Disk) :
    Step crc pb json name n (only db d disk u) (.call 0 c) (only db d disk u') :=
  ⟨u, u', rfl, hu, rfl⟩

/-- The record is stored, when the upload is alone in its group and none is found. -/
theorem exists_stored_committing {results token : List Result}
    (hproper : FlushBlockInfo.Proper ⟨results, token⟩) (metaBytes : Bytes) (d : BlockDevice)
    (disk : Disk) {db : DB} (hnil : ∀ metaKey, db (fileMetaKey metaKey) = []) : ∃ t u fileMeta,
    Step crc32Update protobuf (fun _ => none) "lun" 1
      (only db d disk (Server.committingUpload results token metaBytes)) (.commit [0] none) t ∧
    t.disk = disk ∧ t.uploads = [u] ∧ u.stored = some fileMeta ∧ u.putData = [[0#8]] ∧
    u.responses = [.cont, .success] ∧ t.stored = [⟨fileMeta, [[0#8]]⟩] := by
  generalize hc : (Server.committingUpload results token metaBytes).task = task
  obtain ⟨c, rfl⟩ : ∃ c, task = .commit c := ⟨_, hc.symm⟩
  have haligned : ∀ r ∈ c.results, r.Aligned := by
    obtain rfl := UploadTask.commit.inj hc
    exact aligned_flattenBlockResults (List.forall_mem_singleton.mpr hproper)
  let x : Session := ⟨(Server.committingUpload results token metaBytes).handler, .idle, d, disk, db,
    (Server.committingUpload results token metaBytes).responses, none⟩
  have hstored := stored_of_leads (@Upload.leads_committed (fun _ => none)
    (Server.committingUpload results token metaBytes) x rfl rfl rfl [] [] none c _ rfl)
  rw [Session.commit_alone haligned (Commit.lookup_of_nil (hnil _))] at hstored
  obtain ⟨u, hanswered⟩ : ∃ u, u = (Server.committingUpload results token metaBytes).answered
      (flush (fun _ => none) db [] ([c].map (commitRequest fun _ => none)) none) 0 := ⟨_, rfl⟩
  have hu : u.stored = some c.fileMeta := by
    rw [hanswered, Upload.answered, hc]
    exact hstored
  have hdata : u.putData = [[0#8]] := by
    rw [hanswered]
    exact Upload.putData_answered _ _ _
  have hresponses : u.responses = [.cont, .success] := by
    rw [Upload.answered, hc] at hanswered
    simp only at hanswered
    rcases Upload.committed_cases (Server.committingUpload results token metaBytes) c _ _ with
      ⟨r, heq⟩ | heq <;> rw [hanswered, heq] at hu ⊢
    · exact absurd ((Upload.stored_rollback _ _ _).symm.trans hu) (by simp [Server.committingUpload,
        Server.writingUpload, Server.lastFlush, Upload.flush, Server.oneByteUpload, Upload.new])
    · rfl
  have huploads : (afterCommit (fun _ => none)
      (only db d disk (Server.committingUpload results token metaBytes)) [0] [c] none).uploads =
        [u] := by
    simp only [afterCommit, only, List.mapIdx_cons, List.mapIdx_nil, List.mem_singleton, if_true,
      List.idxOf_cons_self, hanswered]
  refine ⟨_, u, c.fileMeta, ⟨rfl, List.nodup_singleton 0, [c], .cons ⟨_, rfl, hc⟩ .nil, rfl⟩, rfl,
    huploads, hu, hdata, hresponses, ?_⟩
  change [] ++ storedBy (afterCommit (fun _ => none)
    (only db d disk (Server.committingUpload results token metaBytes)) [0] [c] none).uploads [0] = _
  rw [List.nil_append, huploads, storedBy, List.filterMap_cons, List.getElem?_cons_zero,
    Option.bind_some, hu, hdata]
  rfl

/-- The last flush of an upload and its commit, from a device that has just been opened. -/
theorem exists_steps_stored : ∃ (db : DB) (d d' : BlockDevice) (disk : Disk) (v w u : Upload)
    (fileMeta : FileMeta) (t : Archive),
    Step crc32Update protobuf (fun _ => none) "lun" 1 (initial emptyDB fun _ => 0#8) .start
      ⟨db, some d, fun _ => 0#8, [], [], []⟩ ∧
    Step crc32Update protobuf (fun _ => none) "lun" 1
      (only db d (fun _ => 0#8) Server.lastFlush) (.alloc 0) (only db d' (fun _ => 0#8) v) ∧
    Step crc32Update protobuf (fun _ => none) "lun" 1 (only db d' (fun _ => 0#8) v)
      (.write 0 SubmitOutcome.full none) (only db d' disk w) ∧
    Step crc32Update protobuf (fun _ => none) "lun" 1 (only db d' disk w) (.commit [0] none) t ∧
    t.disk = disk ∧ t.uploads = [u] ∧ u.stored = some fileMeta ∧ u.putData = [[0#8]] ∧
    u.responses = [.cont, .success] ∧ t.stored = [⟨fileMeta, [[0#8]]⟩] := by
  obtain ⟨d, db, hnew, hinv, hframe⟩ := (Node.Inv.initial fresh_emptyDB :
    Node.Inv 1 (Node.initial ℕ emptyDB)).start (fun _ => none) "lun" (by decide) (by decide) rfl
  obtain ⟨htotal, howns⟩ := hinv.owns d rfl
  have hfree : d.allocator.isFree 0 = true := by
    by_contra hfree
    have hmem := (howns.mem_iff 0).mpr ⟨by rw [htotal]; decide, Bool.eq_false_iff.mpr hfree⟩
    exact absurd hmem (Multiset.notMem_zero 0)
  have hnil : ∀ metaKey, db (fileMetaKey metaKey) = [] := fun metaKey =>
    hframe _ fun i h => absurd (List.cons.inj h).1 (by decide)
  obtain ⟨d', results, token, halloc, hproper, -, -, hblocks, -⟩ :=
    BlockDevice.alloc_one_block (howns.inv (by rw [htotal]; decide)) htotal hfree
  have hlen : Server.oneByteHandler.startFlush.2.length = 4096 * (blocksOf token).length := by
    rw [hblocks]
    exact Server.length_oneByteHandler
  obtain ⟨disk, hwrite⟩ := writeAllocated_full (fun _ => 0#8) hproper.pos hlen
  rw [← show results = token.map Result.toBytes from hproper.results_eq,
    Server.length_oneByteHandler] at hwrite
  obtain ⟨metaBytes, hcommitting⟩ := Server.step_committing hproper hblocks
  obtain ⟨t, u, fileMeta, hcommit, ht⟩ := exists_stored_committing hproper metaBytes d' disk hnil
  refine ⟨db, d, d', disk, Server.writingUpload results token,
    Server.committingUpload results token metaBytes, u, fileMeta, t, ⟨rfl, d, db, hnew, rfl⟩,
    ?_, ?_, hcommit, ht⟩
  · refine ⟨_, _, d, d', _, _, _, rfl, rfl, Server.task_lastFlush, ?_,
      Server.step_writing results token, rfl⟩
    rw [Server.length_oneByteHandler]
    exact halloc
  · refine ⟨_, _, _, _, _, _, disk, _, _, rfl, rfl, nofun, hwrite, hcommitting, ?_⟩
    rw [strayWrite_of_waits waits_full]
    rfl

/-- A process crashes and comes up again. -/
theorem exists_steps_restart {events : List ArchiveEvent}
    (hrun : Run (Step crc32Update protobuf (fun _ => none) "lun" 1)
      (initial emptyDB fun _ => 0#8) events t) :
    ∃ d db, Step crc32Update protobuf (fun _ => none) "lun" 1 t (.crash t.disk)
        ⟨t.db, none, t.disk, [], [], t.stored⟩ ∧
      Step crc32Update protobuf (fun _ => none) "lun" 1
        ⟨t.db, none, t.disk, [], [], t.stored⟩ .start ⟨db, some d, t.disk, [], [], t.stored⟩ := by
  have hcrash : Step crc32Update protobuf (fun _ => none) "lun" 1 t (.crash t.disk)
      ⟨t.db, none, t.disk, [], [], t.stored⟩ := ⟨fun a _ _ => rfl, rfl⟩
  obtain ⟨events', m, -, hshows, -, hinv⟩ :=
    exists_node (by decide) (by decide) fresh_emptyDB (hrun.snoc hcrash)
  obtain ⟨d, db, hnew, -⟩ := hinv.start (fun _ => none) "lun" (by decide) (by decide)
    hshows.device
  rw [hshows.db] at hnew
  exact ⟨d, db, hcrash, rfl, d, db, hnew, rfl⟩

/-- An upload goes through, the process crashes and comes up again. -/
theorem exists_run_stored : ∃ (s : Archive) (u : Upload) (fileMeta : FileMeta) (disk : Disk)
    (d : BlockDevice) (db : DB),
    Run (Step crc32Update protobuf (fun _ => none) "lun" 1) (initial emptyDB fun _ => 0#8)
      [.start, .accept, .call 0 (.start requestA), .call 0 (.put [0#8]), .call 0 .complete,
        .alloc 0, .write 0 SubmitOutcome.full none, .commit [0] none] s ∧
    s.uploads = [u] ∧ u.stored = some fileMeta ∧ u.putData = [[0#8]] ∧
    Run (Step crc32Update protobuf (fun _ => none) "lun" 1) s [.crash disk, .start]
      ⟨db, some d, disk, [], [], [⟨fileMeta, [[0#8]]⟩]⟩ := by
  obtain ⟨db, d, d', disk, v, w, u, fileMeta, t, hopen, hallot, hfull, hcommit, -, huploads, hu,
    hdata, -, hstored⟩ := exists_steps_stored
  have haccept : Step crc32Update protobuf (fun _ => none) "lun" 1
      ⟨db, some d, fun _ => 0#8, [], [], []⟩ .accept (only db d (fun _ => 0#8) .new) :=
    ⟨rfl, rfl⟩
  have hrun := (Run.nil.snoc hopen).snoc haccept
    |>.snoc (Step.call_only Server.step_start db d _)
    |>.snoc (Step.call_only Server.step_oneByte db d _)
    |>.snoc (Step.call_only Server.step_lastFlush db d _)
    |>.snoc hallot |>.snoc hfull |>.snoc hcommit
  obtain ⟨d₁, db₁, hcrash, hrestart⟩ := exists_steps_restart hrun
  rw [hstored] at hcrash hrestart
  exact ⟨t, u, fileMeta, t.disk, d₁, db₁, hrun, huploads, hu, hdata,
    .cons hcrash (.cons hrestart .nil)⟩

/-! ## The refinement -/

/-- With all that its handlers do, a process is a node : it allocates, rolls back and commits as
one from the same database on, over crashes and restarts. -/
theorem refines_node (hn : 0 < n) (hlt : n < 2 ^ 63) {db : DB} (hfresh : Fresh db) {disk : Disk}
    {events : List ArchiveEvent} (h : Run (Step crc pb json name n) (initial db disk) events s) :
    ∃ events' m, Run (Node.Step json pb name n) (Node.initial ℕ db) events' m ∧ s.Shows m := by
  obtain ⟨events', m, hrun, hshows, -⟩ := exists_node hn hlt hfresh h
  exact ⟨events', m, hrun, hshows⟩

/-- An upload, a crash and a restart. -/
theorem refines_node_restart : ∃ (events : List ArchiveEvent) (s : Archive)
    (events' : List (NodeEvent ℕ)) (m : Node ℕ),
    Run (Step crc32Update protobuf (fun _ => none) "lun" 1) (initial emptyDB fun _ => 0#8)
      events s ∧ s.stored.length = 1 ∧
    Run (Node.Step (fun _ => none) protobuf "lun" 1) (Node.initial ℕ emptyDB) events' m ∧
      s.Shows m := by
  obtain ⟨s, u, fileMeta, disk, d, db, hrun, -, -, -, hlater⟩ := exists_run_stored
  obtain ⟨events', m, hrun', hshows⟩ :=
    refines_node (by decide) (by decide) fresh_emptyDB (hrun.append hlater)
  exact ⟨_, _, events', m, hrun.append hlater, rfl, hrun', hshows⟩

/-! ## Who owns the blocks -/

/-- The blocks of records that were committed. -/
def storedBlocks (s : Archive) : List ℕ :=
  s.stored.flatMap fun x => x.fileMeta.blocks

/-- The flushes of a node, upload by upload. -/
theorem Shows.pending_perm (h : s.Shows m) : m.pending.Perm
    ((List.range s.uploads.length).flatMap fun k => m.pending.filter (·.1 = k)) := by
  refine List.Perm.trans (List.Perm.of_eq ?_) (Node.filter_mem_perm m.pending List.nodup_range)
  refine (List.filter_eq_self.mpr fun x hx => decide_eq_true (List.mem_range.mpr ?_)).symm
  by_contra hlt
  have hnil := h.fresh x.1 (List.getElem?_eq_none (Nat.le_of_not_lt hlt))
  rw [Node.infos, List.map_eq_nil_iff, List.filter_eq_nil_iff] at hnil
  exact hnil x hx (decide_eq_true rfl)

theorem flatMap_range_getElem? {α β : Type} (f : α → List β) : ∀ l : List α,
    (List.range l.length).flatMap (fun k => (l[k]?).elim [] f) = l.flatMap f
  | [] => rfl
  | a :: l => by
    rw [List.length_cons, List.range_succ_eq_map, List.flatMap_cons, List.flatMap_map,
      List.flatMap_cons, ← flatMap_range_getElem? f l]
    rfl

/-- What uploads hold is what is pending in the node. -/
theorem Shows.liveBlocks_perm (h : s.Shows m) : m.pendingBlocks.Perm s.liveBlocks := by
  rw [liveBlocks, ← flatMap_range_getElem? _ s.uploads]
  refine ((h.pending_perm.map Prod.snd).flatMap_right _).trans ?_
  rw [List.map_flatMap, List.flatMap_assoc]
  refine List.Perm.flatMap_left _ fun k hk => ?_
  have hget := List.getElem?_eq_getElem (List.mem_range.mp hk)
  rw [hget]
  refine List.Perm.trans (List.Perm.of_eq ?_)
    (((h.infos k _ hget).perm).flatMap_right blocksOf)
  rw [Node.infos, List.map_map, List.flatMap_map, List.flatMap_map]
  rfl

theorem Shows.storedBlocks_eq (h : s.Shows m) : m.committedBlocks = s.storedBlocks := by
  rw [Node.committedBlocks, h.committed, List.flatMap_map]
  rfl

/-- The allocator holds what uploads hold and what records occupy. -/
theorem Shows.owns (h : s.Shows m) (hinv : m.Inv n) {d : BlockDevice} (hd : s.device = some d) :
    d.allocator.total = n ∧ d.allocator.Owns (s.liveBlocks + s.storedBlocks) := by
  obtain ⟨htotal, howns⟩ := hinv.owns d (h.device.trans hd)
  rw [Multiset.coe_eq_coe.mpr h.liveBlocks_perm, h.storedBlocks_eq] at howns
  exact ⟨htotal, howns⟩

theorem Shows.nodup (h : s.Shows m) (hinv : m.Inv n) :
    (s.liveBlocks ++ s.storedBlocks).Nodup := by
  rw [← h.storedBlocks_eq]
  cases hd : s.device with
  | none =>
    have hnil : s.liveBlocks = [] := by
      refine (h.liveBlocks_perm.symm.trans (List.Perm.of_eq ?_)).eq_nil
      rw [Node.pendingBlocks, hinv.down (h.device.trans hd)]
      rfl
    rw [hnil]
    exact hinv.nodup
  | some d =>
    rw [h.storedBlocks_eq, ← Multiset.coe_nodup, ← Multiset.coe_add]
    exact (h.owns hinv hd).2.nodup

/-- In every state of a process the allocated blocks are those that uploads in progress hold and
those of records that were ever stored, each once, and the bitmap marks exactly the latter. -/
theorem accounted (hn : 0 < n) (hlt : n < 2 ^ 63) {db : DB} (hfresh : Fresh db) {disk : Disk}
    {events : List ArchiveEvent} (h : Run (Step crc pb json name n) (initial db disk) events s) :
    (s.liveBlocks ++ s.storedBlocks).Nodup ∧
    (∀ d, s.device = some d →
      d.allocator.available + s.liveBlocks.length + s.storedBlocks.length = n ∧
      ∀ b, b ∈ s.liveBlocks ++ s.storedBlocks ↔ b < n ∧ d.allocator.isFree b = false) ∧
    ∃ value : ℕ → Option Bytes, (∀ i, s.db.get (familySpaceKey i) = .ok (value i)) ∧
      ∀ b, spaceBit value b = true ↔ b ∈ s.storedBlocks := by
  obtain ⟨events', m, -, hshows, -, hinv⟩ := exists_node hn hlt hfresh h
  refine ⟨hshows.nodup hinv, fun d hd => ?_, ?_⟩
  · obtain ⟨rfl, howns⟩ := hshows.owns hinv hd
    rw [Multiset.coe_add] at howns
    refine ⟨?_, fun b => howns.mem_iff b⟩
    have havail := howns.available
    rw [Multiset.coe_card, List.length_append, Nat.cast_add] at havail
    omega
  · obtain ⟨value, hget, hbits⟩ := hinv.space.get
    refine ⟨value, fun i => ?_, fun b => ?_⟩
    · rw [← hshows.db]
      exact hget i
    · rw [hbits, hshows.storedBlocks_eq]

/-- After an upload, a crash and a restart the device is full. -/
theorem accounted_restart : ∃ (events : List ArchiveEvent) (s : Archive) (d : BlockDevice),
    Run (Step crc32Update protobuf (fun _ => none) "lun" 1) (initial emptyDB fun _ => 0#8)
      events s ∧ s.stored.length = 1 ∧ s.device = some d ∧
      d.allocator.available + s.storedBlocks.length = 1 := by
  obtain ⟨s, u, fileMeta, disk, d, db, hrun, -, -, -, hlater⟩ := exists_run_stored
  obtain ⟨-, hd, -⟩ := accounted (by decide) (by decide) fresh_emptyDB (hrun.append hlater)
  exact ⟨_, _, d, hrun.append hlater, rfl, rfl, by simpa [liveBlocks] using (hd d rfl).1⟩

end Archive

end Corgi
