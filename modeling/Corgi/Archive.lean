import Corgi.Aio
import Corgi.Records
import Corgi.Server

/-!
# The server over crashes and restarts

The process with all its uploads, as their handlers make their calls, on one device with its
disk and its database. Uploads are answered together by the group commit. A crash loses the
allocator and the uploads, and may leave anything in the blocks of uploads that were not
committed.

What uploads hold is in order as long as nothing is given back (`Upload.Step.tokens_of_calm`),
what they submit is what they have flushed (`Upload.Submits`), and so an upload that commits is
known by its tokens (`Upload.Backed.eq_of_commit`).
-/

set_option linter.unusedSectionVars false

namespace Corgi

/-! ## The model -/

/-- The write that is in flight when the loop over `segments` ends because its context is
cancelled. -/
def straySegment (outcome : Segment → SubmitOutcome) : List Segment → Context → List Segment
  | [], _ => []
  | segment :: segments, ctx =>
    match ctx.check with
    | .error _ => []
    | .ok ctx =>
      match outcome segment with
      | .contextDone _ => [segment]
      | .completed n none _ =>
        if n ≠ segment.data.length then [] else straySegment outcome segments ctx
      | _ => []

/-- The write that `WriteAllocated` leaves in flight. -/
def strayWrite (outcome : Segment → SubmitOutcome) (ctx : Context) (data : Bytes)
    (results : List Result) : List Segment :=
  if data = [] ∨ data.length % 4096 ≠ 0 then []
  else match buildSegments data results ctx 0 with
    | .error _ => []
    | .ok (segments, cursor, ctx) =>
      if cursor ≠ data.length then [] else straySegment outcome segments ctx

/-- A record that was committed, and the data of the calls of `Put` before it. -/
structure StoredUpload where
  fileMeta : FileMeta
  chunks : List Bytes

/-- The server process and what it leaves on disk and in the database, over its crashes. -/
structure Archive where
  db : DB
  /-- The device, while the process is up. -/
  device : Option BlockDevice
  disk : Disk
  uploads : List Upload
  /-- Writes in flight that no upload waits for. -/
  strays : List Segment
  /-- All uploads ever committed. -/
  stored : List StoredUpload

/-- The steps of the process and of its uploads, and the crashes. -/
inductive ArchiveEvent
  /-- Open the device. -/
  | start
  /-- The process stops while it initialises the bitmap. -/
  | startCrash (done : ℕ)
  /-- The disk is left so. -/
  | crash (disk : Disk)
  | accept
  | call (k : ℕ) (c : UploadCall)
  | alloc (k : ℕ)
  | write (k : ℕ) (outcome : Segment → SubmitOutcome) (ctx : Context)
  | rollbackAlloc (k : ℕ)
  /-- The requests of these uploads are flushed together. -/
  | commit (ks : List ℕ) (outcome : Option BatchError)
  | noProcessor (k : ℕ)
  /-- A write that no upload waits for is completed. -/
  | land (completion : WriteCompletion) (junk : Bytes)

namespace Upload

/-- The upload is answered by the group commit, as the request `i` of its group. -/
def answered (u : Upload) (o : Flushed Bool) (i : ℕ) : Upload :=
  match u.task with
  | .commit c => u.committed c ((o.answers[i]?).join.map .commit)
    (decide (o.outputs[i]? = some (some true)))
  | _ => u

/-- The tokens that an upload holds and has not stored. -/
def liveTokens (u : Upload) : List (List Result) :=
  if u.stored = none then u.tokens else []

end Upload

namespace Archive

/-- A process that was never up. -/
def initial (db : DB) (disk : Disk) : Archive :=
  { db, device := none, disk, uploads := [], strays := [], stored := [] }

/-- The upload `k` moves on. -/
def setUpload (s : Archive) (k : ℕ) (u : Upload) : Archive :=
  { s with uploads := s.uploads.set k u }

/-- The blocks that uploads hold and have not stored. -/
def liveBlocks (s : Archive) : List ℕ :=
  s.uploads.flatMap fun u => Upload.blocksOfTokens u.liveTokens

/-- The records of the uploads `ks` that are stored. -/
def storedBy (uploads : List Upload) (ks : List ℕ) : List StoredUpload :=
  ks.filterMap fun k => uploads[k]?.bind fun u => u.stored.map fun fileMeta =>
    ⟨fileMeta, u.putData⟩

variable (crc : BitVec 32 → Bytes → BitVec 32) (pb : Protobuf) (json : JSONDeleteMark)
  (name : String) (n : ℕ)

/-- The uploads `ks`, which commit `cs`, are answered. -/
def afterCommit (s : Archive) (ks : List ℕ) (cs : List Commit) (outcome : Option BatchError) :
    Archive :=
  let o := flush json s.db [] (cs.map (commitRequest json)) outcome
  let uploads := s.uploads.mapIdx fun k u => if k ∈ ks then u.answered o (ks.idxOf k) else u
  { s with db := o.after, uploads, stored := s.stored ++ storedBy uploads ks }

/-- One step of a process whose device has `n` blocks. -/
def Step (s : Archive) : ArchiveEvent → Archive → Prop
  | .start, t => s.device = none ∧ ∃ d db,
    newBlockDevice json name (4096 * n) s.db = .ok (d, db) ∧ t = { s with db, device := some d }
  | .startCrash done, t => s.device = none ∧ ∃ db,
    tryInitBlockSpace json (4096 * n) done s.db = .ok db ∧ t = { s with db }
  | .crash disk, t =>
    (∀ a, a / 4096 ∉ s.liveBlocks → (∀ stray ∈ s.strays, a / 4096 ∉ stray.blocks) →
      disk a = s.disk a) ∧
    t = { s with device := none, disk, uploads := [], strays := [] }
  | .accept, t => s.device.isSome ∧ t = { s with uploads := s.uploads ++ [.new] }
  | .call k c, t => ∃ u u', s.uploads[k]? = some u ∧ Upload.Step crc pb u (.call c) u' ∧
    t = s.setUpload k u'
  | .alloc k, t => ∃ u u' d d' buf respond outcome, s.uploads[k]? = some u ∧ s.device = some d ∧
    u.task = .alloc buf respond ∧ d.alloc buf.length = (d', outcome) ∧
    Upload.Step crc pb u (.alloc outcome) u' ∧ t = setUpload { s with device := some d' } k u'
  | .write k outcome ctx, t => ∃ u u' buf results token respond disk written err,
    s.uploads[k]? = some u ∧ u.task = .write buf results token respond ∧
    -- A flush of `Put` has a context that is never cancelled.
    (respond = true → ctx = none ∧ ∀ segment, (outcome segment).Waits) ∧
    writeAllocated outcome ctx s.disk buf results = (disk, written, err) ∧
    Upload.Step crc pb u (.write written err) u' ∧
    t = setUpload
      { s with disk, strays := s.strays ++ strayWrite outcome ctx buf results } k u'
  | .rollbackAlloc k, t => ∃ u u' d token tokens r, s.uploads[k]? = some u ∧ s.device = some d ∧
    u.task = .rollback (token :: tokens) r ∧ Upload.Step crc pb u .rollbackAlloc u' ∧
    t = setUpload { s with device := some (d.rollbackAlloc token) } k u'
  | .commit ks outcome, t => s.device.isSome ∧ ks.Nodup ∧ ∃ cs,
    List.Forall₂ (fun k c => ∃ u, s.uploads[k]? = some u ∧ u.task = .commit c) ks cs ∧
    t = s.afterCommit json ks cs outcome
  | .noProcessor k, t => ∃ u u' d c, s.uploads[k]? = some u ∧ s.device = some d ∧
    u.task = .commit c ∧ Upload.Step crc pb u (.commit (some (.noProcessor
      (if c.fileMeta.lun = [] then ascii d.name.toList else c.fileMeta.lun))) false) u' ∧
    t = s.setUpload k u'
  | .land completion junk, t => ∃ before stray after, s.strays = before ++ stray :: after ∧
    t = { s with
      disk := s.disk.write stray.offset
        ((SubmitOutcome.completed completion.n completion.err junk).stored stray.data)
      strays := before ++ after }

end Archive

/-! ## What uploads hand to the group commit -/

namespace Upload

variable {crc : BitVec 32 → Bytes → BitVec 32} {pb : Protobuf} {u u' : Upload}

/-- The upload gives nothing back at present. -/
def Calm (u : Upload) : Prop :=
  ∀ tokens r, u.task ≠ .rollback tokens r

theorem calm_of_task {task : UploadTask} (h : u.task = task)
    (hne : ∀ tokens r, task ≠ .rollback tokens r) : u.Calm :=
  fun tokens r hrollback => hne tokens r (h.symm.trans hrollback)

theorem eq_nil_of_calm_rollback {tokens : List (List Result)} {r : Response}
    (h : (u.rollback tokens r).Calm) : tokens = [] := by
  by_contra hne
  rw [rollback, if_neg hne] at h
  exact h tokens r rfl

/-- What is rolled back to nothing was nothing. -/
theorem tokens_rollbackCompletedFlushes {r : Response}
    (h : (u.rollbackCompletedFlushes r).Calm) :
    (u.rollbackCompletedFlushes r).tokens = u.handler.tokens := by
  have hnil := eq_nil_of_calm_rollback h
  rw [rollbackCompletedFlushes, hnil, rollback, if_pos rfl, tokens]
  exact (List.append_nil _).trans (tokens_clearTokens u.handler)

theorem tokens_fail {held : List (List Result)} {e : UploadError} (h : (u.fail held e).Calm) :
    (u.fail held e).tokens = u.handler.tokens ++ held := by
  have hnil := eq_nil_of_calm_rollback h
  obtain ⟨rfl, htokens⟩ := List.append_eq_nil_iff.mp hnil
  rw [fail, hnil, rollback, if_pos rfl, tokens, htokens]
  exact (List.append_nil _).trans (tokens_clearTokens (u.handler.failFlush e))

theorem tokens_submit {req : PutInitRequest} (h : (u.submit pb req).Calm) :
    (u.submit pb req).tokens = u.handler.tokens := by
  rcases @submit_cases pb u req with ⟨e, heq⟩ | ⟨c, heq⟩
  · rw [heq] at h ⊢
    exact tokens_rollbackCompletedFlushes h
  · rw [heq]
    exact List.append_nil _

theorem tokens_flush (u : Upload) (respond : Bool) :
    (u.flush respond).tokens = u.handler.tokens :=
  (List.append_nil _).trans (tokens_startFlush u.handler)

theorem tokens_call {c : UploadCall} (hc : c.isAsked = true) (h : (u.call crc pb c).Calm) :
    (u.call crc pb c).tokens = u.handler.tokens := by
  cases c with
  | start req => cases hc
  | put data =>
    change (u.put crc data).Calm at h
    change (u.put crc data).tokens = _
    rcases @put_cases crc u data with ⟨r, heq⟩ | heq | heq <;> rw [heq]
    · exact List.append_nil _
    · exact List.append_nil _
    · exact tokens_flush _ true
  | complete =>
    change (u.complete pb).Calm at h
    change (u.complete pb).tokens = _
    rcases @complete_cases pb u with ⟨r, heq⟩ | ⟨r, heq⟩ | ⟨e, heq⟩ | heq | ⟨req, heq⟩ <;>
      rw [heq] at h ⊢
    · exact List.append_nil _
    · exact List.append_nil _
    · exact tokens_rollbackCompletedFlushes h
    · exact tokens_flush _ false
    · exact tokens_submit h
  | timeOut => exact tokens_rollbackCompletedFlushes h

/-- While nothing is given back, tokens are held in the order in which they were obtained. -/
theorem Step.tokens_of_calm (h : u.Stage) {e : UploadEvent} (hstep : Step crc pb u e u')
    (hcalm : u.Calm) (hcalm' : u'.Calm) : u'.tokens = u.tokens ++ gets e := by
  have hheld : u.task.tokens = [] → u.tokens = u.handler.tokens := fun htask => by
    rw [Upload.tokens, htask, List.append_nil]
  cases e with
  | call c =>
    obtain ⟨hidle, hacc, rfl⟩ := hstep
    have hidle' := hheld (by rw [hidle]; rfl)
    refine Eq.trans ?_ (hidle'.symm.trans (List.append_nil _).symm)
    cases c with
    | start req =>
      obtain rfl := h.of_nil hacc
      rfl
    | _ => exact tokens_call (u := u.called _) rfl hcalm'
  | alloc outcome =>
    obtain ⟨buf, respond, htask, rfl⟩ := hstep
    rw [hheld (by rw [htask]; rfl)]
    cases outcome with
    | error e => exact tokens_fail hcalm'
    | ok res => rfl
  | write n err =>
    obtain ⟨buf, results, token, respond, htask, rfl⟩ := hstep
    obtain ⟨-, hholding, ⟨infos, hinfos, -⟩, -, hproper⟩ :=
      h.of_flushing (Or.inr ⟨buf, results, token, htask⟩)
    have hne := (hproper buf results token htask).token_ne
    have htokens : u.tokens ++ gets (.write n err) =
        (u.handler.completeFlush results token).tokens := by
      rw [tokens_completeFlush hinfos hne, Upload.tokens, htask]
      exact List.append_nil _
    rw [htokens]
    rcases @written_cases pb u hholding.initReq buf results token respond n err with
      ⟨e, heq⟩ | ⟨-, heq⟩ | ⟨-, req, heq⟩ <;> rw [heq] at hcalm' ⊢
    · exact absurd (List.append_eq_nil_iff.mp (eq_nil_of_calm_rollback hcalm')).1 (by simp)
    · exact List.append_nil _
    · exact tokens_submit hcalm'
  | rollbackAlloc =>
    obtain ⟨token, tokens, r, htask, -⟩ := hstep
    exact absurd htask (hcalm _ _)
  | commit answer found =>
    obtain ⟨c, htask, rfl⟩ := hstep
    refine Eq.trans ?_ ((hheld (by rw [htask]; rfl)).symm.trans (List.append_nil _).symm)
    rcases u.committed_cases c answer found with ⟨r, heq⟩ | heq <;> rw [heq] at hcalm' ⊢
    · exact tokens_rollbackCompletedFlushes hcalm'
    · exact List.append_nil _

theorem liveTokens_of_none (h : u.stored = none) : u.liveTokens = u.tokens :=
  if_pos h

/-- An upload that is giving back tokens holds nothing else. -/
theorem tokens_of_rollback {tokens : List (List Result)} {r : Response} (h : u.Stage)
    (htask : u.task = .rollback tokens r) : u.tokens = tokens := by
  rw [Upload.tokens, (h.of_rollback htask).2.2.1, htask]
  rfl

/-- What an upload holds is in the hands of a node, in order as long as nothing is given
back. -/
structure Backed (u : Upload) (infos : List FlushBlockInfo) : Prop where
  perm : (infos.map FlushBlockInfo.token).Perm u.liveTokens
  ordered : u.Calm → infos.map FlushBlockInfo.token = u.liveTokens

/-- A step that gives no token keeps what backs the upload, and adds what it gets. -/
theorem Backed.step {infos : List FlushBlockInfo} (hb : u.Backed infos) (h : u.Stage)
    (got : List FlushBlockInfo) {e : UploadEvent} (hstep : Step crc pb u e u')
    (hstored : u'.stored = none) (hgot : got.map FlushBlockInfo.token = gets e)
    (hgives : u.gives e = []) (hcalm : u.Calm) : u'.Backed (infos ++ got) := by
  have hnone := hstep.stored_none h
  obtain ⟨-, -, hperm⟩ := hstep.tokens h
  rw [hgives, List.nil_append] at hperm
  have hordered := hb.ordered hcalm
  rw [liveTokens_of_none hnone] at hordered
  refine ⟨?_, fun hcalm' => ?_⟩ <;>
    rw [List.map_append, hordered, hgot, liveTokens_of_none hstored]
  · exact hperm
  · exact (hstep.tokens_of_calm h hcalm hcalm').symm

/-- An upload that commits, and the tokens that it hands to the group commit. -/
theorem Stage.of_commit {c : Commit} (h : u.Stage) (htask : u.task = .commit c) :
    u.stored = none ∧ .complete ∈ u.calls ∧ (∀ info ∈ u.handler.blockInfoList, info.Proper) ∧
      u.liveTokens = u.handler.blockInfoList.map FlushBlockInfo.token := by
  obtain ⟨hholding, hcalls, hproper, -⟩ := h.of_committing htask
  refine ⟨hholding.stored, hcalls, hproper, ?_⟩
  rw [liveTokens_of_none hholding.stored, tokens, htask]
  refine (List.append_nil _).trans (List.filter_eq_self.mpr fun token htoken => ?_)
  obtain ⟨info, hinfo, rfl⟩ := List.mem_map.mp htoken
  exact decide_eq_true (hproper info hinfo).token_ne

/-- Proper flushes are known by their tokens. -/
theorem eq_map_token {infos : List FlushBlockInfo} (h : ∀ info ∈ infos, info.Proper) :
    infos = (infos.map FlushBlockInfo.token).map fun token =>
      ⟨token.map Result.toBytes, token⟩ := by
  rw [List.map_map]
  refine (List.map_id infos).symm.trans (List.map_congr_left fun info hinfo => ?_)
  rw [Function.comp_apply, ← (h info hinfo).results_eq]
  rfl

/-- What backs an upload that commits is what it has flushed. -/
theorem Backed.eq_of_commit {infos : List FlushBlockInfo} {c : Commit} (hb : u.Backed infos)
    (h : u.Stage) (htask : u.task = .commit c) (hproper : ∀ info ∈ infos, info.Proper) :
    infos = u.handler.blockInfoList := by
  obtain ⟨-, -, hproper', hlive⟩ := h.of_commit htask
  rw [eq_map_token hproper, eq_map_token hproper', hb.ordered (calm_of_task htask nofun), hlive]

theorem putData_answered (u : Upload) (o : Flushed Bool) (i : ℕ) :
    (u.answered o i).putData = u.putData := by
  rw [answered]
  split
  · rw [putData, (answers_committed u _ _ _).1, putData]
  · rfl

theorem step_answered {c : Commit} (htask : u.task = .commit c) (o : Flushed Bool) (i : ℕ) :
    ∃ answer found, Step crc pb u (.commit answer found) (u.answered o i) := by
  refine ⟨(o.answers[i]?).join.map .commit, decide (o.outputs[i]? = some (some true)), c, htask, ?_⟩
  rw [answered, htask]

end Upload

end Corgi
