import Corgi.Balance
import Corgi.ReadBack

/-!
# Uploads that share a device

Any number of uploads on one device, each a handler that makes its calls of the device one at a
time, in any interleaving.

`all_or_nothing` : the allocator holds exactly what was allocated before and the tokens that
uploads hold, and an upload whose last call is answered has given back each token it obtained
once, or has stored its record and given back none.
-/

set_option linter.unusedSectionVars false

namespace Corgi

/-! ## The model -/

/-- A device, its disk and its database, and the uploads to it. -/
structure Server where
  device : BlockDevice
  disk : Disk
  db : DB
  uploads : List Upload

/-- The steps of the uploads, and what others do meanwhile. -/
inductive ServerEvent
  /-- A new upload. -/
  | accept
  /-- A step of upload `k`. -/
  | upload (k : ℕ) (e : UploadEvent)
  /-- Others write to the disk and the database. -/
  | others (disk : Disk) (db : DB)

/-- What the group commit answered the upload `k` in an event. -/
def ServerEvent.commitAnswer (k : ℕ) : ServerEvent → List (Option UploadError × Bool)
  | upload k' e => if k' = k then e.commitAnswer else []
  | _ => []

namespace Server

variable (crc : BitVec 32 → Bytes → BitVec 32) (pb : Protobuf) (json : JSONDeleteMark)

/-- What an event of the upload `u` does to the device, the disk and the database, which answer
it so. -/
def Effect (s : Server) (u : Upload) : UploadEvent → BlockDevice → Disk → DB → Prop
  | .call _, device, disk, db => device = s.device ∧ disk = s.disk ∧ db = s.db
  | .alloc outcome, device, disk, db => ∃ buf respond, u.task = .alloc buf respond ∧
    s.device.alloc buf.length = (device, outcome) ∧ disk = s.disk ∧ db = s.db
  | .write written err, device, disk, db => ∃ buf results token respond outcome ctx,
    u.task = .write buf results token respond ∧
      -- A flush of `Put` has a context that is never cancelled.
      (respond = true → ctx = none) ∧
      writeAllocated outcome ctx s.disk buf results = (disk, written, err) ∧
      device = s.device ∧ db = s.db
  | .rollbackAlloc, device, disk, db => ∃ token tokens r, u.task = .rollback (token :: tokens) r ∧
    device = s.device.rollbackAlloc token ∧ disk = s.disk ∧ db = s.db
  | .commit answer found, device, disk, db => ∃ c, u.task = .commit c ∧ device = s.device ∧
    disk = s.disk ∧
    ((∃ before after outcome,
        let o := flush json s.db [] ((before ++ c :: after).map (commitRequest json)) outcome
        db = o.after ∧ answer = (o.answers[before.length]?).join.map .commit ∧
          found = decide (o.outputs[before.length]? = some (some true))) ∨
      db = s.db ∧ found = false ∧
        answer = some (.noProcessor (if c.fileMeta.lun = [] then ascii s.device.name.toList
          else c.fileMeta.lun)))

/-- One step. -/
def Step (s : Server) : ServerEvent → Server → Prop
  | .accept, t => t = { s with uploads := s.uploads ++ [.new] }
  | .upload k e, t => ∃ before u after u', s.uploads = before ++ u :: after ∧ before.length = k ∧
    Upload.Step crc pb u e u' ∧ s.Effect json u e t.device t.disk t.db ∧
    t.uploads = before ++ u' :: after
  | .others disk db, t => t = { s with disk, db }

/-- An upload that waits for the device or the database is answered. -/
theorem exists_effect (s : Server) {u : Upload} (h : u.Stage) (hbusy : u.task ≠ .idle) :
    ∃ e u' device disk db, (∀ c, e ≠ .call c) ∧ Upload.Step crc pb u e u' ∧
      s.Effect json u e device disk db := by
  cases htask : u.task with
  | idle => exact absurd htask hbusy
  | alloc buf respond =>
    exact ⟨.alloc (s.device.alloc buf.length).2, _, (s.device.alloc buf.length).1, s.disk, s.db,
      nofun, ⟨buf, respond, htask, rfl⟩, buf, respond, htask, rfl, rfl, rfl⟩
  | write buf results token respond =>
    exact ⟨.write (writeAllocated (fun _ => .submitError "") none s.disk buf results).2.1
      (writeAllocated (fun _ => .submitError "") none s.disk buf results).2.2, _, s.device, _, s.db,
      nofun, ⟨buf, results, token, respond, htask, rfl⟩, buf, results, token, respond, _, none,
      htask, fun _ => rfl, rfl, rfl, rfl⟩
  | rollback tokens r =>
    obtain ⟨token, rest, rfl⟩ := List.exists_cons_of_ne_nil (h.of_rollback htask).1
    exact ⟨.rollbackAlloc, _, s.device.rollbackAlloc token, s.disk, s.db, nofun,
      ⟨token, rest, r, htask, rfl⟩, token, rest, r, htask, rfl, rfl, rfl⟩
  | commit c =>
    exact ⟨.commit _ false, _, s.device, s.disk, s.db, nofun, ⟨c, htask, rfl⟩, c, htask, rfl, rfl,
      Or.inr ⟨rfl, rfl, rfl⟩⟩

/-- The blocks that uploads hold. -/
def heldBlocks (s : Server) : List ℕ :=
  s.uploads.flatMap fun u => Upload.blocksOfTokens u.tokens

/-- What holds in every state, `base` being what was allocated before. -/
structure Inv (base : Multiset ℕ) (s : Server) : Prop where
  owns : s.device.allocator.Owns (base + s.heldBlocks)
  lt : s.device.allocator.total < 2 ^ 63
  sound : ∀ u ∈ s.uploads, u.Sound

variable {crc pb json} {s t : Server} {base : Multiset ℕ} {u u' : Upload}

theorem blocksOfTokens_append (ts ts' : List (List Result)) :
    Upload.blocksOfTokens (ts ++ ts') = Upload.blocksOfTokens ts ++ Upload.blocksOfTokens ts' :=
  List.flatMap_append

theorem blocksOfTokens_perm {ts ts' : List (List Result)} (h : ts.Perm ts') :
    (Upload.blocksOfTokens ts).Perm (Upload.blocksOfTokens ts') :=
  h.flatMap_right _

/-- What one upload holds, and the rest. -/
theorem coe_heldBlocks {before after : List Upload} (h : s.uploads = before ++ u :: after) :
    (s.heldBlocks : Multiset ℕ) =
      Upload.blocksOfTokens u.tokens + ((before ++ after).flatMap fun u =>
        Upload.blocksOfTokens u.tokens : List ℕ) := by
  rw [heldBlocks, h, List.flatMap_append, List.flatMap_cons, List.flatMap_append,
    Multiset.coe_add, Multiset.coe_eq_coe, ← List.append_assoc, ← List.append_assoc]
  exact List.perm_append_comm.append_right _

/-- An upload steps : what it gets and gives back is what the allocator allots and frees. -/
theorem Inv.upload (h : s.Inv base) {before after : List Upload} {e : UploadEvent}
    (hs : s.uploads = before ++ u :: after) (hstep : Upload.Step crc pb u e u')
    (heffect : s.Effect json u e t.device t.disk t.db) (ht : t.uploads = before ++ u' :: after) :
    t.Inv base := by
  have hu : u.Sound := h.sound u (by rw [hs]; simp)
  obtain ⟨-, -, hperm⟩ := hstep.tokens hu.stage
  have hblocks := blocksOfTokens_perm hperm
  rw [blocksOfTokens_append, blocksOfTokens_append, ← Multiset.coe_eq_coe, ← Multiset.coe_add,
    ← Multiset.coe_add] at hblocks
  have howns := h.owns
  rw [coe_heldBlocks hs, add_left_comm] at howns
  have hsound : e.Proper → ∀ v ∈ t.uploads, v.Sound := by
    intro he v hv
    rw [ht] at hv
    rcases List.mem_append.mp hv with hv | hv
    · exact h.sound v (by rw [hs]; exact List.mem_append_left _ hv)
    · rcases List.mem_cons.mp hv with rfl | hv
      · exact hu.step he hstep
      · exact h.sound v (by rw [hs]; exact List.mem_append_right _ (List.mem_cons_of_mem _ hv))
  -- it is left to show how the blocks of this upload move
  suffices hmove : e.Proper ∧ t.device.allocator.total = s.device.allocator.total ∧
      t.device.allocator.Owns (Upload.blocksOfTokens u'.tokens + (base +
        ((before ++ after).flatMap fun u => Upload.blocksOfTokens u.tokens : List ℕ))) by
    obtain ⟨he, htotal, hmove⟩ := hmove
    refine ⟨?_, htotal ▸ h.lt, hsound he⟩
    rwa [coe_heldBlocks ht, add_left_comm]
  generalize (base + ((before ++ after).flatMap fun u =>
    Upload.blocksOfTokens u.tokens : List ℕ) : Multiset ℕ) = rest at howns ⊢
  have hkeep : Upload.gets e = [] → u.gives e = [] →
      (Upload.blocksOfTokens u'.tokens : Multiset ℕ) = Upload.blocksOfTokens u.tokens := by
    intro hg hv
    rw [hg, hv] at hblocks
    simpa [Upload.blocksOfTokens] using hblocks.symm
  cases e with
  | call c =>
    rw [heffect.1, hkeep rfl rfl]
    exact ⟨trivial, rfl, howns⟩
  | alloc outcome =>
    obtain ⟨buf, respond, -, halloc, -, -⟩ := heffect
    rcases s.device.alloc_spec howns buf.length with
      ⟨d, results, token, hres, hproper, howns', htotal, -⟩ | ⟨d, e, hres, howns', htotal⟩
    · obtain ⟨rfl, rfl⟩ := Prod.mk.inj (halloc.symm.trans hres)
      refine ⟨hproper, htotal, ?_⟩
      have hmove : (Upload.blocksOfTokens u.tokens : Multiset ℕ) + blocksOf token =
          Upload.blocksOfTokens u'.tokens := by
        simpa [Upload.blocksOfTokens, Upload.gets, Upload.gives] using hblocks
      rwa [add_right_comm, hmove] at howns'
    · obtain ⟨rfl, rfl⟩ := Prod.mk.inj (halloc.symm.trans hres)
      rw [hkeep rfl rfl]
      exact ⟨trivial, htotal, howns'⟩
  | write n err =>
    obtain ⟨_, _, _, _, _, _, -, -, -, hd, -⟩ := heffect
    rw [hd, hkeep rfl rfl]
    exact ⟨trivial, rfl, howns⟩
  | rollbackAlloc =>
    obtain ⟨token, tokens, r, htask, hd, -, -⟩ := heffect
    have hgives : u.gives .rollbackAlloc = [token] := by
      rw [Upload.gives, htask]
      rfl
    have hmove : (Upload.blocksOfTokens u.tokens : Multiset ℕ) =
        blocksOf token + Upload.blocksOfTokens u'.tokens := by
      rw [hgives] at hblocks
      simpa [Upload.blocksOfTokens, Upload.gets] using hblocks
    have hmem : token ∈ u.obtained := by
      rw [hu.balanced.mem_iff, Upload.tokens, htask]
      simp [UploadTask.tokens]
    rw [hmove, add_assoc] at howns
    obtain ⟨howns', htotal⟩ := BlockDevice.rollbackAlloc_spec howns h.lt (hu.pos token hmem).2
    rw [hd]
    exact ⟨trivial, htotal, howns'⟩
  | commit answer found =>
    obtain ⟨c, -, hd, -⟩ := heffect
    rw [hd, hkeep rfl rfl]
    exact ⟨trivial, rfl, howns⟩

theorem Inv.step (h : s.Inv base) {e : ServerEvent} (hstep : Step crc pb json s e t) :
    t.Inv base := by
  cases e with
  | accept =>
    obtain rfl := hstep
    refine ⟨?_, h.lt, fun u hu => ?_⟩
    · have hheld : heldBlocks { s with uploads := s.uploads ++ [.new] } = s.heldBlocks := by
        rw [heldBlocks, List.flatMap_append]
        exact List.append_nil _
      rw [hheld]
      exact h.owns
    · rcases List.mem_append.mp hu with hu | hu
      · exact h.sound u hu
      · rw [List.mem_singleton.mp hu]
        exact Upload.sound_new
  | upload k e =>
    obtain ⟨before, u, after, u', hs, -, hstep, heffect, ht⟩ := hstep
    exact h.upload hs hstep heffect ht
  | others disk db =>
    obtain rfl := hstep
    exact ⟨h.owns, h.lt, h.sound⟩

/-! ## What the database answered -/

/-- The upload `k`, which is new as long as it is not accepted. -/
def upload (s : Server) (k : ℕ) : Upload :=
  s.uploads[k]?.getD .new

/-- What the group commit answered the upload `k` in a run, with whether its consumer found a
record. -/
def commitAnswers (k : ℕ) (events : List ServerEvent) : List (Option UploadError × Bool) :=
  events.flatMap (ServerEvent.commitAnswer k)

theorem commitAnswers_concat (k : ℕ) (events : List ServerEvent) (e : ServerEvent) :
    commitAnswers k (events ++ [e]) = commitAnswers k events ++ e.commitAnswer k := by
  rw [commitAnswers, List.flatMap_append, List.flatMap_singleton]
  rfl

variable (crc pb json) in
/-- The run goes through the commit of `c`, the request of the upload `k`, and the answer is that
no record was found and `c` is stored. -/
def Stores (init : Server) (k : ℕ) (events : List ServerEvent) (c : Commit) : Prop :=
  ∃ pre post s, events = pre ++ .upload k (.commit none false) :: post ∧
    Run (Step crc pb json) init pre s ∧ (s.upload k).task = .commit c

theorem Stores.concat {init : Server} {k : ℕ} {events : List ServerEvent} {c : Commit}
    (h : Stores crc pb json init k events c) (e : ServerEvent) :
    Stores crc pb json init k (events ++ [e]) c := by
  obtain ⟨pre, post, s, rfl, hrun, htask⟩ := h
  exact ⟨pre, post ++ [e], s, by simp, hrun, htask⟩

/-- What an event does to the upload `k`. -/
theorem Step.upload_cases {e : ServerEvent} (hstep : Step crc pb json s e t) (k : ℕ) :
    (t.upload k = s.upload k ∧ e.commitAnswer k = []) ∨
    ∃ e', e = .upload k e' ∧ s.upload k ∈ s.uploads ∧
      Upload.Step crc pb (s.upload k) e' (t.upload k) ∧ e.commitAnswer k = e'.commitAnswer := by
  cases e with
  | accept =>
    obtain rfl := hstep
    refine Or.inl ⟨?_, rfl⟩
    rw [Server.upload, Server.upload]
    rcases Nat.lt_or_ge k s.uploads.length with hk | hk
    · rw [List.getElem?_append_left hk]
    · rw [List.getElem?_append_right hk, List.getElem?_eq_none hk]
      cases k - s.uploads.length <;> rfl
  | upload k' e' =>
    obtain ⟨before, u, after, u', hs, rfl, hstep, -, ht⟩ := hstep
    by_cases hk : k = before.length
    · subst hk
      have hu : s.upload before.length = u := by rw [Server.upload, hs]; simp
      have hu' : t.upload before.length = u' := by rw [Server.upload, ht]; simp
      rw [hu, hu']
      exact Or.inr ⟨e', rfl, by rw [hs]; simp, hstep, if_pos rfl⟩
    · refine Or.inl ⟨?_, if_neg (Ne.symm hk)⟩
      rw [Server.upload, Server.upload, hs, ht, List.getElem?_append, List.getElem?_append]
      split_ifs with hlt
      · rfl
      · obtain ⟨i, hi⟩ : ∃ i, k - before.length = i + 1 := ⟨k - before.length - 1, by omega⟩
        rw [hi, List.getElem?_cons_succ, List.getElem?_cons_succ]
  | others disk db =>
    obtain rfl := hstep
    exact Or.inl ⟨rfl, rfl⟩

/-- In every run each upload stands as it was told, and a record that it has stored is one that
was committed. -/
theorem told_of_run {init : Server} {events : List ServerEvent}
    (hinit : init.Inv base) (hnone : init.uploads = [])
    (hrun : Run (Step crc pb json) init events s) (k : ℕ) :
    (s.upload k).Told (commitAnswers k events) ∧ (s.upload k).Submits pb ∧
      ∀ fileMeta, (s.upload k).stored = some fileMeta →
        ∃ c, c.fileMeta = fileMeta ∧ Stores crc pb json init k events c ∧
          pb.marshal c.fileMeta = .ok c.metaBytes := by
  induction hrun with
  | nil =>
    rw [Server.upload, hnone]
    exact ⟨Upload.told_new, Upload.submits_of_task rfl nofun, nofun⟩
  | @snoc events t u e hrun hstep ih =>
    obtain ⟨htold, hsubmits, hstored⟩ := ih
    have hinv : t.Inv base := hrun.invariant (fun _ _ _ h hstep => Inv.step h hstep) hinit
    rw [commitAnswers_concat]
    rcases hstep.upload_cases k with ⟨heq, hanswer⟩ | ⟨e', rfl, hmem, hupload, hanswer⟩
    · rw [heq, hanswer, List.append_nil]
      refine ⟨htold, hsubmits, fun fileMeta h => ?_⟩
      obtain ⟨c, hc, hstores, hbytes⟩ := hstored fileMeta h
      exact ⟨c, hc, hstores.concat _, hbytes⟩
    · have hstage := (hinv.sound _ hmem).stage
      rw [hanswer]
      refine ⟨htold.step hstage hupload, Upload.Submits.step hstage hupload, fun fileMeta h => ?_⟩
      rcases hupload.stored_cases hstage with hsame | ⟨c, rfl, htask, hnew⟩
      · cases hsame.symm.trans h
      · obtain ⟨req, metaBytes, -, hbytes, rfl⟩ := hsubmits c htask
        exact ⟨_, Option.some.inj (hnew.symm.trans h), ⟨events, [], t, rfl, hrun, htask⟩, hbytes⟩

/-- In every interleaving of uploads, the allocator holds what was allocated before and the
tokens that uploads hold, each block once. When an upload has made its calls, `Start`, any number
of `Put` and then `Complete` or `TimeOut`, and the last one is answered, the answer is SUCCESS
exactly when its request was committed. If it is not, or the consumer found a record, the upload
has given back each token that it obtained once. If the consumer found none, the record that was
committed lists the blocks that the upload obtained, and none was given back. -/
theorem all_or_nothing {d : BlockDevice} {disk : Disk} {db : DB} (howns : d.allocator.Owns base)
    (hlt : d.allocator.total < 2 ^ 63) {events : List ServerEvent}
    (hrun : Run (Step crc pb json) ⟨d, disk, db, []⟩ events s) :
    s.device.allocator.Owns (base + s.heldBlocks) ∧
    ∀ k u, s.uploads[k]? = some u → ∀ req (datas : List Bytes) last,
      u.calls = .start req :: datas.map .put ++ [last] →
      last = .complete ∨ last = .timeOut → u.task = .idle →
      ∃ r, u.responses.getLast? = some r ∧ r ≠ .cont ∧
        (r = .success ↔ ∃ found, commitAnswers k events = [(none, found)]) ∧
        (r ≠ .success ∨ commitAnswers k events = [(none, true)] →
          u.tokens = [] ∧ u.obtained.Perm u.released) ∧
        (commitAnswers k events = [(none, false)] → u.released = [] ∧ u.obtained.Perm u.tokens ∧
          ∃ c, Stores crc pb json ⟨d, disk, db, []⟩ k events c ∧
            pb.marshal c.fileMeta = .ok c.metaBytes ∧
            c.fileMeta.blocks = Upload.blocksOfTokens u.tokens) := by
  have hstart : Inv base ⟨d, disk, db, []⟩ :=
    ⟨by rwa [heldBlocks, List.flatMap_nil, Multiset.coe_nil, add_zero], hlt,
      fun _ hu => absurd hu List.not_mem_nil⟩
  have hinv : s.Inv base := hrun.invariant (fun _ _ _ h hstep => Inv.step h hstep) hstart
  refine ⟨hinv.owns, fun k u hu req datas last hcalls hlast hidle => ?_⟩
  obtain ⟨htold, -, hstored⟩ := told_of_run hstart rfl hrun k
  rw [Server.upload, hu, Option.getD_some] at htold hstored
  have hmem : last ∈ u.calls := by
    rw [hcalls]
    exact List.mem_append_right _ (List.mem_singleton_self last)
  have hended : u.Ended := by
    rcases hlast with rfl | rfl
    · exact Or.inl hmem
    · exact Or.inr hmem
  obtain ⟨r, h1, h2, h3, h4, h5⟩ :=
    htold.of_ended (hinv.sound u (List.mem_of_getElem? hu)) hended hidle
  refine ⟨r, h1, h2, h3, h4, fun hkept => ?_⟩
  obtain ⟨hreleased, hperm, fileMeta, hfileMeta, hblocks⟩ := h5 hkept
  obtain ⟨c, rfl, hstores, hbytes⟩ := hstored fileMeta hfileMeta
  exact ⟨hreleased, hperm, c, hstores, hbytes, hblocks⟩

/-- An upload of one byte that has not been flushed. -/
def oneByteUpload : Upload :=
  { Upload.new with
    handler := (Handler.new.start requestA).addChunk crc32Update [0#8]
    responses := [.cont]
    calls := [.start requestA, .put [0#8]] }

/-- The same, once `Complete` is called. -/
def oneByteHandler : Handler :=
  { oneByteUpload.handler with finalized := true }

/-- `Complete` starts the last flush. -/
def lastFlush : Upload :=
  Upload.flush { oneByteUpload with
    handler := oneByteHandler
    calls := oneByteUpload.calls ++ [.complete] } false

theorem length_oneByteHandler : oneByteHandler.startFlush.2.length = 4096 := by
  rw [startFlush_snd (h := oneByteHandler) rfl (by decide), pad, List.length_append,
    List.length_replicate]
  decide

theorem task_flush (u : Upload) (respond : Bool) :
    (u.flush respond).task = .alloc u.handler.startFlush.2 respond := rfl

theorem task_lastFlush : lastFlush.task = .alloc oneByteHandler.startFlush.2 false :=
  task_flush _ false

theorem step_lastFlush :
    Upload.Step crc32Update protobuf oneByteUpload (.call .complete) lastFlush := by
  refine ⟨rfl, ⟨nofun, by decide, by decide⟩, ?_⟩
  rw [Upload.call, Upload.complete]
  rfl

/-- A write that is cancelled. -/
theorem writeAllocated_cancelled {disk : Disk} {buf : Bytes} {results : List Result}
    (hbuf : buf.length = 4096) (hne : results ≠ []) :
    writeAllocated (fun _ => .submitError "") (some 0) disk buf results =
      (disk, 0, some .context) := by
  obtain ⟨r, results, rfl⟩ := List.exists_cons_of_ne_nil hne
  have hnil : buf ≠ [] := List.ne_nil_of_length_pos (by omega)
  rw [writeAllocated, if_neg hnil, hbuf, if_neg (by decide)]
  rfl

/-- A step of the only upload. -/
theorem Step.only {e : UploadEvent} (hs : s.uploads = [u]) (hstep : Upload.Step crc pb u e u')
    {d : BlockDevice} {disk : Disk} {db : DB} (heffect : s.Effect json u e d disk db) :
    Step crc pb json s (.upload 0 e) ⟨d, disk, db, [u']⟩ :=
  ⟨[], u, [], u', hs, rfl, hstep, heffect, rfl⟩

/-- The upload while it writes what `Alloc` returned. -/
def writingUpload (results token : List Result) : Upload :=
  { lastFlush with
    task := .write oneByteHandler.startFlush.2 results token false
    obtained := [token] }

/-- It is written. -/
def committingUpload (results token : List Result) (metaBytes : Bytes) : Upload :=
  let u := writingUpload results token
  let u := { u with handler := u.handler.completeFlush results token }
  { u with task := .commit (u.commitFor requestA metaBytes) }

/-- Its record is stored. -/
def keptUpload (results token : List Result) (metaBytes : Bytes) : Upload :=
  let u := committingUpload results token metaBytes
  Upload.respond { u with stored := some (u.handler.build requestA).1 } .success

/-- The write has failed. -/
def failingUpload (token : List Result) : Upload :=
  { lastFlush with
    handler := (lastFlush.handler.failFlush (.write .context)).clearTokens
    task := .rollback [token] (.error (.write .context))
    obtained := [token] }

/-- The token is given back. -/
def failedUpload (token : List Result) : Upload :=
  { lastFlush with
    handler := (lastFlush.handler.failFlush (.write .context)).clearTokens
    task := .idle
    responses := [.cont, .error (.write .context)]
    obtained := [token]
    released := [token] }

theorem step_writing (results token : List Result) : Upload.Step crc32Update protobuf lastFlush
    (.alloc (.ok (results, token))) (writingUpload results token) :=
  ⟨_, _, task_lastFlush, rfl⟩

theorem exists_marshal_build {h : Handler} {n : ℕ} (hfits : h.Fitting n) (hn : n ≤ 2 ^ 50)
    (hsize : h.fileSize < 2 ^ 63) : ∃ data, protobuf.marshal (h.build requestA).1 = .ok data :=
  marshals_requestA hn hsize h.crc32Value false h.blockInfoList hfits.proper hfits.nodup hfits.lt

theorem step_committing {results token : List Result}
    (hproper : FlushBlockInfo.Proper ⟨results, token⟩) (hblocks : blocksOf token = [0]) :
    ∃ metaBytes, Upload.Step crc32Update protobuf (writingUpload results token) (.write 4096 none)
      (committingUpload results token metaBytes) := by
  have hinfos : infoBlocks [⟨results, token⟩] = [0] := by
    rw [infoBlocks, List.flatMap_singleton, hblocks]
  have hfits : Handler.Fitting 1 ((writingUpload results token).handler.completeFlush results
      token) := by
    refine ⟨List.forall_mem_singleton.mpr hproper, ?_, ?_⟩
    · exact hinfos ▸ List.nodup_singleton 0
    · exact hinfos ▸ List.forall_mem_singleton.mpr Nat.one_pos
  obtain ⟨metaBytes, hbuild⟩ := exists_marshal_build hfits (by decide)
    (show 1 < 2 ^ 63 by decide)
  have hwritten := @Upload.written_of_full protobuf (writingUpload results token) requestA rfl
    oneByteHandler.startFlush.2 results token
  have hsubmit := @Upload.submit_of_ok protobuf { writingUpload results token with
    handler := (writingUpload results token).handler.completeFlush results token } _ _ hbuild
  rw [length_oneByteHandler, hsubmit] at hwritten
  refine ⟨metaBytes, oneByteHandler.startFlush.2, results, token, false, rfl, ?_⟩
  rw [hwritten]
  rfl

theorem step_kept (results token : List Result) (metaBytes : Bytes) :
    Upload.Step crc32Update protobuf (committingUpload results token metaBytes)
      (.commit none false) (keptUpload results token metaBytes) :=
  ⟨_, rfl, rfl⟩

theorem step_failing (results token : List Result) : Upload.Step crc32Update protobuf
    (writingUpload results token) (.write 0 (some .context)) (failingUpload token) :=
  ⟨_, _, _, _, rfl, rfl⟩

theorem step_failed (token : List Result) : Upload.Step crc32Update protobuf
    (failingUpload token) .rollbackAlloc (failedUpload token) :=
  ⟨_, _, _, rfl, rfl⟩

theorem exists_effect_writing (hs : s.device = freeDevice 1) : ∃ d results token,
    FlushBlockInfo.Proper ⟨results, token⟩ ∧ blocksOf token = [0] ∧
    s.Effect json lastFlush (.alloc (.ok (results, token))) d s.disk s.db := by
  obtain ⟨d, results, token, halloc, hproper, -, -, hblocks, -⟩ := BlockDevice.alloc_one_block
    (inv_freeDevice Nat.one_pos) (total_freeDevice Nat.one_pos) (isFree_freeDevice Nat.one_pos)
  refine ⟨d, results, token, hproper, hblocks, _, _, task_lastFlush, ?_, rfl, rfl⟩
  rw [hs, length_oneByteHandler]
  exact halloc

theorem exists_effect_committing {results token : List Result}
    (hproper : FlushBlockInfo.Proper ⟨results, token⟩) (hblocks : blocksOf token = [0]) :
    ∃ disk, s.Effect json (writingUpload results token) (.write 4096 none) s.device disk s.db := by
  have hlen : oneByteHandler.startFlush.2.length = 4096 * (blocksOf token).length := by
    rw [hblocks]
    exact length_oneByteHandler
  obtain ⟨disk, hwrite⟩ := writeAllocated_full s.disk hproper.pos hlen
  rw [← show results = token.map Result.toBytes from hproper.results_eq,
    length_oneByteHandler] at hwrite
  exact ⟨disk, _, _, _, _, _, none, rfl, nofun, hwrite, rfl, rfl⟩

/-- The upload is alone in its group, and no record is found. -/
theorem exists_effect_committed {results token : List Result}
    (hproper : FlushBlockInfo.Proper ⟨results, token⟩) (metaBytes : Bytes)
    (hnil : s.db (fileMetaKey requestA.metaKey) = []) :
    ∃ db, s.Effect json (committingUpload results token metaBytes) (.commit none false) s.device
      s.disk db := by
  obtain ⟨c, hc, hkey, hresults⟩ : ∃ c, (committingUpload results token metaBytes).task =
      .commit c ∧ c.fileMeta.metaKey = requestA.metaKey ∧
      c.results = flattenBlockResults [⟨results, token⟩] := ⟨_, rfl, rfl, rfl⟩
  have haligned : ∀ c' ∈ [c], ∀ r ∈ c'.results, r.Aligned := by
    intro c' hc'
    rw [List.mem_singleton.mp hc', hresults]
    exact aligned_flattenBlockResults (List.forall_mem_singleton.mpr hproper)
  obtain ⟨hreadable, hfound⟩ := Commit.lookup_of_nil (hkey ▸ hnil)
  refine ⟨_, c, hc, rfl, rfl, Or.inl ⟨[], [], none, rfl, ?_⟩⟩
  rcases flush_commits json s.db haligned none with ⟨-, -, hbad, -⟩ | ⟨-, -, hout, hans⟩
  · obtain ⟨c', hc', hbad⟩ := hbad.resolve_left (by simp)
    exact absurd (List.mem_singleton.mp hc' ▸ hbad) hreadable
  · rw [List.nil_append, hout, hans]
    simp [hfound]

theorem effect_failing {results : List Result} (hne : results ≠ []) (token : List Result) :
    s.Effect json (writingUpload results token) (.write 0 (some .context)) s.device s.disk s.db :=
  ⟨_, _, _, _, _, _, rfl, nofun, writeAllocated_cancelled length_oneByteHandler hne, rfl, rfl⟩

theorem effect_failed (token : List Result) : s.Effect json (failingUpload token) .rollbackAlloc
    (s.device.rollbackAlloc token) s.disk s.db :=
  ⟨_, _, _, rfl, rfl, rfl, rfl⟩

theorem step_start : Upload.Step crc32Update protobuf .new (.call (.start requestA))
    { Upload.new with handler := Handler.new.start requestA, calls := [.start requestA] } :=
  ⟨rfl, rfl, rfl⟩

theorem step_oneByte : Upload.Step crc32Update protobuf
    { Upload.new with handler := Handler.new.start requestA, calls := [.start requestA] }
    (.call (.put [0#8])) oneByteUpload :=
  ⟨rfl, ⟨nofun, by decide, by decide⟩, rfl⟩

theorem exists_run_lastFlush : ∃ events, Run (Step crc32Update protobuf fun _ => none)
    ⟨freeDevice 1, fun _ => 0#8, emptyDB, []⟩ events
    ⟨freeDevice 1, fun _ => 0#8, emptyDB, [lastFlush]⟩ ∧ commitAnswers 0 events = [] :=
  ⟨_, Run.nil.snoc (e := .accept) rfl
    |>.snoc (Step.only rfl step_start ⟨rfl, rfl, rfl⟩)
    |>.snoc (Step.only rfl step_oneByte ⟨rfl, rfl, rfl⟩)
    |>.snoc (Step.only rfl step_lastFlush ⟨rfl, rfl, rfl⟩), rfl⟩

theorem exists_run_failed : ∃ events d token,
    Run (Step crc32Update protobuf fun _ => none) ⟨freeDevice 1, fun _ => 0#8, emptyDB, []⟩
      events ⟨d, fun _ => 0#8, emptyDB, [failedUpload token]⟩ := by
  obtain ⟨d, results, token, hproper, -, hwriting⟩ := @exists_effect_writing (fun _ => none)
    ⟨freeDevice 1, fun _ => 0#8, emptyDB, [lastFlush]⟩ rfl
  have hfailing := @effect_failing (fun _ => none)
    ⟨d, fun _ => 0#8, emptyDB, [writingUpload results token]⟩ results hproper.results_ne token
  have hfailed := @effect_failed (fun _ => none)
    ⟨d, fun _ => 0#8, emptyDB, [failingUpload token]⟩ token
  obtain ⟨events, hrun, -⟩ := exists_run_lastFlush
  exact ⟨_, _, token, hrun.snoc (Step.only rfl (step_writing results token) hwriting)
    |>.snoc (Step.only rfl (step_failing results token) hfailing)
    |>.snoc (Step.only rfl (step_failed token) hfailed)⟩

theorem exists_run_kept : ∃ events d disk db results token metaBytes,
    Run (Step crc32Update protobuf fun _ => none) ⟨freeDevice 1, fun _ => 0#8, emptyDB, []⟩
      events ⟨d, disk, db, [keptUpload results token metaBytes]⟩ ∧
    FlushBlockInfo.Proper ⟨results, token⟩ ∧ blocksOf token = [0] ∧
      commitAnswers 0 events = [(none, false)] := by
  obtain ⟨d, results, token, hproper, hblocks, hwriting⟩ := @exists_effect_writing (fun _ => none)
    ⟨freeDevice 1, fun _ => 0#8, emptyDB, [lastFlush]⟩ rfl
  obtain ⟨disk, hwritten⟩ := @exists_effect_committing (fun _ => none)
    ⟨d, fun _ => 0#8, emptyDB, [writingUpload results token]⟩ _ _ hproper hblocks
  obtain ⟨metaBytes, hcommitting⟩ := step_committing hproper hblocks
  obtain ⟨db, hcommitted⟩ := @exists_effect_committed (fun _ => none)
    ⟨d, disk, emptyDB, [committingUpload results token metaBytes]⟩ _ _ hproper metaBytes rfl
  obtain ⟨events, hrun, hevents⟩ := exists_run_lastFlush
  refine ⟨_, d, disk, db, results, token, metaBytes,
    hrun.snoc (Step.only rfl (step_writing results token) hwriting)
      |>.snoc (Step.only rfl hcommitting hwritten)
      |>.snoc (Step.only rfl (step_kept results token metaBytes) hcommitted), hproper, hblocks, ?_⟩
  rw [commitAnswers_concat, commitAnswers_concat, commitAnswers_concat, hevents]
  rfl

/-- The last write of an upload fails, and its token is given back once. Another upload is
committed, and it keeps its block. -/
theorem all_or_nothing_one_byte :
    (∃ events s u, Run (Step crc32Update protobuf fun _ => none)
        ⟨freeDevice 1, fun _ => 0#8, emptyDB, []⟩ events s ∧ s.uploads[0]? = some u ∧
      u.responses.getLast? = some (.error (.write .context)) ∧ u.obtained.length = 1 ∧
      u.tokens = [] ∧ u.obtained.Perm u.released) ∧
    ∃ events s u c, Run (Step crc32Update protobuf fun _ => none)
        ⟨freeDevice 1, fun _ => 0#8, emptyDB, []⟩ events s ∧ s.uploads[0]? = some u ∧
      u.responses.getLast? = some .success ∧ commitAnswers 0 events = [(none, false)] ∧
      u.obtained.length = 1 ∧ u.released = [] ∧
      Stores crc32Update protobuf (fun _ => none) ⟨freeDevice 1, fun _ => 0#8, emptyDB, []⟩ 0
        events c ∧ c.fileMeta.blocks = [0] := by
  have howns := AllocatorV3.owns_newAllocatorV3 1
  have htotal : (freeDevice 1).allocator.total < 2 ^ 63 :=
    (total_freeDevice Nat.one_pos).trans_lt (by decide)
  constructor
  · obtain ⟨events, d, token, hrun⟩ := exists_run_failed
    obtain ⟨-, hall⟩ := all_or_nothing howns htotal hrun
    obtain ⟨r, hlast, -, -, hnothing, -⟩ := hall 0 (failedUpload token) rfl requestA [[0#8]]
      .complete rfl (Or.inl rfl) rfl
    obtain rfl : Response.error (.write .context) = r := Option.some.inj hlast
    obtain ⟨htokens, hperm⟩ := hnothing (Or.inl nofun)
    exact ⟨events, _, _, hrun, rfl, hlast, rfl, htokens, hperm⟩
  · obtain ⟨events, d, disk, db, results, token, metaBytes, hrun, hproper, hblocks, hanswers⟩ :=
      exists_run_kept
    obtain ⟨-, hall⟩ := all_or_nothing howns htotal hrun
    obtain ⟨r, hlast, -, hsuccess, -, hkept⟩ := hall 0 (keptUpload results token metaBytes) rfl
      requestA [[0#8]] .complete rfl (Or.inl rfl) rfl
    obtain rfl := hsuccess.mpr ⟨false, hanswers⟩
    obtain ⟨hreleased, hperm, c, hstores, -, hfile⟩ := hkept hanswers
    refine ⟨events, _, _, c, hrun, rfl, hlast, hanswers, rfl, hreleased, hstores, ?_⟩
    have htokens : (keptUpload results token metaBytes).tokens = [token] :=
      List.perm_singleton.mp hperm.symm
    rw [hfile, htokens, Upload.blocksOfTokens, List.flatMap_singleton, hblocks]

end Server

/-! ## The handler with its calls at once

A step of `Session` is a run of one upload here, with all the calls of a rollback made and no
other upload in between. -/

/-- The task of an upload that is in this phase. -/
def Phase.task : Phase → UploadTask
  | idle => .idle
  | alloc buf respond => .alloc buf respond
  | write buf results token respond => .write buf results token respond
  | commit c => .commit c

namespace Upload

variable {crc : BitVec 32 → Bytes → BitVec 32} {pb : Protobuf} {json : JSONDeleteMark}

/-- The upload has the state of the session. -/
structure Shows (u : Upload) (s : Session) : Prop where
  handler : u.handler = s.handler
  task : u.task = s.phase.task
  responses : u.responses = s.responses
  stored : u.stored = s.stored

/-- On device `d` the upload is at `t`, but for calls of `RollbackAlloc` it has to make. -/
def Leads (u : Upload) (d : BlockDevice) (disk : Disk) (db : DB) (t : Session) : Prop :=
  t.disk = disk ∧ t.db = db ∧ ((u.Shows t ∧ t.device = d) ∨
    ∃ (v : Upload) (tokens : List (List Result)) (r : Response), u = v.rollback tokens r ∧
      v.handler = t.handler ∧ t.phase = .idle ∧ t.responses = v.responses ++ [r] ∧
      v.stored = t.stored ∧
      t.device = tokens.foldl BlockDevice.rollbackAlloc d)

variable {u : Upload} {s t : Session}

/-- Empty tokens do not count. -/
theorem foldl_rollbackAlloc_filter : ∀ (tokens : List (List Result)) (d : BlockDevice),
    (tokens.filter (· ≠ [])).foldl BlockDevice.rollbackAlloc d =
      tokens.foldl BlockDevice.rollbackAlloc d
  | [], _ => rfl
  | token :: tokens, d => by
    by_cases hnil : token = []
    · subst hnil
      exact foldl_rollbackAlloc_filter tokens d
    · rw [List.filter_cons_of_pos (by simpa using hnil)]
      exact foldl_rollbackAlloc_filter tokens _

theorem leads_respond (h₁ : u.handler = s.handler) (h₂ : u.responses = s.responses)
    (h₃ : u.stored = s.stored) (r : Response) :
    (u.respond r).Leads s.device s.disk s.db (s.respond r) :=
  ⟨rfl, rfl, Or.inl ⟨⟨h₁, rfl, by rw [respond, Session.respond, h₂], h₃⟩, rfl⟩⟩

/-- All that was flushed is given back, after `tokens`. -/
theorem leads_rollback (h₁ : u.handler = s.handler) (h₂ : u.responses = s.responses)
    (h₃ : u.stored = s.stored) (tokens : List (List Result)) (d : BlockDevice) (r : Response) :
    (rollback { u with handler := u.handler.clearTokens } (tokens ++ u.handler.tokens) r).Leads
      d s.disk s.db (Session.respond { s with
        handler := s.handler.clearTokens
        device := (s.handler.rollbackCompletedFlushes
          (tokens.foldl BlockDevice.rollbackAlloc d)).2 } r) := by
  refine ⟨rfl, rfl, Or.inr ⟨_, _, _, rfl, ?_, rfl, ?_, h₃, ?_⟩⟩
  · rw [h₁]
    rfl
  · rw [Session.respond, h₂]
  · rw [h₁, Handler.tokens, List.foldl_append, foldl_rollbackAlloc_filter]
    rfl

theorem leads_abort (h₁ : u.handler = s.handler) (h₂ : u.responses = s.responses)
    (h₃ : u.stored = s.stored) (e : UploadError) :
    (u.rollbackCompletedFlushes (.error e)).Leads s.device s.disk s.db (s.abort e) :=
  leads_rollback h₁ h₂ h₃ [] s.device (.error e)

theorem leads_submit (h₁ : u.handler = s.handler) (h₂ : u.responses = s.responses)
    (h₃ : u.stored = s.stored) (req : PutInitRequest) :
    (u.submit pb req).Leads s.device s.disk s.db (s.submit pb req) := by
  rw [Session.submit]
  simp only
  split
  · rename_i text heq
    have hbuild : pb.marshal (u.handler.build req).1 = .error text := by rw [h₁]; exact heq
    rw [submit, hbuild]
    exact leads_abort h₁ h₂ h₃ _
  · rename_i metaBytes heq
    have hbuild : pb.marshal (u.handler.build req).1 = .ok metaBytes := by rw [h₁]; exact heq
    rw [submit, hbuild]
    exact ⟨rfl, rfl, Or.inl ⟨⟨h₁, by rw [h₁]; rfl, h₂, h₃⟩, rfl⟩⟩

theorem leads_put (h₁ : u.handler = s.handler) (h₂ : u.responses = s.responses)
    (h₃ : u.stored = s.stored) (data : Bytes) :
    (u.put crc data).Leads s.device s.disk s.db (s.put crc data) := by
  unfold put Session.put
  rw [h₁]
  split
  · exact leads_respond h₁ h₂ h₃ _
  cases s.handler.flushErr with
  | some e => exact leads_respond h₁ h₂ h₃ _
  | none =>
  simp only
  split
  · exact leads_respond h₁ h₂ h₃ _
  split
  · exact leads_respond h₁ h₂ h₃ _
  split
  · exact ⟨rfl, rfl, Or.inl ⟨⟨rfl, rfl, h₂, h₃⟩, rfl⟩⟩
  · exact ⟨rfl, rfl, Or.inl ⟨⟨rfl, rfl, by rw [respond, Session.respond, h₂], h₃⟩, rfl⟩⟩

theorem leads_complete (h₁ : u.handler = s.handler) (h₂ : u.responses = s.responses)
    (h₃ : u.stored = s.stored) : (u.complete pb).Leads s.device s.disk s.db (s.complete pb) := by
  unfold complete Session.complete
  rw [h₁]
  cases s.handler.initReq with
  | none => exact leads_respond h₁ h₂ h₃ _
  | some req =>
  cases s.handler.flushErr with
  | some e =>
    exact leads_abort (u := { u with handler := { s.handler with finalized := true } })
      (s := { s with handler := { s.handler with finalized := true } }) rfl h₂ h₃ _
  | none =>
  simp only
  split
  · exact leads_respond h₁ h₂ h₃ _
  split
  · exact leads_respond (u := { u with handler := { s.handler with finalized := true } })
      (s := { s with handler := { s.handler with finalized := true } }) rfl h₂ h₃ _
  split
  · exact ⟨rfl, rfl, Or.inl ⟨⟨rfl, rfl, h₂, h₃⟩, rfl⟩⟩
  · exact leads_submit (u := { u with handler := { s.handler with finalized := true } })
      (s := { s with handler := { s.handler with finalized := true } }) rfl h₂ h₃ _

theorem leads_timeOut (h₁ : u.handler = s.handler) (h₂ : u.responses = s.responses)
    (h₃ : u.stored = s.stored) : u.timeOut.Leads s.device s.disk s.db s.timeOut := by
  rw [timeOut, h₁]
  exact leads_abort
    (u := { u with handler := { s.handler with finalized := true, pendingLen := 0, chunks := [] } })
    (s := { s with handler := { s.handler with finalized := true, pendingLen := 0, chunks := [] } })
    rfl h₂ h₃ _

theorem leads_fail (h₁ : u.handler = s.handler) (h₂ : u.responses = s.responses)
    (h₃ : u.stored = s.stored) (tokens : List (List Result)) (d : BlockDevice) (e : UploadError) :
    (u.fail tokens e).Leads d s.disk s.db
      (Session.fail { s with device := tokens.foldl BlockDevice.rollbackAlloc d } e) := by
  have hhandler : u.handler.failFlush e = s.handler.failFlush e := by rw [h₁]
  exact leads_rollback (u := { u with handler := u.handler.failFlush e })
    (s := { s with handler := s.handler.failFlush e }) hhandler h₂ h₃ tokens d (.error e)

theorem leads_allocated (h₁ : u.handler = s.handler) (h₂ : u.responses = s.responses)
    (h₃ : u.stored = s.stored) {buf : Bytes} {d : BlockDevice}
    {outcome : Except DeviceError (List Result × List Result)}
    (halloc : s.device.alloc buf.length = (d, outcome)) (respond : Bool) :
    (u.allocated buf respond outcome).Leads d s.disk s.db (s.flushAlloc buf respond) := by
  rw [Session.flushAlloc, halloc]
  cases outcome with
  | error e => exact leads_fail h₁ h₂ h₃ [] d _
  | ok res => exact ⟨rfl, rfl, Or.inl ⟨⟨h₁, rfl, h₂, h₃⟩, rfl⟩⟩

theorem leads_written (hu : u.Shows s) {outcome : Segment → SubmitOutcome} {ctx : Context}
    {buf : Bytes} {results token : List Result} {respond : Bool} {disk : Disk} {n : ℕ}
    {err : Option ChannelError}
    (hwrite : writeAllocated outcome ctx s.disk buf results = (disk, n, err)) :
    (u.written pb buf results token respond n err).Leads s.device disk s.db
      (s.flushWrite pb outcome ctx buf results token respond) := by
  obtain ⟨h₁, htask, h₂, h₃⟩ := hu
  have hfail : ∀ e, (u.fail [token] e).Leads s.device disk s.db
      (Session.fail { s with disk, device := s.device.rollbackAlloc token } e) :=
    leads_fail (s := { s with disk }) h₁ h₂ h₃ [token] s.device
  unfold written Session.flushWrite
  rw [hwrite]
  cases err with
  | some e => exact hfail _
  | none =>
    by_cases hlen : n = buf.length
    swap
    · simp only [ne_eq, hlen, not_false_eq_true, if_true]
      exact hfail _
    simp only [ne_eq, hlen, not_true_eq_false, if_false]
    rw [h₁]
    cases respond with
    | true =>
      exact leads_respond (u := { u with handler := s.handler.completeFlush results token })
        (s := { s with disk, handler := s.handler.completeFlush results token }) rfl h₂ h₃ _
    | false =>
      simp only [Bool.false_eq_true, if_false]
      cases (s.handler.completeFlush results token).initReq with
      | none => exact ⟨rfl, rfl, Or.inl ⟨⟨rfl, htask, h₂, h₃⟩, rfl⟩⟩
      | some req =>
        exact leads_submit (u := { u with handler := s.handler.completeFlush results token })
          (s := { s with disk, handler := s.handler.completeFlush results token }) rfl h₂ h₃ _

/-- The answer of the group commit. -/
theorem leads_committed (h₁ : u.handler = s.handler) (h₂ : u.responses = s.responses)
    (h₃ : u.stored = s.stored) (before after : List Commit) (outcome : Option BatchError)
    (c : Commit) {o : Flushed Bool}
    (ho : o = Corgi.flush json s.db [] ((before ++ c :: after).map (commitRequest json)) outcome) :
    (u.committed c ((o.answers[before.length]?).join.map .commit)
      (decide (o.outputs[before.length]? = some (some true)))).Leads s.device s.disk o.after
        (s.commit json before after outcome c) := by
  unfold committed Session.commit
  rw [← ho]
  simp only
  cases (o.answers[before.length]?).join with
  | some e => exact leads_abort (s := { s with db := o.after }) h₁ h₂ h₃ _
  | none =>
    by_cases hfound : o.outputs[before.length]? = some (some true)
    · simp only [hfound, decide_true, if_true]
      exact leads_rollback (s := { s with db := o.after }) h₁ h₂ h₃ [] s.device .success
    · simp only [hfound, decide_false, Bool.false_eq_true, if_false]
      exact leads_respond (u := { u with stored := some c.fileMeta })
        (s := { s with db := o.after, stored := some c.fileMeta }) h₁ h₂ rfl _

/-- The tokens are given back one after another. -/
theorem run_rollback (before after : List Upload) (disk : Disk) (db : DB) (r : Response) :
    ∀ (tokens : List (List Result)) (d : BlockDevice) (v : Upload), ∃ events u',
      Run (Server.Step crc pb json) ⟨d, disk, db, before ++ v.rollback tokens r :: after⟩ events
        ⟨tokens.foldl BlockDevice.rollbackAlloc d, disk, db, before ++ u' :: after⟩ ∧
      u'.handler = v.handler ∧ u'.task = .idle ∧ u'.responses = v.responses ++ [r] ∧
      u'.stored = v.stored
  | [], d, v => ⟨[], v.respond r, .nil, rfl, rfl, rfl, rfl⟩
  | token :: tokens, d, v => by
    let v₁ : Upload :=
      { v with task := .rollback (token :: tokens) r, released := v.released ++ [token] }
    obtain ⟨events, u', hrun, h1, h2, h3, h4⟩ := run_rollback before after disk db r tokens
      (d.rollbackAlloc token) v₁
    have hstep : Server.Step crc pb json
        ⟨d, disk, db, before ++ v.rollback (token :: tokens) r :: after⟩
        (.upload before.length .rollbackAlloc)
        ⟨d.rollbackAlloc token, disk, db, before ++ v₁.rollback tokens r :: after⟩ :=
      ⟨before, v.rollback (token :: tokens) r, after, _, rfl, rfl, ⟨token, tokens, r, rfl, rfl⟩,
        ⟨token, tokens, r, rfl, rfl, rfl, rfl⟩, rfl⟩
    exact ⟨_, u', hrun.cons hstep, h1, h2, h3, h4⟩

/-- A step that leads to `t` is completed to a run. -/
theorem exists_run_of_leads {srv : Server} {u₁ : Upload} {e : UploadEvent}
    {before after : List Upload} (hsrv : srv.uploads = before ++ u :: after)
    (hstep : Step crc pb u e u₁) {d : BlockDevice} {disk : Disk} {db : DB}
    (heffect : srv.Effect json u e d disk db)
    (hleads : u₁.Leads d disk db t) : ∃ events u',
      Run (Server.Step crc pb json) srv events ⟨t.device, t.disk, t.db, before ++ u' :: after⟩ ∧
      u'.Shows t := by
  have hfirst : Server.Step crc pb json srv (.upload before.length e)
      ⟨d, disk, db, before ++ u₁ :: after⟩ :=
    ⟨before, u, after, u₁, hsrv, rfl, hstep, heffect, rfl⟩
  obtain ⟨rfl, rfl, ⟨hshows, hd⟩ | ⟨v, tokens, r, rfl, h1, h2, h3, h4, h5⟩⟩ := hleads
  · rw [hd]
    exact ⟨_, u₁, Run.nil.snoc hfirst, hshows⟩
  · obtain ⟨events, u', hrun, g1, g2, g3, g4⟩ := @run_rollback crc pb json before after
      t.disk t.db r tokens d v
    rw [h5]
    exact ⟨_, u', hrun.cons hfirst, g1.trans h1, by rw [g2, h2]; rfl, g3.trans h3.symm, g4.trans h4⟩

end Upload

/-- The call that an event makes. -/
def SessionEvent.call : SessionEvent → Option UploadCall
  | start req => some (.start req)
  | put data => some (.put data)
  | complete => some .complete
  | timeOut => some .timeOut
  | _ => none

open Upload in
/-- A step of a session, other than one of others, is a run of its upload among any others. -/
theorem Session.Step.simulated {crc : BitVec 32 → Bytes → BitVec 32} {pb : Protobuf}
    {json : JSONDeleteMark} {s t : Session} {e : SessionEvent} (hstep : Step crc pb json s e t)
    (hothers : ∀ device disk db, e ≠ .others device disk db) {u : Upload} (hu : u.Shows s)
    (hcall : ∀ c, e.call = some c → u.Accepts c) (before after : List Upload) :
    ∃ events u', Run (Server.Step crc pb json) ⟨s.device, s.disk, s.db, before ++ u :: after⟩ events
        ⟨t.device, t.disk, t.db, before ++ u' :: after⟩ ∧ u'.Shows t := by
  obtain ⟨h₁, htask, h₂, h₃⟩ := hu
  have hidle : s.phase = .idle → u.task = .idle := fun h => by rw [htask, h]; rfl
  cases e with
  | start req =>
    obtain ⟨hphase, rfl⟩ := hstep
    refine exists_run_of_leads (e := .call (.start req)) rfl ⟨hidle hphase, hcall _ rfl, rfl⟩
      ⟨rfl, rfl, rfl⟩ ⟨rfl, rfl, Or.inl ⟨⟨?_, ?_, h₂, h₃⟩, rfl⟩⟩
    · rw [Upload.call, called, h₁]
    · rw [Upload.call, called]
      exact htask
  | put data =>
    obtain ⟨hphase, rfl⟩ := hstep
    exact exists_run_of_leads (e := .call (.put data)) rfl ⟨hidle hphase, hcall _ rfl, rfl⟩
      ⟨rfl, rfl, rfl⟩ (leads_put (u := u.called (.put data)) h₁ h₂ h₃ data)
  | complete =>
    obtain ⟨hphase, rfl⟩ := hstep
    exact exists_run_of_leads (e := .call .complete) rfl ⟨hidle hphase, hcall _ rfl, rfl⟩
      ⟨rfl, rfl, rfl⟩ (leads_complete (u := u.called .complete) h₁ h₂ h₃)
  | timeOut =>
    obtain ⟨hphase, rfl⟩ := hstep
    exact exists_run_of_leads (e := .call .timeOut) rfl ⟨hidle hphase, hcall _ rfl, rfl⟩
      ⟨rfl, rfl, rfl⟩ (leads_timeOut (u := u.called .timeOut) h₁ h₂ h₃)
  | flushAlloc =>
    obtain ⟨buf, respond, hphase, rfl⟩ := hstep
    have htask' : u.task = .alloc buf respond := by rw [htask, hphase]; rfl
    exact exists_run_of_leads (e := .alloc (s.device.alloc buf.length).2) rfl
      ⟨buf, respond, htask', rfl⟩ ⟨buf, respond, htask', rfl, rfl, rfl⟩
      (leads_allocated h₁ h₂ h₃ rfl respond)
  | flushWrite outcome ctx =>
    obtain ⟨buf, results, token, respond, hphase, hctx, rfl⟩ := hstep
    have htask' : u.task = .write buf results token respond := by rw [htask, hphase]; rfl
    exact exists_run_of_leads (e := .write _ _) rfl ⟨buf, results, token, respond, htask', rfl⟩
      ⟨buf, results, token, respond, outcome, ctx, htask', hctx, rfl, rfl, rfl⟩
      (leads_written ⟨h₁, htask, h₂, h₃⟩ rfl)
  | commit cs cs' outcome =>
    obtain ⟨c, hphase, rfl⟩ := hstep
    have htask' : u.task = .commit c := by rw [htask, hphase]; rfl
    exact exists_run_of_leads (e := .commit _ _) rfl ⟨c, htask', rfl⟩
      ⟨c, htask', rfl, rfl, Or.inl ⟨cs, cs', outcome, rfl, rfl, rfl⟩⟩
      (leads_committed h₁ h₂ h₃ cs cs' outcome c rfl)
  | noProcessor =>
    obtain ⟨c, hphase, rfl⟩ := hstep
    have htask' : u.task = .commit c := by rw [htask, hphase]; rfl
    exact exists_run_of_leads (e := .commit (some _) false) rfl ⟨c, htask', rfl⟩
      ⟨c, htask', rfl, rfl, Or.inr ⟨rfl, rfl, rfl⟩⟩ (leads_abort h₁ h₂ h₃ _)
  | others device disk db => exact absurd rfl (hothers device disk db)

end Corgi
