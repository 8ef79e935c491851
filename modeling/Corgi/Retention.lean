import Corgi.Simulation

/-!
# What is stored stays readable

What a process has stored it keeps on the disk, over crashes and restarts and whatever other
uploads do, as long as no write is left in flight by a context that is cancelled. An upload in
progress is a session of `Corgi.Recovery` to which the others do nothing but what
`Session.Others` allows (`Upload.Tracked`), so that what it has flushed is on the disk when its
record is committed.

`Archive.retained` : every record that was ever stored is read back from the disk as it is now,
and the last one under each key is what the database returns.
-/

set_option linter.unusedSectionVars false

namespace Corgi

/-! ## What a write can change -/

theorem SubmitOutcome.length_stored_le (data : Bytes) : ∀ o : SubmitOutcome,
    (o.stored data).length ≤ data.length
  | submitError _ => Nat.zero_le _
  | contextDone junk => List.length_take_le _ _
  | completed n _ junk => by
    rw [stored, List.length_append, List.length_take, List.length_take]
    omega

theorem Disk.write_of_notMem {disk : Disk} {segment : Segment} {data : Bytes} {a : ℕ}
    (hlen : data.length ≤ segment.data.length) (ha : a / 4096 ∉ segment.blocks) :
    disk.write segment.offset data a = disk a :=
  if_neg fun h => ha (Segment.mem_blocks.mpr ⟨a, h.1, by omega, rfl⟩)

theorem submitSegments_frame (outcome : Segment → SubmitOutcome) {a : ℕ} :
    ∀ (segments : List Segment) (ctx : Context) (disk : Disk) (written : ℕ),
    (∀ segment ∈ segments, a / 4096 ∉ segment.blocks) →
    (submitSegments outcome segments ctx disk written).1 a = disk a
  | [], _, _, _, _ => rfl
  | segment :: segments, ctx, disk, written, h => by
    obtain ⟨hsegment, hsegments⟩ := List.forall_mem_cons.mp h
    have hwrite : disk.write segment.offset ((outcome segment).stored segment.data) a = disk a :=
      Disk.write_of_notMem ((outcome segment).length_stored_le segment.data) hsegment
    rw [submitSegments]
    split
    · rfl
    simp only
    split
    · exact hwrite
    · exact hwrite
    · exact hwrite
    split
    · exact hwrite
    · exact (submitSegments_frame outcome segments _ _ _ hsegments).trans hwrite

/-- However a write ends, it changes nothing but the blocks of its token. -/
theorem writeAllocated_frame {info : FlushBlockInfo} (h : info.Proper)
    (outcome : Segment → SubmitOutcome) (ctx : Context) (disk : Disk) (buf : Bytes) {a : ℕ}
    (ha : a / 4096 ∉ blocksOf info.token) :
    (writeAllocated outcome ctx disk buf info.results).1 a = disk a := by
  rw [writeAllocated]
  split
  · rfl
  split
  · rfl
  split
  · rfl
  rename_i segments cursor ctx' hbuild
  split
  · rfl
  · exact submitSegments_frame outcome segments ctx' disk 0 fun segment hsegment hmem =>
      ha (Flushes.blocks_of_buildSegments h hbuild segment hsegment _ hmem)

/-! ## Sessions after their calls -/

namespace Session

variable {s t : Session} {calls : List UploadCall} {crc : BitVec 32 → Bytes → BitVec 32}
  {pb : Protobuf}

/-- Where a session stands after these calls. -/
inductive At (s : Session) : List UploadCall → Prop
  | fresh (hhandler : s.handler = .new) (hphase : s.phase = .idle) (hstored : s.stored = none)
    (hs : s.Sound) : At s []
  | active (req : PutInitRequest) (datas : List Bytes) (h : Active req datas s) :
    At s (.start req :: datas.map .put)
  | closing (req : PutInitRequest) (datas : List Bytes) (h : Closing req datas s) :
    At s (.start req :: datas.map .put ++ [.complete])

theorem At.others (h : s.At calls) {device : BlockDevice} {disk : Disk} {db : DB}
    (ho : s.Others device disk) : At { s with device, disk, db } calls := by
  cases h with
  | fresh hhandler hphase hstored hs => exact .fresh hhandler hphase hstored (hs.others ho)
  | active req datas h => exact .active req datas (h.others ho)
  | closing req datas h => exact .closing req datas (h.others ho)

theorem At.flushAlloc (h : s.At calls) {buf : Bytes} {respond : Bool}
    (hphase : s.phase = .alloc buf respond) : (s.flushAlloc buf respond).At calls := by
  have hstep : Step crc32Update protobuf (fun _ => none) s .flushAlloc
      (s.flushAlloc buf respond) := ⟨buf, respond, hphase, rfl⟩
  cases h with
  | fresh _ hidle => cases hidle.symm.trans hphase
  | active req datas h => exact .active req datas (h.internal rfl hstep)
  | closing req datas h => exact .closing req datas (h.internal rfl hstep)

theorem At.flushWrite (h : s.At calls) {buf : Bytes} {results token : List Result}
    {respond : Bool} (hphase : s.phase = .write buf results token respond)
    (outcome : Segment → SubmitOutcome) {ctx : Context} (hctx : respond = true → ctx = none) :
    (s.flushWrite pb outcome ctx buf results token respond).At calls := by
  have hstep : Step crc32Update pb (fun _ => none) s (.flushWrite outcome ctx)
      (s.flushWrite pb outcome ctx buf results token respond) :=
    ⟨buf, results, token, respond, hphase, hctx, rfl⟩
  cases h with
  | fresh _ hidle => cases hidle.symm.trans hphase
  | active req datas h => exact .active req datas (h.internal rfl hstep)
  | closing req datas h => exact .closing req datas (h.internal rfl hstep)

/-- The calls that may come, when the session is not timed out. -/
theorem At.start (h : s.At []) (req : PutInitRequest) :
    At { s with handler := s.handler.start req } [.start req] := by
  cases h with
  | fresh hhandler hphase hstored hs =>
    exact .active req [] (active_start hhandler hphase hstored hs req)

theorem At.active_of_open (h : s.At calls) (hne : calls ≠ []) (hcomplete : .complete ∉ calls) :
    ∃ req datas, calls = .start req :: datas.map .put ∧ Active req datas s := by
  cases h with
  | fresh => exact absurd rfl hne
  | active req datas h => exact ⟨req, datas, rfl, h⟩
  | closing req datas h =>
    exact absurd (List.mem_append_right _ (List.mem_singleton_self _)) hcomplete

theorem At.put (h : s.At calls) (hne : calls ≠ []) (hcomplete : .complete ∉ calls)
    (hidle : s.phase = .idle) (data : Bytes) : (s.put crc data).At (calls ++ [.put data]) := by
  obtain ⟨req, datas, rfl, hactive⟩ := h.active_of_open hne hcomplete
  have hcalls : (.start req :: datas.map .put ++ [.put data] : List UploadCall) =
      .start req :: (datas ++ [data]).map .put := by
    rw [List.map_append]
    rfl
  rw [hcalls]
  exact .active req (datas ++ [data]) (hactive.put hidle data)

theorem At.complete (h : s.At calls) (hne : calls ≠ []) (hcomplete : .complete ∉ calls)
    (hidle : s.phase = .idle) : (s.complete pb).At (calls ++ [.complete]) := by
  obtain ⟨req, datas, rfl, hactive⟩ := h.active_of_open hne hcomplete
  exact .closing req datas (hactive.complete hidle)

/-- What a session that commits has on the disk. -/
theorem At.committing (h : s.At calls) {c : Commit} (hphase : s.phase = .commit c) :
    ∃ req etag, List.Forall₂ (Holds s.disk) s.handler.blockInfoList
        (flushPieces (calls.filterMap UploadCall.data)) ∧
      c.fileMeta = (buildFileMetaAndResults req (calls.filterMap UploadCall.data).flatten.length
        etag s.handler.blockInfoList).1 := by
  cases h with
  | fresh _ hidle => cases hidle.symm.trans hphase
  | active req datas h =>
    rcases h.state with ⟨hidle, -⟩ | ⟨-, -, -, -, ⟨hidle, -⟩ | hflushing⟩
    · cases hidle.symm.trans hphase
    · cases hidle.symm.trans hphase
    · exact absurd hphase (hflushing.not_commit c)
  | closing req datas h =>
    have hdatas : (.start req :: datas.map .put ++ [.complete] : List UploadCall).filterMap
        UploadCall.data = datas := by
      simp [List.filterMap_cons, UploadCall.data, List.filterMap_map, Function.comp_def]
    obtain ⟨hholds, -, ⟨v, hrecord⟩, -⟩ := h.committing hphase
    rw [hdatas]
    exact ⟨req, _, hholds, hrecord⟩

end Session

/-! ## Uploads in progress -/

namespace Upload

variable {crc : BitVec 32 → Bytes → BitVec 32} {pb : Protobuf} {u u' : Upload}
  {d d' : BlockDevice} {disk disk' : Disk} {db db' : DB}

/-- An upload that will store nothing. -/
structure Over (u : Upload) : Prop where
  stored : u.stored = none
  reason : u.handler.flushErr ≠ none ∨ u.Ended
  task : u.task = .idle ∨ ∃ tokens r, u.task = .rollback tokens r

/-- An upload that may still store its record is a session. -/
def Tracked (d : BlockDevice) (disk : Disk) (db : DB) (u : Upload) : Prop :=
  u.stored = none → u.Over ∨ ∃ s : Session, u.Shows s ∧ s.device = d ∧ s.disk = disk ∧ s.db = db ∧
    s.At u.calls

theorem over_rollback (hstored : u.stored = none) (hreason : u.handler.flushErr ≠ none ∨ u.Ended)
    (tokens : List (List Result)) (r : Response) : (u.rollback tokens r).Over := by
  rw [rollback]
  split_ifs
  · exact ⟨hstored, hreason, Or.inl rfl⟩
  · exact ⟨hstored, hreason, Or.inr ⟨tokens, r, rfl⟩⟩

theorem over_rollbackCompletedFlushes (hstored : u.stored = none)
    (hreason : u.handler.flushErr ≠ none ∨ u.Ended) (r : Response) :
    (u.rollbackCompletedFlushes r).Over :=
  over_rollback (u := { u with handler := u.handler.clearTokens }) hstored hreason _ r

/-- During a rollback an upload is over. -/
theorem Stage.over_of_rollback (h : u.Stage) {tokens : List (List Result)} {r : Response}
    (htask : u.task = .rollback tokens r) : u.Over := by
  obtain ⟨-, hstarted, -, hsettles⟩ := h.of_rollback htask
  exact ⟨hstarted.stored, hsettles.imp (fun h => h.2.1) fun h => h.1, Or.inr ⟨tokens, r, htask⟩⟩

/-- The handler has come to a session, but for what it has to give back. -/
theorem Leads.tracked {s : Session} (h : u.Leads d disk db s) (hat : s.At u.calls)
    (hstage : u.Stage) : u.Tracked d disk db := by
  intro hnone
  obtain ⟨hdisk, hdb, ⟨hshows, hd⟩ | ⟨v, tokens, r, hu, h1, h2, h3, h4, h5⟩⟩ := h
  · exact Or.inr ⟨s, hshows, hd, hdisk, hdb, hat⟩
  by_cases hnil : tokens = []
  · subst hnil
    rw [rollback, if_pos rfl] at hu
    exact Or.inr ⟨s, ⟨hu ▸ h1, by rw [hu, h2]; rfl, by rw [hu, h3]; rfl, by rw [hu]; exact h4⟩, h5,
      hdisk, hdb, hat⟩
  · exact Or.inl (hstage.over_of_rollback (by rw [hu, rollback, if_neg hnil]))

/-- The blocks of a session are those of its upload. -/
theorem Shows.mem_held {s : Session} (h : u.Shows s) {b : ℕ} (hb : b ∈ s.held) :
    b ∈ blocksOfTokens u.tokens := by
  rw [Session.held_eq, blocksOf, List.mem_flatMap] at hb
  obtain ⟨r, hr, hb⟩ := hb
  obtain ⟨token, htoken, hr⟩ := List.mem_flatten.mp hr
  refine List.mem_flatMap.mpr ⟨token, ?_, List.mem_flatMap.mpr ⟨r, hr, hb⟩⟩
  rw [tokens, h.task, h.handler]
  rcases List.mem_append.mp htoken with htoken | htoken
  · exact List.mem_append_left _ (List.mem_filter.mpr
      ⟨htoken, decide_eq_true (List.ne_nil_of_mem hr)⟩)
  · refine List.mem_append_right _ ?_
    cases hphase : s.phase with
    | write buf results token' respond =>
      rw [hphase] at htoken
      exact htoken
    | _ =>
      rw [hphase] at htoken
      exact absurd htoken List.not_mem_nil

/-- What others do, as long as they leave the upload's blocks to it. -/
theorem Tracked.others (h : u.Tracked d disk db) (hinv : d'.allocator.Inv)
    (htotal : d'.allocator.total = d.allocator.total)
    (hallocated : ∀ b ∈ blocksOfTokens u.liveTokens, d'.allocator.isFree b = false)
    (hbytes : ∀ a, a / 4096 ∈ blocksOfTokens u.liveTokens → disk' a = disk a) :
    u.Tracked d' disk' db' := by
  intro hnone
  rw [liveTokens_of_none hnone] at hallocated hbytes
  rcases h hnone with h | ⟨s, hshows, rfl, rfl, rfl, hat⟩
  · exact Or.inl h
  · exact Or.inr ⟨{ s with device := d', disk := disk', db := db' },
      ⟨hshows.handler, hshows.task, hshows.responses, hshows.stored⟩, rfl, rfl, rfl,
      hat.others ⟨hinv, htotal, fun b hb => hallocated b (hshows.mem_held hb),
        fun a ha => hbytes a (hshows.mem_held ha)⟩⟩

/-- A new upload. -/
theorem tracked_new (hinv : d.allocator.Inv) (hlt : d.allocator.total < 2 ^ 63) :
    Upload.new.Tracked d disk db := fun _ =>
  Or.inr ⟨Session.new d disk db, ⟨rfl, rfl, rfl, rfl⟩, rfl, rfl, rfl, .fresh rfl rfl rfl
    ⟨hinv, hlt, List.nodup_nil, fun _ hb => absurd hb List.not_mem_nil,
      fun _ ht => absurd ht List.not_mem_nil⟩⟩

theorem over_timeOut (hstored : u.stored = none) : (u.called .timeOut).timeOut.Over :=
  over_rollbackCompletedFlushes (u := { u.called .timeOut with
      handler := { u.handler with finalized := true, pendingLen := 0, chunks := [] } })
    hstored (Or.inr (Or.inr (u.mem_called .timeOut))) _

theorem not_over_new : ¬Upload.new.Over := by
  rintro ⟨-, h | h | h, -⟩
  · exact h rfl
  · cases h
  · cases h

theorem Over.call (h : u.Over) (hstage : u.Stage) {c : UploadCall}
    (hstep : Step crc pb u (.call c) u') : u'.Over := by
  obtain ⟨hidle, hacc, rfl⟩ := hstep
  -- an open upload that is over has a flush that failed
  have hfailed : u.Open → ∃ e req, u.handler.flushErr = some e ∧
      u.handler.initReq = some req := by
    intro hopen
    have herr := h.reason.resolve_right (not_ended_of_open hopen)
    obtain ⟨e, he⟩ := Option.ne_none_iff_exists'.mp herr
    rcases hstage.of_open hidle hopen with ⟨hholding, -⟩ | ⟨hstarted, -⟩
    · exact absurd hholding.flushErr herr
    · obtain ⟨req, hreq⟩ := Option.ne_none_iff_exists'.mp hstarted.initReq
      exact ⟨e, req, he, hreq⟩
  cases c with
  | start req =>
    obtain rfl := hstage.of_nil hacc
    exact absurd h not_over_new
  | put data =>
    obtain ⟨e, req, he, hreq⟩ := hfailed hacc
    rw [Upload.call, put_of_flushErr (u := u.called (.put data)) (hreq ▸ Option.some_ne_none req)
      he]
    exact ⟨h.stored, Or.inl (he ▸ Option.some_ne_none e), Or.inl rfl⟩
  | complete =>
    obtain ⟨e, req, he, hreq⟩ := hfailed hacc
    have he' : (u.called .complete).handler.flushErr = some e := he
    have hreq' : (u.called .complete).handler.initReq = some req := hreq
    rw [Upload.call, Upload.complete, hreq', he']
    exact over_rollbackCompletedFlushes (u := (u.called .complete).finalize) h.stored
      (Or.inr (Or.inl (u.mem_called .complete))) _
  | timeOut => exact over_timeOut h.stored

theorem phase_injective : Function.Injective Phase.task := by
  intro p q h
  cases p <;> cases q <;> cases h <;> rfl

theorem Shows.phase_eq {s : Session} (h : u.Shows s) {phase : Phase} (hu : u.task = phase.task) :
    s.phase = phase :=
  phase_injective (h.task.symm.trans hu)

theorem Tracked.call (h : u.Tracked d disk db) (hstage : u.Stage) {c : UploadCall}
    (hstep : Step crc pb u (.call c) u') : u'.Tracked d disk db := by
  have hstage' : u'.Stage := hstage.step (e := .call c) trivial hstep
  have hnone := hstep.stored_none hstage
  rcases h hnone with h | ⟨s, hshows, rfl, rfl, rfl, hat⟩
  · exact fun _ => Or.inl (h.call hstage hstep)
  obtain ⟨hidle, hacc, rfl⟩ := hstep
  have hphase : s.phase = .idle := hshows.phase_eq hidle
  obtain ⟨h₁, htask, h₂, h₃⟩ := hshows
  cases c with
  | start req =>
    rw [show u.calls = [] from hacc] at hat
    refine Leads.tracked (s := { s with handler := s.handler.start req })
      ⟨rfl, rfl, Or.inl ⟨⟨?_, htask, h₂, h₃⟩, rfl⟩⟩ ?_ hstage'
    · rw [Upload.call, called, h₁]
    · rw [show ((u.called (.start req)).call crc pb (.start req)).calls = u.calls ++ [.start req]
        from rfl, show u.calls = [] from hacc]
      exact hat.start req
  | put data =>
    refine (leads_put (u := u.called (.put data)) h₁ h₂ h₃ data).tracked ?_ hstage'
    rw [(answers_put _ data).1]
    exact hat.put hacc.1 hacc.2.1 hphase data
  | complete =>
    refine (leads_complete (u := u.called .complete) h₁ h₂ h₃).tracked ?_ hstage'
    rw [(answers_complete _).1]
    exact hat.complete hacc.1 hacc.2.1 hphase
  | timeOut => exact fun _ => Or.inl (over_timeOut hnone)

/-- Uploads that wait for the device are not over. -/
theorem Tracked.of_task (h : u.Tracked d disk db) (hnone : u.stored = none) (phase : Phase)
    (htask : u.task = phase.task) (hne : phase ≠ .idle) :
    ∃ s : Session, u.Shows s ∧ s.device = d ∧ s.disk = disk ∧ s.db = db ∧ s.At u.calls ∧
      s.phase = phase := by
  rcases h hnone with h | ⟨s, hshows, hd, hdisk, hdb, hat⟩
  · rcases h.task with hidle | ⟨tokens, r, hidle⟩ <;> rw [htask] at hidle <;> cases phase <;>
      first | exact absurd rfl hne | cases hidle
  · exact ⟨s, hshows, hd, hdisk, hdb, hat, hshows.phase_eq htask⟩

theorem Tracked.alloc (h : u.Tracked d disk db) (hstage : u.Stage) {buf : Bytes} {respond : Bool}
    (htask : u.task = .alloc buf respond)
    {outcome : Except DeviceError (List Result × List Result)}
    (halloc : d.alloc buf.length = (d', outcome)) (hstep : Step crc pb u (.alloc outcome) u')
    (hstage' : u'.Stage) : u'.Tracked d' disk db := by
  obtain ⟨s, ⟨h₁, -, h₂, h₃⟩, rfl, rfl, rfl, hat, hphase⟩ :=
    h.of_task (hstep.stored_none hstage) (.alloc buf respond) htask nofun
  obtain ⟨buf', respond', htask', rfl⟩ := hstep
  cases htask.symm.trans htask'
  refine (leads_allocated h₁ h₂ h₃ halloc respond).tracked ?_ hstage'
  rw [(answers_allocated u buf respond outcome).1]
  exact hat.flushAlloc hphase

theorem Tracked.write (h : u.Tracked d disk db) (hstage : u.Stage) {buf : Bytes}
    {results token : List Result} {respond : Bool}
    (htask : u.task = .write buf results token respond) {outcome : Segment → SubmitOutcome}
    {ctx : Context} (hctx : respond = true → ctx = none) {written : ℕ} {err : Option ChannelError}
    (hwrite : writeAllocated outcome ctx disk buf results = (disk', written, err))
    (hstep : Step crc pb u (.write written err) u') : u'.Tracked d disk' db := by
  obtain ⟨s, hshows, rfl, rfl, rfl, hat, hphase⟩ := h.of_task (hstep.stored_none hstage)
    (.write buf results token respond) htask nofun
  have hstage' : u'.Stage := hstage.step (e := .write written err) trivial hstep
  obtain ⟨_, _, _, _, htask', rfl⟩ := hstep
  cases htask.symm.trans htask'
  obtain ⟨-, hholding, -⟩ := hstage.of_flushing (Or.inr ⟨buf, results, token, htask⟩)
  refine (leads_written hshows hwrite).tracked ?_ hstage'
  rw [(answers_written hholding.initReq buf results token respond written err).1]
  exact hat.flushWrite hphase outcome hctx

theorem over_rolledBack (h : u.Stage) (hstep : Step crc pb u .rollbackAlloc u') : u'.Over := by
  obtain ⟨token, tokens, r, htask, rfl⟩ := hstep
  have hover := h.over_of_rollback htask
  exact over_rollback (u := { u with released := u.released ++ [token] }) hover.stored hover.reason
    tokens r

/-- An upload whose commit fails is over. -/
theorem over_of_commit {c : Commit} (h : u.Stage) (htask : u.task = .commit c) (r : Response) :
    (u.rollbackCompletedFlushes r).Over := by
  obtain ⟨hnone, hcalls, -⟩ := h.of_commit htask
  exact over_rollbackCompletedFlushes hnone (Or.inr (Or.inl hcalls)) r

end Upload

/-! ## Records on the disk -/

/-- The pieces of an upload are on the disk, where its record says. -/
def StoredUpload.OnDisk (disk : Disk) (x : StoredUpload) : Prop :=
  ∃ req etag infos, List.Forall₂ (Session.Holds disk) infos (flushPieces x.chunks) ∧
    x.fileMeta = (buildFileMetaAndResults req x.chunks.flatten.length etag infos).1

namespace StoredUpload

variable {disk disk' : Disk} {x : StoredUpload}

theorem OnDisk.congr (h : x.OnDisk disk)
    (heq : ∀ a, a / 4096 ∈ x.fileMeta.blocks → disk' a = disk a) : x.OnDisk disk' := by
  obtain ⟨req, etag, infos, hholds, hrecord⟩ := h
  rw [hrecord, blocks_buildFileMeta _ _ _ (proper_of_holds hholds)] at heq
  exact ⟨req, etag, infos, Session.forall₂_holds_congr hholds heq, hrecord⟩

/-- Reading the record back gives the padded pieces, cut to the size of the content. -/
theorem OnDisk.readResults (h : x.OnDisk disk) :
    Corgi.readResults disk x.fileMeta.extents x.fileMeta.size.toNat =
      .ok (((flushPieces x.chunks).flatMap (pad 4096 0#8)).take x.chunks.flatten.length) := by
  obtain ⟨req, etag, infos, hholds, hrecord⟩ := h
  rw [hrecord, extents_buildFileMeta, ← extents_of_holds hholds]
  refine readResults_of_le disk (fun r hr => ?_) ?_
  · exact (aligned_flattenBlockResults (proper_of_holds hholds) r hr).2.1
  · rw [← length_extents disk, extents_of_holds hholds, ← flatten_flushPieces x.chunks]
    exact length_flatten_le _

end StoredUpload

/-! ## The process -/

/-- No write is left in flight. -/
def ArchiveEvent.Waits : ArchiveEvent → Prop
  | write _ outcome _ => ∀ segment, (outcome segment).Waits
  | _ => True

namespace Archive

variable {crc : BitVec 32 → Bytes → BitVec 32} {pb : Protobuf} {json : JSONDeleteMark}
  {name : String} {n : ℕ} {s t : Archive} {m m' : Node ℕ} {k : ℕ} {u u' : Upload}
  {d d' : BlockDevice}

/-- What a process keeps on its disk. -/
structure Retains (s : Archive) : Prop where
  strays : s.strays = []
  down : s.device = none → s.uploads = []
  tracked : ∀ d, s.device = some d → ∀ u ∈ s.uploads, u.Tracked d s.disk s.db
  onDisk : ∀ x ∈ s.stored, x.OnDisk s.disk
  acknowledged : ∀ u ∈ s.uploads, ∀ fileMeta, u.stored = some fileMeta →
    ⟨fileMeta, u.putData⟩ ∈ s.stored

theorem mem_liveBlocks (hu : u ∈ s.uploads) {b : ℕ}
    (hb : b ∈ Upload.blocksOfTokens u.liveTokens) : b ∈ s.liveBlocks :=
  List.mem_flatMap.mpr ⟨u, hu, hb⟩

theorem mem_storedBlocks {x : StoredUpload} (hx : x ∈ s.stored) {b : ℕ}
    (hb : b ∈ x.fileMeta.blocks) : b ∈ s.storedBlocks :=
  List.mem_flatMap.mpr ⟨x, hx, hb⟩

/-- Two uploads share no block. -/
theorem disjoint_live (hnodup : s.liveBlocks.Nodup) {j : ℕ} {v : Upload}
    (hj : s.uploads[j]? = some v) (hk : s.uploads[k]? = some u) (hne : j ≠ k) {b : ℕ}
    (hb : b ∈ Upload.blocksOfTokens v.liveTokens) : b ∉ Upload.blocksOfTokens u.liveTokens := by
  obtain ⟨-, hpair⟩ := List.nodup_flatMap.mp hnodup
  obtain ⟨hj', rfl⟩ := List.getElem?_eq_some_iff.mp hj
  obtain ⟨hk', rfl⟩ := List.getElem?_eq_some_iff.mp hk
  rw [List.pairwise_iff_getElem] at hpair
  rcases Nat.lt_or_gt_of_ne hne with hlt | hlt
  · exact fun hb' => hpair j k hj' hk' hlt hb hb'
  · exact fun hb' => hpair k j hk' hj' hlt hb' hb

theorem mem_set_cases {v : Upload} (hv : v ∈ s.uploads.set k u') :
    v = u' ∨ ∃ j ≠ k, s.uploads[j]? = some v := by
  obtain ⟨j, hj⟩ := List.mem_iff_getElem?.mp hv
  rw [List.getElem?_set] at hj
  split_ifs at hj with hkj
  · exact Or.inl (Option.some.inj hj).symm
  · exact Or.inr ⟨j, Ne.symm hkj, hj⟩

/-- One upload moves on and writes to nothing but its own blocks. -/
theorem Retains.set (h : s.Retains) (hshows : s.Shows m) (hinv : m.Inv n) (hshows' : t.Shows m')
    (hinv' : m'.Inv n) (hn : 0 < n) (hd : s.device = some d) (hd' : t.device = some d')
    (hk : s.uploads[k]? = some u) (ht : t.uploads = s.uploads.set k u') (hstrays : t.strays = [])
    (hstored : t.stored = s.stored) (hu : u'.Tracked d' t.disk t.db) (hnone : u'.stored = none)
    (hdisk : ∀ a, a / 4096 ∉ Upload.blocksOfTokens u.liveTokens → t.disk a = s.disk a) :
    t.Retains := by
  have hnodup := hshows.nodup hinv
  obtain ⟨htotal, -⟩ := hshows.owns hinv hd
  obtain ⟨htotal', howns⟩ := hshows'.owns hinv' hd'
  refine ⟨hstrays, fun hdown => absurd (hd'.symm.trans hdown) nofun, fun e he v hv => ?_,
    fun x hx => ?_, fun v hv fileMeta hf => ?_⟩
  · obtain rfl := Option.some.inj (hd'.symm.trans he)
    have hallocated : ∀ b ∈ Upload.blocksOfTokens v.liveTokens, d'.allocator.isFree b = false := by
      intro b hb
      refine ((howns.mem_iff b).mp (Multiset.mem_add.mpr (Or.inl ?_))).2
      exact Multiset.mem_coe.mpr (mem_liveBlocks hv hb)
    rw [ht] at hv
    rcases mem_set_cases hv with rfl | ⟨j, hj, hv⟩
    · exact hu
    · refine (h.tracked d hd v (List.mem_of_getElem? hv)).others
        (howns.inv (htotal' ▸ hn)) (htotal'.trans htotal.symm) hallocated fun a ha => hdisk a ?_
      exact disjoint_live (List.nodup_append.mp hnodup).1 hv hk hj ha
  · rw [hstored] at hx
    refine (h.onDisk x hx).congr fun a ha => hdisk a fun ha' => ?_
    exact (List.nodup_append.mp hnodup).2.2 _ (mem_liveBlocks (List.mem_of_getElem? hk) ha') _
      (mem_storedBlocks hx ha) rfl
  · rw [ht] at hv
    rw [hstored]
    rcases mem_set_cases hv with rfl | ⟨j, -, hv⟩
    · cases hnone.symm.trans hf
    · exact h.acknowledged v (List.mem_of_getElem? hv) fileMeta hf

theorem mem_storedBy {uploads : List Upload} {ks : List ℕ} {x : StoredUpload} :
    x ∈ storedBy uploads ks ↔ ∃ k ∈ ks, ∃ u, uploads[k]? = some u ∧
      ∃ fileMeta, u.stored = some fileMeta ∧ ⟨fileMeta, u.putData⟩ = x := by
  simp only [storedBy, List.mem_filterMap, Option.bind_eq_some_iff, Option.map_eq_some_iff]

/-- What an upload has on the disk when it commits. -/
theorem onDisk_of_commit (h : u.Tracked d s.disk s.db) (hstage : u.Stage) {c : Commit}
    (htask : u.task = .commit c) : StoredUpload.OnDisk s.disk ⟨c.fileMeta, u.putData⟩ := by
  obtain ⟨x, -, -, hdisk, -, hat, hphase⟩ :=
    h.of_task (hstage.of_commit htask).1 (.commit c) htask nofun
  obtain ⟨req, etag, hholds, hrecord⟩ := hat.committing hphase
  rw [hdisk] at hholds
  exact ⟨req, etag, _, hholds, hrecord⟩

/-- What is left of an upload once its group is answered. -/
theorem Answers.cases {group stored : List (Completion ℕ)} {o : Flushed Bool} {g : Completion ℕ}
    (h : Answers m group stored o g u) (hstage : u.Stage)
    (htask : u.task = .commit (m.commitOf g)) :
    (u.answered o ((group.map Completion.upload).idxOf g.upload)).stored =
        some (m.commitOf g).fileMeta ∨
      (u.answered o ((group.map Completion.upload).idxOf g.upload)).Over := by
  by_cases hmem : g.upload ∈ stored.map Completion.upload
  · rw [(h.kept hmem).2]
    exact Or.inl rfl
  · obtain ⟨-, r, heq⟩ := h.dropped hmem
    rw [heq]
    exact Or.inr (Upload.over_of_commit hstage htask r)

theorem Retains.commit (h : s.Retains) (hshows : s.Shows m) (hs : s.Sound pb) (hinv : m.Inv n)
    (hshows' : t.Shows m') (hinv' : m'.Inv n) (hn : 0 < n) {ks : List ℕ}
    {outcome : Option BatchError} (hstep : Step crc pb json name n s (.commit ks outcome) t) :
    t.Retains := by
  obtain ⟨hup, hnodup, cs, hks, rfl⟩ := hstep
  obtain ⟨d, hd⟩ := Option.isSome_iff_exists.mp hup
  obtain ⟨group, rfl, rfl, hgroup⟩ := hshows.exists_group hs hinv hks
  obtain ⟨keep, -, hanswers⟩ := hshows.exists_stored json hinv hnodup outcome
    fun g hg => (hgroup g hg).2
  obtain ⟨htotal, -⟩ := hshows.owns hinv hd
  obtain ⟨htotal', howns⟩ := hshows'.owns hinv' (d := d) hd
  refine ⟨h.strays, fun hdown => absurd (hd.symm.trans hdown) nofun, fun e he v hv => ?_,
    fun x hx => ?_, fun v hv fileMeta hf => ?_⟩
  · obtain rfl := Option.some.inj (hd.symm.trans he)
    have hallocated : ∀ b ∈ Upload.blocksOfTokens v.liveTokens, d.allocator.isFree b = false := by
      intro b hb
      refine ((howns.mem_iff b).mp (Multiset.mem_add.mpr (Or.inl ?_))).2
      exact Multiset.mem_coe.mpr (mem_liveBlocks hv hb)
    obtain ⟨j, hj⟩ := List.mem_iff_getElem?.mp hv
    rw [getElem?_afterCommit] at hj
    obtain ⟨w, hw, rfl⟩ := Option.map_eq_some_iff.mp hj
    by_cases hmem : j ∈ group.map Completion.upload
    · obtain ⟨g, hg, rfl⟩ := List.mem_map.mp hmem
      obtain ⟨u, hu, htask, hanswer⟩ := hanswers g hg
      obtain rfl := Option.some.inj (hu.symm.trans hw)
      rw [if_pos hmem]
      rcases hanswer.cases (hs.of_getElem? hu).1.stage htask with hstored | hover
      · exact fun hnone => absurd (hnone.symm.trans hstored) nofun
      · exact fun _ => Or.inl hover
    · rw [if_neg hmem] at hallocated ⊢
      exact (h.tracked d hd w (List.mem_of_getElem? hw)).others (howns.inv (htotal ▸ hn)) rfl
        hallocated fun _ _ => rfl
  · rcases List.mem_append.mp hx with hx | hx
    · exact h.onDisk x hx
    · obtain ⟨k, hk, v, hv, fileMeta, hf, rfl⟩ := mem_storedBy.mp hx
      obtain ⟨g, hg, rfl⟩ := List.mem_map.mp hk
      obtain ⟨u, hu, htask, hanswer⟩ := hanswers g hg
      change (s.afterCommit json _ _ outcome).uploads[g.upload]? = some v at hv
      rw [getElem?_afterCommit, hu, Option.map_some, if_pos hk] at hv
      obtain rfl := Option.some.inj hv
      have hstage := (hs.of_getElem? hu).1.stage
      rw [Upload.putData_answered]
      rcases hanswer.cases hstage htask with hstored | hover
      · obtain rfl := Option.some.inj (hf.symm.trans hstored)
        exact onDisk_of_commit (h.tracked d hd u (List.mem_of_getElem? hu)) hstage htask
      · exact absurd (hover.stored.symm.trans hf) nofun
  · obtain ⟨j, hj⟩ := List.mem_iff_getElem?.mp hv
    by_cases hmem : j ∈ group.map Completion.upload
    · exact List.mem_append_right _ (mem_storedBy.mpr ⟨j, hmem, v, hj, fileMeta, hf, rfl⟩)
    · rw [getElem?_afterCommit] at hj
      obtain ⟨w, hw, rfl⟩ := Option.map_eq_some_iff.mp hj
      rw [if_neg hmem] at hf ⊢
      exact List.mem_append_left _ (h.acknowledged w (List.mem_of_getElem? hw) fileMeta hf)

/-- Nothing that is stored is lost when the disk changes where uploads in progress write. -/
theorem Retains.onDisk_congr (h : s.Retains) (hshows : s.Shows m) (hinv : m.Inv n) {disk : Disk}
    (heq : ∀ a, a / 4096 ∉ s.liveBlocks → disk a = s.disk a) : ∀ x ∈ s.stored, x.OnDisk disk := by
  intro x hx
  refine (h.onDisk x hx).congr fun a ha => heq a fun ha' => ?_
  exact (List.nodup_append.mp (hshows.nodup hinv)).2.2 _ ha' _ (mem_storedBlocks hx ha) rfl

theorem mem_set (hk : s.uploads[k]? = some u) (u' : Upload) : u' ∈ s.uploads.set k u' := by
  have hlt := (List.getElem?_eq_some_iff.mp hk).1
  exact List.mem_of_getElem? (List.getElem?_set_self hlt)

theorem Retains.up (h : s.Retains) (hk : s.uploads[k]? = some u) : ∃ d, s.device = some d := by
  refine Option.ne_none_iff_exists'.mp fun hdown => ?_
  rw [h.down hdown] at hk
  cases hk

/-- The blocks of a write in progress. -/
theorem mem_live_of_write {buf : Bytes} {results token : List Result} {respond : Bool}
    (hnone : u.stored = none) (htask : u.task = .write buf results token respond) {b : ℕ}
    (hb : b ∈ blocksOf token) : b ∈ Upload.blocksOfTokens u.liveTokens := by
  rw [Upload.liveTokens_of_none hnone, Upload.tokens, htask]
  exact List.mem_flatMap.mpr
    ⟨token, List.mem_append_right _ (List.mem_singleton_self token), hb⟩

/-- A step in which no write is left in flight. -/
theorem Retains.step (h : s.Retains) (hshows : s.Shows m) (hs : s.Sound pb) (hinv : m.Inv n)
    (hshows' : t.Shows m') (hs' : t.Sound pb) (hinv' : m'.Inv n) (hn : 0 < n) (hlt : n < 2 ^ 63)
    {e : ArchiveEvent} (he : e.Waits) (hstep : Step crc pb json name n s e t) : t.Retains := by
  cases e with
  | start =>
    obtain ⟨hdown, d, db, -, rfl⟩ := hstep
    have hnil := h.down hdown
    exact ⟨h.strays, nofun, fun _ _ u hu => absurd hu (hnil ▸ List.not_mem_nil), h.onDisk,
      h.acknowledged⟩
  | startCrash done =>
    obtain ⟨hdown, db, -, rfl⟩ := hstep
    have hnil := h.down hdown
    exact ⟨h.strays, h.down, fun _ _ u hu => absurd hu (hnil ▸ List.not_mem_nil), h.onDisk,
      h.acknowledged⟩
  | crash disk =>
    obtain ⟨hdisk, rfl⟩ := hstep
    refine ⟨rfl, fun _ => rfl, nofun, h.onDisk_congr hshows hinv fun a ha => hdisk a ha ?_,
      fun _ hu => absurd hu List.not_mem_nil⟩
    rw [h.strays]
    exact fun _ hstray => absurd hstray List.not_mem_nil
  | accept =>
    obtain ⟨hup, rfl⟩ := hstep
    obtain ⟨d, hd⟩ := Option.isSome_iff_exists.mp hup
    obtain ⟨htotal, howns⟩ := hshows.owns hinv hd
    refine ⟨h.strays, fun hdown => absurd (hd.symm.trans hdown) nofun, fun e he v hv => ?_,
      h.onDisk, fun v hv fileMeta hf => ?_⟩
    · obtain rfl := Option.some.inj (hd.symm.trans he)
      rcases List.mem_append.mp hv with hv | hv
      · exact h.tracked d hd v hv
      · obtain rfl := List.mem_singleton.mp hv
        exact Upload.tracked_new (howns.inv (htotal ▸ hn)) (htotal ▸ hlt)
    · rcases List.mem_append.mp hv with hv | hv
      · exact h.acknowledged v hv fileMeta hf
      · obtain rfl := List.mem_singleton.mp hv
        cases hf
  | call k c =>
    obtain ⟨u, u', hk, hu, rfl⟩ := hstep
    have hstage := (hs.of_getElem? hk).1.stage
    obtain ⟨d, hd⟩ := h.up hk
    exact h.set hshows hinv hshows' hinv' hn hd hd hk rfl h.strays rfl
      ((h.tracked d hd u (List.mem_of_getElem? hk)).call hstage hu)
      ((hu.stored_eq hstage nofun).trans (hu.stored_none hstage)) fun _ _ => rfl
  | alloc k =>
    obtain ⟨u, u', d, d', buf, respond, outcome, hk, hd, htask, halloc, hu, rfl⟩ := hstep
    have hstage := (hs.of_getElem? hk).1.stage
    exact h.set hshows hinv hshows' hinv' hn hd rfl hk rfl h.strays rfl
      ((h.tracked d hd u (List.mem_of_getElem? hk)).alloc hstage htask halloc hu
        (hs' u' (mem_set hk u')).1.stage)
      ((hu.stored_eq hstage nofun).trans (hu.stored_none hstage)) fun _ _ => rfl
  | write k outcome ctx =>
    obtain ⟨u, u', buf, results, token, respond, disk, written, err, hk, htask, hctx, hwrite, hu,
      rfl⟩ := hstep
    have hstage := (hs.of_getElem? hk).1.stage
    have hnone := hu.stored_none hstage
    obtain ⟨-, -, -, -, hproper⟩ := hstage.of_flushing (Or.inr ⟨buf, results, token, htask⟩)
    obtain ⟨d, hd⟩ := h.up hk
    refine h.set hshows hinv hshows' hinv' hn hd hd hk rfl ?_ rfl
      ((h.tracked d hd u (List.mem_of_getElem? hk)).write hstage htask (fun hr => (hctx hr).1)
        hwrite hu) ((hu.stored_eq hstage nofun).trans hnone) fun a ha => ?_
    · rw [setUpload, h.strays, strayWrite_of_waits he]
      rfl
    · have hframe := writeAllocated_frame (hproper buf results token htask) outcome ctx s.disk buf
        fun hmem => ha (mem_live_of_write hnone htask hmem)
      rw [hwrite] at hframe
      exact hframe
  | rollbackAlloc k =>
    obtain ⟨u, u', d, token, tokens, r, hk, hd, htask, hu, rfl⟩ := hstep
    have hover := Upload.over_rolledBack (hs.of_getElem? hk).1.stage hu
    exact h.set hshows hinv hshows' hinv' hn hd rfl hk rfl h.strays rfl (fun _ => Or.inl hover)
      hover.stored fun _ _ => rfl
  | commit ks outcome => exact h.commit hshows hs hinv hshows' hinv' hn hstep
  | noProcessor k =>
    obtain ⟨u, u', d, c, hk, hd, htask, hu, rfl⟩ := hstep
    obtain ⟨c', htask', rfl⟩ := hu
    cases htask.symm.trans htask'
    have hover := Upload.over_of_commit (hs.of_getElem? hk).1.stage htask
      (.error (.noProcessor (if c.fileMeta.lun = [] then ascii d.name.toList else c.fileMeta.lun)))
    exact h.set hshows hinv hshows' hinv' hn hd hd hk rfl h.strays rfl (fun _ => Or.inl hover)
      hover.stored fun _ _ => rfl
  | land completion junk =>
    obtain ⟨before, stray, after, hstrays, -⟩ := hstep
    exact absurd (hstrays.symm.trans h.strays) (by simp)

/-- The last upload stored under a key. -/
def latest (s : Archive) (key : Bytes) : Option StoredUpload :=
  (s.stored.filter (·.fileMeta.getKey = key)).getLast?

theorem Shows.latest (h : s.Shows m) (key : Bytes) :
    m.latest key = (s.latest key).map StoredUpload.fileMeta := by
  rw [Node.latest, h.committed, List.filter_map, List.getLast?_map]
  rfl

theorem exists_retains (hn : 0 < n) (hlt : n < 2 ^ 63) {db : DB} (hfresh : Fresh db) {disk : Disk}
    {events : List ArchiveEvent} (h : Run (Step crc pb json name n) (initial db disk) events s)
    (hwaits : ∀ e ∈ events, e.Waits) :
    ∃ events' m, Run (Node.Step json pb name n) (Node.initial ℕ db) events' m ∧ s.Shows m ∧
      s.Sound pb ∧ m.Inv n ∧ s.Retains := by
  refine h.history (I := fun events s => (∀ e ∈ events, e.Waits) → ∃ events' m,
    Run (Node.Step json pb name n) (Node.initial ℕ db) events' m ∧ s.Shows m ∧ s.Sound pb ∧
      m.Inv n ∧ s.Retains) (fun events s e t ih hstep hwaits => ?_) (fun _ => ?_) hwaits
  · obtain ⟨events₁, m, hrun, hshows, hs, hinv, hretains⟩ :=
      ih fun e he => hwaits e (List.mem_append_left _ he)
    obtain ⟨events₂, m', hrun', hshows', hs'⟩ := hshows.step hs hinv hstep
    have hinv' := Node.inv_of_run hn hlt hfresh (hrun.append hrun')
    exact ⟨_, m', hrun.append hrun', hshows', hs', hinv', hretains.step hshows hs hinv hshows' hs'
      hinv' hn hlt (hwaits e (List.mem_append_right _ (List.mem_singleton_self e))) hstep⟩
  · exact ⟨[], _, .nil, shows_of_nil rfl rfl rfl rfl rfl, sound_of_nil rfl, .initial hfresh, rfl,
      fun _ => rfl, nofun, fun _ hx => absurd hx List.not_mem_nil,
      fun _ hu => absurd hu List.not_mem_nil⟩

/-- No step takes a stored upload back. -/
theorem Step.stored_prefix {e : ArchiveEvent} (hstep : Step crc pb json name n s e t) :
    s.stored <+: t.stored := by
  cases e with
  | start =>
    obtain ⟨-, d, db, -, rfl⟩ := hstep
    exact List.prefix_refl _
  | startCrash done =>
    obtain ⟨-, db, -, rfl⟩ := hstep
    exact List.prefix_refl _
  | crash disk =>
    obtain ⟨-, rfl⟩ := hstep
    exact List.prefix_refl _
  | accept =>
    obtain ⟨-, rfl⟩ := hstep
    exact List.prefix_refl _
  | call k c =>
    obtain ⟨u, u', -, -, rfl⟩ := hstep
    exact List.prefix_refl _
  | alloc k =>
    obtain ⟨u, u', d, d', buf, respond, outcome, -, -, -, -, -, rfl⟩ := hstep
    exact List.prefix_refl _
  | write k outcome ctx =>
    obtain ⟨u, u', buf, results, token, respond, disk, written, err, -, -, -, -, -, rfl⟩ := hstep
    exact List.prefix_refl _
  | rollbackAlloc k =>
    obtain ⟨u, u', d, token, tokens, r, -, -, -, -, rfl⟩ := hstep
    exact List.prefix_refl _
  | commit ks outcome =>
    obtain ⟨-, -, cs, -, rfl⟩ := hstep
    exact List.prefix_append _ _
  | noProcessor k =>
    obtain ⟨u, u', d, c, -, -, -, -, rfl⟩ := hstep
    exact List.prefix_refl _
  | land completion junk =>
    obtain ⟨before, stray, after, -, rfl⟩ := hstep
    exact List.prefix_refl _

/-- What is read back of a record that was stored, and when the database returns it. -/
theorem readBack (hn : 0 < n) (hlt : n < 2 ^ 63) {db : DB} (hfresh : Fresh db) {disk : Disk}
    {events : List ArchiveEvent} (h : Run (Step crc pb json name n) (initial db disk) events s)
    (hwaits : ∀ e ∈ events, e.Waits) {x : StoredUpload} (hx : x ∈ s.stored) :
    readResults s.disk x.fileMeta.extents x.fileMeta.size.toNat =
      .ok (((flushPieces x.chunks).flatMap (pad 4096 0#8)).take x.chunks.flatten.length) ∧
    (readResults s.disk x.fileMeta.extents x.fileMeta.size.toNat = .ok x.chunks.flatten ↔
      ∀ pre piece post, flushPieces x.chunks = pre ++ piece :: post → ¬4096 ∣ piece.length →
        ∀ b ∈ post.flatten, b = 0#8) ∧
    (s.latest x.fileMeta.getKey = some x → ∃ data,
      s.db.get x.fileMeta.getKey = .ok (some data) ∧ pb.unmarshal data = .ok x.fileMeta) := by
  obtain ⟨events', m, hrun, hshows, -, -, hretains⟩ := exists_retains hn hlt hfresh h hwaits
  refine ⟨(hretains.onDisk x hx).readResults, ?_, fun hlatest => ?_⟩
  · rw [(hretains.onDisk x hx).readResults, ← flatten_flushPieces x.chunks, Except.ok.injEq]
    exact take_flatMap_pad (by decide) (flushPieces x.chunks)
  · have hnode : m.latest x.fileMeta.getKey = some x.fileMeta := by
      rw [hshows.latest, hlatest]
      rfl
    obtain ⟨-, hledger⟩ := Node.ledger_of_run hn hlt hfresh hrun
    obtain ⟨-, data, hget, hdata⟩ :=
      (hledger.mem_storedFiles (f := (x.fileMeta.getKey, x.fileMeta))).mpr hnode
    rw [hshows.db] at hget
    exact ⟨data, hget, hdata⟩

/-- What is stored stays so. -/
theorem stored_prefix_of_run {later : List ArchiveEvent}
    (h : Run (Step crc pb json name n) s later t) : s.stored <+: t.stored :=
  h.invariant (I := fun t => s.stored <+: t.stored)
    (fun _ _ _ ht hstep => ht.trans hstep.stored_prefix) (List.prefix_refl _)

/-- Once the record of an upload is stored, its padded pieces are read back at any later time, cut
to the size of the content, over crashes and restarts, as long as no write is left in flight. This
is the content exactly when nothing but zeros follows a piece that is not made of whole blocks. As
long as no upload is stored under the same key, the database returns the record. -/
theorem retained (hn : 0 < n) (hlt : n < 2 ^ 63) {db : DB} (hfresh : Fresh db) {disk : Disk}
    {events later : List ArchiveEvent}
    (h : Run (Step crc pb json name n) (initial db disk) events s)
    (hlater : Run (Step crc pb json name n) s later t) (hwaits : ∀ e ∈ events ++ later, e.Waits)
    (hu : u ∈ s.uploads) {fileMeta : FileMeta} (hstored : u.stored = some fileMeta) :
    readResults t.disk fileMeta.extents fileMeta.size.toNat =
      .ok (((flushPieces u.putData).flatMap (pad 4096 0#8)).take u.putData.flatten.length) ∧
    (readResults t.disk fileMeta.extents fileMeta.size.toNat = .ok u.putData.flatten ↔
      ∀ pre piece post, flushPieces u.putData = pre ++ piece :: post → ¬4096 ∣ piece.length →
        ∀ b ∈ post.flatten, b = 0#8) ∧
    (t.latest fileMeta.getKey = some ⟨fileMeta, u.putData⟩ → ∃ data,
      t.db.get fileMeta.getKey = .ok (some data) ∧ pb.unmarshal data = .ok fileMeta) := by
  obtain ⟨-, -, -, -, -, -, hretains⟩ := exists_retains hn hlt hfresh h
    fun e he => hwaits e (List.mem_append_left _ he)
  have hmem := hretains.acknowledged u hu fileMeta hstored
  exact readBack hn hlt hfresh (h.append hlater) hwaits ((stored_prefix_of_run hlater).subset hmem)

/-- A byte is read back after a crash. -/
theorem retained_one_byte : ∃ (s t : Archive) (u : Upload) (fileMeta : FileMeta)
    (events later : List ArchiveEvent),
    Run (Step crc32Update protobuf (fun _ => none) "lun" 1) (initial emptyDB fun _ => 0#8)
      events s ∧ u ∈ s.uploads ∧ u.stored = some fileMeta ∧
    Run (Step crc32Update protobuf (fun _ => none) "lun" 1) s later t ∧ t.uploads = [] ∧
    readResults t.disk fileMeta.extents fileMeta.size.toNat = .ok [0#8] ∧
    ∃ data, t.db.get fileMeta.getKey = .ok (some data) ∧
      protobuf.unmarshal data = .ok fileMeta := by
  obtain ⟨s, u, fileMeta, disk, d, db, hrun, huploads, hu, hdata, hlater⟩ := exists_run_stored
  have hmem : u ∈ s.uploads := huploads ▸ List.mem_singleton_self u
  obtain ⟨-, hread, hget⟩ := retained (by decide) (by decide) fresh_emptyDB hrun hlater
    (by simp [ArchiveEvent.Waits, waits_full]) hmem hu
  rw [hdata] at hread hget
  have hpieces : flushPieces [[0#8]] = [[0#8]] := by decide
  refine ⟨s, _, u, fileMeta, _, _, hrun, hmem, hu, hlater, rfl, hread.mpr ?_, hget ?_⟩
  · intro pre piece post heq _ b hb
    rw [hpieces] at heq
    have hlen : 1 = (pre ++ piece :: post).length := congrArg List.length heq
    rw [List.length_append, List.length_cons] at hlen
    rw [List.length_eq_zero_iff.mp (show post.length = 0 by omega)] at hb
    cases hb
  · simp [latest]

end Archive

end Corgi
