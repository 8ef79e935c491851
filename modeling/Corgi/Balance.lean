import Corgi.Ledger

/-!
# The balance of an upload

Each token that an upload obtained is still held or was given back once (`Upload.Balanced`), each
call but the one in progress is answered once (`Upload.Answered`), and the one in progress comes
to an end (`Upload.Step.work_lt`).

`Upload.Sound.of_ended` : an upload whose last call is answered has given back all it obtained,
unless its record is stored. `Upload.Told.of_ended` says which of the two it is by what the group
commit answered.
-/

namespace Corgi

/-- What the group commit answered in an event, and whether the consumer found a record. -/
def UploadEvent.commitAnswer : UploadEvent → List (Option UploadError × Bool)
  | commit answer found => [(answer, found)]
  | _ => []

namespace Upload

variable {crc : BitVec 32 → Bytes → BitVec 32} {pb : Protobuf} {u u' : Upload}

/-! ## The balance -/

/-- The tokens that the upload holds. -/
def tokens (u : Upload) : List (List Result) :=
  u.handler.tokens ++ u.task.tokens

/-- Every token obtained was given back or is held. -/
def Balanced (u : Upload) : Prop :=
  u.obtained.Perm (u.released ++ u.tokens)

/-- From `u` to `u'` no token changes hands, and `held` is what is held. -/
structure Keeps (u u' : Upload) (held : List (List Result)) : Prop where
  obtained : u'.obtained = u.obtained
  released : u'.released = u.released
  tokens : u'.tokens.Perm held

/-- Nothing is in hand but what was flushed. -/
theorem keeps_of_task (h₁ : u'.obtained = u.obtained) (h₂ : u'.released = u.released)
    (h₃ : u'.task.tokens = []) : Keeps u u' u'.handler.tokens :=
  ⟨h₁, h₂, by rw [tokens, h₃, List.append_nil]⟩

/-- The tokens change hands in the device, not in the handler. -/
theorem Keeps.of_handler {h : Handler} {held : List (List Result)}
    (hkeeps : Keeps { u with handler := h } u' held) : Keeps u u' held :=
  ⟨hkeeps.obtained, hkeeps.released, hkeeps.tokens⟩

theorem keeps_respond (u : Upload) (r : Response) : Keeps u (u.respond r) u.handler.tokens :=
  keeps_of_task rfl rfl rfl

theorem keeps_rollback (hcleared : u.handler.tokens = []) (held : List (List Result))
    (r : Response) : Keeps u (u.rollback held r) held := by
  rw [rollback]
  split_ifs with hnil
  · subst hnil
    rw [← hcleared]
    exact u.keeps_respond r
  · exact ⟨rfl, rfl, by rw [tokens, hcleared, List.nil_append]; rfl⟩

theorem keeps_rollbackCompletedFlushes (u : Upload) (r : Response) :
    Keeps u (u.rollbackCompletedFlushes r) u.handler.tokens :=
  (@keeps_rollback { u with handler := u.handler.clearTokens } (tokens_clearTokens u.handler)
    u.handler.tokens r).of_handler

theorem keeps_fail (u : Upload) (held : List (List Result)) (e : UploadError) :
    Keeps u (u.fail held e) (held ++ u.handler.tokens) :=
  (@keeps_rollback { u with handler := (u.handler.failFlush e).clearTokens } (tokens_clearTokens _)
    (held ++ u.handler.tokens) (.error e)).of_handler

theorem tokens_startFlush (h : Handler) : h.startFlush.1.tokens = h.tokens := by
  rw [Handler.tokens, Handler.startFlush, List.map_append, List.filter_append]
  simp [Handler.tokens]

theorem keeps_flush (u : Upload) (respond : Bool) : Keeps u (u.flush respond) u.handler.tokens := by
  rw [← tokens_startFlush]
  exact keeps_of_task rfl rfl rfl

theorem keeps_submit (u : Upload) (req : PutInitRequest) :
    Keeps u (u.submit pb req) u.handler.tokens := by
  rcases @submit_cases pb u req with ⟨e, h⟩ | ⟨c, h⟩ <;> rw [h]
  · exact u.keeps_rollbackCompletedFlushes _
  · exact keeps_of_task rfl rfl rfl

theorem keeps_put (u : Upload) (data : Bytes) : Keeps u (u.put crc data) u.handler.tokens := by
  rcases @put_cases crc u data with ⟨r, h⟩ | h | h <;> rw [h]
  · exact u.keeps_respond r
  · exact (keeps_respond { u with handler := u.handler.addChunk crc data } .cont).of_handler
  · exact (keeps_flush { u with handler := u.handler.addChunk crc data } true).of_handler

theorem keeps_complete (u : Upload) : Keeps u (u.complete pb) u.handler.tokens := by
  rcases @complete_cases pb u with ⟨r, h⟩ | ⟨r, h⟩ | ⟨e, h⟩ | h | ⟨req, h⟩ <;> rw [h]
  · exact u.keeps_respond r
  · exact (u.finalize.keeps_respond r).of_handler
  · exact (u.finalize.keeps_rollbackCompletedFlushes _).of_handler
  · exact (u.finalize.keeps_flush false).of_handler
  · exact (u.finalize.keeps_submit req).of_handler

theorem keeps_timeOut (u : Upload) : Keeps u u.timeOut u.handler.tokens :=
  (keeps_rollbackCompletedFlushes
    { u with handler := { u.handler with finalized := true, pendingLen := 0, chunks := [] } }
    (.error .timeout)).of_handler

theorem tokens_completeFlush {h : Handler} {infos : List FlushBlockInfo}
    {results token : List Result} (hinfos : h.blockInfoList = infos ++ [⟨[], []⟩])
    (hne : token ≠ []) :
    (h.completeFlush results token).tokens = h.tokens ++ [token] := by
  rw [Handler.tokens, Handler.tokens, Handler.completeFlush, hinfos, List.dropLast_concat]
  simp [hne]

theorem keeps_written {infos : List FlushBlockInfo}
    (hinfos : u.handler.blockInfoList = infos ++ [⟨[], []⟩]) {token : List Result}
    (hne : token ≠ []) (hreq : u.handler.initReq ≠ none) (buf : Bytes) (results : List Result)
    (respond : Bool) (n : ℕ) (err : Option ChannelError) :
    Keeps u (u.written pb buf results token respond n err) (u.handler.tokens ++ [token]) := by
  have htokens := @tokens_completeFlush u.handler infos results token hinfos hne
  rcases @written_cases pb u hreq buf results token respond n err with
    ⟨e, h⟩ | ⟨-, h⟩ | ⟨-, req, h⟩ <;> rw [h]
  · obtain ⟨h1, h2, h3⟩ := u.keeps_fail [token] e
    exact ⟨h1, h2, h3.trans List.perm_append_comm⟩
  · rw [← htokens]
    exact keeps_of_task rfl rfl rfl
  · rw [← htokens]
    exact (keeps_submit { u with handler := u.handler.completeFlush results token } req).of_handler

theorem keeps_committed (u : Upload) (c : Commit) (answer : Option UploadError) (found : Bool) :
    Keeps u (u.committed c answer found) u.handler.tokens := by
  rcases u.committed_cases c answer found with ⟨r, h⟩ | h <;> rw [h]
  · exact u.keeps_rollbackCompletedFlushes r
  · exact keeps_of_task rfl rfl rfl

/-- The token that an event brings. -/
def gets : UploadEvent → List (List Result)
  | .alloc (.ok (_, token)) => [token]
  | _ => []

/-- The token that an event gives back. -/
def gives (u : Upload) : UploadEvent → List (List Result)
  | .rollbackAlloc => u.task.tokens.take 1
  | _ => []

/-- Tokens come from `Alloc` and go to `RollbackAlloc`, one at a time. -/
theorem Step.tokens (h : u.Stage) {e : UploadEvent} (hstep : Step crc pb u e u') :
    u'.obtained = u.obtained ++ gets e ∧ u'.released = u.released ++ u.gives e ∧
      (u.tokens ++ gets e).Perm (u.gives e ++ u'.tokens) := by
  -- what a step keeps that neither gets nor gives
  have hkeep : Keeps u u' u.tokens → gets e = [] → u.gives e = [] →
      u'.obtained = u.obtained ++ gets e ∧ u'.released = u.released ++ u.gives e ∧
        (u.tokens ++ gets e).Perm (u.gives e ++ u'.tokens) := by
    intro hk hg hv
    rw [hg, hv, List.append_nil, List.append_nil, List.append_nil, List.nil_append]
    exact ⟨hk.obtained, hk.released, hk.tokens.symm⟩
  have hheld : u.task.tokens = [] → u.tokens = u.handler.tokens := fun htask => by
    rw [Upload.tokens, htask, List.append_nil]
  cases e with
  | call c =>
    obtain ⟨hidle, hacc, rfl⟩ := hstep
    have hcalled := hheld (by rw [hidle]; rfl)
    cases c with
    | start req =>
      obtain rfl := h.of_nil hacc
      exact ⟨rfl, rfl, List.Perm.refl _⟩
    | put data =>
      obtain ⟨h1, h2, h3⟩ := @keeps_put crc (u.called (.put data)) data
      exact hkeep ⟨h1, h2, hcalled ▸ h3⟩ rfl rfl
    | complete =>
      obtain ⟨h1, h2, h3⟩ := @keeps_complete pb (u.called .complete)
      exact hkeep ⟨h1, h2, hcalled ▸ h3⟩ rfl rfl
    | timeOut =>
      obtain ⟨h1, h2, h3⟩ := (u.called .timeOut).keeps_timeOut
      exact hkeep ⟨h1, h2, hcalled ▸ h3⟩ rfl rfl
  | alloc outcome =>
    obtain ⟨buf, respond, htask, rfl⟩ := hstep
    have hflushed := hheld (by rw [htask]; rfl)
    cases outcome with
    | error e => exact hkeep (hflushed ▸ u.keeps_fail [] _) rfl rfl
    | ok res =>
      refine ⟨rfl, (List.append_nil _).symm, ?_⟩
      rw [hflushed]
      exact List.Perm.refl _
  | write n err =>
    obtain ⟨buf, results, token, respond, htask, rfl⟩ := hstep
    obtain ⟨-, hholding, ⟨infos, hinfos, -⟩, -, hproper⟩ :=
      h.of_flushing (Or.inr ⟨buf, results, token, htask⟩)
    have hkeeps := @keeps_written pb u infos hinfos token (hproper buf results token htask).token_ne
      hholding.initReq buf results respond n err
    refine hkeep ?_ rfl rfl
    rw [Upload.tokens, htask]
    exact hkeeps
  | rollbackAlloc =>
    obtain ⟨token, rest, r, htask, rfl⟩ := hstep
    obtain ⟨-, -, hcleared, -⟩ := h.of_rollback htask
    have hkeeps := @keeps_rollback { u with released := u.released ++ [token] } hcleared rest r
    have hgives : u.gives .rollbackAlloc = [token] := by
      rw [gives, htask]
      rfl
    rw [hgives, Upload.tokens, hcleared, htask]
    refine ⟨hkeeps.obtained.trans (List.append_nil _).symm, hkeeps.released, ?_⟩
    change ((token :: rest) ++ []).Perm ([token] ++ _)
    rw [List.append_nil]
    exact hkeeps.tokens.symm.cons token
  | commit answer found =>
    obtain ⟨c, htask, rfl⟩ := hstep
    exact hkeep (hheld (by rw [htask]; rfl) ▸ u.keeps_committed c answer found) rfl rfl

/-- Every step keeps the balance. -/
theorem Balanced.step (hb : u.Balanced) (h : u.Stage) {e : UploadEvent}
    (hstep : Step crc pb u e u') : u'.Balanced := by
  obtain ⟨ho, hr, hp⟩ := hstep.tokens h
  rw [Balanced, ho, hr, List.append_assoc]
  refine (hb.append_right _).trans ?_
  rw [List.append_assoc]
  exact hp.append_left _

/-- A call of the handler but `Start` is answered, or there is more to do. -/
theorem answers_call (u : Upload) {c : UploadCall} (hc : c.isAsked = true) :
    u.Answers (u.call crc pb c) := by
  cases c with
  | start req => cases hc
  | put data => exact u.answers_put data
  | complete => exact u.answers_complete
  | timeOut => exact u.answers_timeOut

/-- So does every answer of the device. -/
theorem Step.answers (h : u.Stage) {e : UploadEvent} (hstep : Step crc pb u e u')
    (he : ∀ c, e ≠ .call c) : u.task ≠ .idle ∧ u.Answers u' := by
  have hbusy : ∀ {task}, u.task = task → task ≠ .idle → u.task ≠ .idle := by
    rintro task rfl hne
    exact hne
  cases e with
  | call c => exact absurd rfl (he c)
  | alloc outcome =>
    obtain ⟨buf, respond, htask, rfl⟩ := hstep
    exact ⟨hbusy htask nofun, u.answers_allocated buf respond outcome⟩
  | write n err =>
    obtain ⟨buf, results, token, respond, htask, rfl⟩ := hstep
    obtain ⟨-, hholding, -⟩ := h.of_flushing (Or.inr ⟨buf, results, token, htask⟩)
    exact ⟨hbusy htask nofun, answers_written hholding.initReq buf results token respond n err⟩
  | rollbackAlloc =>
    obtain ⟨token, tokens, r, htask, rfl⟩ := hstep
    exact ⟨hbusy htask nofun, u.answers_rolledBack token tokens r⟩
  | commit answer found =>
    obtain ⟨c, htask, rfl⟩ := hstep
    exact ⟨hbusy htask nofun, u.answers_committed c answer found⟩

/-- Every step answers the call in progress at most once. -/
theorem Answered.step (ha : u.Answered) (h : u.Stage) {e : UploadEvent}
    (hstep : Step crc pb u e u') : u'.Answered := by
  by_cases he : ∃ c, e = .call c
  · obtain ⟨c, rfl⟩ := he
    obtain ⟨hidle, hacc, rfl⟩ := hstep
    have hasked : (u.called c).asked = u.asked + [c].countP UploadCall.isAsked :=
      List.countP_append
    cases hc : c.isAsked with
    | true =>
      refine (answers_call (u.called c) hc).answered ?_
      rw [hasked, ← ha.idle hidle, List.countP_singleton, if_pos hc]
      rfl
    | false =>
      cases c with
      | start req => exact ⟨fun _ => (ha.idle hidle).trans hasked.symm, fun hne => absurd hidle hne⟩
      | _ => cases hc
  · obtain ⟨hbusy, hanswers⟩ := hstep.answers h fun c hc => he ⟨c, hc⟩
    exact hanswers.answered (ha.busy hbusy)

/-- What holds of every upload. -/
structure Sound (u : Upload) : Prop where
  stage : u.Stage
  balanced : u.Balanced
  answered : u.Answered
  pos : ∀ token ∈ u.obtained, token ≠ [] ∧ ∀ r ∈ token, 0 ≤ r.offset ∧ 0 < r.size

theorem sound_new : Upload.new.Sound :=
  ⟨.fresh rfl, List.Perm.refl _, ⟨fun _ => rfl, fun h => absurd rfl h⟩, nofun⟩

theorem Sound.step (h : u.Sound) {e : UploadEvent} (he : e.Proper) (hstep : Step crc pb u e u') :
    u'.Sound := by
  refine ⟨h.stage.step he hstep, h.balanced.step h.stage hstep, h.answered.step h.stage hstep,
    fun token htoken => ?_⟩
  rw [(hstep.tokens h.stage).1] at htoken
  rcases List.mem_append.mp htoken with htoken | htoken
  · exact h.pos token htoken
  · cases e with
    | alloc outcome =>
      cases outcome with
      | error e => cases htoken
      | ok res =>
        obtain rfl := List.mem_singleton.mp htoken
        exact ⟨he.token_ne, he.pos⟩
    | _ => cases htoken

/-- The blocks of tokens. -/
def blocksOfTokens (tokens : List (List Result)) : List ℕ :=
  tokens.flatMap blocksOf

theorem infoBlocks_eq_tokens {h : Handler} (hproper : ∀ info ∈ h.blockInfoList, info.Proper) :
    infoBlocks h.blockInfoList = blocksOfTokens h.tokens := by
  have htokens : h.tokens = h.blockInfoList.map FlushBlockInfo.token := by
    refine List.filter_eq_self.mpr fun token htoken => decide_eq_true ?_
    obtain ⟨info, hinfo, rfl⟩ := List.mem_map.mp htoken
    exact (hproper info hinfo).token_ne
  rw [htokens, blocksOfTokens, List.flatMap_map]
  rfl

/-- An upload whose last call is answered has given back every token, each once, unless its
record is stored. Then it has given back none, and the record lists the blocks it obtained. -/
theorem Sound.of_ended (h : u.Sound) (hended : u.Ended) (hidle : u.task = .idle) :
    ∃ r, u.responses.getLast? = some r ∧ r ≠ .cont ∧
      (r ≠ .success ∨ u.stored = none → u.tokens = [] ∧ u.obtained.Perm u.released) ∧
      ∀ fileMeta, u.stored = some fileMeta → r = .success ∧ u.released = [] ∧
        u.obtained.Perm u.tokens ∧ fileMeta.blocks = blocksOfTokens u.tokens := by
  have htokens : u.tokens = u.handler.tokens := by
    rw [tokens, hidle]
    exact List.append_nil _
  have hbalanced := h.balanced
  rw [Balanced] at hbalanced
  cases h.stage with
  | fresh h =>
    subst h
    rcases hended with h | h <;> cases h
  | active hopen => exact absurd hended (not_ended_of_open hopen)
  | flushing respond _ htask =>
    rcases htask with ⟨_, h⟩ | ⟨_, _, _, h, -⟩ <;> cases h.symm.trans hidle
  | committing c hc => cases hc.symm.trans hidle
  | rollingBack tokens r hr => cases hr.symm.trans hidle
  | settled r _ hlast hstarted hcleared hsettles =>
    have hcont : r ≠ .cont := by
      rcases hsettles with ⟨-, -, e, rfl⟩ | ⟨-, hne, -⟩
      · exact nofun
      · exact hne
    rw [htokens, hcleared, List.append_nil] at hbalanced
    refine ⟨r, hlast, hcont, fun _ => ⟨htokens.trans hcleared, hbalanced⟩,
      fun fileMeta hstored => ?_⟩
    rw [hstarted.stored] at hstored
    cases hstored
  | kept fileMeta _ hlast _ hstored hreleased hproper hblocks =>
    refine ⟨.success, hlast, nofun, fun hne => ?_, fun fileMeta' h' => ?_⟩
    · rw [hstored] at hne
      rcases hne with hne | hne
      · exact absurd rfl hne
      · cases hne
    · obtain rfl : fileMeta = fileMeta' := Option.some.inj (hstored.symm.trans h')
      rw [hreleased, List.nil_append] at hbalanced
      refine ⟨rfl, hreleased, hbalanced, ?_⟩
      rw [htokens, hblocks, infoBlocks_eq_tokens hproper]

/-! ## What is submitted -/

/-- What `Complete` submits with the record that it builds. -/
def commitFor (u : Upload) (req : PutInitRequest) (metaBytes : Bytes) : Commit :=
  ⟨(u.handler.build req).1, metaBytes, (u.handler.build req).2.1, (u.handler.build req).2.2,
    req.noGet⟩

theorem submit_of_ok {req : PutInitRequest} {metaBytes : Bytes}
    (h : pb.marshal (u.handler.build req).1 = .ok metaBytes) :
    u.submit pb req = { u with task := .commit (u.commitFor req metaBytes) } := by
  rw [submit, h]
  rfl

/-- The last write of an upload is complete. -/
theorem written_of_full {req : PutInitRequest} (hreq : u.handler.initReq = some req)
    (buf : Bytes) (results token : List Result) :
    u.written pb buf results token false buf.length none =
      submit pb { u with handler := u.handler.completeFlush results token } req := by
  have hreq' : (u.handler.completeFlush results token).initReq = some req := hreq
  simp only [written, ne_eq, not_true_eq_false, if_false, Bool.false_eq_true, hreq']

/-- What the upload submits is what it has flushed. -/
def Submits (pb : Protobuf) (u : Upload) : Prop :=
  ∀ c, u.task = .commit c → ∃ req metaBytes, u.handler.blockInfoList ≠ [] ∧
    pb.marshal (u.handler.build req).1 = .ok metaBytes ∧ c = u.commitFor req metaBytes

theorem submits_of_task {task : UploadTask} (h : u.task = task) (hne : ∀ c, task ≠ .commit c) :
    u.Submits pb :=
  fun c hc => absurd (h.symm.trans hc) (hne c)

theorem submits_rollback (tokens : List (List Result)) (r : Response) :
    (u.rollback tokens r).Submits pb := by
  rw [rollback]
  intro c hc
  split_ifs at hc
  cases hc

theorem submits_submit (hne : u.handler.blockInfoList ≠ []) (req : PutInitRequest) :
    (u.submit pb req).Submits pb := by
  unfold submit
  split
  · exact submits_rollback _ _
  · rename_i metaBytes heq
    intro c hc
    exact ⟨req, metaBytes, hne, heq, (UploadTask.commit.inj hc).symm⟩

theorem submits_complete (hne : u.handler.flushErr = none → u.handler.fileSize ≠ 0 →
    u.handler.pendingLen = 0 → u.handler.blockInfoList ≠ []) : (u.complete pb).Submits pb := by
  unfold complete
  split
  · exact submits_of_task rfl nofun
  split
  · exact submits_rollback _ _
  rename_i herr
  split
  · exact submits_of_task rfl nofun
  simp only
  split
  · exact submits_of_task rfl nofun
  split
  · exact submits_of_task rfl nofun
  · exact submits_submit (u := u.finalize) (hne herr ‹_› (not_not.mp ‹_›)) _

/-- Content that is not pending was flushed. -/
theorem Counts.blockInfoList_ne {h : Handler} {datas : List Bytes} (hc : Counts h datas)
    (hsize : h.fileSize ≠ 0) (hpending : h.pendingLen = 0) : h.blockInfoList ≠ [] := by
  intro hnil
  have hpieces := hc.pieces
  rw [hnil] at hpieces
  have hflat := flatten_cutChunks datas
  rw [List.length_eq_zero_iff.mp hpieces.symm,
    List.length_eq_zero_iff.mp (hc.pending.symm.trans hpending)] at hflat
  exact hsize (hc.fileSize.trans (congrArg List.length hflat.symm))

theorem Submits.step (h : u.Stage) {e : UploadEvent} (hstep : Step crc pb u e u') :
    u'.Submits pb := by
  cases e with
  | call c =>
    obtain ⟨hidle, hacc, rfl⟩ := hstep
    cases c with
    | start req => exact submits_of_task hidle nofun
    | put data =>
      change ((u.called (.put data)).put crc data).Submits pb
      rcases @put_cases crc (u.called (.put data)) data with ⟨r, heq⟩ | heq | heq <;> rw [heq] <;>
        exact submits_of_task rfl nofun
    | complete =>
      refine submits_complete fun herr hsize hpending => ?_
      rcases h.of_open hidle hacc with ⟨-, hcounts, -⟩ | ⟨-, herr', -⟩
      · exact hcounts.blockInfoList_ne hsize hpending
      · exact absurd herr herr'
    | timeOut => exact submits_rollback _ _
  | alloc outcome =>
    obtain ⟨buf, respond, -, rfl⟩ := hstep
    cases outcome with
    | error e => exact submits_rollback _ _
    | ok res => exact submits_of_task rfl nofun
  | write n err =>
    obtain ⟨buf, results, token, respond, htask, rfl⟩ := hstep
    obtain ⟨-, hholding, -⟩ := h.of_flushing (Or.inr ⟨buf, results, token, htask⟩)
    rcases @written_cases pb u hholding.initReq buf results token respond n err with
      ⟨e, heq⟩ | ⟨-, heq⟩ | ⟨-, req, heq⟩ <;> rw [heq]
    · exact submits_rollback _ _
    · exact submits_of_task rfl nofun
    · exact submits_submit (List.append_ne_nil_of_right_ne_nil _ (List.cons_ne_nil _ _)) req
  | rollbackAlloc =>
    obtain ⟨token, tokens, r, -, rfl⟩ := hstep
    exact submits_rollback _ _
  | commit answer found =>
    obtain ⟨c, -, rfl⟩ := hstep
    rcases u.committed_cases c answer found with ⟨r, heq⟩ | heq <;> rw [heq]
    · exact submits_rollback _ _
    · exact submits_of_task rfl nofun

/-! ## What is stored -/

theorem stored_rollback (u : Upload) (tokens : List (List Result)) (r : Response) :
    (u.rollback tokens r).stored = u.stored := by
  rw [rollback]
  split_ifs <;> rfl

theorem stored_submit (u : Upload) (req : PutInitRequest) :
    (u.submit pb req).stored = u.stored := by
  rcases @submit_cases pb u req with ⟨e, heq⟩ | ⟨c, heq⟩ <;> rw [heq]
  exact stored_rollback _ _ _

/-- Only the group commit stores a record. -/
theorem Step.stored_eq (h : u.Stage) {e : UploadEvent} (hstep : Step crc pb u e u')
    (hcommit : ∀ found, e ≠ .commit none found) : u'.stored = u.stored := by
  cases e with
  | call c =>
    obtain ⟨-, -, rfl⟩ := hstep
    cases c with
    | start req => rfl
    | put data =>
      change ((u.called (.put data)).put crc data).stored = u.stored
      rcases @put_cases crc (u.called (.put data)) data with ⟨r, heq⟩ | heq | heq <;> rw [heq] <;>
        rfl
    | complete =>
      change ((u.called .complete).complete pb).stored = u.stored
      rcases @complete_cases pb (u.called .complete) with
        ⟨r, heq⟩ | ⟨r, heq⟩ | ⟨e, heq⟩ | heq | ⟨req, heq⟩ <;> rw [heq]
      · rfl
      · rfl
      · exact stored_rollback _ _ _
      · rfl
      · exact stored_submit _ _
    | timeOut => exact stored_rollback _ _ _
  | alloc outcome =>
    obtain ⟨buf, respond, -, rfl⟩ := hstep
    cases outcome with
    | error e => exact stored_rollback _ _ _
    | ok res => rfl
  | write n err =>
    obtain ⟨buf, results, token, respond, htask, rfl⟩ := hstep
    obtain ⟨-, hholding, -⟩ := h.of_flushing (Or.inr ⟨buf, results, token, htask⟩)
    rcases @written_cases pb u hholding.initReq buf results token respond n err with
      ⟨e, heq⟩ | ⟨-, heq⟩ | ⟨-, req, heq⟩ <;> rw [heq]
    · exact stored_rollback _ _ _
    · rfl
    · exact stored_submit _ _
  | rollbackAlloc =>
    obtain ⟨token, tokens, r, -, rfl⟩ := hstep
    exact stored_rollback _ _ _
  | commit answer found =>
    obtain ⟨c, -, rfl⟩ := hstep
    cases answer with
    | none => exact absurd rfl (hcommit found)
    | some e => exact stored_rollback _ _ _

/-- An upload whose record is stored takes no more steps. -/
theorem Step.stored_none (h : u.Stage) {e : UploadEvent} (hstep : Step crc pb u e u') :
    u.stored = none := by
  cases h with
  | fresh h =>
    rw [h]
    rfl
  | active _ _ hholding => exact hholding.stored
  | flushing _ _ _ hholding => exact hholding.stored
  | committing _ _ _ hholding => exact hholding.stored
  | rollingBack _ _ _ _ hstarted => exact hstarted.stored
  | settled _ _ _ hstarted => exact hstarted.stored
  | kept fileMeta hidle hlast hcalls =>
    cases e with
    | call c =>
      obtain ⟨-, hacc, -⟩ := hstep
      cases c with
      | start req =>
        rw [show u.calls = [] from hacc] at hcalls
        cases hcalls
      | _ => exact absurd hcalls hacc.2.1
    | alloc outcome =>
      obtain ⟨_, _, htask, -⟩ := hstep
      cases htask.symm.trans hidle
    | write n err =>
      obtain ⟨_, _, _, _, htask, -⟩ := hstep
      cases htask.symm.trans hidle
    | rollbackAlloc =>
      obtain ⟨_, _, _, htask, -⟩ := hstep
      cases htask.symm.trans hidle
    | commit answer found =>
      obtain ⟨_, htask, -⟩ := hstep
      cases htask.symm.trans hidle

/-! ## What the group commit answered -/

/-- The last call is answered with `r` as soon as all tokens are given back. -/
def Answering (u : Upload) (r : Response) : Prop :=
  (∃ tokens, u.task = .rollback tokens r) ∨ u.task = .idle ∧ u.responses.getLast? = some r

theorem answering_respond (u : Upload) (r : Response) : (u.respond r).Answering r :=
  Or.inr ⟨rfl, List.getLast?_concat⟩

theorem answering_rollback (u : Upload) (tokens : List (List Result)) (r : Response) :
    (u.rollback tokens r).Answering r := by
  rw [rollback]
  split_ifs
  · exact u.answering_respond r
  · exact Or.inl ⟨tokens, rfl⟩

theorem Answering.unique {r r' : Response} (h : u.Answering r) (h' : u.Answering r') : r = r' := by
  rcases h with ⟨tokens, h⟩ | ⟨hidle, h⟩ <;> rcases h' with ⟨tokens', h'⟩ | ⟨hidle', h'⟩
  · cases h.symm.trans h'
    rfl
  · cases h.symm.trans hidle'
  · cases hidle.symm.trans h'
  · exact Option.some.inj (h.symm.trans h')

/-- SUCCESS is not the answer. -/
def Unconfirmed (u : Upload) : Prop :=
  ¬u.Answering .success

theorem Answering.unconfirmed {r : Response} (h : u.Answering r) (hr : r ≠ .success) :
    u.Unconfirmed :=
  fun h' => hr (h.unique h')

theorem unconfirmed_of_task {task : UploadTask} (h : u.task = task) (hidle : task ≠ .idle)
    (hrollback : ∀ tokens r, task ≠ .rollback tokens r) : u.Unconfirmed := by
  rintro (⟨tokens, h'⟩ | ⟨h', -⟩)
  · exact hrollback tokens _ (h.symm.trans h')
  · exact hidle (h.symm.trans h')

theorem unconfirmed_submit (u : Upload) (req : PutInitRequest) :
    (u.submit pb req).Unconfirmed := by
  rcases @submit_cases pb u req with ⟨e, h⟩ | ⟨c, h⟩ <;> rw [h]
  · exact (answering_rollback _ _ _).unconfirmed nofun
  · exact unconfirmed_of_task rfl nofun nofun

theorem unconfirmed_put (u : Upload) (data : Bytes) : (u.put crc data).Unconfirmed := by
  unfold put
  split
  · exact (u.answering_respond _).unconfirmed nofun
  split
  · exact (u.answering_respond _).unconfirmed nofun
  split
  · exact (u.answering_respond _).unconfirmed nofun
  split
  · exact (u.answering_respond _).unconfirmed nofun
  simp only
  split
  · exact unconfirmed_of_task rfl nofun nofun
  · exact (answering_respond _ _).unconfirmed nofun

theorem unconfirmed_complete (u : Upload) : (u.complete pb).Unconfirmed := by
  unfold complete
  split
  · exact (u.answering_respond _).unconfirmed nofun
  split
  · exact (answering_rollback _ _ _).unconfirmed nofun
  split
  · exact (u.answering_respond _).unconfirmed nofun
  simp only
  split
  · exact (answering_respond _ _).unconfirmed nofun
  split
  · exact unconfirmed_of_task rfl nofun nofun
  · exact unconfirmed_submit _ _

/-- No step but the answer of the group commit leads to SUCCESS. -/
theorem Unconfirmed.step (hu : u.Unconfirmed) (h : u.Stage) {e : UploadEvent}
    (hstep : Step crc pb u e u') (he : e.commitAnswer = []) : u'.Unconfirmed := by
  cases e with
  | call c =>
    obtain ⟨-, -, rfl⟩ := hstep
    cases c with
    | start req => exact hu
    | put data => exact unconfirmed_put _ data
    | complete => exact unconfirmed_complete _
    | timeOut => exact (answering_rollback _ _ _).unconfirmed nofun
  | alloc outcome =>
    obtain ⟨buf, respond, htask, rfl⟩ := hstep
    cases outcome with
    | error e => exact (answering_rollback _ _ _).unconfirmed nofun
    | ok res => exact unconfirmed_of_task rfl nofun nofun
  | write n err =>
    obtain ⟨buf, results, token, respond, htask, rfl⟩ := hstep
    obtain ⟨-, hholding, -⟩ := h.of_flushing (Or.inr ⟨buf, results, token, htask⟩)
    rcases @written_cases pb u hholding.initReq buf results token respond n err with
      ⟨e, h⟩ | ⟨-, h⟩ | ⟨-, req, h⟩ <;> rw [h]
    · exact (answering_rollback _ _ _).unconfirmed nofun
    · exact (answering_respond _ _).unconfirmed nofun
    · exact unconfirmed_submit _ req
  | rollbackAlloc =>
    obtain ⟨token, tokens, r, htask, rfl⟩ := hstep
    refine (answering_rollback _ tokens r).unconfirmed ?_
    rintro rfl
    exact hu (Or.inl ⟨_, htask⟩)
  | commit answer found => cases he

/-- After `Complete` only tokens are given back until the call is answered. -/
theorem Answering.step {r : Response} (h : u.Answering r) (hcalls : .complete ∈ u.calls)
    {e : UploadEvent} (hstep : Step crc pb u e u') :
    u'.Answering r ∧ u'.calls = u.calls ∧ u'.stored = u.stored ∧ e.commitAnswer = [] := by
  have hne : ∀ {task}, u.task = task → (∀ tokens, task ≠ .rollback tokens r) → task ≠ .idle →
      False := by
    rintro task rfl h₁ h₂
    rcases h with ⟨tokens, h⟩ | ⟨h, -⟩
    · exact h₁ tokens h
    · exact h₂ h
  cases e with
  | call c =>
    obtain ⟨-, hacc, -⟩ := hstep
    cases c with
    | start req =>
      rw [Accepts] at hacc
      rw [hacc] at hcalls
      cases hcalls
    | put data => exact absurd hcalls hacc.2.1
    | complete => exact absurd hcalls hacc.2.1
    | timeOut => exact absurd hcalls hacc.2.1
  | alloc outcome =>
    obtain ⟨buf, respond, htask, -⟩ := hstep
    exact (hne htask nofun nofun).elim
  | write n err =>
    obtain ⟨buf, results, token, respond, htask, -⟩ := hstep
    exact (hne htask nofun nofun).elim
  | rollbackAlloc =>
    obtain ⟨token, tokens, r', htask, rfl⟩ := hstep
    obtain rfl : r' = r := Answering.unique (Or.inl ⟨_, htask⟩) h
    exact ⟨answering_rollback _ tokens _, (u.answers_rolledBack token tokens _).1,
      stored_rollback _ tokens _, rfl⟩
  | commit answer found =>
    obtain ⟨c, htask, -⟩ := hstep
    exact (hne htask nofun nofun).elim

/-- Where an upload stands, with the answers of the group commit so far : none, or the one to its
request. -/
inductive Told (u : Upload) : List (Option UploadError × Bool) → Prop
  | nothing (hunconfirmed : u.Unconfirmed) : Told u []
  | refused (e : UploadError) (found : Bool) (hcalls : .complete ∈ u.calls)
    (hanswering : u.Answering (.error e)) : Told u [(some e, found)]
  | found (hcalls : .complete ∈ u.calls) (hanswering : u.Answering .success)
    (hstored : u.stored = none) : Told u [(none, true)]
  | kept (hcalls : .complete ∈ u.calls) (hanswering : u.Answering .success)
    (hstored : u.stored ≠ none) : Told u [(none, false)]

theorem told_new : Upload.new.Told [] :=
  .nothing (by rintro (⟨tokens, h⟩ | ⟨-, h⟩) <;> cases h)

/-- The request is answered. -/
theorem told_committed {c : Commit} (hcalls : .complete ∈ u.calls) (hstored : u.stored = none)
    (answer : Option UploadError) (found : Bool) :
    (u.committed c answer found).Told [(answer, found)] := by
  have hkeep := (u.answers_committed c answer found).1
  cases answer with
  | some e => exact .refused e found (hkeep ▸ hcalls) (answering_rollback _ _ _)
  | none =>
    cases found with
    | true =>
      exact .found (hkeep ▸ hcalls) (answering_rollback _ _ _)
        ((stored_rollback _ _ _).trans hstored)
    | false => exact .kept hcalls (answering_respond _ _) nofun

theorem Told.step {answers : List (Option UploadError × Bool)} (ht : u.Told answers)
    (h : u.Stage) {e : UploadEvent} (hstep : Step crc pb u e u') :
    u'.Told (answers ++ e.commitAnswer) := by
  cases ht with
  | nothing hunconfirmed =>
    by_cases he : e.commitAnswer = []
    · rw [he]
      exact .nothing (hunconfirmed.step h hstep he)
    · cases e with
      | commit answer found =>
        obtain ⟨c, htask, rfl⟩ := hstep
        obtain ⟨hholding, hcalls, -⟩ := h.of_committing htask
        exact told_committed hcalls hholding.stored answer found
      | _ => exact absurd rfl he
  | refused e' found hcalls hanswering =>
    obtain ⟨h1, h2, -, h4⟩ := hanswering.step hcalls hstep
    rw [h4]
    exact .refused e' found (h2 ▸ hcalls) h1
  | found hcalls hanswering hstored =>
    obtain ⟨h1, h2, h3, h4⟩ := hanswering.step hcalls hstep
    rw [h4]
    exact .found (h2 ▸ hcalls) h1 (h3.trans hstored)
  | kept hcalls hanswering hstored => exact absurd (hstep.stored_none h) hstored

/-- Only an answer that nothing was found makes the upload keep a record, the one it has
submitted. -/
theorem Step.stored_cases (h : u.Stage) {e : UploadEvent} (hstep : Step crc pb u e u') :
    u'.stored = none ∨
      ∃ c, e = .commit none false ∧ u.task = .commit c ∧ u'.stored = some c.fileMeta := by
  have hnone := hstep.stored_none h
  by_cases he : ∃ found, e = .commit none found
  · obtain ⟨found, rfl⟩ := he
    obtain ⟨c, htask, rfl⟩ := hstep
    cases found with
    | true => exact Or.inl ((stored_rollback _ _ _).trans hnone)
    | false => exact Or.inr ⟨c, rfl, htask, rfl⟩
  · exact Or.inl ((hstep.stored_eq h fun found hf => he ⟨found, hf⟩).trans hnone)

/-- What an upload whose last call is answered has given back, by the answer to its request. -/
theorem Told.of_ended {answers : List (Option UploadError × Bool)} (ht : u.Told answers)
    (h : u.Sound) (hended : u.Ended) (hidle : u.task = .idle) :
    ∃ r, u.responses.getLast? = some r ∧ r ≠ .cont ∧
      (r = .success ↔ ∃ found, answers = [(none, found)]) ∧
      (r ≠ .success ∨ answers = [(none, true)] → u.tokens = [] ∧ u.obtained.Perm u.released) ∧
      (answers = [(none, false)] → u.released = [] ∧ u.obtained.Perm u.tokens ∧
        ∃ fileMeta, u.stored = some fileMeta ∧ fileMeta.blocks = blocksOfTokens u.tokens) := by
  obtain ⟨r, hlast, hcont, hnothing, hkept⟩ := h.of_ended hended hidle
  have hanswering : u.Answering r := Or.inr ⟨hidle, hlast⟩
  refine ⟨r, hlast, hcont, ?_, ?_, ?_⟩
  · cases ht with
    | nothing hunconfirmed =>
      refine iff_of_false (fun hr => hunconfirmed (hr ▸ hanswering)) ?_
      rintro ⟨found, h⟩
      cases h
    | refused e found _ hrefused =>
      obtain rfl := hanswering.unique hrefused
      refine iff_of_false nofun ?_
      rintro ⟨found, h⟩
      cases h
    | found _ hfound _ => exact iff_of_true (hanswering.unique hfound) ⟨true, rfl⟩
    | kept _ hstored _ => exact iff_of_true (hanswering.unique hstored) ⟨false, rfl⟩
  · rintro (hr | rfl)
    · exact hnothing (Or.inl hr)
    · cases ht with
      | found _ _ hstored => exact hnothing (Or.inr hstored)
  · rintro rfl
    cases ht with
    | kept _ _ hstored =>
      obtain ⟨fileMeta, hstored⟩ := Option.ne_none_iff_exists'.mp hstored
      obtain ⟨-, h1, h2, h3⟩ := hkept fileMeta hstored
      exact ⟨h1, h2, fileMeta, hstored, h3⟩

/-! ## Every call comes to an end -/

/-- How many steps at most the upload takes until the call in progress is answered. -/
def work (u : Upload) : ℕ :=
  match u.task with
  | .idle => 0
  | .rollback tokens _ => tokens.length
  | .commit _ => u.handler.tokens.length + 1
  | .write _ _ _ _ => u.handler.tokens.length + 3
  | .alloc _ _ => u.handler.tokens.length + 4

theorem work_rollback (u : Upload) (tokens : List (List Result)) (r : Response) :
    (u.rollback tokens r).work = tokens.length := by
  rw [rollback]
  split_ifs with hnil
  · rw [hnil]
    rfl
  · rfl

theorem work_rollbackCompletedFlushes (u : Upload) (r : Response) :
    (u.rollbackCompletedFlushes r).work = u.handler.tokens.length :=
  work_rollback _ _ _

theorem work_fail (u : Upload) (tokens : List (List Result)) (e : UploadError) :
    (u.fail tokens e).work = tokens.length + u.handler.tokens.length :=
  (work_rollback _ _ _).trans List.length_append

theorem work_submit_le (u : Upload) (req : PutInitRequest) :
    (u.submit pb req).work ≤ u.handler.tokens.length + 1 := by
  rcases @submit_cases pb u req with ⟨e, h⟩ | ⟨c, h⟩ <;> rw [h]
  · rw [work_rollbackCompletedFlushes]
    exact Nat.le_succ _
  · exact le_rfl

theorem work_written_le {infos : List FlushBlockInfo}
    (hinfos : u.handler.blockInfoList = infos ++ [⟨[], []⟩]) {token : List Result}
    (hne : token ≠ []) (hreq : u.handler.initReq ≠ none) (buf : Bytes) (results : List Result)
    (respond : Bool) (n : ℕ) (err : Option ChannelError) :
    (u.written pb buf results token respond n err).work ≤ u.handler.tokens.length + 2 := by
  have htokens : (u.handler.completeFlush results token).tokens.length =
      u.handler.tokens.length + 1 := by
    rw [tokens_completeFlush hinfos hne, List.length_append, List.length_singleton]
  rcases @written_cases pb u hreq buf results token respond n err with
    ⟨e, h⟩ | ⟨-, h⟩ | ⟨-, req, h⟩ <;> rw [h]
  · rw [work_fail, List.length_singleton]
    omega
  · exact Nat.zero_le _
  · refine (work_submit_le _ _).trans ?_
    exact (congrArg (· + 1) htokens).le

/-- Every answer of the device brings the end nearer. -/
theorem Step.work_lt (h : u.Stage) {e : UploadEvent} (hstep : Step crc pb u e u')
    (he : ∀ c, e ≠ .call c) : u'.work < u.work := by
  cases e with
  | call c => exact absurd rfl (he c)
  | alloc outcome =>
    obtain ⟨buf, respond, htask, rfl⟩ := hstep
    have hwork : u.work = u.handler.tokens.length + 4 := by rw [work, htask]
    rw [hwork]
    cases outcome with
    | error e =>
      rw [allocated, work_fail, List.length_nil]
      omega
    | ok res => exact Nat.lt_succ_self _
  | write n err =>
    obtain ⟨buf, results, token, respond, htask, rfl⟩ := hstep
    obtain ⟨-, hholding, ⟨infos, hinfos, -⟩, -, hproper⟩ :=
      h.of_flushing (Or.inr ⟨buf, results, token, htask⟩)
    have hwork : u.work = u.handler.tokens.length + 3 := by rw [work, htask]
    rw [hwork]
    exact Nat.lt_succ_of_le (work_written_le hinfos (hproper buf results token htask).token_ne
      hholding.initReq buf results respond n err)
  | rollbackAlloc =>
    obtain ⟨token, rest, r, htask, rfl⟩ := hstep
    have hwork : u.work = rest.length + 1 := by rw [work, htask]; rfl
    rw [hwork, rolledBack, work_rollback]
    exact Nat.lt_succ_self _
  | commit answer found =>
    obtain ⟨c, htask, rfl⟩ := hstep
    have hwork : u.work = u.handler.tokens.length + 1 := by rw [work, htask]
    rw [hwork]
    rcases u.committed_cases c answer found with ⟨r, h⟩ | h <;> rw [h]
    · rw [work_rollbackCompletedFlushes]
      exact Nat.lt_succ_self _
    · exact Nat.zero_lt_succ _

end Upload

end Corgi
