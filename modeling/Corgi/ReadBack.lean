import Corgi.Codec
import Corgi.Durability
import Corgi.Recovery

/-!
# Reading back an upload

The record of an upload that was stored can be used in two ways. Its extents and its size
give the content back : what they give are the padded pieces, cut to the size, and this is
the content exactly when nothing but zeros follows a piece that needed padding
(`recovered_iff`). Its key should give the record itself, but records are stored under
another key than they are looked up under, so a lookup after the commit answers as one before
it (`queryFileMeta_stored_iff`). An upload that has room goes through (`exists_upload`), so
that neither is vacuous.
-/

namespace Corgi

/-! ## The extents of a record -/

/-- The extents of a record. -/
def FileMeta.extents (fileMeta : FileMeta) : List Result :=
  (fileMeta.offset.zip fileMeta.len).map fun extent => ⟨extent.1, extent.2⟩

theorem extents_buildFileMeta (req : PutInitRequest) (total : ℤ) (etag : Bytes)
    (infos : List FlushBlockInfo) :
    (buildFileMetaAndResults req total etag infos).1.extents = flattenBlockResults infos := by
  rw [FileMeta.extents, buildFileMetaAndResults]
  simp only
  rw [List.zip_map', List.map_map]
  exact List.map_id _

theorem length_extents (disk : Disk) : ∀ results : List Result,
    (disk.extents results).length = byteCount results
  | [] => rfl
  | r :: results => by
    rw [Disk.extents, List.flatMap_cons, List.length_append, Disk.length_read, ← Disk.extents,
      length_extents disk results]
    rfl

theorem proper_of_holds {disk : Disk} {infos : List FlushBlockInfo} {pieces : List Bytes}
    (h : List.Forall₂ (Session.Holds disk) infos pieces) : ∀ info ∈ infos, info.Proper := by
  induction h with
  | nil => simp
  | cons h _ ih => exact List.forall_mem_cons.mpr ⟨h.proper, ih⟩

theorem extents_of_holds {disk : Disk} {infos : List FlushBlockInfo} {pieces : List Bytes}
    (h : List.Forall₂ (Session.Holds disk) infos pieces) :
    disk.extents (flattenBlockResults infos) = pieces.flatMap (pad 4096 0#8) := by
  induction h with
  | nil => rfl
  | cons h _ ih =>
    rw [flattenBlockResults, List.flatMap_cons, Disk.extents, List.flatMap_append,
      List.flatMap_cons, ← ih, ← h.bytes]
    rfl

/-! ## Uploads that go through -/

/-- The blocks that pieces take. -/
def paddedBlocks (pieces : List Bytes) : ℕ :=
  (pieces.map fun piece => (pad 4096 0#8 piece).length / 4096).sum

theorem paddedBlocks_concat (pieces : List Bytes) (piece : Bytes) :
    paddedBlocks (pieces ++ [piece]) =
      paddedBlocks pieces + (pad 4096 0#8 piece).length / 4096 := by
  simp [paddedBlocks]

theorem length_pad_div (piece : Bytes) :
    (pad 4096 0#8 piece).length / 4096 = (piece.length + 4095) / 4096 := by
  rw [pad, List.length_append, List.length_replicate]
  omega

/-- What the handler has flushed lies on a device of `n` blocks, each block once. -/
structure Handler.Fitting (n : ℕ) (h : Handler) : Prop where
  proper : ∀ info ∈ h.blockInfoList, info.Proper
  nodup : (infoBlocks h.blockInfoList).Nodup
  lt : ∀ b ∈ infoBlocks h.blockInfoList, b < n

namespace Session

variable {s : Session} {req : PutInitRequest} {chunks : List Bytes} {pb : Protobuf}
  {json : JSONDeleteMark} {crc : BitVec 32 → Bytes → BitVec 32}

theorem Sound.fitting (hs : s.Sound) (hquiet : Phase.Quiet s.phase)
    (hproper : ∀ info ∈ s.handler.blockInfoList, info.Proper) :
    Handler.Fitting s.device.allocator.total s.handler := by
  have hnodup := hs.nodup
  have hallocated := hs.allocated
  rw [held_of_quiet hquiet] at hnodup hallocated
  exact ⟨hproper, hnodup, fun b hb => (hallocated b hb).1⟩

/-- A flush with room succeeds when its writes do. -/
theorem exists_flush (hs : s.Sound) {buf : Bytes} (hdvd : 4096 ∣ buf.length)
    (hpos : 0 < buf.length) {respond : Bool} (hphase : s.phase = .alloc buf respond)
    (hroom : ((buf.length / 4096 : ℕ) : ℤ) ≤ s.device.allocator.available) :
    ∃ device disk results token u,
      device.allocator.available = s.device.allocator.available - (buf.length / 4096 : ℕ) ∧
      device.allocator.total = s.device.allocator.total ∧
      FlushBlockInfo.Proper ⟨results, token⟩ ∧
      s.flushAlloc buf respond =
        { s with device := device, phase := .write buf results token respond } ∧
      u = { s with
        device := device, disk := disk, phase := .write buf results token respond,
        handler := s.handler.completeFlush results token } ∧
      Run (Step crc pb json) s [.flushAlloc, .flushWrite SubmitOutcome.full none]
        (if respond then u.respond .cont
          else match s.handler.initReq with
            | none => u
            | some req => u.submit pb req) := by
  obtain ⟨device, results, token, hres, hproper, hlen, havail, htotal⟩ :=
    s.device.alloc_of_room hs.inv hdvd hpos hroom
  obtain ⟨disk, hwrite⟩ := writeAllocated_full s.disk hproper.pos hlen
  rw [← show results = token.map Result.toBytes from hproper.results_eq] at hwrite
  have hflush : s.flushAlloc buf respond =
      { s with device := device, phase := .write buf results token respond } := by
    rw [Session.flushAlloc, hres]
  refine ⟨device, disk, results, token, _, havail, htotal, hproper, hflush, rfl,
    .cons (t := { s with device := device, phase := .write buf results token respond })
      ⟨buf, respond, hphase, hflush.symm⟩
      (.cons ⟨buf, results, token, respond, rfl, fun _ => rfl, ?_⟩ .nil)⟩
  · rw [Session.flushWrite]
    simp only [hwrite]
    simp only [ne_eq, not_true_eq_false, if_false]
    rfl

/-- A commit of one upload alone. -/
theorem commit_alone {c : Commit} (haligned : ∀ r ∈ c.results, r.Aligned)
    (hlookup : ¬c.Unreadable s.db ∧ c.found s.db = false) :
    (s.commit json [] [] none c).stored = some c.fileMeta := by
  have hflush := flush_commits json s.db
    (show ∀ c' ∈ [c], _ from fun c' hc' => List.mem_singleton.mp hc' ▸ haligned) none
  rw [Session.commit]
  simp only [List.nil_append]
  generalize Corgi.flush json s.db [] _ none = o at hflush
  obtain ⟨hreadable, hfound⟩ := hlookup
  rcases hflush with ⟨-, -, hbad, -⟩ | ⟨-, -, hout, hans⟩
  · obtain ⟨c', hc', hbad⟩ := hbad.resolve_left (by simp)
    exact absurd (List.mem_singleton.mp hc' ▸ hbad) hreadable
  · rw [hout, hans]
    simp [hfound, Session.respond]

theorem length_infoBlocks {disk : Disk} {infos : List FlushBlockInfo} {pieces : List Bytes}
    (h : List.Forall₂ (Holds disk) infos pieces) :
    (infoBlocks infos).length = paddedBlocks pieces := by
  induction h with
  | nil => rfl
  | @cons info piece infos pieces h _ ih =>
    have hlen := h.length
    have hsum : paddedBlocks (piece :: pieces) =
        (pad 4096 0#8 piece).length / 4096 + paddedBlocks pieces := rfl
    rw [infoBlocks, List.flatMap_cons, List.length_append, ← infoBlocks, ih, hsum]
    omega

theorem infoBlocks_flush (s : Session) (respond : Bool) :
    infoBlocks (s.flush respond).handler.blockInfoList = infoBlocks s.handler.blockInfoList := by
  change infoBlocks (s.handler.blockInfoList ++ [⟨[], []⟩]) = _
  rw [infoBlocks_append]
  exact List.append_nil _

/-- What `Put` leaves alone. -/
theorem put_frame (hreq : s.handler.initReq ≠ none) (herr : s.handler.flushErr = none)
    (data : Bytes) :
    (s.put crc data).handler.flushErr = none ∧
      (s.put crc data).device = s.device ∧ (s.put crc data).db = s.db ∧
      infoBlocks (s.put crc data).handler.blockInfoList = infoBlocks s.handler.blockInfoList ∧
      Phase.Quiet (s.put crc data).phase := by
  rw [Session.put, if_neg hreq, herr]
  simp only
  split_ifs
  · exact ⟨herr, rfl, rfl, rfl, trivial⟩
  · exact ⟨herr, rfl, rfl, rfl, trivial⟩
  · exact ⟨herr, rfl, rfl, infoBlocks_flush _ true, trivial⟩
  · exact ⟨herr, rfl, rfl, rfl, trivial⟩

/-- A record that can be marshalled is submitted. -/
theorem exists_commit_submit {total size : ℕ} (hmarshal : ∀ v : BitVec 32, pb.Marshals total req
      size (if v ≠ 0#32 then hex8 v else [])) {u : Session} (hu : Handler.Fitting total u.handler)
    (hsize : u.handler.fileSize = size) :
    ∃ c, (u.submit pb req).phase = .commit c ∧ (u.submit pb req).db = u.db ∧
      pb.marshal c.fileMeta = .ok c.metaBytes := by
  rw [Session.submit]
  simp only
  split
  · rename_i hm
    obtain ⟨data, hdata⟩ := hmarshal u.handler.crc32Value _ hu.proper hu.nodup hu.lt
    rw [← hsize] at hdata
    exact absurd (hm.symm.trans hdata) (by simp)
  · rename_i hm
    exact ⟨_, rfl, rfl, hm⟩

/-- What is left is flushed, or the record is submitted at once. -/
theorem complete_eq (hreq : s.handler.initReq = some req) (herr : s.handler.flushErr = none)
    (hfinal : s.handler.finalized = false) (hsize : s.handler.fileSize ≠ 0) :
    s.complete pb =
      if s.handler.pendingLen ≠ 0
      then flush { s with handler := { s.handler with finalized := true } } false
      else submit pb { s with handler := { s.handler with finalized := true } } req := by
  rw [Session.complete, hreq]
  simp only [herr, hfinal, Bool.false_eq_true, if_false]
  rw [if_neg hsize]

section

variable {device : BlockDevice} {disk : Disk} {db : DB}

/-- An upload on a new handler has been given `chunks`, no flush has failed, and the space
that was available at first is available or held by it. -/
structure Ready (crc : BitVec 32 → Bytes → BitVec 32) (pb : Protobuf) (json : JSONDeleteMark)
    (device : BlockDevice) (disk : Disk) (db : DB) (req : PutInitRequest) (chunks : List Bytes)
    (s : Session) : Prop where
  run : ∃ events, Run (Step crc pb json) (Session.new device disk db) events s ∧
    calls events = .start req :: chunks.map .put
  idle : s.phase = .idle
  flushErr : s.handler.flushErr = none
  room : s.device.allocator.available + (infoBlocks s.handler.blockInfoList).length =
    device.allocator.available
  total : s.device.allocator.total = device.allocator.total
  db_eq : s.db = db

/-- A flush of an upload that has room. -/
theorem Flushing.exists_done {pieces : List Bytes} {respond : Bool} (hs : s.Sound)
    (h : s.Flushing pieces respond) (hquiet : Phase.Quiet s.phase) (hne : ∀ p ∈ pieces, p ≠ [])
    (hroom : (paddedBlocks pieces : ℤ) ≤
      s.device.allocator.available + (infoBlocks s.handler.blockInfoList).length) :
    ∃ u, u.handler.flushErr = s.handler.flushErr ∧ u.db = s.db ∧
      u.handler.fileSize = s.handler.fileSize ∧
      u.device.allocator.total = s.device.allocator.total ∧
      Handler.Fitting s.device.allocator.total u.handler ∧
      u.device.allocator.available + (paddedBlocks pieces : ℤ) =
        s.device.allocator.available + (infoBlocks s.handler.blockInfoList).length ∧
      Run (Step crc pb json) s [.flushAlloc, .flushWrite SubmitOutcome.full none]
        (if respond then u.respond .cont
          else match s.handler.initReq with
            | none => u
            | some req => u.submit pb req) := by
  obtain ⟨infos, done, piece, hinfos, rfl, hholds, hphase | ⟨results, token, hphase, -⟩⟩ := h.state
  swap
  · rw [hphase] at hquiet
    exact hquiet.elim
  have hlen : (infoBlocks s.handler.blockInfoList).length = paddedBlocks done := by
    rw [hinfos, infoBlocks_append, List.length_append, length_infoBlocks hholds]
    rfl
  have hpos : 0 < (pad 4096 0#8 piece).length := by
    have := List.length_pos_of_ne_nil (hne piece (by simp))
    rw [pad, List.length_append]
    omega
  rw [paddedBlocks_concat, hlen, Nat.cast_add] at hroom
  obtain ⟨device, disk, results, token, u, havail, htotal, hproper, hflush, hu, hrun⟩ :=
    @exists_flush s pb json crc hs _ (dvd_length_pad (by decide) piece) hpos _ hphase (by omega)
  have hsound := (h.flushAlloc hs hphase).1
  rw [hflush] at hsound
  have hall : ∀ info ∈ (s.handler.completeFlush results token).blockInfoList, info.Proper := by
    rw [blockInfoList_completeFlush hinfos]
    exact List.forall_mem_append.mpr ⟨proper_of_holds hholds, List.forall_mem_singleton.mpr hproper⟩
  have hfitting := (hsound.completeFlush hinfos rfl disk).fitting trivial hall
  refine ⟨u, by rw [hu]; rfl, by rw [hu], by rw [hu]; rfl, by rw [hu]; exact htotal, ?_, ?_, hrun⟩
  · rw [hu, ← htotal]
    exact hfitting
  · rw [show u.device = device by rw [hu], paddedBlocks_concat, hlen, Nat.cast_add]
    omega

section

variable (hinv : device.allocator.Inv) (hlt : device.allocator.total < 2 ^ 63)

include hinv hlt

theorem Ready.active (h : Ready crc pb json device disk db req chunks s) :
    Active req chunks s := by
  obtain ⟨events, hrun, hcalls⟩ := h.run
  exact (history_of_run hinv hlt hrun).active req chunks hcalls

theorem Ready.put (h : Ready crc pb json device disk db req chunks s) {data : Bytes}
    (hroom : (paddedBlocks (cutChunks (chunks ++ [data])).1 : ℤ) ≤ device.allocator.available) :
    ∃ t, Ready crc pb json device disk db req (chunks ++ [data]) t := by
  obtain ⟨events, hrun, hcalls⟩ := h.run
  have hput : Active req (chunks ++ [data]) (s.put crc data) :=
    (h.active hinv hlt).put h.idle data
  obtain ⟨herr, hdevice, hdb, hblocks, hquiet⟩ := @put_frame s crc
    (by rw [(h.active hinv hlt).initReq]; simp) h.flushErr data
  have hrun' := hrun.snoc (show Step crc pb json s (.put data) (s.put crc data) from ⟨h.idle, rfl⟩)
  have hcalls' : calls (events ++ [.put data]) = .start req :: (chunks ++ [data]).map .put := by
    rw [calls_append, hcalls, List.map_append]
    rfl
  have havail := h.room
  rw [← hdevice, ← hblocks] at havail
  rcases hput.state with ⟨-, hfail⟩ | ⟨-, -, -, -, ⟨hidle, -⟩ | hflushing⟩
  · exact absurd herr hfail
  · exact ⟨_, ⟨_, hrun', hcalls'⟩, hidle, herr, havail, hdevice ▸ h.total, hdb.trans h.db_eq⟩
  · obtain ⟨u, huerr, hudb, -, hutotal, -, huavail, hurun⟩ :=
      @Flushing.exists_done _ pb json crc _ true hput.sound hflushing hquiet
        (ne_nil_of_mem_cutChunks _) (by omega)
    have hrun'' := hrun'.append hurun
    have hcalls'' : calls (events ++ [.put data] ++
        [.flushAlloc, .flushWrite SubmitOutcome.full none]) =
        .start req :: (chunks ++ [data]).map .put := by
      rw [calls_append, hcalls']
      exact List.append_nil _
    refine ⟨_, ⟨_, hrun'', hcalls''⟩, rfl, huerr.trans herr, ?_,
      hutotal.trans (hdevice ▸ h.total), hudb.trans (hdb.trans h.db_eq)⟩
    have hactive := (history_of_run hinv hlt hrun'').active req _ hcalls''
    rcases hactive.state with ⟨-, hfail⟩ | ⟨-, -, -, -, ⟨-, hholds⟩ | hflushing⟩
    · exact absurd (huerr.trans herr) hfail
    · rw [length_infoBlocks hholds]
      exact huavail.trans havail
    · exact absurd rfl hflushing.not_idle

omit hinv hlt in
theorem Closing.aligned (h : Closing req chunks s) {c : Commit} (hphase : s.phase = .commit c) :
    (∀ r ∈ c.results, r.Aligned) ∧ c.fileMeta.metaKey = req.metaKey := by
  obtain ⟨hholds, -, ⟨etag, hrec⟩, hresults, -⟩ := h.committing hphase
  rw [hresults, hrec]
  exact ⟨aligned_flattenBlockResults (proper_of_holds hholds), rfl⟩

/-- `Complete` gets as far as the commit. -/
theorem Ready.complete (h : Ready crc pb json device disk db req chunks s)
    (hne : chunks.flatten ≠ []) (hmarshal : ∀ v : BitVec 32, pb.Marshals device.allocator.total req
      chunks.flatten.length (if v ≠ 0#32 then hex8 v else []))
    (hroom : (paddedBlocks (flushPieces chunks) : ℤ) ≤ device.allocator.available) :
    ∃ events t c, Run (Step crc pb json) (Session.new device disk db) events t ∧
      calls events = (.start req :: chunks.map .put) ++ [.complete] ∧ t.phase = .commit c ∧
      t.db = db ∧ pb.marshal c.fileMeta = .ok c.metaBytes := by
  obtain ⟨events, hrun, hcalls⟩ := h.run
  have hactive := h.active hinv hlt
  obtain ⟨hidle, hfail⟩ | ⟨-, hsize, -, hlen, hflushed⟩ := hactive.state
  · exact absurd h.flushErr hfail
  have hclosing : Closing req chunks (s.complete pb) := hactive.complete h.idle
  have hrun' := hrun.snoc (show Step crc pb json s .complete (s.complete pb) from ⟨h.idle, rfl⟩)
  have hcalls' : calls (events ++ [.complete]) =
      (.start req :: chunks.map .put) ++ [.complete] := by
    rw [calls_append, hcalls]
    rfl
  have hcomplete := @complete_eq s req pb hactive.initReq h.flushErr hactive.finalized
    (by rw [hsize]; exact List.length_eq_zero_iff.not.mpr hne)
  split_ifs at hcomplete with hpending
  · obtain ⟨buf, hphase⟩ : ∃ buf, (s.complete pb).phase = .alloc buf false :=
      ⟨_, by rw [hcomplete]; rfl⟩
    have hroom' := h.room
    rw [← infoBlocks_flush { s with handler := { s.handler with finalized := true } } false,
      ← hcomplete, show s.device = (s.complete pb).device by rw [hcomplete]; rfl] at hroom'
    obtain ⟨-, -, hflushing⟩ := hclosing.flushing (by simp [hphase]) (by simp [hphase])
    obtain ⟨u, -, hudb, husize, -, hufits, -, hurun⟩ := @Flushing.exists_done _ pb json crc _ false
      hclosing.sound hflushing (by rw [hphase]; trivial) (fun p => ne_nil_of_mem_flushPieces)
      (by omega)
    rw [if_neg Bool.false_ne_true, hclosing.initReq] at hurun
    have hdevice : (s.complete pb).device = s.device := by rw [hcomplete]; rfl
    have hfileSize : (s.complete pb).handler.fileSize = s.handler.fileSize := by rw [hcomplete]; rfl
    rw [hdevice, h.total] at hufits
    obtain ⟨c, hc, hdb, hm⟩ :=
      exists_commit_submit hmarshal hufits (husize.trans (hfileSize.trans hsize))
    refine ⟨_, _, c, hrun'.append hurun, ?_, hc, hdb.trans (hudb.trans ?_), hm⟩
    · rw [calls_append, hcalls']
      exact List.append_nil _
    · rw [hcomplete]
      exact h.db_eq
  · have hproper : ∀ info ∈ s.handler.blockInfoList, info.Proper := by
      rcases hflushed with ⟨-, hholds⟩ | hflushing
      · exact proper_of_holds hholds
      · exact absurd h.idle hflushing.not_idle
    have hfits : Handler.Fitting s.device.allocator.total s.handler :=
      hactive.sound.fitting (by rw [h.idle]; trivial) hproper
    rw [h.total] at hfits
    obtain ⟨c, hc, hdb, hm⟩ := @exists_commit_submit req pb _ _ hmarshal
      { s with handler := { s.handler with finalized := true } }
      ⟨hfits.proper, hfits.nodup, hfits.lt⟩ hsize
    rw [← hcomplete] at hc hdb
    exact ⟨_, _, c, hrun', hcalls', hc, hdb.trans h.db_eq, hm⟩

theorem exists_ready (req : PutInitRequest) (chunks : List Bytes)
    (hroom : (paddedBlocks (cutChunks chunks).1 : ℤ) ≤ device.allocator.available) :
    ∃ s, Ready crc pb json device disk db req chunks s := by
  induction chunks using List.reverseRecOn with
  | nil =>
    exact ⟨_, ⟨[.start req], .cons ⟨rfl, rfl⟩ .nil, rfl⟩, rfl, rfl, by
      simp [Session.new, Handler.start, infoBlocks], rfl, rfl⟩
  | append_singleton chunks data ih =>
    have hle : paddedBlocks (cutChunks chunks).1 ≤
        paddedBlocks (cutChunks (chunks ++ [data])).1 := by
      rw [cutChunks_concat, cutChunk]
      split_ifs
      · rw [paddedBlocks_concat]
        omega
      · exact le_rfl
    obtain ⟨s, hs⟩ := ih (by omega)
    exact hs.put hinv hlt hroom

/-- On a device with room, an upload with some content whose record is not found is
stored. -/
theorem exists_upload (disk : Disk) (req : PutInitRequest) {chunks : List Bytes}
    (hne : chunks.flatten ≠ []) (hmarshal : ∀ v : BitVec 32, pb.Marshals device.allocator.total req
      chunks.flatten.length (if v ≠ 0#32 then hex8 v else []))
    (hroom : (paddedBlocks (flushPieces chunks) : ℤ) ≤ device.allocator.available)
    (hnil : db (fileMetaKey req.metaKey) = []) :
    ∃ events s t fileMeta, Run (Step crc pb json) (Session.new device disk db) events s ∧
      calls events = (.start req :: chunks.map .put) ++ [.complete] ∧ s.db = db ∧
      Step crc pb json s (.commit [] [] none) t ∧ t.stored = some fileMeta ∧
      ∃ data, pb.marshal fileMeta = .ok data := by
  have hle : paddedBlocks (cutChunks chunks).1 ≤ paddedBlocks (flushPieces chunks) := by
    rw [flushPieces]
    split_ifs
    · exact le_rfl
    · rw [paddedBlocks_concat]
      omega
  obtain ⟨s, hs⟩ := exists_ready hinv hlt req chunks (by omega)
  obtain ⟨events, s, c, hrun, hcalls, hphase, hdb, hm⟩ := hs.complete hinv hlt hne hmarshal hroom
  obtain ⟨haligned, hkey⟩ :=
    ((history_of_run hinv hlt hrun).closing req chunks hcalls).aligned hphase
  refine ⟨events, s, _, c.fileMeta, hrun, hcalls, hdb, ⟨c, hphase, rfl⟩,
    commit_alone haligned (Commit.lookup_of_nil ?_), c.metaBytes, hm⟩
  rw [hdb, hkey, hnil]

end

end

end Session

/-- A device of `n` blocks that are all free. -/
def freeDevice (n : ℕ) : BlockDevice :=
  { name := "lun", size := 4096 * n, allocator := .newAllocatorV3 n }

theorem inv_freeDevice {n : ℕ} (hn : 0 < n) : (freeDevice n).allocator.Inv :=
  AllocatorV3.inv_newAllocatorV3 hn

theorem total_freeDevice {n : ℕ} (hn : 0 < n) : (freeDevice n).allocator.total = n :=
  AllocatorV3.total_newAllocatorV3 hn

theorem isFree_freeDevice {n b : ℕ} (hb : b < n) : (freeDevice n).allocator.isFree b = true :=
  (AllocatorV3.isFree_newAllocatorV3 (Nat.zero_lt_of_lt hb) b).trans (decide_eq_true hb)

/-- A device of one block, when that is free, allocates it. -/
theorem BlockDevice.alloc_one_block {d : BlockDevice} (hinv : d.allocator.Inv)
    (htotal : d.allocator.total = 1) (hfree : d.allocator.isFree 0 = true) :
    ∃ d' results token, d.alloc 4096 = (d', .ok (results, token)) ∧
      FlushBlockInfo.Proper ⟨results, token⟩ ∧ d'.allocator.Inv ∧ d'.allocator.total = 1 ∧
      blocksOf token = [0] ∧ d'.allocator.isFree 0 = false := by
  have havail : d.allocator.available = 1 := by
    rw [hinv.available_eq, AllocatorV3.freeCount, htotal, List.countP_eq_length_filter]
    simp [List.range_succ, hfree]
  obtain ⟨d₁, results₁, token₁, halloc₁, -, hlen, -⟩ := d.alloc_of_room hinv
    (show 4096 ∣ 4096 from dvd_rfl) (by decide) (by rw [havail]; decide)
  rcases d.alloc_of_inv hinv (4096 : ℕ) with
    ⟨d', results, token, halloc, hproper, hinv', htotal', -, -, hnew, -⟩ | ⟨d', e, halloc, -⟩
  · obtain ⟨rfl, hok⟩ := Prod.mk.inj (halloc₁.symm.trans halloc)
    obtain ⟨rfl, rfl⟩ := Prod.mk.inj (Except.ok.inj hok)
    obtain ⟨b, hb⟩ := List.length_eq_one_iff.mp (show (blocksOf token₁).length = 1 by omega)
    obtain ⟨hlt, -, hb'⟩ := hnew b (by simp [hb])
    obtain rfl : b = 0 := by omega
    exact ⟨d₁, results₁, token₁, halloc, hproper, hinv', htotal'.trans htotal, hb, hb'⟩
  · exact absurd (congrArg Prod.snd (halloc₁.symm.trans halloc)) (by simp)

/-- The extents of one block. -/
theorem eq_of_blocksOf {token : List Result} {b : ℕ} (hpos : ∀ r ∈ token, 0 ≤ r.offset ∧ 0 < r.size)
    (h : blocksOf token = [b]) : token = [⟨b, 1⟩] := by
  have hlength := length_blocksOf hpos
  rw [h] at hlength
  cases token with
  | nil => cases h
  | cons r rest =>
    obtain ⟨hr, hrest⟩ := List.forall_mem_cons.mp hpos
    have hsum := length_blocksOf hrest
    rw [List.map_cons, List.sum_cons, ← hsum, List.length_singleton] at hlength
    have hsize : r.size = 1 := by omega
    have hblocks : r.blocks = [r.offset.toNat] := by
      rw [Result.blocks, hsize]
      rfl
    have hnil : rest = [] := by
      by_contra hne
      obtain ⟨x, hx⟩ := List.exists_mem_of_ne_nil _ hne
      have hfirst : x.offset.toNat ∈ blocksOf rest :=
        mem_blocksOf.mpr ⟨x, hx, Result.mem_blocks.mpr (by have := hrest x hx; omega)⟩
      have := List.length_pos_of_mem hfirst
      omega
    subst hnil
    rw [blocksOf, List.flatMap_cons, List.flatMap_nil, hblocks, List.append_nil] at h
    obtain ⟨offset, size⟩ := r
    obtain rfl : size = 1 := hsize
    have hoffset : offset.toNat = b := (List.cons.inj h).1
    have hoffset : offset = b := by
      have := hr.1
      simp only at this
      omega
    rw [hoffset]

theorem isASCII_hex8 (v : BitVec 32) : IsASCII (hex8 v) := by
  refine List.forall_mem_map.mpr fun i _ => ?_
  have hlt : v.toNat / 16 ^ i % 16 < 16 := Nat.mod_lt _ (by decide)
  simp only [BitVec.toNat_ofNat]
  split_ifs <;> omega

/-- A file name as the client makes them. -/
@[irreducible]
def fileNameA : Bytes :=
  ascii "/9698_bk1_ffffffff-ffff-4fff-bfff-ffffffffffff".toList

/-- A key as the client makes them. -/
@[irreducible]
def metaKeyA : Bytes :=
  ascii "aio-upload-client-1-1043".toList

/-- A request as the client makes them. -/
def requestA : PutInitRequest :=
  { lun := [], fileName := fileNameA, metaKey := metaKeyA, noGet := false }

/-- The same on the wire. -/
def bytesA : Bytes :=
  0x12#8 :: 0x2e#8 :: fileNameA ++ 0x1a#8 :: 0x18#8 :: metaKeyA

theorem marshal_requestA : marshalPutInitRequest requestA = .ok bytesA := by
  decide +kernel

theorem unmarshal_bytesA : unmarshalRequest bytesA = .ok requestA := by
  have hread := unmarshal_marshalPutInitRequest (by decide +kernel) marshal_requestA
  rw [unmarshalRequest, hread]
  rfl

/-- Its record is marshalled, with the checksum of any content. -/
theorem marshals_requestA {n size : ℕ} (hn : n ≤ 2 ^ 50) (hsize : size < 2 ^ 63) (v : BitVec 32)
    (noGet : Bool) :
    protobuf.Marshals n { requestA with noGet } size (if v ≠ 0#32 then hex8 v else []) := by
  have hetag : ∀ etag : Bytes, etag.length < 2 ^ 63 → utf8Valid etag = true →
      protobuf.Marshals n { requestA with noGet } size etag := by
    intro etag hlen hutf8
    refine protobuf_marshals hn ?_ ?_ ⟨by omega, by exact_mod_cast hsize⟩
    · simp only [List.forall_mem_cons]
      exact ⟨by decide, by decide +kernel, hlen, by decide +kernel, List.forall_mem_nil _⟩
    · simp only [List.forall_mem_cons]
      exact ⟨by decide, by decide +kernel, hutf8, by decide +kernel, List.forall_mem_nil _⟩
  split_ifs with hv
  · exact hetag _ (by simp [hex8]) (utf8Valid_of_isASCII (isASCII_hex8 v))
  · exact hetag _ (by decide) (by decide)

/-- An upload to a free device. -/
theorem Session.exists_upload_freeDevice (noGet : Bool) {n : ℕ} (hn : 0 < n) (hle : n ≤ 2 ^ 50)
    {chunks : List Bytes} (hne : chunks.flatten ≠ []) (hsize : chunks.flatten.length < 2 ^ 63)
    (hroom : paddedBlocks (flushPieces chunks) ≤ n) :
    ∃ events s t fileMeta, Run (Step crc32Update protobuf fun _ => none)
        (Session.new (freeDevice n) (fun _ => 0#8) emptyDB) events s ∧
      calls events = (.start { requestA with noGet } :: chunks.map .put) ++ [.complete] ∧
      s.db = emptyDB ∧ Step crc32Update protobuf (fun _ => none) s (.commit [] [] none) t ∧
      t.stored = some fileMeta ∧ ∃ data, protobuf.marshal fileMeta = .ok data := by
  have htotal := total_freeDevice hn
  refine exists_upload (inv_freeDevice hn) (by omega) _ { requestA with noGet } hne
    (fun v => marshals_requestA (htotal.trans_le hle) hsize v noGet) ?_ rfl
  rw [freeDevice, AllocatorV3.newAllocatorV3_eq hn]
  exact Int.ofNat_le.mpr hroom

theorem flushPieces_one_byte : flushPieces [[1#8]] = [[1#8]] := by
  decide

theorem Session.exists_upload_one_byte (noGet : Bool) : ∃ events s t fileMeta,
    Run (Step crc32Update protobuf fun _ => none)
      (Session.new (freeDevice 1) (fun _ => 0#8) emptyDB) events s ∧
    calls events = (.start { requestA with noGet } :: [[1#8]].map .put) ++ [.complete] ∧
    s.db = emptyDB ∧ Step crc32Update protobuf (fun _ => none) s (.commit [] [] none) t ∧
    t.stored = some fileMeta ∧ ∃ data, protobuf.marshal fileMeta = .ok data :=
  exists_upload_freeDevice noGet (by decide) (by decide) (by decide) (by decide)
    (by rw [flushPieces_one_byte]; simp [paddedBlocks, length_pad_div])

/-! ## The content -/

/-- Reading the record back gives the padded pieces, cut to the size of the content. -/
theorem Session.Closing.readResults {s : Session} {req : PutInitRequest} {chunks : List Bytes}
    (h : s.Closing req chunks) {fileMeta : FileMeta} (hstored : s.stored = some fileMeta) :
    Corgi.readResults s.disk fileMeta.extents fileMeta.size.toNat =
      .ok (((flushPieces chunks).flatMap (pad 4096 0#8)).take chunks.flatten.length) := by
  obtain ⟨hholds, etag, rfl⟩ := h.of_stored hstored
  rw [extents_buildFileMeta, ← extents_of_holds hholds]
  refine readResults_of_le s.disk (fun r hr => ?_) ?_
  · exact (aligned_flattenBlockResults (proper_of_holds hholds) r hr).2.1
  · rw [← length_extents s.disk, extents_of_holds hholds, ← flatten_flushPieces chunks]
    exact length_flatten_le _

/-- Reading back the record of an upload that was stored gives its content exactly when
nothing but zeros follows a flushed piece that is not made of whole blocks. -/
theorem recovered_iff {device : BlockDevice} {disk : Disk} {db : DB}
    {crc : BitVec 32 → Bytes → BitVec 32} {pb : Protobuf} {json : JSONDeleteMark}
    (hinv : device.allocator.Inv) (hlt : device.allocator.total < 2 ^ 63)
    {events : List SessionEvent} {s : Session}
    (h : Run (Session.Step crc pb json) (Session.new device disk db) events s)
    {req : PutInitRequest} {chunks : List Bytes}
    (hcalls : Session.calls events = (.start req :: chunks.map .put) ++ [.complete])
    {fileMeta : FileMeta} (hstored : s.stored = some fileMeta) :
    readResults s.disk fileMeta.extents fileMeta.size.toNat = .ok chunks.flatten ↔
      ∀ pre piece post, flushPieces chunks = pre ++ piece :: post → ¬4096 ∣ piece.length →
        ∀ b ∈ post.flatten, b = 0#8 := by
  have hclosing := (Session.history_of_run hinv hlt h).closing req chunks hcalls
  rw [hclosing.readResults hstored, ← flatten_flushPieces chunks, Except.ok.injEq]
  exact take_flatMap_pad (by decide) (flushPieces chunks)

theorem flushPieces_two {chunk rest : Bytes} (h : 1048576 ≤ chunk.length) (hne : rest ≠ [])
    (hrest : rest.length < 1048576) : flushPieces [chunk, rest] = [chunk, rest] := by
  have h1 : cutChunk ([], []) chunk = ([chunk], []) := by
    rw [cutChunk, if_pos (by simpa using h)]
    rfl
  have h2 : cutChunk ([chunk], []) rest = ([chunk], rest) := by
    rw [cutChunk, if_neg (by simpa using hrest)]
    rfl
  rw [flushPieces, cutChunks, List.foldl_cons, h1, List.foldl_cons, h2, List.foldl_nil,
    if_neg hne]
  rfl

/-- An upload of a mebibyte and of a block is read back. -/
theorem recovered_two_pieces : ∃ events s fileMeta,
    Run (Session.Step crc32Update protobuf fun _ => none)
      (Session.new (freeDevice 257) (fun _ => 0#8) emptyDB) events s ∧
    Session.calls events = (.start requestA ::
      [List.replicate 1048576 1#8, List.replicate 4096 2#8].map .put) ++ [.complete] ∧
    s.stored = some fileMeta ∧ readResults s.disk fileMeta.extents fileMeta.size.toNat =
      .ok [List.replicate 1048576 1#8, List.replicate 4096 2#8].flatten := by
  have hall : ∀ chunk rest : Bytes, chunk.length = 1048576 → rest.length = 4096 →
      ∃ events s fileMeta, Run (Session.Step crc32Update protobuf fun _ => none)
        (Session.new (freeDevice 257) (fun _ => 0#8) emptyDB) events s ∧
      Session.calls events = (.start requestA :: [chunk, rest].map .put) ++ [.complete] ∧
      s.stored = some fileMeta ∧ readResults s.disk fileMeta.extents fileMeta.size.toNat =
        .ok [chunk, rest].flatten := by
    intro chunk rest hchunk hrest
    have hne : rest ≠ [] := List.ne_nil_of_length_pos (by omega)
    have hpieces := @flushPieces_two chunk rest (by omega) hne (by omega)
    obtain ⟨events, s, t, fileMeta, hrun, hcalls, -, hstep, hstored, -⟩ :=
      @Session.exists_upload_freeDevice false 257 (by decide) (by decide) [chunk, rest]
        (by simp [hne]) (by simp [hchunk, hrest])
        (by rw [hpieces]; simp [paddedBlocks, length_pad_div, hchunk, hrest])
    rw [← Session.calls_commit events [] [] none] at hcalls
    have hpos : 0 < 257 := by decide
    refine ⟨_, t, fileMeta, hrun.snoc hstep, hcalls, hstored, (recovered_iff (inv_freeDevice hpos)
      ((total_freeDevice hpos).trans_lt (by decide)) (hrun.snoc hstep) hcalls hstored).mpr ?_⟩
    -- Both pieces are made of whole blocks.
    intro pre piece post heq hpiece
    rw [hpieces] at heq
    have hmem : piece ∈ [chunk, rest] := heq ▸ List.mem_append_right _ List.mem_cons_self
    simp only [List.mem_cons, List.not_mem_nil, or_false] at hmem
    rcases hmem with rfl | rfl <;> omega
  exact hall _ _ List.length_replicate List.length_replicate

/-- An upload of a mebibyte and one byte, and then of one more byte, is not read back : the
last byte ends up behind the padding. -/
theorem two_pieces_not_recovered : ∃ events s fileMeta,
    Run (Session.Step crc32Update protobuf fun _ => none)
      (Session.new (freeDevice 258) (fun _ => 0#8) emptyDB) events s ∧
    Session.calls events =
      (.start requestA :: [List.replicate 1048577 1#8, [1#8]].map .put) ++ [.complete] ∧
    s.stored = some fileMeta ∧ readResults s.disk fileMeta.extents fileMeta.size.toNat ≠
      .ok [List.replicate 1048577 1#8, [1#8]].flatten := by
  have hall : ∀ chunk : Bytes, chunk.length = 1048577 → ∃ events s fileMeta,
      Run (Session.Step crc32Update protobuf fun _ => none)
        (Session.new (freeDevice 258) (fun _ => 0#8) emptyDB) events s ∧
      Session.calls events = (.start requestA :: [chunk, [1#8]].map .put) ++ [.complete] ∧
      s.stored = some fileMeta ∧ readResults s.disk fileMeta.extents fileMeta.size.toNat ≠
        .ok [chunk, [1#8]].flatten := by
    intro chunk hlen
    have hpieces := @flushPieces_two chunk [1#8] (by omega) (by decide) (by decide)
    obtain ⟨events, s, t, fileMeta, hrun, hcalls, -, hstep, hstored, -⟩ :=
      @Session.exists_upload_freeDevice false 258 (by decide) (by decide) [chunk, [1#8]]
        (by simp) (by simp [hlen]) (by rw [hpieces]; simp [paddedBlocks, length_pad_div, hlen])
    rw [← Session.calls_commit events [] [] none] at hcalls
    refine ⟨_, t, fileMeta, hrun.snoc hstep, hcalls, hstored, fun hread => ?_⟩
    have hpos : 0 < 258 := by decide
    have hclosing := (Session.history_of_run (inv_freeDevice hpos)
      ((total_freeDevice hpos).trans_lt (by decide)) (hrun.snoc hstep)).closing _ _ hcalls
    rw [hclosing.readResults hstored, ← flatten_flushPieces, Except.ok.injEq, hpieces,
      take_flatMap_pad (by decide)] at hread
    exact absurd (hread [] chunk [[1#8]] rfl (by omega) 1#8 (by simp)) (by decide)
  exact hall _ List.length_replicate

/-! ## The record -/

namespace Session

variable {s : Session} {json : JSONDeleteMark}

/-- A commit that stores the record leaves every lookup as it was. -/
theorem stored_commit {before after : List Commit} {outcome : Option BatchError} {c : Commit}
    (hnone : s.stored = none)
    (haligned : ∀ c' ∈ before ++ c :: after, ∀ r ∈ c'.results, r.Aligned)
    {fileMeta : FileMeta}
    (hstored : (s.commit json before after outcome c).stored = some fileMeta) :
    fileMeta = c.fileMeta ∧ c.found s.db = false ∧ ∀ metaKey,
      (s.commit json before after outcome c).db (fileMetaKey metaKey) =
        s.db (fileMetaKey metaKey) := by
  have hflush := flush_commits json s.db haligned outcome
  rw [Session.commit] at hstored ⊢
  generalize Corgi.flush json s.db [] _ outcome = o at hflush hstored
  rcases hflush with ⟨-, -, -, e, hans⟩ | ⟨-, hafter, hout, hans⟩
  · have hjoin : (o.answers[before.length]?).join = some e := by
      rw [hans]
      simp
    simp only [hjoin] at hstored
    exact absurd (hnone.symm.trans hstored) (by simp)
  · have hjoin : (o.answers[before.length]?).join = none := by
      rw [hans]
      simp
    have hfound : o.outputs[before.length]? = some (some (c.found s.db)) := by
      rw [hout]
      simp
    simp only [hjoin, hfound, Option.some.injEq] at hstored ⊢
    split_ifs at hstored with hc
    · exact absurd (hnone.symm.trans hstored) (by simp)
    · refine ⟨(Option.some.inj hstored).symm, Bool.eq_false_iff.mpr hc, fun metaKey => ?_⟩
      rw [if_neg hc]
      exact (congrFun hafter _).trans (applyAll_ops_fileMetaKey _ _ _)

end Session

theorem queryFileMeta_congr {db db' : DB} {metaKey : Bytes}
    (h : db' (fileMetaKey metaKey) = db (fileMetaKey metaKey)) :
    queryFileMeta db' metaKey = queryFileMeta db metaKey := by
  rw [queryFileMeta, queryFileMeta, DB.get_congr h]

theorem queryFileMeta_of_nil {db : DB} {metaKey : Bytes} (h : db (fileMetaKey metaKey) = []) :
    queryFileMeta db metaKey = .error (.notFound metaKey) := by
  rw [queryFileMeta, DB.get_of_nil h]
  rfl

/-- A record that a lookup returns is found by a commit. -/
theorem found_of_queryFileMeta {db : DB} {c : Commit} {fileMeta : FileMeta}
    (h : queryFileMeta db c.fileMeta.metaKey = .ok fileMeta) : c.found db = !c.noGet := by
  rw [queryFileMeta] at h
  rw [Commit.found]
  cases hget : db.get (fileMetaKey c.fileMeta.metaKey) with
  | error e =>
    rw [hget] at h
    exact absurd h (by simp)
  | ok v =>
    cases v with
    | some v => exact Bool.and_true _
    | none =>
      rw [hget] at h
      exact absurd h (by simp)

/-- After an upload was stored, a lookup returns its record exactly when it did before and
the upload did not look. -/
theorem queryFileMeta_stored_iff {device : BlockDevice} {disk : Disk} {db : DB}
    {crc : BitVec 32 → Bytes → BitVec 32} {pb : Protobuf} {json : JSONDeleteMark}
    (hinv : device.allocator.Inv) (hlt : device.allocator.total < 2 ^ 63)
    {events : List SessionEvent} {s t : Session}
    (h : Run (Session.Step crc pb json) (Session.new device disk db) events s)
    {req : PutInitRequest} {chunks : List Bytes}
    (hcalls : Session.calls events = (.start req :: chunks.map .put) ++ [.complete])
    {before after : List Commit} {outcome : Option BatchError}
    (hgroup : ∀ c ∈ before ++ after, ∀ r ∈ c.results, r.Aligned)
    (hstep : Session.Step crc pb json s (.commit before after outcome) t)
    {fileMeta : FileMeta} (hstored : t.stored = some fileMeta) :
    queryFileMeta t.db req.metaKey = .ok fileMeta ↔
      req.noGet = true ∧ queryFileMeta s.db req.metaKey = .ok fileMeta := by
  obtain ⟨c, hphase, rfl⟩ := hstep
  have hclosing := (Session.history_of_run hinv hlt h).closing req chunks hcalls
  obtain ⟨-, hnone, -, -, hnoGet⟩ := hclosing.committing hphase
  obtain ⟨haligned, hkey⟩ := hclosing.aligned hphase
  have hgroup' : ∀ c' ∈ before ++ c :: after, ∀ r ∈ c'.results, r.Aligned := by
    intro c' hc'
    rcases List.mem_append.mp hc' with hc' | hc'
    · exact hgroup c' (List.mem_append_left _ hc')
    · rcases List.mem_cons.mp hc' with rfl | hc'
      · exact haligned
      · exact hgroup c' (List.mem_append_right _ hc')
  obtain ⟨-, hfound, hdb⟩ := Session.stored_commit hnone hgroup' hstored
  rw [queryFileMeta_congr (hdb req.metaKey)]
  refine ⟨fun hquery => ⟨?_, hquery⟩, And.right⟩
  have hlooked := found_of_queryFileMeta (hkey ▸ hquery)
  rw [hfound, hnoGet] at hlooked
  simpa using hlooked

/-- The record of one byte has room in the layout that a lookup reads. -/
theorem Session.Closing.encodable {s : Session} {noGet : Bool}
    (h : s.Closing { requestA with noGet } [[1#8]]) {c : Commit} (hphase : s.phase = .commit c)
    {data : Bytes} (hmarshal : protobuf.marshal c.fileMeta = .ok data) : c.fileMeta.Encodable := by
  obtain ⟨-, hsize, hnumbers⟩ := (protobuf_marshal_iff.mp hmarshal).1
  obtain ⟨hholds, -, ⟨v, hrec⟩, -, -⟩ := h.committing hphase
  rw [flushPieces_one_byte] at hholds
  obtain ⟨info, infos, hinfo, hnil, hlist⟩ := List.forall₂_cons_right_iff.mp hholds
  obtain rfl := List.forall₂_nil_right_iff.mp hnil
  -- One block is held, so there is one extent.
  have hlen : (blocksOf info.token).length = 1 := by
    have := hinfo.length
    rw [pad, List.length_append, List.length_replicate, List.length_singleton] at this
    omega
  obtain ⟨b, hb⟩ := List.length_eq_one_iff.mp hlen
  have hresults : (flattenBlockResults s.handler.blockInfoList).length = 1 := by
    rw [hlist]
    change (info.results ++ []).length = _
    rw [List.append_nil, hinfo.proper.results_eq, eq_of_blocksOf hinfo.proper.pos hb]
    rfl
  have hnames : c.fileMeta.metaKey = metaKeyA ∧ c.fileMeta.fileName = fileNameA ∧
      c.fileMeta.lun = [] ∧ c.fileMeta.etag.length ≤ 8 ∧ c.fileMeta.offset.length = 1 ∧
      c.fileMeta.len.length = 1 := by
    rw [hrec]
    refine ⟨rfl, rfl, rfl, ?_, (List.length_map _).trans hresults,
      (List.length_map _).trans hresults⟩
    change (if v ≠ 0#32 then hex8 v else []).length ≤ 8
    split_ifs <;> simp [hex8]
  obtain ⟨hmetaKey, hfileName, hlun, hetag, hoffset, hlen⟩ := hnames
  refine ⟨?_, ?_, by simp [hlun], by omega, hsize, by omega, by omega, ?_, ?_⟩
  · rw [hmetaKey]
    decide +kernel
  · rw [hfileName]
    decide +kernel
  · exact (hnumbers _ (by simp)).2
  · exact (hnumbers _ (by simp)).2

/-- A record that was written under the key of the lookup is returned. -/
theorem queryFileMeta_update (db : DB) (metaKey : Bytes) {fileMeta : FileMeta}
    (h : fileMeta.Encodable) :
    queryFileMeta (Function.update db (fileMetaKey metaKey) [encodeFields fileMeta]) metaKey =
      .ok fileMeta := by
  have hdecode : decodeFileMetaBinary (encodeFields fileMeta) = .ok fileMeta := by
    have hread : readFileMeta.run (encodeFields fileMeta ++ []) = .ok (fileMeta, []) :=
      decodes_readFileMeta.decode h trivial
    rw [List.append_nil] at hread
    exact decodeFileMetaBinary_eq_ok.mpr ⟨[], hread⟩
  have hne : encodeFields fileMeta ≠ [] := writeString_append_ne_nil _ _
  rw [queryFileMeta, DB.get_of_singleton (Function.update_self _ _ _)]
  simp only [Option.getD_some, if_neg hne, hdecode]

/-- When others have written the same record under the key of the lookup, and the upload does not
look, it is returned. -/
theorem queryFileMeta_stored_iff_noGet : ∃ events s t fileMeta,
    Run (Session.Step crc32Update protobuf fun _ => none)
      (Session.new (freeDevice 1) (fun _ => 0#8) emptyDB) events s ∧
    Session.calls events =
      (.start { requestA with noGet := true } :: [[1#8]].map .put) ++ [.complete] ∧
    Session.Step crc32Update protobuf (fun _ => none) s (.commit [] [] none) t ∧
    t.stored = some fileMeta ∧ queryFileMeta t.db requestA.metaKey = .ok fileMeta := by
  obtain ⟨events, s, t, fileMeta, hrun, hcalls, -, ⟨c, hphase, rfl⟩, hstored, data, hdata⟩ :=
    Session.exists_upload_one_byte true
  have htotal := (total_freeDevice one_pos).trans_lt (show 1 < 2 ^ 63 by decide)
  have hclosing := (Session.history_of_run (inv_freeDevice one_pos) htotal hrun).closing _ _ hcalls
  obtain ⟨-, hnone, -, -, hnoGet⟩ := hclosing.committing hphase
  obtain ⟨haligned, hkey⟩ := hclosing.aligned hphase
  obtain ⟨rfl, -⟩ := Session.stored_commit hnone (by simpa using haligned) hstored
  obtain ⟨db, hquery⟩ : ∃ db, queryFileMeta db requestA.metaKey = .ok c.fileMeta :=
    ⟨_, queryFileMeta_update s.db requestA.metaKey (hclosing.encodable hphase hdata)⟩
  have hothers : Session.Step crc32Update protobuf (fun _ => none) s
      (.others s.device s.disk db) { s with db } :=
    ⟨⟨hclosing.sound.inv, rfl, fun b hb => (hclosing.sound.allocated b hb).2, fun _ _ => rfl⟩, rfl⟩
  rw [← Session.calls_others events s.device s.disk db] at hcalls
  -- The upload does not look.
  have hlookup : ∀ db, ¬c.Unreadable db ∧ c.found db = false := by
    intro db
    rw [Commit.Unreadable, Commit.found, hnoGet]
    exact ⟨fun h => Bool.false_ne_true h.1.symm, rfl⟩
  have hcommit : Session.Step crc32Update protobuf (fun _ => none) { s with db }
      (.commit [] [] none) (Session.commit (fun _ => none) { s with db } [] [] none c) :=
    ⟨c, hphase, rfl⟩
  have hstored' : (Session.commit (fun _ => none) { s with db } [] [] none c).stored =
      some c.fileMeta := Session.commit_alone haligned (hlookup db)
  exact ⟨_, _, _, c.fileMeta, hrun.snoc hothers, hcalls, hcommit, hstored',
    (queryFileMeta_stored_iff (inv_freeDevice one_pos) htotal (hrun.snoc hothers) hcalls (by simp)
      hcommit hstored').mpr ⟨rfl, hquery⟩⟩

/-- On an empty database the record of an upload that was stored is not found. -/
theorem stored_not_found : ∃ events s t fileMeta,
    Run (Session.Step crc32Update protobuf fun _ => none)
      (Session.new (freeDevice 1) (fun _ => 0#8) emptyDB) events s ∧
    Session.calls events = (.start requestA :: [[1#8]].map .put) ++ [.complete] ∧
    Session.Step crc32Update protobuf (fun _ => none) s (.commit [] [] none) t ∧
    t.stored = some fileMeta ∧ fileMeta.metaKey = requestA.metaKey ∧
    queryFileMeta t.db requestA.metaKey = .error (.notFound requestA.metaKey) := by
  obtain ⟨events, s, t, fileMeta, hrun, hcalls, hdb, hstep, hstored, -⟩ :=
    Session.exists_upload_one_byte false
  refine ⟨events, s, t, fileMeta, hrun, hcalls, hstep, hstored, ?_⟩
  obtain ⟨c, hphase, rfl⟩ := hstep
  have hclosing := (Session.history_of_run (inv_freeDevice one_pos)
    ((total_freeDevice one_pos).trans_lt (by decide)) hrun).closing _ _ hcalls
  obtain ⟨haligned, hkey⟩ := hclosing.aligned hphase
  have hgroup : ∀ c' ∈ [] ++ c :: [], ∀ r ∈ c'.results, r.Aligned := by
    simpa using haligned
  obtain ⟨rfl, -, hlookup⟩ :=
    Session.stored_commit (hclosing.committing hphase).2.1 hgroup hstored
  exact ⟨hkey, queryFileMeta_of_nil (by rw [hlookup, hdb]; rfl)⟩

end Corgi
