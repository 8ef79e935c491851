import Corgi.Server
import Corgi.Responses

/-!
# The service

Any number of request channels and devices, in any interleaving. A channel finds its device by
the first payload, and from then on its handler allocates there.

`Service.response_protocol` : what a channel answers to the payloads it takes.

`Service.leaks_nothing_iff` : a channel that has returned without SUCCESS has given back what its
handler obtained, unless the payloads came to an end, or there was one that is not expected,
after a flush.
-/

set_option linter.unusedSectionVars false

namespace Corgi

/-! ## The model -/

/-- The devices with their disks and databases, and the channels. -/
structure Service (δ : Type) where
  device : δ → BlockDevice
  disk : δ → Disk
  db : δ → DB
  channels : List (RequestChannel δ)

/-- The steps of the channels, and what others do meanwhile. -/
inductive ServiceEvent (δ : Type)
  /-- `RequestChannel` is called. -/
  | accept (server : ErasureServer δ)
  /-- A step of channel `k`. -/
  | channel (k : ℕ) (e : ChannelEvent)
  /-- Others write to a disk and its database. -/
  | others (i : δ) (disk : Disk) (db : DB)

variable {δ : Type} [DecidableEq δ]

/-- The upload of a channel to the device `i`. -/
def RequestChannel.uploadOn (i : δ) (c : RequestChannel δ) : Option Upload :=
  c.h.bind fun h => if h.1 = i then some h.2 else none

namespace Service

variable (crc : BitVec 32 → Bytes → BitVec 32) (pb : Protobuf) (json : JSONDeleteMark)
  (unmarshal : Bytes → Except String PutInitRequest)

/-- The device `i` with the uploads to it. -/
def server (s : Service δ) (i : δ) : Server :=
  ⟨s.device i, s.disk i, s.db i, s.channels.filterMap (RequestChannel.uploadOn i)⟩

/-- The devices are the same. -/
def SameDevice (s t : Service δ) (i : δ) : Prop :=
  t.device i = s.device i ∧ t.disk i = s.disk i ∧ t.db i = s.db i

/-- What an event of the channel `c` does to the devices. -/
def Effect (s : Service δ) (c : RequestChannel δ) (t : Service δ) : ChannelEvent → Prop
  | .upload e => ∃ i u, c.h = some (i, u) ∧
    (s.server i).Effect json u e (t.device i) (t.disk i) (t.db i) ∧ ∀ j ≠ i, s.SameDevice t j
  | _ => ∀ i, s.SameDevice t i

/-- One step. -/
def Step (s : Service δ) : ServiceEvent δ → Service δ → Prop
  | .accept server, t => t = { s with channels := s.channels ++ [.new server] }
  | .channel k e, t => ∃ before c after c', s.channels = before ++ c :: after ∧
    before.length = k ∧ RequestChannel.Step crc pb unmarshal c e c' ∧ s.Effect json c t e ∧
    t.channels = before ++ c' :: after
  | .others i disk db, t =>
    t = { s with disk := Function.update s.disk i disk, db := Function.update s.db i db }

/-- A service without channels. -/
def idle (device : δ → BlockDevice) (disk : δ → Disk) (db : δ → DB) : Service δ :=
  ⟨device, disk, db, []⟩

/-- What holds in every state, `base` being what was allocated before. -/
structure Inv (base : δ → Multiset ℕ) (s : Service δ) : Prop where
  owns : ∀ i, (s.device i).allocator.Owns (base i + (s.server i).heldBlocks)
  lt : ∀ i, (s.device i).allocator.total < 2 ^ 63
  phase : ∀ c ∈ s.channels, c.Phase unmarshal

end Service

/-! ## What channels hold -/

namespace RequestChannel

variable {crc : BitVec 32 → Bytes → BitVec 32} {pb : Protobuf}
  {unmarshal : Bytes → Except String PutInitRequest} {c c' : RequestChannel δ}

/-- What the handler of a channel holds on the device `i`. -/
def tokensOn (c : RequestChannel δ) (i : δ) : List (List Result) :=
  ((c.uploadOn i).map Upload.tokens).getD []

theorem uploadOn_of_eq {i j : δ} {u : Upload} (h : c.h = some (i, u)) :
    c.uploadOn j = if i = j then some u else none := by
  rw [uploadOn, h]
  rfl

theorem tokensOn_eq {i j : δ} {u : Upload} (h : c.h = some (i, u)) :
    c.tokensOn j = if i = j then u.tokens else [] := by
  rw [tokensOn, uploadOn_of_eq h]
  split_ifs <;> rfl

theorem tokensOn_of_none {i : δ} (h : c.h = none) : c.tokensOn i = [] := by
  rw [tokensOn, uploadOn, h]
  rfl

/-- The handlers of channels are sound. -/
theorem Phase.sound (h : c.Phase unmarshal) {device : δ} {u : Upload}
    (hh : c.h = some (device, u)) : u.Sound := by
  have hof : ∀ {device' v datas last}, c.Talks device' v datas last → u.Sound := by
    intro device' v datas last htalks
    obtain ⟨-, rfl⟩ := Prod.mk.inj (Option.some.inj (hh.symm.trans htalks.h))
    exact htalks.sound
  cases h with
  | fresh h => cases hh.symm.trans (congrArg RequestChannel.h h)
  | unused h => cases hh.symm.trans (congrArg RequestChannel.h h)
  | refused p e _ _ h => cases hh.symm.trans (congrArg RequestChannel.h h)
  | ready _ _ _ _ _ htalks => exact hof htalks
  | waiting _ _ _ _ _ _ _ htalks => exact hof htalks
  | answered _ _ _ _ _ _ _ _ htalks => exact hof htalks
  | abandoned _ _ _ _ _ _ htalks => exact hof htalks

/-- A call moves no token. -/
theorem tokensOn_call {device : δ} {u : Upload} {datas : List Bytes}
    (h : c.Talks device u datas []) (hidle : u.task = .idle) {call : UploadCall}
    (hcall : call.isAsked = true) (next : AfterForward) (i : δ) :
    ((c.call crc pb call next).tokensOn i).Perm (c.tokensOn i) := by
  obtain ⟨-, -, hperm⟩ := (@Talks.step_call crc pb _ _ _ _ _ h hidle _ hcall).tokens h.sound.stage
  have hcalled : (c.call crc pb call next).h = some (device, (u.called call).call crc pb call) := by
    rw [RequestChannel.call, h.h]
    rfl
  rw [tokensOn_eq hcalled, tokensOn_eq h.h]
  split_ifs
  · change (u.tokens ++ []).Perm _ at hperm
    rw [List.append_nil] at hperm
    exact hperm.symm
  · exact List.Perm.refl _

theorem tokensOn_congr (h : c'.h = c.h) (i : δ) : (c'.tokensOn i).Perm (c.tokensOn i) := by
  rw [tokensOn, tokensOn, uploadOn, uploadOn, h]

/-- A step of a channel that is none of its handler moves no token. -/
theorem Step.tokensOn_perm (h : c.Phase unmarshal) {e : ChannelEvent}
    (hstep : Step crc pb unmarshal c e c') (he : ∀ event, e ≠ .upload event) (i : δ) :
    (c'.tokensOn i).Perm (c.tokensOn i) := by
  cases e with
  | payload p =>
    obtain ⟨hstage, rfl⟩ := hstep
    rcases h.of_taking hstage with h | ⟨device, u, datas, hready, -, htalks, hquiet, -⟩
    · have heq : c.receive crc pb unmarshal p =
          receiveFirst crc pb unmarshal { new c.server with processed := [p] } p := by
        rw [h]
        rfl
      rw [heq, tokensOn_of_none (congrArg RequestChannel.h h)]
      rcases @receiveFirst_cases crc pb unmarshal δ { new c.server with processed := [p] } p with
        ⟨device, req, -, heq⟩ | ⟨device, req, body, -, heq⟩ | ⟨-, -, e, heq⟩ <;> rw [heq]
      · rw [tokensOn_eq rfl]
        split_ifs <;> exact List.Perm.refl _
      · refine (tokensOn_call (talks_start _ device req) rfl rfl _ i).trans ?_
        rw [tokensOn_eq rfl]
        split_ifs <;> exact List.Perm.refl _
      · rw [tokensOn_of_none rfl]
    · have htalks' : Talks { c with processed := c.processed ++ [p] } device u datas [] :=
        htalks.congr rfl
      rw [receive_of_ready hready]
      rcases @receiveNext_cases crc pb δ { c with processed := c.processed ++ [p] }
        (congrArg Option.isNone htalks.h) p with ⟨call, -, hcall, heq⟩ | ⟨-, heq⟩ <;> rw [heq]
      · exact tokensOn_call htalks' hquiet.idle hcall _ i
      · exact tokensOn_congr rfl i
  | close =>
    obtain ⟨-, rfl⟩ := hstep
    exact tokensOn_congr rfl i
  | upload e => exact absurd rfl (he e)
  | forward =>
    obtain ⟨device, u, next, r, hh, hstage, hr, rfl⟩ := hstep
    obtain ⟨device', v, datas, last, -, htalks, hexpects, htaken, hresponses, -⟩ :=
      h.of_waiting hstage
    obtain ⟨rfl, rfl⟩ := Prod.mk.inj (Option.some.inj (hh.symm.trans htalks.h))
    obtain ⟨hidle, -⟩ := htalks.responses_eq htaken hresponses hr
    by_cases hnext : next = .complete ∧ ∀ e, r ≠ .error e
    · obtain ⟨rfl, hr⟩ := hnext
      obtain ⟨rfl, -⟩ := hexpects
      have htalks' : Talks { c with taken := c.taken + 1, out := c.out ++ [r.payload] } device u
          datas [] := htalks.congr rfl
      cases r with
      | error e => exact absurd rfl (hr e)
      | _ => exact tokensOn_call htalks' hidle rfl _ i
    · refine tokensOn_congr ?_ i
      cases r <;> cases next <;> first
        | rfl
        | exact absurd ⟨rfl, nofun⟩ hnext

end RequestChannel

namespace Service

variable {crc : BitVec 32 → Bytes → BitVec 32} {pb : Protobuf} {json : JSONDeleteMark}
  {unmarshal : Bytes → Except String PutInitRequest} {s t : Service δ} {base : δ → Multiset ℕ}

/-- The blocks held on a device, channel by channel. -/
theorem heldBlocks_server (s : Service δ) (i : δ) : (s.server i).heldBlocks =
    s.channels.flatMap fun c => Upload.blocksOfTokens (c.tokensOn i) := by
  have hheld : ∀ channels : List (RequestChannel δ),
      ((channels.filterMap (RequestChannel.uploadOn i)).flatMap fun u =>
        Upload.blocksOfTokens u.tokens) =
      channels.flatMap fun c => Upload.blocksOfTokens (c.tokensOn i) := by
    intro channels
    induction channels with
    | nil => rfl
    | cons c channels ih =>
      rw [List.flatMap_cons, ← ih, RequestChannel.tokensOn]
      cases hc : c.uploadOn i with
      | none =>
        rw [List.filterMap_cons_none hc]
        rfl
      | some u =>
        rw [List.filterMap_cons_some hc]
        rfl
  exact hheld s.channels

theorem Inv.server (h : s.Inv unmarshal base) (i : δ) : (s.server i).Inv (base i) := by
  refine ⟨h.owns i, h.lt i, fun u hu => ?_⟩
  obtain ⟨c, hc, hu⟩ := List.mem_filterMap.mp hu
  obtain ⟨⟨j, v⟩, hh, hv⟩ := Option.bind_eq_some_iff.mp hu
  dsimp only at hv
  split_ifs at hv
  obtain rfl := Option.some.inj hv
  exact (h.phase c hc).sound hh

/-- The allocator of a device that is the same keeps what it holds. -/
theorem Inv.owns_of_same (h : s.Inv unmarshal base) {i : δ} (hsame : s.SameDevice t i)
    (hperm : (t.server i).heldBlocks.Perm (s.server i).heldBlocks) :
    (t.device i).allocator.Owns (base i + (t.server i).heldBlocks) ∧
      (t.device i).allocator.total < 2 ^ 63 := by
  rw [hsame.1, Multiset.coe_eq_coe.mpr hperm]
  exact ⟨h.owns i, h.lt i⟩

/-- One channel of a service moves from `c` to `c'`. -/
theorem heldBlocks_perm {before after : List (RequestChannel δ)} {c c' : RequestChannel δ}
    (hs : s.channels = before ++ c :: after) (ht : t.channels = before ++ c' :: after) {i : δ}
    (hperm : (c'.tokensOn i).Perm (c.tokensOn i)) :
    (t.server i).heldBlocks.Perm (s.server i).heldBlocks := by
  rw [heldBlocks_server, heldBlocks_server, hs, ht, List.flatMap_append, List.flatMap_append,
    List.flatMap_cons, List.flatMap_cons]
  exact ((Server.blocksOfTokens_perm hperm).append_right _).append_left _

/-- What the device answers is proper. -/
theorem proper_of_effect {s : Server} {m : Multiset ℕ} (howns : s.device.allocator.Owns m)
    {u : Upload} {e : UploadEvent} {device : BlockDevice} {disk : Disk} {db : DB}
    (h : s.Effect json u e device disk db) : e.Proper := by
  cases e with
  | alloc outcome =>
    obtain ⟨buf, respond, -, halloc, -⟩ := h
    rcases s.device.alloc_spec howns buf.length with
      ⟨d, results, token, hres, hproper, -⟩ | ⟨d, e, hres, -⟩
    · obtain ⟨-, rfl⟩ := Prod.mk.inj (halloc.symm.trans hres)
      exact hproper
    · obtain ⟨-, rfl⟩ := Prod.mk.inj (halloc.symm.trans hres)
      trivial
  | _ => trivial

theorem uploads_server {before after : List (RequestChannel δ)} {c : RequestChannel δ}
    (hs : s.channels = before ++ c :: after) {i : δ} {u : Upload} (hh : c.h = some (i, u)) :
    (s.server i).uploads = before.filterMap (RequestChannel.uploadOn i) ++
      u :: after.filterMap (RequestChannel.uploadOn i) := by
  rw [Service.server, hs, List.filterMap_append, List.filterMap_cons_some]
  rw [RequestChannel.uploadOn_of_eq hh, if_pos rfl]

/-- Every step keeps the invariant. -/
theorem Inv.step (h : s.Inv unmarshal base) {e : ServiceEvent δ}
    (hstep : Step crc pb json unmarshal s e t) : t.Inv unmarshal base := by
  cases e with
  | accept server =>
    obtain rfl := hstep
    have hheld : ∀ i, (Service.server { s with channels := s.channels ++ [.new server] } i) =
        s.server i := by
      intro i
      rw [Service.server, List.filterMap_append]
      exact congrArg _ (List.append_nil _)
    refine ⟨fun i => ?_, h.lt, fun c hc => ?_⟩
    · rw [hheld]
      exact h.owns i
    · rcases List.mem_append.mp hc with hc | hc
      · exact h.phase c hc
      · rw [List.mem_singleton.mp hc]
        exact .fresh rfl
  | others i disk db =>
    obtain rfl := hstep
    exact ⟨h.owns, h.lt, h.phase⟩
  | channel k e =>
    obtain ⟨before, c, after, c', hs, -, hstep, heffect, ht⟩ := hstep
    have hc : c.Phase unmarshal := h.phase c (by rw [hs]; simp)
    have hphase : c'.Phase unmarshal → ∀ c ∈ t.channels, c.Phase unmarshal := by
      intro hc' d hd
      rw [ht] at hd
      rcases List.mem_append.mp hd with hd | hd
      · exact h.phase d (by rw [hs]; exact List.mem_append_left _ hd)
      · rcases List.mem_cons.mp hd with rfl | hd
        · exact hc'
        · exact h.phase d (by rw [hs]; exact List.mem_append_right _ (List.mem_cons_of_mem _ hd))
    by_cases hupload : ∃ event, e = .upload event
    · obtain ⟨e, rfl⟩ := hupload
      obtain ⟨i, u, hh, heffect, hsame⟩ := heffect
      have hproper := proper_of_effect (h.owns i) heffect
      have hc' := hc.step (fun event he => by cases he; exact hproper) hstep
      obtain ⟨-, i', v, u', hh', hstep, rfl⟩ := hstep
      obtain ⟨rfl, rfl⟩ := Prod.mk.inj (Option.some.inj (hh.symm.trans hh'))
      have hown : ∀ j, (t.device j).allocator.Owns (base j + (t.server j).heldBlocks) ∧
          (t.device j).allocator.total < 2 ^ 63 := by
        intro j
        by_cases hj : i = j
        · subst hj
          have hinv := (h.server i).upload (t := t.server i) (uploads_server hs hh)
            hstep heffect (uploads_server ht rfl)
          exact ⟨hinv.owns, hinv.lt⟩
        · refine h.owns_of_same (hsame j (Ne.symm hj)) (heldBlocks_perm hs ht ?_)
          rw [RequestChannel.tokensOn_eq rfl, RequestChannel.tokensOn_eq hh, if_neg hj, if_neg hj]
      exact ⟨fun j => (hown j).1, fun j => (hown j).2, hphase hc'⟩
    · have hne : ∀ event, e ≠ .upload event := fun event he => hupload ⟨event, he⟩
      have hsame : ∀ i, s.SameDevice t i := by
        cases e with
        | upload event => exact absurd rfl (hne event)
        | _ => exact heffect
      have hown := fun i => h.owns_of_same (hsame i)
        (heldBlocks_perm hs ht (hstep.tokensOn_perm hc hne i))
      exact ⟨fun i => (hown i).1, fun i => (hown i).2,
        hphase (hc.step (fun event he => absurd he (hne event)) hstep)⟩

theorem inv_idle {device : δ → BlockDevice} (disk : δ → Disk) (db : δ → DB)
    (howns : ∀ i, (device i).allocator.Owns (base i))
    (hlt : ∀ i, (device i).allocator.total < 2 ^ 63) :
    (idle device disk db).Inv unmarshal base := by
  refine ⟨fun i => ?_, hlt, fun c hc => absurd hc List.not_mem_nil⟩
  change (device i).allocator.Owns (base i + ((([] : List ℕ)) : Multiset ℕ))
  rw [Multiset.coe_nil, add_zero]
  exact howns i

/-- While a channel waits for a response, it or its handler can take a step. -/
theorem Inv.exists_step (h : s.Inv unmarshal base) {k : ℕ} {c : RequestChannel δ}
    (hk : s.channels[k]? = some c) {next : AfterForward} (hstage : c.stage = .waiting next) :
    ∃ e t, Step crc pb json unmarshal s (.channel k e) t := by
  obtain ⟨hlt, hget⟩ := List.getElem?_eq_some_iff.mp hk
  have hsplit : s.channels = s.channels.take k ++ c :: s.channels.drop (k + 1) := by
    rw [← hget, List.getElem_cons_drop, List.take_append_drop]
  have hlen : (s.channels.take k).length = k := List.length_take_of_le hlt.le
  have hc : c.Phase unmarshal := h.phase c (List.mem_of_getElem? hk)
  rcases @RequestChannel.Phase.forward_or_busy crc pb _ _ c hc next hstage with
    ⟨c', hstep⟩ | ⟨i, u, hh, hsound, hbusy⟩
  · exact ⟨.forward, { s with channels := s.channels.take k ++ c' :: s.channels.drop (k + 1) }, _,
      c, _, c', hsplit, hlen, hstep, fun i => ⟨rfl, rfl, rfl⟩, rfl⟩
  · obtain ⟨e, u', device, disk, db, hcall, hstep, heffect⟩ :=
      @Server.exists_effect crc pb json (s.server i) u hsound.stage hbusy
    refine ⟨.upload e, ⟨Function.update s.device i device, Function.update s.disk i disk,
      Function.update s.db i db, s.channels.take k ++
        { c with h := some (i, u') } :: s.channels.drop (k + 1)⟩, _, c, _, _, hsplit, hlen,
      ⟨hcall, i, u, u', hh, hstep, rfl⟩, ⟨i, u, hh, ?_, fun j hj => ?_⟩, rfl⟩
    · simpa using heffect
    · exact ⟨Function.update_of_ne hj _ _, Function.update_of_ne hj _ _,
        Function.update_of_ne hj _ _⟩

/-- Every step of the handler brings its answer nearer. -/
theorem Inv.work_lt (h : s.Inv unmarshal base) {k : ℕ} {c c' : RequestChannel δ}
    (hk : s.channels[k]? = some c) {e : UploadEvent}
    (hstep : Step crc pb json unmarshal s (.channel k (.upload e)) t)
    (hk' : t.channels[k]? = some c') : c'.work < c.work := by
  obtain ⟨before, d, after, d', hs, rfl, hstep, -, ht⟩ := hstep
  rw [hs, List.getElem?_append_right le_rfl, Nat.sub_self] at hk
  rw [ht, List.getElem?_append_right le_rfl, Nat.sub_self] at hk'
  obtain rfl : d = c := Option.some.inj hk
  obtain rfl : d' = c' := Option.some.inj hk'
  obtain ⟨hcall, i, u, u', hh, hstep, rfl⟩ := hstep
  have hd : d.Phase unmarshal := h.phase d (by rw [hs]; simp)
  rw [RequestChannel.work, RequestChannel.work, hh]
  exact hstep.work_lt (hd.sound hh).stage hcall

/-! ## The results -/

/-- In every run, the responses of a channel are CONTINUE any number of times and then at most
one SUCCESS or ERROR.

After a START for a device that exists, each later payload is answered once. Only a PUT_OBJECT or
PART_UPLOAD is answered with CONTINUE, and only a COMPLETE with SUCCESS, after CONTINUE for all
payloads before it. After a PUT_AND_COMPLETE for a device that exists, the responses are an ERROR,
or CONTINUE and then SUCCESS or ERROR. Any other first payload is answered with one ERROR.

A channel that waits for a response gets it after a bounded number of steps. -/
theorem response_protocol {device : δ → BlockDevice} {disk : δ → Disk} {db : δ → DB}
    (howns : ∀ i, (device i).allocator.Owns (base i))
    (hlt : ∀ i, (device i).allocator.total < 2 ^ 63) {events : List (ServiceEvent δ)}
    (hrun : Run (Step crc pb json unmarshal) (idle device disk db) events s) {k : ℕ}
    {c : RequestChannel δ} (hk : s.channels[k]? = some c) :
    (∃ n tail, c.types = List.replicate n .cont ++ tail ∧
      (tail = [] ∨ tail = [.success] ∨ tail = [.error])) ∧
    (c.processed = [] → c.types = []) ∧
    (∀ p ps, c.processed = p :: ps →
      (c.server.Starts unmarshal p →
        (c.types.length = ps.length ∨
          (∃ next, c.stage = .waiting next) ∧ c.types.length + 1 = ps.length) ∧
        ∀ (j : ℕ) q r, ps[j]? = some q → c.types[j]? = some r →
          (r = .cont → q.metaType ∈ [.putObject, .partUpload]) ∧
          (r = .success → q.metaType ∈ [.completePutObject, .completePartUpload] ∧
            ∀ i < j, c.types[i]? = some .cont)) ∧
      (∀ body, c.server.Puts unmarshal p body → ps = [] ∧ ((c.stage = .returned ∧
          (c.types = [.error] ∨ c.types = [.cont, .success] ∨ c.types = [.cont, .error])) ∨
        (∃ next, c.stage = .waiting next) ∧ (c.types = [] ∨ c.types = [.cont]))) ∧
      (¬c.server.Starts unmarshal p → (∀ body, ¬c.server.Puts unmarshal p body) →
        ps = [] ∧ c.stage = .returned ∧ c.types = [.error])) ∧
    ∀ next, c.stage = .waiting next →
      (∃ e t, Step crc pb json unmarshal s (.channel k e) t) ∧
      ∀ e t c', Step crc pb json unmarshal s (.channel k (.upload e)) t →
        t.channels[k]? = some c' → c'.work < c.work := by
  have hinv : s.Inv unmarshal base :=
    hrun.invariant (fun _ _ _ h hstep => Inv.step h hstep) (inv_idle disk db howns hlt)
  have hc : c.Phase unmarshal := hinv.phase c (List.mem_of_getElem? hk)
  exact ⟨hc.types_eq, hc.types_of_nil, fun p ps hprocessed => ⟨hc.types_of_starts hprocessed,
      fun body => hc.of_puts hprocessed, hc.of_refused hprocessed⟩,
    fun next hstage => ⟨hinv.exists_step hk hstage, fun e t c' => hinv.work_lt hk⟩⟩

/-- In every run, a channel that has returned without SUCCESS has given back each token that its
handler obtained once, if and only if it was not abandoned after a flush. The allocator of each
device holds what was allocated before and the tokens that the handlers still hold. -/
theorem leaks_nothing_iff {device : δ → BlockDevice} {disk : δ → Disk} {db : δ → DB}
    (howns : ∀ i, (device i).allocator.Owns (base i))
    (hlt : ∀ i, (device i).allocator.total < 2 ^ 63) {events : List (ServiceEvent δ)}
    (hrun : Run (Step crc pb json unmarshal) (idle device disk db) events s) :
    (∀ i, (s.device i).allocator.Owns (base i + (s.server i).heldBlocks)) ∧
    ∀ c ∈ s.channels, c.stage = .returned → .success ∉ c.types →
      ((∀ i u, c.h = some (i, u) → u.tokens = [] ∧ u.obtained.Perm u.released) ↔
        ¬c.Abandoned) := by
  have hinv : s.Inv unmarshal base :=
    hrun.invariant (fun _ _ _ h hstep => Inv.step h hstep) (inv_idle disk db howns hlt)
  exact ⟨hinv.owns, fun c hc => (hinv.phase c hc).returns_all_iff⟩

/-! ## Runs of one channel -/

/-- One device and one channel. -/
def one (d : BlockDevice) (disk : Disk) (db : DB) (c : RequestChannel Unit) : Service Unit :=
  ⟨fun _ => d, fun _ => disk, fun _ => db, [c]⟩

section

variable {d d' : BlockDevice} {disk disk' : Disk} {db db' : DB} {c c' : RequestChannel Unit}

theorem step_one {e : ChannelEvent} (hstep : RequestChannel.Step crc pb unmarshal c e c')
    (he : ∀ event, e ≠ .upload event) :
    Step crc pb json unmarshal (one d disk db c) (.channel 0 e) (one d disk db c') := by
  refine ⟨[], c, [], c', rfl, rfl, hstep, ?_, rfl⟩
  cases e with
  | upload event => exact absurd rfl (he event)
  | _ => exact fun _ => ⟨rfl, rfl, rfl⟩

theorem step_one_upload {e : UploadEvent} {u u' : Upload} (hh : c.h = some ((), u))
    (hstep : Upload.Step crc pb u e u')
    (heffect : ((one d disk db c).server ()).Effect json u e d' disk' db')
    (hcall : ∀ call, e ≠ .call call) :
    Step crc pb json unmarshal (one d disk db c) (.channel 0 (.upload e))
      (one d' disk' db' { c with h := some ((), u') }) :=
  ⟨[], c, [], _, rfl, rfl, ⟨hcall, (), u, u', hh, hstep, rfl⟩,
    ⟨(), u, hh, heffect, fun _ hj => absurd rfl hj⟩, rfl⟩

end

/-- A server with one device. -/
def oneDevice : ErasureServer Unit :=
  ⟨some (), fun _ => none⟩

theorem decode_bytesA : decodePutInitRequest unmarshalRequest bytesA = .ok requestA := by
  rw [decodePutInitRequest, unmarshal_bytesA]
  rfl

/-- A channel that was started. -/
def startedChannel : RequestChannel Unit :=
  { RequestChannel.new oneDevice with
    stage := .ready
    h := some ((), (Upload.new.called (.start requestA)).call crc32Update protobuf
      (.start requestA))
    processed := [⟨.startPutObject, bytesA⟩] }

theorem step_startedChannel : RequestChannel.Step crc32Update protobuf unmarshalRequest
    (.new oneDevice) (.payload ⟨.startPutObject, bytesA⟩) startedChannel := by
  refine ⟨Or.inl rfl, ?_⟩
  have hstart : RequestChannel.receive crc32Update protobuf unmarshalRequest (.new oneDevice)
      ⟨.startPutObject, bytesA⟩ = RequestChannel.receiveStart crc32Update protobuf unmarshalRequest
        { RequestChannel.new oneDevice with processed := [⟨.startPutObject, bytesA⟩] }
        ⟨.startPutObject, bytesA⟩ := rfl
  rw [hstart, RequestChannel.receiveStart, decode_bytesA]
  rfl

theorem exists_run_started (n : ℕ) : ∃ events, Run
    (Step crc32Update protobuf (fun _ => none) unmarshalRequest)
    (idle (fun _ => freeDevice n) (fun _ _ => 0#8) fun _ => emptyDB) events
    (one (freeDevice n) (fun _ => 0#8) emptyDB startedChannel) := by
  have haccept : Step crc32Update protobuf (fun _ => none) unmarshalRequest
      (idle (fun _ => freeDevice n) (fun _ _ => 0#8) fun _ => emptyDB) (.accept oneDevice)
      (one (freeDevice n) (fun _ => 0#8) emptyDB (.new oneDevice)) := rfl
  exact ⟨_, (Run.nil.snoc haccept).snoc (step_one step_startedChannel nofun)⟩

/-- A channel that has put one byte. -/
def oneByteChannel : RequestChannel Unit :=
  { startedChannel with
    h := some ((), Server.oneByteUpload)
    taken := 1
    processed := [⟨.startPutObject, bytesA⟩, ⟨.putObject, [0#8]⟩]
    out := [Response.payload .cont] }

/-- The same, when the last write has failed. -/
def failedChannel (token : List Result) : RequestChannel Unit :=
  { oneByteChannel with
    stage := .returned
    h := some ((), Server.failedUpload token)
    taken := 2
    processed := oneByteChannel.processed ++ [⟨.completePutObject, []⟩]
    out := [Response.payload .cont, Response.payload (.error (.write .context))] }

theorem exists_run_oneByte : ∃ events, Run
    (Step crc32Update protobuf (fun _ => none) unmarshalRequest)
    (idle (fun _ => freeDevice 1) (fun _ _ => 0#8) fun _ => emptyDB) events
    (one (freeDevice 1) (fun _ => 0#8) emptyDB oneByteChannel) := by
  have hput : RequestChannel.Step crc32Update protobuf unmarshalRequest startedChannel
      (.payload ⟨.putObject, [0#8]⟩)
      { oneByteChannel with stage := .waiting .loop, taken := 0, out := [] } :=
    ⟨Or.inr rfl, rfl⟩
  have hforward : RequestChannel.Step crc32Update protobuf unmarshalRequest
      { oneByteChannel with stage := .waiting .loop, taken := 0, out := [] } .forward
      oneByteChannel := ⟨_, _, _, _, rfl, rfl, rfl, rfl⟩
  obtain ⟨events, hrun⟩ := exists_run_started 1
  exact ⟨_, (hrun.snoc (step_one hput nofun)).snoc (step_one hforward nofun)⟩

/-- `Complete` is called, and the upload does its last flush. -/
def closingChannel (u : Upload) : RequestChannel Unit :=
  { oneByteChannel with
    stage := .waiting .stop
    h := some ((), u)
    processed := oneByteChannel.processed ++ [⟨.completePutObject, []⟩] }

theorem step_closingChannel : RequestChannel.Step crc32Update protobuf unmarshalRequest
    oneByteChannel (.payload ⟨.completePutObject, []⟩) (closingChannel Server.lastFlush) := by
  refine ⟨Or.inr rfl, ?_⟩
  obtain ⟨-, -, hflush⟩ := Server.step_lastFlush
  rw [closingChannel, hflush]
  rfl

theorem step_failedChannel (token : List Result) : RequestChannel.Step crc32Update protobuf
    unmarshalRequest (closingChannel (Server.failedUpload token)) .forward
    (failedChannel token) :=
  ⟨_, _, _, _, rfl, rfl, rfl, rfl⟩

theorem step_closing {d d' : BlockDevice} {disk disk' : Disk} {db db' : DB} {e : UploadEvent}
    {u u' : Upload} (hstep : Upload.Step crc32Update protobuf u e u')
    (heffect : ((one d disk db (closingChannel u)).server ()).Effect json u e d' disk' db')
    (hcall : ∀ call, e ≠ .call call) :
    Step crc32Update protobuf json unmarshalRequest (one d disk db (closingChannel u))
      (.channel 0 (.upload e)) (one d' disk' db' (closingChannel u')) :=
  step_one_upload rfl hstep heffect hcall

theorem exists_run_failedChannel : ∃ events d token, Run
    (Step crc32Update protobuf (fun _ => none) unmarshalRequest)
    (idle (fun _ => freeDevice 1) (fun _ _ => 0#8) fun _ => emptyDB) events
    (one d (fun _ => 0#8) emptyDB (failedChannel token)) := by
  obtain ⟨events, hrun⟩ := exists_run_oneByte
  obtain ⟨d, results, token, hproper, -, hwriting⟩ := @Server.exists_effect_writing (fun _ => none)
    ((one (freeDevice 1) (fun _ => 0#8) emptyDB (closingChannel Server.lastFlush)).server ()) rfl
  have hfailing := @Server.effect_failing (fun _ => none)
    ((one d (fun _ => 0#8) emptyDB
      (closingChannel (Server.writingUpload results token))).server ()) results
    hproper.results_ne token
  have hfailed := @Server.effect_failed (fun _ => none)
    ((one d (fun _ => 0#8) emptyDB (closingChannel (Server.failingUpload token))).server ()) token
  have hrun₁ := hrun.snoc (step_one step_closingChannel nofun)
  have hrun₂ := hrun₁.snoc (step_closing (Server.step_writing results token) hwriting nofun)
  have hrun₃ := hrun₂.snoc (step_closing (Server.step_failing results token) hfailing nofun)
  have hrun₄ := hrun₃.snoc (step_closing (Server.step_failed token) hfailed nofun)
  exact ⟨_, _, token, hrun₄.snoc (step_one (step_failedChannel token) nofun)⟩

theorem owns_freeDevice (n : ℕ) (i : Unit) : ((fun _ => freeDevice n) i).allocator.Owns
    ((fun _ => 0 : Unit → Multiset ℕ) i) :=
  AllocatorV3.owns_newAllocatorV3 n

/-- The channel has answered the PUT with CONTINUE and the COMPLETE with ERROR. -/
theorem complete_failed : ∃ events, ∃ s : Service Unit, ∃ c, Run
    (Step crc32Update protobuf (fun _ => none) unmarshalRequest)
    (idle (fun _ => freeDevice 1) (fun _ _ => 0#8) fun _ => emptyDB) events s ∧
    s.channels = [c] ∧ c.types = [.cont, .error] ∧ c.processed.length = 3 ∧
    ∀ (j : ℕ) q, c.processed.tail[j]? = some q → c.types[j]? = some .cont →
      q.metaType ∈ [.putObject, .partUpload] := by
  obtain ⟨events, d, token, hrun⟩ := exists_run_failedChannel
  have hlt : ∀ i : Unit, ((fun _ => freeDevice 1) i).allocator.total < 2 ^ 63 := fun _ =>
    (total_freeDevice Nat.one_pos).trans_lt (by decide)
  obtain ⟨-, -, hprocessed, -⟩ := response_protocol (owns_freeDevice 1) hlt hrun (k := 0)
    (c := failedChannel token) rfl
  obtain ⟨hstarts, -⟩ := hprocessed _ _ rfl
  obtain ⟨-, hanswers⟩ := hstarts ⟨List.mem_cons_self, requestA, decode_bytesA, nofun⟩
  exact ⟨events, _, failedChannel token, hrun, rfl, rfl, rfl, fun j q hq hr =>
    (hanswers j q .cont hq hr).1 rfl⟩

/-- And its token is given back. -/
theorem failed_returned : ∃ events, ∃ s : Service Unit, ∃ c u, Run
    (Step crc32Update protobuf (fun _ => none) unmarshalRequest)
    (idle (fun _ => freeDevice 1) (fun _ _ => 0#8) fun _ => emptyDB) events s ∧
    s.channels = [c] ∧ c.h = some ((), u) ∧ u.obtained.length = 1 ∧ u.tokens = [] ∧
    u.obtained.Perm u.released := by
  obtain ⟨events, d, token, hrun⟩ := exists_run_failedChannel
  have hlt : ∀ i : Unit, ((fun _ => freeDevice 1) i).allocator.total < 2 ^ 63 := fun _ =>
    (total_freeDevice Nat.one_pos).trans_lt (by decide)
  obtain ⟨-, hall⟩ := leaks_nothing_iff (owns_freeDevice 1) hlt hrun
  have hnot : ¬(failedChannel token).Abandoned := fun h => h.1 rfl
  have hsuccess : .success ∉ (failedChannel token).types := by
    change PayloadMetaType.success ∉ [PayloadMetaType.cont, .error]
    decide
  obtain ⟨htokens, hperm⟩ := (hall (failedChannel token) (List.mem_singleton_self _) rfl
    hsuccess).mpr hnot () _ rfl
  exact ⟨events, _, failedChannel token, _, hrun, rfl, rfl, rfl, htokens, hperm⟩

/-! ## A channel that is abandoned -/

/-- A mebibyte put at once is flushed. -/
theorem put_full {u : Upload} (hreq : u.handler.initReq ≠ none) (herr : u.handler.flushErr = none)
    (hfinalized : u.handler.finalized = false) {data : Bytes} (hlen : 1048576 ≤ data.length) :
    u.put crc data = Upload.flush { u with handler := u.handler.addChunk crc data } true := by
  have hnil : data ≠ [] := List.ne_nil_of_length_pos (by omega)
  unfold Upload.put
  rw [if_neg hreq, herr]
  simp only
  rw [hfinalized, if_neg Bool.false_ne_true, if_neg hnil]
  refine if_pos ?_
  change 1048576 ≤ u.handler.pendingLen + data.length
  omega

/-- The handler that has taken the data. -/
def fullHandler (data : Bytes) : Handler :=
  (Handler.new.start requestA).addChunk crc32Update data

theorem length_fullHandler {data : Bytes} (hlen : data.length = 1048576) :
    (fullHandler data).startFlush.2.length = 1048576 := by
  have hflat : (fullHandler data).chunks.flatten = data := List.append_nil data
  have hpending : (fullHandler data).pendingLen = data.length := Nat.zero_add _
  rw [startFlush_snd (h := fullHandler data) (by rw [hpending, hflat]) (by omega), hflat,
    pad_of_dvd (by rw [hlen]; decide), hlen]

/-- Its upload, at a task. -/
def fullUpload (data : Bytes) (handler : Handler) (task : UploadTask) (responses : List Response)
    (obtained : List (List Result)) : Upload :=
  { handler, task, responses, stored := none, calls := [.start requestA, .put data], obtained,
    released := [] }

/-- The channel of that upload. -/
def fullChannel (data : Bytes) (u : Upload) : RequestChannel Unit :=
  { startedChannel with
    stage := .waiting .loop
    h := some ((), u)
    processed := [⟨.startPutObject, bytesA⟩, ⟨.putObject, data⟩] }

theorem step_fullChannel {data : Bytes} (hlen : data.length = 1048576) :
    RequestChannel.Step crc32Update protobuf unmarshalRequest startedChannel
      (.payload ⟨.putObject, data⟩) (fullChannel data (fullUpload data
        (fullHandler data).startFlush.1 (.alloc (fullHandler data).startFlush.2 true) [] [])) := by
  refine ⟨Or.inr rfl, ?_⟩
  have hput := @put_full crc32Update (fullUpload data (Handler.new.start requestA) .idle [] [])
    nofun rfl rfl data hlen.ge
  have hflush : fullUpload data (fullHandler data).startFlush.1
      (.alloc (fullHandler data).startFlush.2 true) [] [] =
      (fullUpload data (Handler.new.start requestA) .idle [] []).put crc32Update data := by
    rw [hput]
    rfl
  rw [hflush]
  rfl

theorem step_full_allocated (data : Bytes) (results token : List Result) :
    Upload.Step crc32Update protobuf
      (fullUpload data (fullHandler data).startFlush.1
        (.alloc (fullHandler data).startFlush.2 true) [] [])
      (.alloc (.ok (results, token)))
      (fullUpload data (fullHandler data).startFlush.1
        (.write (fullHandler data).startFlush.2 results token true) [] [token]) :=
  ⟨_, _, rfl, rfl⟩

theorem step_full_written (data : Bytes) (results token : List Result) :
    Upload.Step crc32Update protobuf
      (fullUpload data (fullHandler data).startFlush.1
        (.write (fullHandler data).startFlush.2 results token true) [] [token])
      (.write (fullHandler data).startFlush.2.length none)
      (fullUpload data ((fullHandler data).startFlush.1.completeFlush results token) .idle
        [.cont] [token]) := by
  refine ⟨_, _, _, _, rfl, ?_⟩
  simp [Upload.written, fullUpload, Upload.respond]

theorem step_full {d d' : BlockDevice} {disk disk' : Disk} {db db' : DB} {e : UploadEvent}
    {data : Bytes} {u u' : Upload} (hstep : Upload.Step crc32Update protobuf u e u')
    (heffect : ((one d disk db (fullChannel data u)).server ()).Effect json u e d' disk' db')
    (hcall : ∀ call, e ≠ .call call) :
    Step crc32Update protobuf json unmarshalRequest (one d disk db (fullChannel data u))
      (.channel 0 (.upload e)) (one d' disk' db' (fullChannel data u')) :=
  step_one_upload rfl hstep heffect hcall

/-- The channel when the payloads come to an end. -/
def leakyChannel (data : Bytes) (handler : Handler) (token : List Result) : RequestChannel Unit :=
  { fullChannel data (fullUpload data handler .idle [.cont] [token]) with
    stage := .returned, taken := 1, closed := true, out := [Response.payload .cont] }

theorem step_full_forward (data : Bytes) (handler : Handler) (token : List Result) :
    RequestChannel.Step crc32Update protobuf unmarshalRequest
      (fullChannel data (fullUpload data handler .idle [.cont] [token])) .forward
      { leakyChannel data handler token with stage := .ready, closed := false } :=
  ⟨_, _, _, _, rfl, rfl, rfl, rfl⟩

theorem step_full_close (data : Bytes) (handler : Handler) (token : List Result) :
    RequestChannel.Step crc32Update protobuf unmarshalRequest
      { leakyChannel data handler token with stage := .ready, closed := false } .close
      (leakyChannel data handler token) :=
  ⟨Or.inr rfl, rfl⟩

theorem exists_alloc_full : ∃ d results token,
    (freeDevice 256).alloc (1048576 : ℕ) = (d, .ok (results, token)) ∧
      FlushBlockInfo.Proper ⟨results, token⟩ ∧ 1048576 = 4096 * (blocksOf token).length ∧
      d.allocator.available = 0 := by
  have havail : (freeDevice 256).allocator.available = 256 := by
    rw [freeDevice, AllocatorV3.newAllocatorV3_eq (by decide)]
    rfl
  obtain ⟨d, results, token, halloc, hproper, hblocks, havail', -⟩ :=
    BlockDevice.alloc_of_room (inv_freeDevice (show 0 < 256 by decide))
      (show 4096 ∣ 1048576 by decide) (by decide) (by rw [havail]; decide)
  exact ⟨d, results, token, halloc, hproper, hblocks, by rw [havail', havail]; rfl⟩

theorem exists_run_leaky {data : Bytes} (hlen : data.length = 1048576) :
    ∃ events d disk handler token, d.allocator.available = 0 ∧ Run
      (Step crc32Update protobuf (fun _ => none) unmarshalRequest)
      (idle (fun _ => freeDevice 256) (fun _ _ => 0#8) fun _ => emptyDB) events
      (one d disk emptyDB (leakyChannel data handler token)) := by
  have hbuf := length_fullHandler hlen
  obtain ⟨d, results, token, halloc, hproper, hblocks, havail⟩ := exists_alloc_full
  obtain ⟨disk, hwrite⟩ := writeAllocated_full (fun _ => 0#8) hproper.pos (hbuf.trans hblocks)
  rw [← hproper.results_eq] at hwrite
  rw [← hbuf] at halloc
  obtain ⟨events, hrun⟩ := exists_run_started 256
  have hrun₁ := hrun.snoc (step_one (step_fullChannel hlen) nofun)
  have hrun₂ := hrun₁.snoc (step_full (step_full_allocated data results token)
    ⟨_, _, rfl, halloc, rfl, rfl⟩ nofun)
  have hrun₃ := hrun₂.snoc (step_full (step_full_written data results token)
    ⟨_, _, _, _, _, _, rfl, fun _ => rfl, hwrite, rfl, rfl⟩ nofun)
  have hrun₄ := hrun₃.snoc (step_one (step_full_forward data _ token) nofun)
  exact ⟨_, d, disk, _, token, havail, hrun₄.snoc (step_one (step_full_close data _ token) nofun)⟩

/-- A client that goes away after a mebibyte : the channel has answered with CONTINUE and returned,
nothing was given back, and no block of the device is left. -/
theorem abandoned_after_flush : ∃ events, ∃ s : Service Unit, ∃ c u, Run
    (Step crc32Update protobuf (fun _ => none) unmarshalRequest)
    (idle (fun _ => freeDevice 256) (fun _ _ => 0#8) fun _ => emptyDB) events s ∧
    s.channels = [c] ∧ c.processed =
      [⟨.startPutObject, bytesA⟩, ⟨.putObject, List.replicate 1048576 0#8⟩] ∧
    c.stage = .returned ∧ .success ∉ c.types ∧ c.h = some ((), u) ∧ u.obtained.length = 1 ∧
    ¬u.obtained.Perm u.released ∧ (s.device ()).allocator.available = 0 := by
  obtain ⟨events, d, disk, handler, token, havail, hrun⟩ :=
    @exists_run_leaky (List.replicate 1048576 0#8) List.length_replicate
  have hsuccess : .success ∉ (leakyChannel (List.replicate 1048576 0#8) handler token).types := by
    change PayloadMetaType.success ∉ [PayloadMetaType.cont]
    decide
  exact ⟨events, _, _, _, hrun, rfl, rfl, rfl, hsuccess, rfl, rfl, List.not_perm_cons_nil, havail⟩

end Service

end Corgi
