import EmentE2ee.Proxy.GroundedCalls

/-!
# One device ID, one set of identity keys

A device's identity keys are published once. A new session asks for them before it opens
the machine, whose queue may upload its own much later, while tokens are revoked, devices
deleted and keys published elsewhere. What each call has found out, and what has become of
it since, is what keeps published keys from being replaced.
-/
namespace EmentE2ee.IdentityKeys

open Concurrent AccountsApart
open Json (Value)

/-- The account that a store keeps. -/
structure Stored where
  user_id : UserId
  device_id : DeviceId
  ed25519 : String
  deriving DecidableEq

inductive Credential where
  | unissued | valid | revoked
  deriving DecidableEq

/-- A token that is issued once is never issued again. -/
def Credential.Later (c c' : Credential) : Prop := c' = c ∨ c = .unissued ∨ c' = .revoked

/-- What the homeserver has of each device and token, and what stores and machines have. -/
structure View (ω : Type) where
  owner : String → UserId × DeviceId
  credential : ω → String → Credential
  published : ω → UserId × DeviceId → Option String
  stored : ω → String → Option Stored
  /-- Whether an open machine has its device keys still to be uploaded. -/
  queues : ω → OlmMachine → Option Bool

variable {ω : Type}

def device (ctx : AccountContext) : UserId × DeviceId := (ctx.user_id,ctx.device_id)

/-- Time passes: tokens are issued and revoked, devices deleted, stores made, and keys
published as `written` says. A store keeps its keys, and what a machine has uploaded is
not queued again. -/
structure View.Ages (V : View ω) (written : UserId × DeviceId → String → Prop) (w w' : ω) : Prop where
  credential : ∀ token, (V.credential w token).Later (V.credential w' token)
  published : ∀ d key, V.published w' d = some key → V.published w d = some key ∨ written d key
  stored : ∀ dir x, V.stored w dir = some x → V.stored w' dir = some x
  queues : ∀ m b, V.queues w m = some b → ∃ b', V.queues w' m = some b' ∧ (b' = true → b = true)

/-- The device keys among what is handed out. -/
def deviceKeys : Handed → Option Value
  | .request ⟨_,.keysUpload r⟩ => r.device_keys
  | .device keys => some keys
  | _ => none

/-- The key that the body of an upload has for a device. -/
def uploadedKey (device_id : DeviceId) (body : Value) : Option String :=
  (body.get "device_keys").bind (deviceKey device_id)

section
variable [Codec]

/-- An upload publishes the keys of the device whose token it has. -/
def View.Writes (V : View ω) (w : ω) : Act → UserId × DeviceId → String → Prop
  | .request token .keysUpload (some body),d,key =>
      V.credential w token = .valid ∧ d = V.owner token ∧ uploadedKey d.2 body = some key
  | _,_,_ => False

/-- The machine hands out its own keys, and those of the queue only while they are queued. -/
def View.Own (V : View ω) (w : ω) (x : AccountContext × Handed) : Prop :=
  ∀ keys, deviceKeys x.2 = some keys → deviceKey x.1.device_id keys = some x.1.olm.ed25519 ∧
    ∀ r, x.2 = .request r → V.queues w x.1.olm = some true

/-- What can be told from an answer. -/
def View.Tells (V : View ω) : (a : Act) → ω → a.Ans → ω → Prop
  | .request token .whoami none,w,.ok (status,body),_ => isSuccess status = true →
      ∀ x, identified token body = some x → V.owner token = x.2 ∧ V.credential w token ≠ .unissued
  | .request token .keysQuery (some body),w,answer,_ => ∀ key, askedFor body = some (V.owner token) →
      learned (V.owner token).1 (V.owner token).2 answer = some key → key = V.published w (V.owner token)
  | .fetch token _,_,.ok reply,w' =>
      is_unknown_token reply.status reply.bytes = true → V.credential w' token ≠ .valid
  | .poll ctx _,_,some (.ok reply),w' =>
      is_unknown_token reply.status reply.bytes = true → V.credential w' ctx.token ≠ .valid
  | .withStore user_id device_id dir,w,.ok olm,w' =>
      V.stored w' dir = some ⟨user_id,device_id,olm.ed25519⟩ ∧ V.queues w olm = none ∧
        (V.queues w' olm).isSome
  | .olm ctx a,w,r,_ => ∀ x ∈ handed (.olm ctx a) r, V.Own w x
  | _,_,_,_ => True

variable [Vault]

/-- What a login's answer tells. -/
def View.TellsLogin (V : View ω) (w : ω) (reply : Reply) : Prop :=
  ∀ x, loginNamed reply = some x → V.owner x.1 = x.2 ∧ V.credential w x.1 ≠ .unissued

/-- What the homeserver, the disk and the machine can be counted on to do. -/
structure View.Keeps (V : View ω) (O : Outside ω) (W : FurtherOutside ω) : Prop where
  ages : ∀ {a w r w'}, O a w r w' → V.Ages (V.Writes w a) w w'
  tells : ∀ {a w r w'}, O a w r w' → V.Tells a w r w'
  further : ∀ {b w r w'}, W b w r w' → V.Ages (fun _ _ => False) w w' ∧
    ∀ reply ∈ loginAnswer b r, V.TellsLogin w' reply

/-- The proxy's state, and since it started: the contexts that were put into the map, the
tasks that were spawned, and the logins that were answered. -/
structure Life (ω : Type) where
  state : State ω
  made : List AccountContext
  spawned : List (AccountContext × Task)
  logins : List Reply

def madeBy : Doing → List AccountContext
  | .inl (.sessions (.insert _ ctx)) => [ctx]
  | _ => []

def spawnedBy : Doing → List (AccountContext × Task)
  | .inl (.spawn ctx task) => [(ctx,task)]
  | _ => []

/-- The device that a call is about to get a machine for. -/
def starting (d : UserId × DeviceId) : Stage → Prop
  | .asked x | .entered x | .vacant x | .looked x _ | .opened x .. => (x.user_id,x.device_id) = d
  | _ => False

abbrev Phase := Grounds × Stand Doing Lock

/-- The device has no session, and none is being started. -/
def Unattended (s : Life ω) (qs : List Phase) (d : UserId × DeviceId) : Prop :=
  (∀ token ctx, s.state.sessions.lookup token = some ctx → device ctx ≠ d) ∧
    ∀ q ∈ qs, ¬ starting d q.1.stage

/-- Tasks are started once they are spawned, commands are about sessions in the map, and
the rest of a login comes after its answer. -/
def Startable (s : Life ω) : Call → Prop
  | .request _ | .forwardLogin _ => True
  | .login _ reply => reply ∈ s.logins
  | .sessionStart ctx again => (ctx,.sessionStart again) ∈ s.spawned
  | .pump ctx => (ctx,.pump) ∈ s.spawned ∨ (ctx,.periodicPump) ∈ s.spawned
  | .requestRoomKey ctx room_id raw session_id =>
      (ctx,.requestRoomKey room_id raw session_id) ∈ s.spawned
  | .verify ctx .. | .bootstrap ctx _ => s.state.sessions.lookup ctx.token = some ctx

/-- The proxy has just started; whatever has happened before. -/
structure Fresh (s : Life ω) : Prop where
  started : Started s.state
  made : s.made = []
  spawned : s.spawned = []
  logins : s.logins = []

/-- Any number of calls, of which any can be abandoned. Other programs publish keys only
for a device that has none, and is unattended. -/
def system (V : View ω) (O : Outside ω) (W : FurtherOutside ω) (hs : Handlers) (fuel : Nat)
    (config : Config) : Phased Call Doing Ans Res (Life ω) Phase where
  toPhases := (grounds config).both ((wideLocking Further).stands answers)
  sem a r _ s s' := doing O W a s.state r s'.state ∧ s'.made = madeBy a ++ s.made ∧
    s'.spawned = spawnedBy a ++ s.spawned ∧ s'.logins = answeredBy a r ++ s.logins
  env qs s s' := ∃ w, s' = { s with state := { s.state with world := w } } ∧
    V.Ages (fun d _ => V.published s.state.world d = none ∧ Unattended s qs d) s.state.world w
  start s l p := Starts hs fuel config l p ∧ Startable s l
  restart _ s' := Fresh s'
  first l := (l.grounds,⟨l.may config,[]⟩)
  final q := q.1.settled ∧ q.2.held = []
  waits _ := True
  release q s := { s with state := { s.state with
    locked := fun l => if l ∈ q.2.held then false else s.state.locked l } }

abbrev Calls (ω : Type) := Phased.Config Call Doing Ans Res (Life ω) Phase

/-- Where the homeserver has not said which keys it has, a session is started only with a
machine whose own were uploaded before. -/
def Careful (V : View ω) (s : Life ω) (q : Phase) : Doing → Prop
  | .inl (.sessions (.insert _ ctx)) =>
      ∀ x has_store, q.1.stage = .opened x has_store ctx.olm → x.published = none →
        V.queues s.state.world ctx.olm ≠ some true
  | _ => True

/-- The same, in runs that are to be careful. -/
def Guarded (careful : Prop) (V : View ω) (s : Life ω) (q : Phase) (a : Doing) : Prop :=
  careful → Careful V s q a

end

section
variable {V : View ω} {config : Config} {w w' : ω} {written : UserId × DeviceId → String → Prop}

theorem View.Ages.refl (V : View ω) (written : UserId × DeviceId → String → Prop) (w : ω) :
    V.Ages written w w :=
  ⟨fun _ => .inl rfl,fun _ _ h => .inl h,fun _ _ h => h,fun _ b h => ⟨b,h,id⟩⟩

theorem View.Ages.valid (h : V.Ages written w w') {token : String}
    (hissued : V.credential w token ≠ .unissued) (hvalid : V.credential w' token = .valid) :
    V.credential w token = .valid := by
  rcases h.credential token with hc | hc | hc
  · exact hc ▸ hvalid
  · exact (hissued hc).elim
  · rw [hvalid] at hc
    cases hc

theorem View.Ages.issued (h : V.Ages written w w') {token : String}
    (hissued : V.credential w token ≠ .unissued) : V.credential w' token ≠ .unissued := by
  rcases h.credential token with hc | hc | hc
  · exact hc ▸ hissued
  · exact (hissued hc).elim
  · rw [hc]
    nofun

theorem View.Ages.opened (h : V.Ages written w w') {m : OlmMachine} (hm : (V.queues w m).isSome) :
    (V.queues w' m).isSome := by
  obtain ⟨b,hb⟩ := Option.isSome_iff_exists.mp hm
  obtain ⟨b',hb',-⟩ := h.queues m b hb
  rw [hb']
  rfl

/-- Where a device's store is. -/
def storeOf (config : Config) (d : UserId × DeviceId) : String :=
  account_store_dir config.store_dir d.1 d.2

/-- The key is that of the device's store. -/
def View.Kept (V : View ω) (config : Config) (w : ω) (d : UserId × DeviceId) (key : String) : Prop :=
  V.stored w (storeOf config d) = some ⟨d.1,d.2,key⟩

/-- No other key than its own is published for the context's device, while its token is valid. -/
def View.Clean (V : View ω) (w : ω) (ctx : AccountContext) : Prop :=
  V.credential w ctx.token = .valid →
    ∀ key, V.published w (device ctx) = some key → key = ctx.olm.ed25519

/-- The context has its device's token and the store's keys. -/
structure View.Rightful (V : View ω) (config : Config) (w : ω) (ctx : AccountContext) : Prop where
  owner : V.owner ctx.token = device ctx
  issued : V.credential w ctx.token ≠ .unissued
  kept : V.Kept config w (device ctx) ctx.olm.ed25519
  opened : (V.queues w ctx.olm).isSome

theorem View.Kept.eq {d : UserId × DeviceId} {key key' : String} (h : V.Kept config w d key)
    (h' : V.Kept config w d key') : key = key' := by
  have he := h.symm.trans h'
  cases he
  rfl

theorem View.Rightful.ages {ctx : AccountContext} (hctx : V.Rightful config w ctx)
    (h : V.Ages written w w') : V.Rightful config w' ctx :=
  ⟨hctx.owner,h.issued hctx.issued,h.stored _ _ hctx.kept,h.opened hctx.opened⟩

theorem View.Clean.ages {ctx : AccountContext} (hclean : V.Clean w ctx) (hctx : V.Rightful config w ctx)
    (h : V.Ages written w w') (hwritten : V.credential w ctx.token = .valid →
      ∀ key, written (device ctx) key → key = ctx.olm.ed25519) : V.Clean w' ctx := by
  intro hvalid key hkey
  have hbefore := h.valid hctx.issued hvalid
  rcases h.published _ _ hkey with hkey | hkey
  · exact hclean hbefore key hkey
  · exact hwritten hbefore key hkey

/-- Since the homeserver has said which key it has, no other was published but the store's. -/
def View.Heard (V : View ω) (config : Config) (w : ω) (x : Asking) : Prop :=
  V.owner x.token = (x.user_id,x.device_id) → ∀ answer, x.published = some answer →
    ∀ key, V.published w (x.user_id,x.device_id) = some key →
      answer = some key ∨ V.Kept config w (x.user_id,x.device_id) key

/-- What holds while a call is so far. -/
def View.Since (V : View ω) (config : Config) (w : ω) : Stage → Prop
  | .asked x | .entered x | .vacant x | .looked x _ => V.Heard config w x
  | .opened x has_store olm => V.Heard config w x ∧
      V.Kept config w (x.user_id,x.device_id) olm.ed25519 ∧ (V.queues w olm).isSome ∧
      (has_store = false → x.published = some none)
  | _ => True

theorem View.Heard.ages {x : Asking} (hx : V.Heard config w x) (h : V.Ages written w w')
    (hwritten : ∀ key, written (x.user_id,x.device_id) key →
      V.Kept config w (x.user_id,x.device_id) key) : V.Heard config w' x := by
  intro howner answer hanswer key hkey
  rcases h.published _ _ hkey with hkey | hkey
  · exact (hx howner answer hanswer key hkey).imp_right (h.stored _ _)
  · exact .inr (h.stored _ _ (hwritten key hkey))

theorem View.Since.ages {stage : Stage} (hs : V.Since config w stage) (h : V.Ages written w w')
    (hwritten : ∀ d key, starting d stage → written d key → V.Kept config w d key) :
    V.Since config w' stage := by
  cases stage with
  | asked x => exact View.Heard.ages hs h fun key => hwritten _ key rfl
  | entered x => exact View.Heard.ages hs h fun key => hwritten _ key rfl
  | vacant x => exact View.Heard.ages hs h fun key => hwritten _ key rfl
  | looked x has_store => exact View.Heard.ages hs h fun key => hwritten _ key rfl
  | opened x has_store olm =>
      obtain ⟨hheard,hkept,hopened,hnew⟩ := hs
      exact ⟨hheard.ages h fun key => hwritten _ key rfl,h.stored _ _ hkept,h.opened hopened,hnew⟩
  | _ => trivial

end

/-- Of the sessions that were started, those whose tokens are valid are in the map, and
those whose machines have keys to upload are not in the way of others. -/
structure Sound (careful : Prop) (V : View ω) (config : Config) (s : Life ω) : Prop where
  keyed : Keyed s.state
  made : ∀ token ctx, s.state.sessions.lookup token = some ctx → ctx ∈ s.made
  rightful : ∀ ctx ∈ s.made, V.Rightful config s.state.world ctx
  live : ∀ ctx ∈ s.made, V.credential s.state.world ctx.token = .valid →
    s.state.sessions.lookup ctx.token = some ctx
  clean : careful → ∀ ctx ∈ s.made, V.queues s.state.world ctx.olm = some true →
    V.Clean s.state.world ctx
  spawned : ∀ x ∈ s.spawned, x.1 ∈ s.made ∧ (x.2 = .sessionStart true → V.Clean s.state.world x.1)

/-- What a call knows is so. -/
structure Fair (careful : Prop) (V : View ω) (config : Config) (made : List AccountContext) (w : ω)
    (q : Grounds) : Prop where
  known : ∀ ctx ∈ q.known, ctx ∈ made
  renewing : ∀ ctx ∈ q.renewing, ctx ∈ made ∧ V.Clean w ctx
  handed : ∀ x ∈ q.handed, ∀ keys, deviceKeys x.2 = some keys → x.1 ∈ made ∧
    deviceKey x.1.device_id keys = some x.1.olm.ed25519 ∧
    ∀ r, x.2 = .request r → careful → V.Clean w x.1
  rejected : ∀ token ∈ q.rejected, V.credential w token = .revoked
  named : ∀ x ∈ q.named, V.owner x.1 = x.2 ∧ V.credential w x.1 ≠ .unissued
  since : V.Since config w q.stage

section
variable {careful : Prop} {V : View ω} {config : Config} {s s' : Life ω} {w w' : ω}
  {made made' : List AccountContext}
  {q : Grounds} {written : UserId × DeviceId → String → Prop}

theorem Fair.ages (hq : Fair careful V config made w q) (h : V.Ages written w w')
    (hrightful : ∀ ctx ∈ made, V.Rightful config w ctx)
    (hclean : ∀ ctx ∈ made, V.credential w ctx.token = .valid →
      ∀ key, written (device ctx) key → key = ctx.olm.ed25519)
    (hkept : ∀ d key, starting d q.stage → written d key → V.Kept config w d key)
    (hsub : ∀ ctx ∈ made, ctx ∈ made') : Fair careful V config made' w' q where
  known ctx hctx := hsub ctx (hq.known ctx hctx)
  renewing ctx hctx := by
    obtain ⟨hmem,hc⟩ := hq.renewing ctx hctx
    exact ⟨hsub ctx hmem,hc.ages (hrightful ctx hmem) h (hclean ctx hmem)⟩
  handed x hx keys hkeys := by
    obtain ⟨hmem,hown,hc⟩ := hq.handed x hx keys hkeys
    exact ⟨hsub _ hmem,hown,fun r hr ht => (hc r hr ht).ages (hrightful _ hmem) h (hclean _ hmem)⟩
  rejected token htoken := by
    rcases h.credential token with hc | hc | hc
    · rw [hc]
      exact hq.rejected token htoken
    · rw [hq.rejected token htoken] at hc
      cases hc
    · exact hc
  named x hx := ⟨(hq.named x hx).1,h.issued (hq.named x hx).2⟩
  since := View.Since.ages hq.since h hkept

theorem Sound.ages (hs : Sound careful V config s) (h : V.Ages written s.state.world w')
    (hclean : ∀ ctx ∈ s.made, V.credential s.state.world ctx.token = .valid →
      ∀ key, written (device ctx) key → key = ctx.olm.ed25519) :
    Sound careful V config { s with state := { s.state with world := w' } } where
  keyed := hs.keyed
  made := hs.made
  rightful ctx hctx := (hs.rightful ctx hctx).ages h
  live ctx hctx hvalid := hs.live ctx hctx (h.valid (hs.rightful ctx hctx).issued hvalid)
  clean ht ctx hctx hqueued := by
    obtain ⟨b,hb⟩ := Option.isSome_iff_exists.mp (hs.rightful ctx hctx).opened
    obtain ⟨b',hb',himp⟩ := h.queues _ _ hb
    cases hb'.symm.trans hqueued
    rw [himp rfl] at hb
    exact (hs.clean ht ctx hctx hb).ages (hs.rightful ctx hctx) h (hclean ctx hctx)
  spawned x hx := by
    obtain ⟨hmem,hc⟩ := hs.spawned x hx
    exact ⟨hmem,fun he => (hc he).ages (hs.rightful _ hmem) h (hclean _ hmem)⟩

theorem lookup_uploadEntry {key : String} (hkey : key ≠ "device_keys") (entries m : Json.Map) :
    Json.Map.lookup "device_keys" (AnyOutgoingRequest.uploadEntry key entries m) =
      Json.Map.lookup "device_keys" m := by
  unfold AnyOutgoingRequest.uploadEntry
  split_ifs
  · rfl
  · exact Json.Map.lookup_insert_ne hkey _ _

/-- An upload has the device keys that were handed out. -/
theorem uploadedKey_wire {h : Handed} {body : Value} (hwire : h.wire = (.keysUpload,body))
    (device_id : DeviceId) : uploadedKey device_id body = (deviceKeys h).bind (deviceKey device_id) := by
  cases h with
  | request r =>
      obtain ⟨id,r⟩ := r
      cases r with
      | keysUpload r =>
          cases hwire
          obtain ⟨device_keys,one_time_keys,fallback_keys⟩ := r
          refine congrArg (Option.bind · (deviceKey device_id)) (?_ : Json.Map.lookup "device_keys" _ = _)
          rw [lookup_uploadEntry (by decide),lookup_uploadEntry (by decide)]
          cases device_keys <;> rfl
      | _ => cases hwire
  | device keys =>
      cases hwire
      rfl
  | _ => cases hwire

/-- What an upload publishes is the own key of a context with a valid token. -/
theorem written_own (hs : Sound careful V config s)
    (hq : Fair careful V config s.made s.state.world q) {a : Act}
    (hmay : q.May config a) {d : UserId × DeviceId} {key : String} (h : V.Writes s.state.world a d key) :
    ∃ ctx ∈ s.made, device ctx = d ∧ key = ctx.olm.ed25519 ∧
      V.credential s.state.world ctx.token = .valid ∧ (careful → V.Clean s.state.world ctx) := by
  cases a with
  | request token endpoint body =>
      cases endpoint with
      | keysUpload =>
          cases body with
          | none => exact h.elim
          | some body =>
              obtain ⟨hvalid,rfl,hkey⟩ := h
              obtain ⟨_,he,ctx,x,hx,rfl,hwire,hdevice⟩ := hmay
              cases he
              rw [uploadedKey_wire hwire] at hkey
              obtain ⟨keys,hkeys,hkey⟩ := Option.bind_eq_some_iff.mp hkey
              obtain ⟨hmem,hown,hclean⟩ := hq.handed _ hx keys hkeys
              have hrightful := hs.rightful ctx hmem
              rw [hrightful.owner] at hkey ⊢
              refine ⟨ctx,hmem,rfl,Option.some.inj (hkey.symm.trans hown),hvalid,fun ht => ?_⟩
              cases x with
              | request r => exact hclean r rfl ht
              | device keys => exact (hq.renewing ctx (hdevice keys rfl)).2
              | _ => cases hkeys
      | _ => exact h.elim
  | _ => exact h.elim

/-- No key is published but those of the stores. -/
theorem written_kept (hs : Sound careful V config s)
    (hq : Fair careful V config s.made s.state.world q) {a : Act}
    (hmay : q.May config a) {d : UserId × DeviceId} {key : String} (h : V.Writes s.state.world a d key) :
    V.Kept config s.state.world d key := by
  obtain ⟨ctx,hmem,rfl,rfl,-,-⟩ := written_own hs hq hmay h
  exact (hs.rightful ctx hmem).kept

/-- Where nothing is found out, a call is as far as before, or has ended the search. -/
theorem since_leave [Codec] {stage : Stage} (hs : V.Since config w stage) {a : Act} (r : a.Ans)
    (hquery : ∀ token body, a ≠ .request token .keysQuery (some body))
    (hstore : ∀ user_id device_id dir, a ≠ .withStore user_id device_id dir) :
    V.Since config w (stage.next a r) := by
  unfold Stage.next
  split
  · trivial
  · trivial
  · trivial
  · trivial
  · exact (hquery _ _ rfl).elim
  · exact hs
  · split_ifs <;> exact hs
  · exact hs
  · exact (hstore _ _ _ rfl).elim
  · trivial
  · exact hs

theorem since_next [Codec] {a : Act} {r : a.Ans} (hmay : q.May config a) (hq : V.Since config w q.stage)
    (h : V.Ages (V.Writes w a) w w') (htells : V.Tells a w r w')
    (hkept : ∀ d key, V.Writes w a d key → V.Kept config w d key) :
    V.Since config w' (q.stage.next a r) := by
  have haged : V.Since config w' q.stage := View.Since.ages hq h fun d key _ => hkept d key
  obtain ⟨stage,named,known,renewing,given,accepted,rejected⟩ := q
  cases a with
  | request token endpoint body =>
      cases endpoint with
      | keysQuery =>
          cases body with
          | none => exact since_leave haged r nofun nofun
          | some body =>
              cases stage with
              | arriving =>
                  change V.Since config w' ((askedFor body).elim _ _)
                  cases hasked : askedFor body with
                  | none => trivial
                  | some x =>
                      -- The answer is as things are; nothing is published by asking.
                      intro howner answer hanswer key hkey
                      have hanswer : answer = V.published w x := by
                        change V.owner token = x at howner
                        subst howner
                        exact htells answer hasked hanswer
                      exact .inl (hanswer.trans ((h.published x key hkey).resolve_right id))
              | serving => trivial
              | _ => exact haged
      | _ => exact since_leave haged r nofun nofun
  | withStore user_id device_id dir =>
      cases stage with
      | looked x has_store =>
          cases r with
          | error e => exact haged
          | ok olm =>
              obtain ⟨_,_,hstage,rfl,rfl,rfl,hnew⟩ := hmay
              cases hstage
              exact ⟨haged,htells.1,htells.2.2,hnew⟩
      | serving => trivial
      | _ => exact haged
  | _ => exact since_leave haged r nofun nofun

/-- What is inserted with an answer from the homeserver is in nobody's way. -/
theorem inserted_clean {x : Asking} {has_store : Bool} {ctx : AccountContext}
    (hsince : V.Since config w (.opened x has_store ctx.olm))
    (hctx : ctx = ⟨x.user_id,x.device_id,x.token,ctx.olm⟩)
    (howner : V.owner x.token = (x.user_id,x.device_id))
    (hkey : has_store = true → ∀ key, x.published = some (some key) → key = ctx.olm.ed25519)
    (hanswer : x.published ≠ none) : V.Clean w ctx := by
  obtain ⟨hheard,hkept,-,hnew⟩ := hsince
  obtain ⟨answer,hanswer⟩ := Option.ne_none_iff_exists'.mp hanswer
  intro _ key hpublished
  have hdevice : device ctx = (x.user_id,x.device_id) := by rw [hctx]; rfl
  rw [hdevice] at hpublished
  rcases hheard howner answer hanswer key hpublished with rfl | h
  · cases has_store with
    | true => exact hkey rfl key hanswer
    | false => cases (hnew rfl).symm.trans hanswer
  · exact h.eq hkept

section
variable [Codec]

theorem handed_account {a : Act} {r : a.Ans} {x : AccountContext × Handed} (h : x ∈ handed a r) :
    ∃ b, a = .olm x.1 b := by
  cases a with
  | olm ctx b =>
      cases b with
      | outgoingRequests =>
          cases r with
          | error e => cases h
          | ok requests =>
              obtain ⟨_,_,rfl⟩ := List.mem_map.mp h
              exact ⟨_,rfl⟩
      | requestRoomKey raw room_id =>
          cases r with
          | error e => cases h
          | ok requests =>
              obtain ⟨_,_,rfl⟩ := List.mem_map.mp h
              exact ⟨_,rfl⟩
      | getMissingSessions users =>
          rcases r with e | _ | claim
          · cases h
          · cases h
          · exact ⟨_,by rw [List.mem_singleton.mp h]⟩
      | backup =>
          rcases r with e | _ | batch
          · cases h
          · cases h
          · exact ⟨_,by rw [List.mem_singleton.mp h]⟩
      | getDevice =>
          rcases r with e | _ | keys
          · cases h
          · cases h
          · exact ⟨_,by rw [List.mem_singleton.mp h]⟩
      | _ => cases h
  | _ => cases h

theorem identified_token {token : String} {body : Value} {x : String × UserId × DeviceId}
    (h : identified token body = some x) : x.1 = token := by
  unfold identified at h
  split at h
  · obtain ⟨_,_,rfl⟩ := Option.map_eq_some_iff.mp h
    rfl
  · cases h

omit [Codec] in
theorem may_known {ctx : AccountContext} {a : OlmAct} (h : q.May config (.olm ctx a)) : ctx ∈ q.known := by
  cases a <;> first | exact h | exact h.1

/-- What an action does outside, and what its answer tells. -/
theorem done_outside [Vault] {O : Outside ω} {W : FurtherOutside ω} (hV : V.Keeps O W) {a : Act}
    {t t' : State ω} {r : a.Ans} (h : sem O a t r t') :
    V.Ages (V.Writes t.world a) t.world t'.world ∧ V.Tells a t.world r t'.world := by
  by_cases ha : a.outside
  · have hout := sem_asked ha h
    exact ⟨hV.ages hout,hV.tells hout⟩
  · rw [sem_inside ha h]
    refine ⟨.refl ..,?_⟩
    cases a <;> first | trivial | exact (ha trivial).elim

/-- The contexts that a call is given were put into the map. -/
theorem met_made [Vault] {O : Outside ω} (hs : Sound careful V config s) {a : Act} {r : a.Ans} {t' : State ω}
    (h : sem O a s.state r t') {ctx : AccountContext} (hctx : ctx ∈ met a r) :
    ctx ∈ madeBy (.inl a) ++ s.made := by
  cases a with
  | sessions a =>
      cases a with
      | get token =>
          cases r with
          | none => cases hctx
          | some c =>
              rw [List.mem_singleton.mp hctx]
              exact hs.made token c h.1.symm
      | list =>
          obtain ⟨⟨token,c⟩,hc,rfl⟩ := List.mem_map.mp (h.1.mem_iff.mp hctx)
          exact hs.made token c (AList.mem_lookup_iff.mpr hc)
      | insert token c => exact List.mem_append_left _ hctx
      | _ => cases hctx
  | _ => cases hctx

/-- A rejected token was issued, so it is revoked. -/
theorem rejected_revoked (hs : Sound careful V config s)
    (hq : Fair careful V config s.made s.state.world q) {a : Act}
    {r : a.Ans} (hmay : q.May config a) (h : V.Ages (V.Writes s.state.world a) s.state.world w')
    (htells : V.Tells a s.state.world r w') {token : String} (htoken : token ∈ rejected a r) :
    V.credential w' token = .revoked := by
  have hdead : ∀ ctx ∈ q.known, V.credential w' ctx.token ≠ .valid → V.credential w' ctx.token = .revoked :=
    fun ctx hctx hinvalid => by
      have hissued := h.issued (hs.rightful ctx (hq.known ctx hctx)).issued
      cases hc : V.credential w' ctx.token with
      | unissued => exact (hissued hc).elim
      | valid => exact (hinvalid hc).elim
      | revoked => rfl
  cases a with
  | fetch t path =>
      cases r with
      | error e => cases htoken
      | ok reply =>
          obtain ⟨ctx,hctx,rfl⟩ := hmay
          change token ∈ (if is_unknown_token reply.status reply.bytes then _ else _) at htoken
          split_ifs at htoken with hunknown
          · rw [List.mem_singleton.mp htoken]
            exact hdead ctx hctx (htells hunknown)
          · cases htoken
  | poll ctx path =>
      rcases r with _ | e | reply
      · cases htoken
      · cases htoken
      · change token ∈ (if is_unknown_token reply.status reply.bytes then _ else _) at htoken
        split_ifs at htoken with hunknown
        · rw [List.mem_singleton.mp htoken]
          exact hdead ctx hmay (htells hunknown)
        · cases htoken
  | _ => cases htoken

theorem named_owner {a : Act} {r : a.Ans} (htells : V.Tells a w r w')
    {x : String × UserId × DeviceId} (hx : x ∈ named a r) :
    V.owner x.1 = x.2 ∧ V.credential w x.1 ≠ .unissued := by
  cases a with
  | request token endpoint body =>
      cases endpoint with
      | whoami =>
          cases body with
          | some body => cases hx
          | none =>
              rcases r with e | ⟨status,body⟩
              · cases hx
              · change x ∈ (if isSuccess status then _ else _) at hx
                split_ifs at hx with hsuccess
                · have hx := Option.mem_toList.mp hx
                  rw [identified_token hx]
                  exact htells hsuccess x hx
                · cases hx
      | _ => cases hx
  | _ => cases hx

omit [Codec] in
/-- A session's keys that are to be published again are in nobody's way. -/
theorem renews_clean (hq : Fair careful V config made w q) {a : Act} (hmay : q.May config a)
    (hsince : V.Since config w' q.stage) {ctx : AccountContext} (hctx : ctx ∈ q.stage.renews a) :
    (∃ token, a = .sessions (.insert token ctx)) ∧ V.Clean w' ctx := by
  obtain ⟨stage,named,known,renewing,given,accepted,rejected⟩ := q
  cases stage with
  | opened x has_store olm =>
      cases has_store with
      | false => cases hctx
      | true =>
          cases a with
          | sessions a =>
              cases a with
              | insert token c =>
                  change ctx ∈ (if x.published = some none then _ else _) at hctx
                  split_ifs at hctx with hnone
                  · obtain rfl := List.mem_singleton.mp hctx
                    obtain ⟨_,_,hstage,hc,-,hnamed,hkey⟩ := hmay
                    cases hstage
                    refine ⟨⟨_,rfl⟩,inserted_clean hsince hc (hq.named _ hnamed).1 hkey ?_⟩
                    rw [hnone]
                    nofun
                  · cases hctx
              | _ => cases hctx
          | _ => cases hctx
  | _ => cases hctx

/-- What a call knows after an action is so. -/
theorem fair_next [Vault] {O : Outside ω} {W : FurtherOutside ω} (hV : V.Keeps O W)
    (hs : Sound careful V config s) (hq : Fair careful V config s.made s.state.world q) {a : Act} {r : a.Ans}
    {t' : State ω} (hmay : q.May config a) (h : sem O a s.state r t') :
    Fair careful V config (madeBy (.inl a) ++ s.made) t'.world (q.next a r) := by
  obtain ⟨hages,htells⟩ := done_outside hV h
  have hkept : ∀ d key, V.Writes s.state.world a d key → V.Kept config s.state.world d key :=
    fun _ _ => written_kept hs hq hmay
  have hclean : ∀ ctx ∈ s.made, V.credential s.state.world ctx.token = .valid →
      ∀ key, V.Writes s.state.world a (device ctx) key → key = ctx.olm.ed25519 :=
    fun ctx hctx _ key hw => (hkept _ key hw).eq (hs.rightful ctx hctx).kept
  have hsub : ∀ ctx ∈ s.made, ctx ∈ madeBy (.inl a) ++ s.made := fun _ => List.mem_append_right _
  have haged := hq.ages hages hs.rightful hclean (fun d key _ => hkept d key) hsub
  refine ⟨?_,?_,?_,?_,?_,?_⟩
  · intro ctx hctx
    rcases List.mem_append.mp hctx with hctx | hctx
    · exact met_made hs h hctx
    · exact haged.known ctx hctx
  · intro ctx hctx
    rcases List.mem_append.mp hctx with hctx | hctx
    · obtain ⟨⟨token,rfl⟩,hrenewed⟩ := renews_clean hq hmay haged.since hctx
      exact ⟨List.mem_cons_self,hrenewed⟩
    · exact haged.renewing ctx hctx
  · intro x hx keys hkeys
    rcases List.mem_append.mp hx with hx | hx
    · obtain ⟨b,rfl⟩ := handed_account hx
      have hmem := hq.known _ (may_known hmay)
      obtain ⟨hown,hqueued⟩ := htells x hx keys hkeys
      refine ⟨hsub _ hmem,hown,fun r hr ht => ?_⟩
      exact (hs.clean ht _ hmem (hqueued r hr)).ages (hs.rightful _ hmem) hages (hclean _ hmem)
    · exact haged.handed x hx keys hkeys
  · intro token htoken
    rcases List.mem_append.mp htoken with htoken | htoken
    · exact rejected_revoked hs hq hmay hages htells htoken
    · exact haged.rejected token htoken
  · intro x hx
    rcases List.mem_append.mp hx with hx | hx
    · obtain ⟨howner,hissued⟩ := named_owner htells hx
      exact ⟨howner,hages.issued hissued⟩
    · exact haged.named x hx
  · exact since_next hmay hq.since hages htells hkept

omit [Codec] in
/-- A session that is inserted has its device's token and the store's keys. -/
theorem inserted_rightful (hq : Fair careful V config made w q) {token : String} {ctx : AccountContext}
    (hmay : q.May config (.sessions (.insert token ctx))) :
    ctx.token = token ∧ V.Rightful config w ctx := by
  obtain ⟨x,has_store,hstage,hctx,rfl,hnamed,-⟩ := hmay
  obtain ⟨howner,hissued⟩ := hq.named _ hnamed
  have hsince := hq.since
  rw [hstage] at hsince
  obtain ⟨-,hkept,hopened,-⟩ := hsince
  have htoken : ctx.token = x.token := by rw [hctx]
  have hdevice : device ctx = (x.user_id,x.device_id) := by rw [hctx]; rfl
  refine ⟨htoken,?_,?_,?_,hopened⟩
  · rw [htoken,hdevice]
    exact howner
  · rw [htoken]
    exact hissued
  · rw [hdevice]
    exact hkept

/-- The call is starting a session, and has the map's lock for it. -/
def entering : Stage → Prop
  | .entered _ | .vacant _ | .looked .. | .opened .. => True
  | _ => False

/-- The token of which it has found no session then. -/
def vacated : Stage → Option String
  | .vacant x | .looked x _ | .opened x .. => some x.token
  | _ => none

/-- While a call has the lock to start a session, nobody else puts one into the map. -/
structure Inside [Vault] (t : State ω) (q : Phase) : Prop where
  held : entering q.1.stage → .sessions ∈ q.2.held
  vacant : ∀ token, vacated q.1.stage = some token → t.sessions.lookup token = none

omit [Codec] in
theorem entering_of_vacated {stage : Stage} {token : String} (h : vacated stage = some token) :
    entering stage := by
  cases stage with
  | vacant | looked | opened => trivial
  | _ => cases h

theorem entering_next {stage : Stage} {a : Act} {r : a.Ans} (h : entering (stage.next a r)) :
    entering stage ∧ a ≠ .unlock .sessions ∨ a = .lock .sessions := by
  by_cases ha : a = .unlock .sessions
  · subst ha
    cases stage <;> exact h.elim
  unfold Stage.next at h
  split at h
  · exact h.elim
  · exact h.elim
  · exact h.elim
  · exact h.elim
  · next sent _ =>
      cases hasked : askedFor sent with
      | none => rw [hasked] at h; exact h.elim
      | some x => rw [hasked] at h; exact h.elim
  · exact .inr rfl
  · exact .inl ⟨trivial,ha⟩
  · exact .inl ⟨trivial,ha⟩
  · exact .inl ⟨trivial,ha⟩
  · exact h.elim
  · exact .inl ⟨h,ha⟩

/-- Of the token a call has found no session of, there is none after its action either. -/
theorem vacated_next {O : Outside ω} {stage : Stage} {a : Act} {r : a.Ans} {t t' : State ω}
    (h : sem O a t r t') {token : String} (hv : vacated (stage.next a r) = some token)
    (hstage : vacated stage = some token → t.sessions.lookup token = none) :
    t'.sessions.lookup token = none := by
  by_contra hsome
  obtain ⟨c,hlookup⟩ := Option.ne_none_iff_exists'.mp hsome
  rcases lookup_next h hlookup with hbefore | rfl
  · have hnot : vacated stage ≠ some token := fun hs => by
      rw [hstage hs] at hbefore
      cases hbefore
    unfold Stage.next at hv
    split at hv
    · cases hv
    · cases hv
    · cases hv
    · cases hv
    · next sent _ =>
        cases hasked : askedFor sent with
        | none => rw [hasked] at hv; cases hv
        | some x => rw [hasked] at hv; cases hv
    · cases hv
    · split_ifs at hv with htoken
      · have hfound : none = t.sessions.lookup _ := h.1
        rw [htoken,Option.some.inj hv,hbefore] at hfound
        cases hfound
      · cases hv
    · exact hnot hv
    · exact hnot hv
    · cases hv
    · exact hnot hv
  · cases stage <;> cases hv

theorem Inside.next [Vault] {O : Outside ω} {t t' : State ω} {stand : Stand Doing Lock} {a : Act} {r : a.Ans}
    (h : Inside t (q,stand)) (hallowed : (lockUse a).allowed Lock.rank stand.held) (hs : sem O a t r t') :
    Inside t' (q.next a r,⟨stand.permitted,(lockUse a).after stand.held⟩) where
  held hentering := by
    rcases entering_next hentering with ⟨hbefore,hne⟩ | rfl
    · have hheld := h.held hbefore
      cases a with
      | lock l => exact List.mem_cons_of_mem _ hheld
      | unlock l =>
          change stand.held.head? = some l at hallowed
          change _ ∈ stand.held.tail
          cases hstand : stand.held with
          | nil =>
              rw [hstand] at hallowed
              cases hallowed
          | cons x rest =>
              change _ ∈ stand.held at hheld
              rw [hstand] at hallowed hheld
              cases hallowed
              exact (List.mem_cons.mp hheld).resolve_left fun he => hne (by rw [he])
      | sessions a => cases a <;> exact hheld
      | _ => exact hheld
    · exact List.mem_cons_self
  vacant token hv := vacated_next hs hv fun hbefore => h.vacant token hbefore

/-- What another call does leaves it so, while they have no lock in common. -/
theorem Inside.other [Vault] {O : Outside ω} {t t' : State ω} {p p' : Phase} {a : Act} {r : a.Ans}
    (h : Inside t p') (hp : Inside t p) (hapart : ∀ l ∈ p.2.held, l ∉ p'.2.held) (hmay : p.1.May config a)
    (hs : sem O a t r t') : Inside t' p' where
  held := h.held
  vacant token hv := by
    by_contra hsome
    obtain ⟨c,hlookup⟩ := Option.ne_none_iff_exists'.mp hsome
    rcases lookup_next hs hlookup with hbefore | rfl
    · rw [h.vacant token hv] at hbefore
      cases hbefore
    · obtain ⟨x,has_store,hstage,-⟩ := hmay
      have hheld := hp.held (by rw [hstage]; trivial)
      exact hapart _ hheld (h.held (entering_of_vacated hv))

/-- An action keeps the invariant. -/
theorem sound_next [Vault] {O : Outside ω} {W : FurtherOutside ω} (hV : V.Keeps O W)
    (hs : Sound careful V config s) (hq : Fair careful V config s.made s.state.world q) {a : Act} {r : a.Ans}
    {t' : State ω} (hmay : q.May config a) {stand : Stand Doing Lock} (hinside : Inside s.state (q,stand))
    (hok : Guarded careful V s (q,stand) (.inl a)) (h : sem O a s.state r t') :
    Sound careful V config ⟨t',madeBy (.inl a) ++ s.made,spawnedBy (.inl a) ++ s.spawned,s.logins⟩ := by
  obtain ⟨hages,-⟩ := done_outside hV h
  have hclean : ∀ ctx ∈ s.made, V.credential s.state.world ctx.token = .valid →
      ∀ key, V.Writes s.state.world a (device ctx) key → key = ctx.olm.ed25519 :=
    fun ctx hctx _ key hw => (written_kept hs hq hmay hw).eq (hs.rightful ctx hctx).kept
  have haged := hs.ages hages hclean
  have hinsert : ∀ ctx ∈ madeBy (.inl a), ∃ token, a = .sessions (.insert token ctx) := by
    intro ctx hctx
    cases a with
    | sessions a =>
        cases a with
        | insert token c => exact ⟨token,by rw [List.mem_singleton.mp hctx]⟩
        | _ => cases hctx
    | _ => cases hctx
  refine ⟨?_,?_,?_,?_,?_,?_⟩
  · refine keyed_act hs.keyed (fun token ctx he => ?_) h
    subst he
    exact (inserted_rightful hq hmay).1
  · intro token ctx hlookup
    rcases lookup_next h hlookup with hlookup | rfl
    · exact List.mem_append_right _ (hs.made token ctx hlookup)
    · exact List.mem_cons_self
  · intro ctx hctx
    rcases List.mem_append.mp hctx with hctx | hctx
    · obtain ⟨token,rfl⟩ := hinsert ctx hctx
      exact (inserted_rightful hq hmay).2.ages hages
    · exact haged.rightful ctx hctx
  · intro ctx hctx hvalid
    rcases List.mem_append.mp hctx with hnew | hmade
    · obtain ⟨token,rfl⟩ := hinsert ctx hnew
      rw [(inserted_rightful hq hmay).1,h.2]
      exact AList.lookup_insert s.state.sessions
    · have hlive : s.state.sessions.lookup ctx.token = some ctx := haged.live ctx hmade hvalid
      rcases lookup_stays h hlive with hstays | rfl | ⟨c,rfl⟩
      · exact hstays
      · have hbefore := hages.valid (hs.rightful ctx hmade).issued hvalid
        cases hbefore.symm.trans (hq.rejected _ hmay)
      · -- There was no session of the token when the call looked, and the lock is its own.
        have hvacant : s.state.sessions.lookup ctx.token = none := by
          obtain ⟨x,has_store,hstage,-,htoken,-⟩ := hmay
          refine hinside.vacant ctx.token ?_
          rw [hstage]
          exact congrArg some htoken.symm
        cases hvacant.symm.trans hlive
  · intro ht ctx hctx hqueued
    rcases List.mem_append.mp hctx with hctx | hctx
    · obtain ⟨token,rfl⟩ := hinsert ctx hctx
      have hsince := hq.since
      have hworld : t'.world = s.state.world := by rw [h.2]; rfl
      rw [hworld] at hqueued ⊢
      obtain ⟨x,has_store,hstage,hc,-,hnamed,hkey⟩ := hmay
      rw [hstage] at hsince
      exact inserted_clean hsince hc (hq.named _ hnamed).1 hkey fun hnone =>
        hok ht x has_store hstage hnone hqueued
    · exact haged.clean ht ctx hctx hqueued
  · intro x hx
    rcases List.mem_append.mp hx with hx | hx
    · cases a with
      | spawn ctx task =>
          obtain rfl := List.mem_singleton.mp hx
          cases task with
          | sessionStart again =>
              refine ⟨List.mem_append_right _ (hq.known _ hmay.1),fun he => ?_⟩
              cases he
              obtain ⟨hmem,hc⟩ := hq.renewing _ (hmay.2 rfl)
              exact hc.ages (hs.rightful _ hmem) hages (hclean _ hmem)
          | _ => exact ⟨List.mem_append_right _ (hq.known _ hmay),nofun⟩
      | _ => cases hx
    · obtain ⟨hmem,hc⟩ := haged.spawned x hx
      exact ⟨List.mem_append_right _ hmem,hc⟩

variable [Vault] {O : Outside ω} {W : FurtherOutside ω} {hs : Handlers} {fuel : Nat}

omit [Vault] in
/-- A call that starts knows nothing but what is so. -/
theorem fair_first (h : Sound careful V config s)
    (hlogins : ∀ reply ∈ s.logins, V.TellsLogin s.state.world reply)
    {l : Call} (hl : Startable s l) : Fair careful V config s.made s.state.world l.grounds := by
  have hserving : ∀ ctx again, ctx ∈ s.made → (again = true → V.Clean s.state.world ctx) →
      Fair careful V config s.made s.state.world (.serving ctx again) := by
    intro ctx again hctx hclean
    refine ⟨?_,?_,nofun,nofun,nofun,trivial⟩
    · rintro c hc
      rw [List.mem_singleton.mp hc]
      exact hctx
    · intro c hc
      cases again with
      | false => cases hc
      | true =>
          rw [List.mem_singleton.mp hc]
          exact ⟨hctx,hclean rfl⟩
  cases l with
  | request req => exact ⟨nofun,nofun,nofun,nofun,nofun,trivial⟩
  | forwardLogin req => exact ⟨nofun,nofun,nofun,nofun,nofun,trivial⟩
  | login requested reply =>
      exact ⟨nofun,nofun,nofun,nofun,fun x hx => hlogins reply hl x (Option.mem_toList.mp hx),trivial⟩
  | sessionStart ctx again =>
      obtain ⟨hmem,hclean⟩ := h.spawned _ hl
      exact hserving ctx again hmem fun he => hclean (by rw [he])
  | pump ctx =>
      exact hserving ctx false
        (hl.elim (fun h' => (h.spawned _ h').1) fun h' => (h.spawned _ h').1) nofun
  | requestRoomKey ctx room_id raw session_id => exact hserving ctx false (h.spawned _ hl).1 nofun
  | verify ctx with_user wanted => exact hserving ctx false (h.made _ _ hl) nofun
  | bootstrap ctx recovery_key => exact hserving ctx false (h.made _ _ hl) nofun

theorem inside_first (t : State ω) (config : Config) (l : Call) : Inside t (l.grounds,⟨l.may config,[]⟩) := by
  cases l <;> exact ⟨False.elim,nofun⟩

omit [Codec] in
/-- Further actions hand out no device keys. -/
theorem further_deviceKeys {b : Further} {r : FurtherAns b} {x : AccountContext × Handed}
    (hx : x ∈ handedFurther b r) : deviceKeys x.2 = none := by
  rcases b with a | a | a
  · cases hx
  · cases a with
    | queryKeysForUsers ctx users => rw [List.mem_singleton.mp hx]; rfl
    | _ => cases hx
  · cases hx

omit [Codec] in
/-- While others publish keys, no session or call has to do with the device. -/
theorem unattended_made (h : Sound careful V config s) {qs : List Phase} {ctx : AccountContext}
    (hctx : ctx ∈ s.made) (hvalid : V.credential s.state.world ctx.token = .valid) :
    ¬ Unattended s qs (device ctx) :=
  fun hno => hno.1 _ ctx (h.live ctx hctx hvalid) rfl

omit [Codec] [Vault] in
theorem Fresh.sound {s₀ : Life ω} (h : Fresh s₀) : Sound careful V config s₀ := by
  refine ⟨h.started.keyed,fun token ctx hlookup => ?_,?_,?_,?_,?_⟩
  · rw [h.started.sessions] at hlookup
    cases hlookup
  · rw [h.made]
    nofun
  · rw [h.made]
    nofun
  · rw [h.made]
    nofun
  · rw [h.spawned]
    nofun

theorem system_locked : Locked (system V O W hs fuel config) (wideLocking Further)
    (fun q : Phase => q.2.held) (fun s : Life ω => s.state.locked) where
  may h := h.2.2
  next _ _ _ := rfl
  first _ := rfl
  final h := h.2
  sem {a r _ s s'} h := by
    cases a with
    | inl a => exact effect_act h.1
    | inr b => exact (show s'.state.locked = s.state.locked by rw [h.1.2])
  env h := by
    obtain ⟨w,rfl,-⟩ := h
    rfl
  restart h := h.started.locked
  release _ _ := rfl

/-- The invariant of the state, and of each call. -/
def Sound.And (careful : Prop) (V : View ω) (config : Config) (s : Life ω) (qs : List Phase) : Prop :=
  (Sound careful V config s ∧ ∀ reply ∈ s.logins, V.TellsLogin s.state.world reply) ∧
    ∀ q ∈ qs, Fair careful V config s.made s.state.world q.1 ∧ Inside s.state q

theorem sound_keeps (hV : V.Keeps O W) : (system V O W hs fuel config).Keeps (Guarded careful V)
    (Locked.With (fun q : Phase => q.2.held) (fun s : Life ω => s.state.locked)
      (Sound.And careful V config)) := by
  have htold : ∀ {w w' : ω} {written : UserId × DeviceId → String → Prop} {replies : List Reply},
      V.Ages written w w' → (∀ reply ∈ replies, V.TellsLogin w reply) →
        ∀ reply ∈ replies, V.TellsLogin w' reply :=
    fun h htells reply hreply x hx => ⟨(htells reply hreply x hx).1,h.issued (htells reply hreply x hx).2⟩
  refine .beside (D := fun q q' => ∀ l ∈ q.2.held, l ∉ q'.2.held) system_locked.preserves Locked.disjoint
    ?_ ?_ ?_ ?_ ?_
  · exact fun hl h => ⟨fair_first h.1 h.2 hl.2,inside_first _ _ _⟩
  · rintro ⟨t,made,spawned,logins⟩ ⟨t',_,_,_⟩ ⟨q,stand⟩ a r b hmay hok ⟨hsem,rfl,rfl,rfl⟩
      ⟨h,hlogins⟩ ⟨hq,hinside⟩
    cases a with
    | inl a =>
        obtain ⟨hages,-⟩ := done_outside hV hsem
        refine ⟨⟨trivial,keyed_answers h.keyed hsem⟩,
          ⟨sound_next hV h hq hmay.1 hinside hok hsem,htold hages hlogins⟩,
          ⟨fair_next hV h hq hmay.1 hsem,hinside.next hmay.2.2 hsem⟩,fun q' hapart hq' => ⟨?_,?_⟩⟩
        · refine Fair.ages hq'.1 hages h.rightful (fun ctx hctx _ key hw => ?_) (fun d key _ hw => ?_)
            fun _ => List.mem_append_right _
          · exact (written_kept h hq hmay.1 hw).eq (h.rightful ctx hctx).kept
          · exact written_kept h hq hmay.1 hw
        · exact hq'.2.other hinside hapart hmay.1 hsem
    | inr b =>
        obtain ⟨hfurther,he⟩ := hsem
        obtain ⟨w',rfl⟩ : ∃ w', t' = { t with world := w' } := ⟨_,he⟩
        obtain ⟨hages,hanswer⟩ := hV.further hfurther
        have hnext : ∀ q', Fair careful V config made t.world q' →
          Fair careful V config made w' q' := fun q' hq' =>
          hq'.ages hages h.rightful (fun _ _ _ _ => False.elim) (fun _ _ _ => False.elim) fun _ => id
        have hsound := h.ages hages fun _ _ _ _ => False.elim
        refine ⟨⟨trivial,trivial⟩,
          ⟨⟨hsound.keyed,hsound.made,hsound.rightful,hsound.live,hsound.clean,hsound.spawned⟩,?_⟩,
          ⟨?_,⟨hinside.held,hinside.vacant⟩⟩,fun q' _ hq' => ⟨hnext q'.1 hq'.1,⟨hq'.2.held,hq'.2.vacant⟩⟩⟩
        · intro reply hreply
          rcases List.mem_append.mp hreply with hreply | hreply
          · exact hanswer reply hreply
          · exact htold hages hlogins reply hreply
        have hq := hnext q hq
        refine ⟨hq.known,hq.renewing,fun x hx keys hkeys => ?_,hq.rejected,hq.named,hq.since⟩
        rcases List.mem_append.mp hx with hx | hx
        · rw [further_deviceKeys hx] at hkeys
          cases hkeys
        · exact hq.handed x hx keys hkeys
  · rintro s q ⟨h,hlogins⟩
    exact ⟨⟨⟨h.keyed,h.made,h.rightful,h.live,h.clean,h.spawned⟩,hlogins⟩,
      fun _ hq => ⟨hq.1,⟨hq.2.held,hq.2.vacant⟩⟩⟩
  · rintro s _ qs ⟨w,rfl,hages⟩ ⟨h,hlogins⟩ hqs
    have hclean : ∀ ctx ∈ s.made, V.credential s.state.world ctx.token = .valid → ∀ key,
        V.published s.state.world (device ctx) = none ∧ Unattended s qs (device ctx) →
          key = ctx.olm.ed25519 :=
      fun ctx hctx hvalid _ hw => (unattended_made h hctx hvalid hw.2).elim
    refine ⟨⟨h.ages hages hclean,htold hages hlogins⟩,fun q hq =>
      ⟨?_,⟨(hqs q hq).2.held,(hqs q hq).2.vacant⟩⟩⟩
    refine (hqs q hq).1.ages hages h.rightful hclean (fun d key hstarting hw => ?_) fun _ => id
    exact (hw.2.2 q hq hstarting).elim
  · refine fun h => ⟨Fresh.sound h,?_⟩
    rw [h.logins]
    nofun

theorem system_starts : (system V O W hs fuel config).Starts := fun s l _ hl =>
  (starts_grounded hl.1).both (AccountsApart.system_starts (O := O) (W := W) s.state l _ hl.1)

theorem Fresh.holds (hV : V.Keeps O W) {s₀ : Life ω} (h₀ : Fresh s₀) {c : Calls ω}
    (h : (system V O W hs fuel config).Reachable (Guarded careful V) s₀ c) :
    (system V O W hs fuel config).Holds (Locked.With (fun q : Phase => q.2.held)
      (fun s : Life ω => s.state.locked) (Sound.And careful V config)) c := by
  refine .reachable (sound_keeps hV) system_starts ⟨⟨⟨h₀.sound,?_⟩,nofun⟩,fun l => ?_⟩ h
  · rw [h₀.logins]
    nofun
  · have hfree := h₀.started.locked l
    exact (if_neg fun hl => Bool.false_ne_true (hfree.symm.trans hl)).symm

/-- **Sessions.** In any run, every session in the map is that of the device its token was
issued for, with the keys in that device's store, and of the sessions that were started since
the proxy was, each whose token is valid is there. -/
theorem sessions_rightful (hV : V.Keeps O W) {s₀ : Life ω} (h₀ : Fresh s₀) {c : Calls ω}
    (h : (system V O W hs fuel config).Reachable (fun _ _ _ => True) s₀ c) :
    (∀ token ctx, c.state.state.sessions.lookup token = some ctx → ctx.token = token ∧
      V.owner token = device ctx ∧ V.Kept config c.state.state.world (device ctx) ctx.olm.ed25519) ∧
    ∀ ctx ∈ c.state.made, V.credential c.state.state.world ctx.token = .valid →
      c.state.state.sessions.lookup ctx.token = some ctx := by
  have hguard : Guarded False V = fun _ _ _ => True := by
    funext s q a
    exact eq_true False.elim
  have hsound : Sound False V config c.state := (h₀.holds hV (hguard ▸ h)).1.1.1.1
  refine ⟨fun token ctx hlookup => ?_,hsound.live⟩
  have hrightful := hsound.rightful ctx (hsound.made token ctx hlookup)
  have htoken := hsound.keyed token ctx hlookup
  exact ⟨htoken,htoken ▸ hrightful.owner,hrightful.kept⟩

/-- **Identity keys.** In any run, with uploads and queries that fail, calls that are abandoned,
devices that are deleted, keys that other programs publish, and restarts, in which every
session that is started without an answer from the homeserver has a machine whose keys are
uploaded: whatever a call does next, a key that is published for a device is not replaced by
another. -/
theorem keys_stay (hV : V.Keeps O W) {s₀ : Life ω} (h₀ : Fresh s₀) {c : Calls ω}
    (h : (system V O W hs fuel config).Reachable (Careful V) s₀ c)
    {t : Thread Call Doing Ans Res × Phase} (ht : t ∈ c.tasks) {a : Doing} (ha : t.1.rest.head = some a)
    {r : Ans a} {answered : Bool} {s' : Life ω}
    (hstep : (system V O W hs fuel config).sem a r answered c.state s')
    {d : UserId × DeviceId} {key key' : String} (hkey : V.published c.state.state.world d = some key)
    (hkey' : V.published s'.state.world d = some key') : key' = key := by
  have hguard : Guarded True V = Careful V := by
    funext s q a
    exact propext ⟨fun hok => hok trivial,fun hok _ => hok⟩
  have hholds := h₀.holds hV (hguard ▸ h)
  have hsound : Sound True V config c.state := hholds.1.1.1.1
  have hfair : Fair True V config c.state.made c.state.state.world t.2.1 :=
    (hholds.1.1.2 t.2 (List.mem_map_of_mem ht)).1
  have hfollows := hholds.2 t ht
  obtain ⟨⟨l,p⟩,q,stand⟩ := t
  cases p with
  | ret x => cases ha
  | act b k =>
      cases ha
      cases a with
      | inl a =>
          rcases (done_outside hV hstep.1).1.published d key' hkey' with hbefore | hwritten
          · exact Option.some.inj (hbefore.symm.trans hkey)
          · obtain ⟨ctx,-,rfl,rfl,hvalid,hclean⟩ := written_own hsound hfair hfollows.1.1 hwritten
            exact (hclean trivial hvalid key hkey).symm
      | inr b =>
          have hbefore := ((hV.further hstep.1.1).1.published d key' hkey').resolve_right id
          exact Option.some.inj (hbefore.symm.trans hkey)

end

end

section
def login_response : Value := .object
  [("access_token",.string "token"),("device_id",.string "DEV"),("user_id",.string "@alice:x")]

local instance : Codec := .plain (fun _ => some login_response) some fun _ _ => 0
local instance : Vault := closed

def deviceKeysOf : Value := .object [("keys",.object [("ed25519:DEV",.string "key")])]

def queried : Value := .object [("device_keys",.object [("@alice:x",.object [("DEV",deviceKeysOf)])])]

def upload : OutgoingRequest := ⟨"id",.keysUpload ⟨some deviceKeysOf,[],[]⟩⟩

/-- A store whose keys are published, and a machine that does not know it. -/
def home : View Bool where
  owner _ := ("@alice:x","DEV")
  credential _ _ := .valid
  published _ d := if d = ("@alice:x","DEV") then some "key" else none
  stored _ dir := if dir = account_store_dir "store" "@alice:x" "DEV" then
    some ⟨"@alice:x","DEV","key"⟩ else none
  queues opened m := if opened = true ∧ m = alice.olm then some true else none

def around : Outside Bool := fun a w r w' => home.Ages (home.Writes w a) w w' ∧ home.Tells a w r w'

def aside : FurtherOutside Bool := fun b w r w' => w' = w ∧ ∀ reply ∈ loginAnswer b r, home.TellsLogin w reply

theorem home_keeps : home.Keeps around aside :=
  ⟨And.left,And.right,fun h => ⟨h.1 ▸ .refl ..,h.1 ▸ h.2⟩⟩

def relaying : Handlers := ⟨fun _ req => passthrough req,passthrough⟩

abbrev household : Phased Call Doing Ans Res (Life Bool) Phase :=
  system home around aside relaying 1 ⟨"store"⟩

def before : Life Bool := ⟨⟨fun _ => .default 0,∅,[],fun _ => false,false⟩,[],[],[]⟩

theorem before_fresh : Fresh before := ⟨⟨rfl,fun _ => rfl⟩,rfl,rfl,rfl⟩

theorem asks {a : Act} {s : Life Bool} {r : a.Ans} (ha : a.outside)
    (h : home.Tells a s.state.world r s.state.world) :
    household.sem (.inl a) r true s
      ⟨s.state,madeBy (.inl a) ++ s.made,spawnedBy (.inl a) ++ s.spawned,s.logins⟩ :=
  ⟨sem_outside ha ⟨.refl ..,h⟩,rfl,rfl,rfl⟩

def request : Request := ⟨.post,"/_matrix/client/v3/login",none,[],[]⟩

def welcome : Reply := ⟨200,[],[]⟩

theorem welcome_tells : home.TellsLogin false welcome := by
  intro x hx
  cases hx
  exact ⟨rfl,nofun⟩

theorem does {a : Act} {s : Life Bool} {r : a.Ans} {t' : State Bool} (h : sem around a s.state r t') :
    household.sem (.inl a) r true s
      ⟨t',madeBy (.inl a) ++ s.made,spawnedBy (.inl a) ++ s.spawned,s.logins⟩ :=
  ⟨h,rfl,rfl,rfl⟩

/-- The machine uploads its keys again. -/
abbrev uploading : Doing := .inl (.request "token" .keysUpload (some upload.request.wire.2))

theorem home_ages : home.Ages
    (home.Writes false (.withStore "@alice:x" "DEV" (account_store_dir "store" "@alice:x" "DEV")))
    false true where
  credential _ := .inl rfl
  published _ _ h := .inl h
  stored _ _ h := h
  queues m b h := by simp [home] at h

theorem home_opens : home.Tells (.withStore "@alice:x" "DEV" (account_store_dir "store" "@alice:x" "DEV"))
    false (.ok alice.olm) true := And.intro (by simp [home,alice]) ⟨rfl,rfl⟩

theorem home_reached : ∃ c t, household.Reachable (Careful home) before c ∧ t ∈ c.tasks ∧
    t.1.rest.head = some uploading ∧ c.state.state.sessions.lookup "token" = some alice ∧
    alice ∈ c.state.made := by
  have hforward : household.Reachable (Careful home) before
      ⟨before,[] ++ [(⟨.forwardLogin request,_⟩,household.first (.forwardLogin request))]⟩ :=
    Phased.Reachable.start .refl ⟨.forwardLogin request,trivial⟩
  have hplanned := hforward.act (t := before) [] (r := LoginPlan.default) rfl trivial
    ⟨⟨⟨rfl,nofun⟩,rfl⟩,rfl,rfl,rfl⟩
  have hanswered := hplanned.act (t := { before with logins := [welcome] }) []
    (r := Except.ok welcome) rfl trivial
    ⟨⟨⟨rfl,fun reply hreply => List.mem_singleton.mp hreply ▸ welcome_tells⟩,rfl⟩,rfl,rfl,rfl⟩
  have h₀ := hanswered.start (l := .login none welcome) ⟨.login none welcome,List.mem_singleton_self _⟩
  have h₁ := h₀.act [_] (r := .ok (200,queried)) rfl trivial (asks trivial (by
    intro key _ hkey
    cases hkey
    rfl))
  have h₂ := h₁.act [_] (r := ()) rfl trivial (does ⟨rfl,rfl⟩)
  have h₃ := h₂.act [_] (r := none) rfl trivial (does ⟨rfl,rfl⟩)
  have h₄ := h₃.act [_] (r := true) rfl trivial (asks trivial trivial)
  have h₅ := h₄.act [_] (r := .ok ()) rfl trivial (asks trivial trivial)
  have h₆ := h₅.act [_] (r := .ok alice.olm) rfl trivial
    (does (sem_outside (w := true) trivial (by exact ⟨home_ages,home_opens⟩)))
  have h₇ := h₆.act [_] (r := .ok ()) rfl trivial (asks trivial trivial)
  have h₈ := h₇.act [_] (r := ()) rfl (by
    intro x has_store hstage hnone
    cases hstage
    cases hnone) (does ⟨rfl,rfl⟩)
  have h₉ := h₈.act [_] (r := ()) rfl trivial (does rfl)
  have h₁₀ := h₉.act [_] (r := ()) rfl trivial (does ⟨rfl,rfl⟩)
  have h₁₁ := h₁₀.act [_] (r := ()) rfl trivial (asks trivial trivial)
  have h₁₂ := h₁₁.start (l := .pump alice) ⟨.pump alice,by exact Or.inr List.mem_cons_self⟩
  have h₁₃ := h₁₂.act [_,_] (r := ()) rfl trivial (does ⟨rfl,rfl⟩)
  have h₁₄ := h₁₃.act [_,_] (r := .ok [upload]) rfl trivial (asks trivial (by
    rintro x hx keys hkeys
    rw [List.mem_singleton.mp hx] at hkeys ⊢
    cases hkeys
    exact ⟨rfl,fun _ _ => rfl⟩))
  exact ⟨_,_,h₁₄,List.mem_append_right _ List.mem_cons_self,rfl,rfl,List.mem_cons_self⟩

theorem sessions_rightful_home : ∃ c, household.Reachable (fun _ _ _ => True) before c ∧
    alice ∈ c.state.made ∧ c.state.state.sessions.lookup "token" = some alice ∧
    home.Kept ⟨"store"⟩ c.state.state.world ("@alice:x","DEV") "key" := by
  obtain ⟨c,_,h,_,_,hlookup,hmade⟩ := home_reached
  have h' := h.mono fun _ _ _ _ => trivial
  obtain ⟨hown,hlive⟩ := sessions_rightful home_keeps before_fresh h'
  exact ⟨c,h',hmade,hlive alice hmade rfl,(hown "token" alice hlookup).2.2⟩

theorem keys_stay_uploading : ∃ c, household.Reachable (Careful home) before c ∧ ∃ t ∈ c.tasks,
    t.1.rest.head = some uploading ∧ ∀ s', household.sem uploading (.ok (200,.object [])) true c.state s' →
      ∀ key, home.published s'.state.world ("@alice:x","DEV") = some key → key = "key" := by
  obtain ⟨c,t,h,ht,ha,-⟩ := home_reached
  exact ⟨c,h,t,ht,ha,fun s' hstep key hkey => keys_stay home_keeps before_fresh h ht ha hstep rfl hkey⟩
end

end EmentE2ee.IdentityKeys
