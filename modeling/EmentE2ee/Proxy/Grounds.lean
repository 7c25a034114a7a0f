import EmentE2ee.Proxy.Commands

/-!
# What a call has grounds for

A call acts for contexts that it was given or has put into the map. It uploads keys that
the machine has handed out, tells the machine that a request was sent when the homeserver
has just accepted that request, removes a session whose token was rejected, and starts
one by the steps that end with an insertion under the map's lock. What it has learned from
its answers decides which of these it may do next.
-/
namespace EmentE2ee

open Concurrent
open Json (Value)

/-- What the machine hands out to be sent. -/
inductive Handed where
  | request (r : OutgoingRequest)
  | claim (id : String) (r : KeysClaimRequest)
  | backup (id : String) (r : BackupRequest)
  | query (id : String) (device_keys : Value)
  /-- The own device's keys. -/
  | device (keys : Value)

namespace Handed

/-- What the machine calls it. -/
def id : Handed → Option String
  | request r => some r.request_id
  | claim id _ | backup id _ | query id _ => some id
  | device _ => none

/-- Where it goes, and with which body. -/
def wire : Handed → Endpoint × Value
  | request r => r.request.wire
  | claim _ r => (.keysClaim,withTimeout r.timeout [("one_time_keys",r.one_time_keys)])
  | backup _ r => (.roomKeys r.version,.object [("rooms",r.rooms)])
  | query _ device_keys => (.keysQuery,.object [("device_keys",device_keys)])
  | device keys => (.keysUpload,.object [("device_keys",keys)])

end Handed

/-- The transaction ID that a path carries. -/
def Endpoint.txn : Endpoint → Option String
  | .sendToDevice _ txn_id | .sendEvent _ _ txn_id => some txn_id
  | _ => none

/-- A request that the homeserver has accepted, and its answer. -/
structure Accepted where
  token : String
  endpoint : Endpoint
  body : Value
  response : Value

variable [Codec]

/-- What an answer of the machine hands out, for which account. -/
def handed : (a : Act) → a.Ans → List (AccountContext × Handed)
  | .olm ctx .outgoingRequests,.ok requests => requests.map fun r => (ctx,.request r)
  | .olm ctx (.requestRoomKey ..),.ok requests =>
      (requests.1.toList ++ [requests.2]).map fun r => (ctx,.request r)
  | .olm ctx (.getMissingSessions _),.ok (some claim) => [(ctx,.claim claim.1 claim.2)]
  | .olm ctx .backup,.ok (some batch) => [(ctx,.backup batch.1 batch.2)]
  | .olm ctx .getDevice,.ok (some keys) => [(ctx,.device keys)]
  | _,_ => []

/-- What it hands out for one of them. -/
def given (ctx : AccountContext) (a : Act) (r : a.Ans) : List Handed :=
  (handed a r).filterMap fun x => if x.1 = ctx then some x.2 else none

theorem mem_given {ctx : AccountContext} {a : Act} {r : a.Ans} {h : Handed} :
    h ∈ given ctx a r ↔ (ctx,h) ∈ handed a r := by
  simp only [given,List.mem_filterMap,Option.ite_none_right_eq_some,Option.some.injEq,Prod.exists]
  constructor
  · rintro ⟨_,_,hmem,rfl,rfl⟩
    exact hmem
  · exact fun hmem => ⟨ctx,h,hmem,rfl,rfl⟩

def accepted : (a : Act) → a.Ans → Option Accepted
  | .request token endpoint (some body),.ok (status,response) =>
      if isSuccess status then some ⟨token,endpoint,body,response⟩ else none
  | _,_ => none

/-- The token that the homeserver does not know any more. -/
def rejected : (a : Act) → a.Ans → List String
  | .fetch token _,.ok reply => if is_unknown_token reply.status reply.bytes then [token] else []
  | .poll ctx _,some (.ok reply) =>
      if is_unknown_token reply.status reply.bytes then [ctx.token] else []
  | _,_ => []

/-- Whose a token is, where the homeserver tells who has logged in or who asks. -/
def identified (token : String) (body : Value) : Option (String × UserId × DeviceId) :=
  match (body.get "user_id").bind Value.asStr,(body.get "device_id").bind Value.asStr with
  | some user_id,some device_id => (parseUserId user_id).map fun user_id => (token,user_id,device_id)
  | _,_ => none

/-- What is said about tokens. -/
def named : (a : Act) → a.Ans → List (String × UserId × DeviceId)
  | .request token .whoami none,.ok (status,body) =>
      if isSuccess status then (identified token body).toList else []
  | _,_ => []

/-- The contexts that a call is given. -/
def met : (a : Act) → a.Ans → List AccountContext
  | .sessions (.get _),found => found.toList
  | .sessions .list,found => found
  | .sessions (.insert _ ctx),_ => [ctx]
  | _,_ => []

/-- Whose keys the homeserver is asked for, and what it has said: the published key, or
that there is none. -/
structure Asking where
  token : String
  user_id : UserId
  device_id : DeviceId
  published : Option (Option String)
  deriving DecidableEq

/-- How far a call is with a session. -/
inductive Stage where
  | arriving
  | asked (x : Asking)
  /-- It has the map's lock. -/
  | entered (x : Asking)
  /-- There is no session of the token. -/
  | vacant (x : Asking)
  | looked (x : Asking) (has_store : Bool)
  | opened (x : Asking) (has_store : Bool) (olm : OlmMachine)
  /-- It has a session. -/
  | serving
  deriving DecidableEq

/-- The user and the device whose keys a query asks for. -/
def askedFor : Value → Option (UserId × DeviceId)
  | .object [("device_keys",.object [(user_id,.array [.string device_id])])] => some (user_id,device_id)
  | _ => none

/-- What the answer to such a query says. -/
def learned (user_id : UserId) (device_id : DeviceId) :
    Except String (Nat × Value) → Option (Option String)
  | .ok (status,response) =>
      if isSuccess status then some (queriedKey user_id device_id response) else none
  | .error _ => none

def Stage.next : Stage → (a : Act) → a.Ans → Stage
  | .serving,_,_ => .serving
  | _,.sessions (.get _),some _ => .serving
  | _,.sessions .list,_ | _,.sessions (.insert ..),_ => .serving
  | .arriving,.request token .keysQuery (some body),answer =>
      (askedFor body).elim .arriving fun x => .asked ⟨token,x.1,x.2,learned x.1 x.2 answer⟩
  | .asked x,.lock .sessions,_ => .entered x
  | .entered x,.sessions (.get token),none => if token = x.token then .vacant x else .entered x
  | .vacant x,.hasStore _,has_store => .looked x has_store
  | .looked x has_store,.withStore ..,.ok olm => .opened x has_store olm
  -- The insertion is over, whatever has become of it.
  | _,.unlock .sessions,_ => .arriving
  | s,_,_ => s

/-- The context that is inserted, if its keys have to be published again. -/
def Stage.renews : Stage → Act → List AccountContext
  | .opened x true _,.sessions (.insert _ ctx) => if x.published = some none then [ctx] else []
  | _,_ => []

structure Grounds where
  stage : Stage
  named : List (String × UserId × DeviceId)
  known : List AccountContext
  /-- Contexts whose keys the homeserver has lost. -/
  renewing : List AccountContext
  handed : List (AccountContext × Handed)
  /-- What the last action was, if it was a request that the homeserver has accepted. -/
  accepted : Option Accepted
  rejected : List String

namespace Grounds

/-- A call that has no session yet, and knows whose the tokens are. -/
def arriving (named : List (String × UserId × DeviceId)) : Grounds :=
  ⟨.arriving,named,[],[],[],none,[]⟩

/-- A call for a context, whose keys may have to be published again. -/
def serving (ctx : AccountContext) (again : Bool) : Grounds :=
  ⟨.serving,[],[ctx],if again then [ctx] else [],[],none,[]⟩

def next (q : Grounds) (a : Act) (r : a.Ans) : Grounds where
  stage := q.stage.next a r
  named := EmentE2ee.named a r ++ q.named
  known := met a r ++ q.known
  renewing := q.stage.renews a ++ q.renewing
  handed := EmentE2ee.handed a r ++ q.handed
  accepted := EmentE2ee.accepted a r
  rejected := EmentE2ee.rejected a r ++ q.rejected

/-- The homeserver has just accepted the request of this ID, with this answer. -/
def Sent (q : Grounds) (ctx : AccountContext) (id : String) (response : Value) : Prop :=
  ∃ endpoint body, q.accepted = some ⟨ctx.token,endpoint,body,response⟩ ∧
    (endpoint.txn = some id ∨ ∃ h, (ctx,h) ∈ q.handed ∧ h.id = some id ∧ h.wire = (endpoint,body))

/-- Keys that the machine has handed out; the own device's again only where they are lost. -/
def Uploads (q : Grounds) (token : String) (body : Value) : Prop :=
  ∃ ctx h, (ctx,h) ∈ q.handed ∧ ctx.token = token ∧ h.wire = (.keysUpload,body) ∧
    ∀ keys, h = .device keys → ctx ∈ q.renewing

/-- Everything that has to be known before a session is started has been found out. -/
def Inserts (q : Grounds) (token : String) (ctx : AccountContext) : Prop :=
  ∃ x has_store, q.stage = .opened x has_store ctx.olm ∧ ctx = ⟨x.user_id,x.device_id,x.token,ctx.olm⟩ ∧
    token = x.token ∧ (x.token,x.user_id,x.device_id) ∈ q.named ∧
    (has_store = true → ∀ key, x.published = some (some key) → key = ctx.olm.ed25519)

/-- What a call may do next. -/
def May (config : Config) (q : Grounds) : Act → Prop
  | .olm ctx (.markRequestAsSent id response) => ctx ∈ q.known ∧ q.Sent ctx id response
  | .rooms ctx _ | .repairs ctx _ | .seen ctx _ | .stats ctx .. | .olm ctx _ => ctx ∈ q.known
  | .mediaGet ctx _ | .mediaInsert ctx .. | .poll ctx _ | .recordFinished ctx => ctx ∈ q.known
  | .spawn ctx (.sessionStart again) => ctx ∈ q.known ∧ (again = true → ctx ∈ q.renewing)
  | .spawn ctx _ => ctx ∈ q.known
  | .request token .keysUpload body => ∃ b, body = some b ∧ q.Uploads token b
  | .fetch token _ => ∃ ctx ∈ q.known, token = ctx.token
  | .sessions (.remove token) => token ∈ q.rejected
  | .sessions (.insert token ctx) => q.Inserts token ctx
  | .hasStore dir => ∃ x, q.stage = .vacant x ∧
      dir = account_store_dir config.store_dir x.user_id x.device_id
  | .withStore user_id device_id dir => ∃ x has_store, q.stage = .looked x has_store ∧
      user_id = x.user_id ∧ device_id = x.device_id ∧
      dir = account_store_dir config.store_dir x.user_id x.device_id ∧
      (has_store = false → x.published = some none)
  | _ => True

/-- The phases of programs with further actions, and of what these hand out. -/
def phases {B : Type} {S : B → Type} (config : Config)
    (give : (b : B) → S b → List (AccountContext × Handed)) :
    Phases (Act ⊕ B) (Sum.elim Act.Ans S) Grounds where
  may q := Sum.elim (q.May config) fun _ => True
  expects _ _ _ := True
  next q
    | .inl a,r => q.next a r
    | .inr b,r => { q with handed := give b r ++ q.handed,accepted := none }

/-- The phases of programs without. -/
def base (config : Config) : Phases Act Act.Ans Grounds where
  may := Grounds.May config
  expects _ _ _ := True
  next := Grounds.next

/-- It has a session, and nothing is left of starting one. -/
def settled (q : Grounds) : Prop := q.stage = .arriving ∨ q.stage = .serving

/-- It serves the context, whose machine has handed it the requests. -/
structure Serves (ctx : AccountContext) (hs : List Handed) (q : Grounds) : Prop where
  stage : q.stage = .serving
  known : ctx ∈ q.known
  handed : ∀ h ∈ hs, (ctx,h) ∈ q.handed

variable {config : Config} {ctx : AccountContext} {hs : List Handed} {q : Grounds}

theorem Serves.next (h : q.Serves ctx hs) (a : Act) (r : a.Ans) : (q.next a r).Serves ctx hs where
  stage := by rw [Grounds.next,h.stage]; rfl
  known := List.mem_append_right _ h.known
  handed x hx := List.mem_append_right _ (h.handed x hx)

/-- What the answer has handed out can be counted on from then on. -/
theorem Serves.given (h : q.Serves ctx hs) (a : Act) (r : a.Ans) :
    (q.next a r).Serves ctx (EmentE2ee.given ctx a r ++ hs) where
  stage := (h.next a r).stage
  known := (h.next a r).known
  handed x hx := by
    rcases List.mem_append.mp hx with hx | hx
    · exact List.mem_append_left _ (mem_given.mp hx)
    · exact (h.next a r).handed x hx

omit [Codec] in
theorem Serves.mono {hs' : List Handed} (h : q.Serves ctx hs) (hsub : ∀ x ∈ hs', x ∈ hs) :
    q.Serves ctx hs' := ⟨h.stage,h.known,fun x hx => h.handed x (hsub x hx)⟩

omit [Codec] in
theorem Serves.settled (h : q.Serves ctx hs) : q.settled := .inr h.stage

omit [Codec] in
/-- To begin with, nothing is handed out. -/
theorem serves_nil (hstage : q.stage = .serving) (hknown : ctx ∈ q.known) : q.Serves ctx [] :=
  ⟨hstage,hknown,List.forall_mem_nil _⟩

omit [Codec] in
theorem serving_serves (ctx : AccountContext) (again : Bool) : (serving ctx again).Serves ctx [] :=
  serves_nil rfl List.mem_cons_self

omit [Codec] in
/-- Own actions are allowed while the context is served. -/
theorem Serves.may (h : q.Serves ctx hs) {a : Act} (ha : a.own ctx) : q.May config a := by
  obtain ⟨⟨haccount,hfree⟩,hmodest⟩ := ha
  cases a with
  | olm c a =>
      obtain rfl : c = ctx := haccount
      cases a <;> first | exact h.known | exact hmodest.elim
  | request token endpoint body => cases endpoint <;> trivial
  | spawn c task =>
      obtain rfl : c = ctx := haccount
      cases task <;> first | exact h.known | exact hmodest.elim
  | sessions a => cases a <;> first | exact haccount.elim | cases hfree
  | encryptAttachment data => trivial
  | now => trivial
  | lock l => cases hfree
  | unlock l => cases hfree
  | fetch token path => exact ⟨ctx,h.known,haccount⟩
  | upload token filename content_type body => trivial
  | passthrough req => exact haccount.elim
  | hasStore dir => exact haccount.elim
  | openStore dir => exact haccount.elim
  | withStore user_id device_id dir => exact haccount.elim
  | openMedia path => exact haccount.elim
  | _ =>
      obtain rfl : _ = ctx := haccount
      exact h.known

end Grounds

/-- A program that keeps to what it has grounds for while it serves the context, whose
machine has handed it the requests. -/
def Grounded {A : Type} {R : A → Type} {α : Type} (P : Phases A R Grounds) (ctx : AccountContext)
    (hs : List Handed) (p : Prog A R α) : Prop :=
  ∀ q, q.Serves ctx hs → p.Follows P (fun _ q' => q'.Serves ctx hs) q

namespace Grounded

section
variable {A : Type} {R : A → Type} {α β ε : Type} {P : Phases A R Grounds} {ctx : AccountContext}
  {hs : List Handed}

omit [Codec] in
theorem ret (a : α) : Grounded P ctx hs (.ret a) := fun _ hq => hq

omit [Codec] in
theorem bind {p : Prog A R α} {f : α → Prog A R β} (hp : Grounded P ctx hs p)
    (hf : ∀ a, Grounded P ctx hs (f a)) : Grounded P ctx hs (p >>= f) :=
  fun q hq => (hp q hq).bind fun a q' hq' => hf a q' hq'

omit [Codec] in
theorem exceptBind {x : ExceptT ε (Prog A R) α} {f : α → ExceptT ε (Prog A R) β}
    (hx : Grounded P ctx hs x.run) (hf : ∀ a, Grounded P ctx hs (f a).run) :
    Grounded P ctx hs (x >>= f).run :=
  fun q hq => (hx q hq).andThen fun a q' hq' => hf a q' hq'

omit [Codec] in
theorem map {f : α → β} {p : Prog A R α} (hp : Grounded P ctx hs p) : Grounded P ctx hs (f <$> p) := by
  rw [← bind_pure_comp]
  exact hp.bind fun a => .ret (f a)

omit [Codec] in
theorem mapRet {f : α → β} {p : Prog A R α} (hp : Grounded P ctx hs p) :
    Grounded P ctx hs (p >>= fun a => .ret (f a)) := hp.bind fun a => .ret (f a)

end

section
variable {config : Config} {ctx : AccountContext} {hs : List Handed} {α : Type}

/-- An action whose answer may hand requests out. -/
theorem act {a : Act} {k : a.Ans → M α} (hmay : ∀ q : Grounds, q.Serves ctx hs → q.May config a)
    (hk : ∀ r, Grounded (Grounds.base config) ctx (given ctx a r ++ hs) (k r)) :
    Grounded (Grounds.base config) ctx hs (.act a k) := by
  refine fun q hq => ⟨hmay q hq,fun r _ => (hk r _ (hq.given a r)).mono fun _ q' hq' => ?_⟩
  exact hq'.mono fun x hx => List.mem_append_right _ hx

theorem ask {a : Act} {f : a.Ans → M α} (hmay : ∀ q : Grounds, q.Serves ctx hs → q.May config a)
    (hf : ∀ r, Grounded (Grounds.base config) ctx (given ctx a r ++ hs) (f r)) :
    Grounded (Grounds.base config) ctx hs (@Bind.bind M _ a.Ans α (EmentE2ee.act a) f) := act hmay hf

theorem of_may {T : Act → Prop} (hT : ∀ a, T a → ∀ q : Grounds, q.Serves ctx hs → q.May config a)
    {p : M α} (h : p.Does T) : Grounded (Grounds.base config) ctx hs p :=
  fun _ hq => Prog.Follows.of_does (J := fun q => q.Serves ctx hs)
    (fun a ha q hq => ⟨hT a ha q hq,fun r _ => hq.next a r⟩) h hq

theorem of_own {p : M α} (h : p.Does (Act.own ctx)) : Grounded (Grounds.base config) ctx hs p :=
  .of_may (fun _ ha _ hq => hq.may ha) h

theorem «section» {l : Lock} {p : M α} (hp : Grounded (Grounds.base config) ctx hs p) :
    Grounded (Grounds.base config) ctx hs (withLock l p) := by
  have hlock : ∀ a, a = .lock l ∨ a = .unlock l → ∀ q : Grounds, q.Serves ctx hs → q.May config a := by
    rintro _ (rfl | rfl) _ _ <;> trivial
  refine .bind (.of_may hlock ⟨.inl rfl,fun _ => trivial⟩) fun _ => .bind hp fun r => ?_
  exact .bind (.of_may hlock ⟨.inr rfl,fun _ => trivial⟩) fun _ => .ret r

/-- A request, after which it is known whether the homeserver has accepted it. -/
theorem post {endpoint : Endpoint} {body : Value} {f : Nat × Value → Fallible α}
    (hmay : ∀ q : Grounds, q.Serves ctx hs → q.May config (.request ctx.token endpoint (some body)))
    (hf : ∀ answer (q : Grounds), q.Serves ctx hs → (isSuccess answer.1 = true →
      q.accepted = some ⟨ctx.token,endpoint,body,answer.2⟩) →
        (f answer).run.Follows (Grounds.base config) (fun _ q' => q'.Serves ctx hs) q) :
    Grounded (Grounds.base config) ctx hs (json_request ctx.token endpoint (some body) >>= f).run := by
  intro q hq
  rw [json_request,run_call_bind]
  refine ⟨hmay q hq,fun r _ => ?_⟩
  have hnext := hq.next (.request ctx.token endpoint (some body)) r
  cases r with
  | error m => exact hnext
  | ok answer => exact hf answer _ hnext fun hsuccess => if_pos hsuccess

/-- The machine is told what the homeserver has accepted. -/
theorem mark {q : Grounds} {id : String} {kind : ResponseKind} {response : Value}
    (hq : q.Serves ctx hs) (hsent : q.Sent ctx id response) :
    (mark_request_as_sent ctx id kind response).run.Follows (Grounds.base config)
      (fun _ q' => q'.Serves ctx hs) q := by
  unfold mark_request_as_sent parse_response
  split_ifs
  · refine ⟨⟨hq.known,hsent⟩,fun r _ => ?_⟩
    exact hq.next _ r
  · exact hq

/-- A request of an ID, and its answer fed back. -/
theorem post_mark {endpoint : Endpoint} {body : Value} {id : String} {kind : ResponseKind}
    {message : Nat × Value → String}
    (hmay : ∀ q : Grounds, q.Serves ctx hs → q.May config (.request ctx.token endpoint (some body)))
    (hid : endpoint.txn = some id ∨ ∃ h ∈ hs, h.id = some id ∧ h.wire = (endpoint,body)) :
    Grounded (Grounds.base config) ctx hs (json_request ctx.token endpoint (some body) >>= fun answer =>
      if isSuccess answer.1 then mark_request_as_sent ctx id kind answer.2
      else fail (message answer)).run := by
  refine .post hmay fun answer q hq haccepted => ?_
  split_ifs with hsuccess
  · refine mark hq ⟨endpoint,body,haccepted hsuccess,hid.imp_right fun ⟨h,hh,hrest⟩ => ?_⟩
    exact ⟨h,hq.handed h hh,hrest⟩
  · exact hq

end
end Grounded

section
variable {config : Config} {ctx : AccountContext} {hs : List Handed} {α : Type}

theorem send_and_mark_grounded {request : OutgoingRequest} (h : .request request ∈ hs) :
    Grounded (Grounds.base config) ctx hs (send_and_mark ctx request).run := by
  unfold send_and_mark
  refine .post_mark (fun q hq => ?_) (.inr ⟨_,h,rfl,rfl⟩)
  obtain ⟨id,r⟩ := request
  cases r with
  | keysUpload r => exact ⟨_,rfl,ctx,_,hq.handed _ h,rfl,rfl,nofun⟩
  | _ => trivial

theorem send_all_grounded {requests : List OutgoingRequest} (h : ∀ r ∈ requests, .request r ∈ hs) :
    Grounded (Grounds.base config) ctx hs (send_all ctx requests).run := by
  induction requests with
  | nil => exact .ret _
  | cons request requests ih =>
      exact .exceptBind (send_and_mark_grounded (h _ List.mem_cons_self)) fun _ =>
        ih fun r hr => h r (List.mem_cons_of_mem _ hr)

theorem send_keys_claim_grounded {id : String} {request : KeysClaimRequest}
    (h : .claim id request ∈ hs) :
    Grounded (Grounds.base config) ctx hs (send_keys_claim ctx id request).run :=
  .post_mark (fun _ _ => trivial) (.inr ⟨_,h,rfl,rfl⟩)

theorem send_to_device_grounded (request : ToDeviceRequest) :
    Grounded (Grounds.base config) ctx hs (send_to_device ctx request).run :=
  .post_mark (fun _ _ => trivial) (.inl rfl)

theorem upload_backups_grounded (n : Nat) :
    Grounded (Grounds.base config) ctx hs (upload_backups ctx n).run := by
  induction n generalizing hs with
  | zero => exact .ret _
  | succ n ih =>
      unfold upload_backups
      rw [run_call_bind]
      refine .act (fun q hq => hq.known) fun r => ?_
      rcases r with m | _ | ⟨id,request⟩
      · exact .ret _
      · exact .ret _
      · have hgiven : .backup id request ∈ given ctx (.olm ctx .backup) (.ok (some (id,request))) :=
          mem_given.mpr List.mem_cons_self
        refine .post (fun _ _ => trivial) fun answer q hq haccepted => ?_
        dsimp only
        split_ifs with hsuccess
        · refine Prog.Follows.andThen (Grounded.mark hq ?_) fun _ q' hq' => ih q' hq'
          exact ⟨_,_,haccepted hsuccess,.inr ⟨_,hq.handed _ (List.mem_append_left _ hgiven),rfl,rfl⟩⟩
        · exact hq

theorem drain_grounded (fuel : Nat) : Grounded (Grounds.base config) ctx hs (drain ctx fuel) := by
  induction fuel generalizing hs with
  | zero => exact .ret _
  | succ fuel ih =>
      refine .ask (fun q hq => hq.known) fun queued => ?_
      cases queued with
      | error e => exact .ret _
      | ok requests =>
          have hgiven : ∀ r ∈ requests,
              .request r ∈ given ctx (.olm ctx .outgoingRequests) (.ok requests) ++ hs := fun r hr =>
            List.mem_append_left _ (mem_given.mpr (List.mem_map_of_mem hr))
          cases requests with
          | nil => exact .ret _
          | cons request requests =>
              refine .bind (send_all_grounded hgiven) fun sent => ?_
              cases sent with
              | error e => exact .ret _
              | ok _ => exact ih

theorem pump_grounded (fuel : Nat) : Grounded (Grounds.base config) ctx hs (pump fuel ctx) := by
  refine .section (.bind (drain_grounded fuel) fun drained => ?_)
  split_ifs
  · refine .bind (.exceptBind (.of_own (by simp [Act.own,Act.lone])) fun enabled => ?_) fun _ => .ret _
    split_ifs
    · exact upload_backups_grounded 100
    · exact .ret _
  · exact .ret _

/-- The own keys are uploaded again where the homeserver has lost them. -/
theorem republish_follows {q : Grounds} (hq : q.Serves ctx hs) (hrenewing : ctx ∈ q.renewing) :
    (republish ctx).run.Follows (Grounds.base config) (fun _ q' => q'.Serves ctx hs) q := by
  unfold republish
  rw [run_call_bind]
  refine ⟨hq.known,fun device _ => ?_⟩
  rcases device with e | _ | keys
  · exact hq.next _ _
  · exact hq.next _ _
  · have hserves := hq.given (.olm ctx .getDevice) (.ok (some keys))
    have hgiven : .device keys ∈ given ctx (.olm ctx .getDevice) (.ok (some keys)) :=
      mem_given.mpr List.mem_cons_self
    change (json_request ctx.token .keysUpload _ >>= _).run.Follows _ _ _
    rw [json_request,run_call_bind]
    refine ⟨⟨_,rfl,ctx,_,hserves.handed _ (List.mem_append_left _ hgiven),rfl,rfl,?_⟩,fun answer _ => ?_⟩
    · exact fun _ _ => List.mem_append_right _ hrenewing
    · have hq' := (hq.next (.olm ctx .getDevice) (.ok (some keys))).next (.request ctx.token .keysUpload _) answer
      cases answer with
      | error m => exact hq'
      | ok answer =>
          change Prog.Follows _ _ _ (if isSuccess answer.1 then pure ()
            else fail (report "keys/upload answered" answer.1 answer.2) : Fallible Unit).run
          split_ifs <;> exact hq'

theorem session_start_follows (fuel : Nat) (again : Bool) :
    (session_start fuel ctx again).Follows (Grounds.base config) (fun _ q' => q'.Serves ctx [])
      (.serving ctx again) := by
  have hserves := Grounds.serving_serves ctx again
  unfold session_start
  split_ifs with h
  · refine Prog.Follows.bind (republish_follows hserves ?_) fun _ q' hq' => pump_grounded fuel q' hq'
    rw [Grounds.serving,if_pos h]
    exact List.mem_cons_self
  · exact pump_grounded fuel _ hserves

theorem send_shares_grounded (requests : List ToDeviceRequest) :
    Grounded (Grounds.base config) ctx hs (send_shares ctx requests).run := by
  induction requests with
  | nil => exact .ret _
  | cons request requests ih =>
      refine .exceptBind ?_ fun _ => ih
      rw [run_withContext]
      exact (send_to_device_grounded request).mapRet

/-- The one-time keys to be claimed are handed out. -/
theorem missing_follows {q : Grounds} (hq : q.Serves ctx hs) (members : List UserId) :
    (withContext "get_missing_sessions failed"
      (call (EmentE2ee.act (.olm ctx (.getMissingSessions members))))).run.Follows (Grounds.base config)
        (fun r q' => q'.Serves ctx hs ∧ ∀ m, r = .ok (some m) → (ctx,.claim m.1 m.2) ∈ q'.handed) q := by
  rw [run_withContext]
  refine ⟨hq.known,fun r _ => ⟨hq.next _ _,fun m hm => ?_⟩⟩
  rcases r with e | _ | claim
  · cases hm
  · cases hm
  · cases hm
    exact List.mem_append_left _ List.mem_cons_self

theorem claim_share_encrypt_grounded (fuel : Nat) (room_id : RoomId) (event_type : String)
    (content : Value) (members : List UserId) :
    Grounded (Grounds.base config) ctx hs
      (claim_share_encrypt fuel ctx room_id event_type content members).run := by
  refine .exceptBind (.of_own (by simp [Act.own,Act.lone])) fun _ => .exceptBind ?_ fun _ => ?_
  · rw [ExceptT.run_lift]
    exact (pump_grounded fuel).map
  refine fun q hq => (missing_follows hq members).exceptBind (fun missing q' hq' => ?_) fun _ _ h => h.1
  refine Prog.Follows.andThen (J := Grounds.Serves ctx hs) ?_ fun _ q'' hq'' => ?_
  · cases missing with
    | none => exact hq'.1
    | some claim =>
        have hserves : q'.Serves ctx (.claim claim.1 claim.2 :: hs) :=
          ⟨hq'.1.stage,hq'.1.known,List.forall_mem_cons.mpr ⟨hq'.2 claim rfl,hq'.1.handed⟩⟩
        change (withContext _ _).run.Follows _ _ _
        rw [run_withContext]
        exact ((send_keys_claim_grounded List.mem_cons_self).mapRet q' hserves).mono fun _ _ h =>
          h.mono fun x hx => List.mem_cons_of_mem _ hx
  · refine Grounded.exceptBind (.of_own (encryption_settings_own room_id)) (fun settings => ?_) q'' hq''
    refine .exceptBind (.of_own (by simp [Act.own,Act.lone])) fun requests => ?_
    refine .exceptBind (send_shares_grounded requests) fun _ => .of_own ?_
    split
    · simp
    · refine .exceptBind (by simp [Act.own,Act.lone]) fun encrypted => ?_
      split <;> simp

theorem encrypt_content_grounded (fuel : Nat) (room_id : RoomId) (event_type : String)
    (content : Value) :
    Grounded (Grounds.base config) ctx hs (encrypt_content fuel ctx room_id event_type content).run :=
  .exceptBind (.of_own (joined_members_own room_id)) fun members =>
    .section (claim_share_encrypt_grounded fuel room_id event_type content members)

theorem send_verification_request_grounded (fuel : Nat) (outgoing : OutgoingVerificationRequest) :
    Grounded (Grounds.base config) ctx hs (send_verification_request fuel ctx outgoing).run := by
  cases outgoing with
  | toDevice r => exact send_to_device_grounded r
  | inRoom r =>
      have hsend : ∀ (wire_type : String) (wire_content : Value), Grounded (Grounds.base config) ctx hs
          (json_request ctx.token (.sendEvent r.room_id wire_type r.txn_id) (some wire_content) >>=
            fun answer => if isSuccess answer.1 then
                mark_request_as_sent ctx r.txn_id .roomMessage answer.2
              else fail (report "in-room verification send failed" answer.1 answer.2)).run :=
        fun _ _ => .post_mark (fun _ _ => trivial) (.inl rfl)
      refine .exceptBind (.of_own (is_room_encrypted_own r.room_id)) fun encrypted => ?_
      dsimp only
      split_ifs
      · exact .exceptBind (encrypt_content_grounded fuel _ _ _) fun content =>
          .exceptBind (.ret _) fun wire => hsend _ _
      · exact .exceptBind (.ret _) fun wire => hsend _ _

theorem request_room_key_grounded (room_id : RoomId) (raw : Value) (session_id : String) :
    Grounded (Grounds.base config) ctx hs (request_room_key ctx room_id raw session_id) := by
  refine .bind (.section ?_) fun result => .of_own ?_
  · rw [run_call_bind]
    refine .ask (fun q hq => hq.known) fun requests => ?_
    rcases requests with e | ⟨cancellation,request⟩
    · exact .ret _
    have hgiven : ∀ x, x ∈ cancellation.toList ++ [request] → .request x ∈
        given ctx (.olm ctx (.requestRoomKey raw room_id)) (.ok (cancellation,request)) ++ hs := fun x hx =>
      List.mem_append_left _ (mem_given.mpr (List.mem_map_of_mem hx))
    refine .exceptBind ?_ fun _ => send_and_mark_grounded (hgiven request (by simp))
    cases cancellation with
    | none => exact .ret _
    | some cancellation => exact send_and_mark_grounded (hgiven cancellation (by simp))
  · split <;> simp [Act.own,Act.lone]

/-- A session is removed only where its token was rejected. -/
theorem finish_sync_follows {q : Grounds} (hq : q.Serves ctx hs) (reply : Reply)
    (hrejected : is_unknown_token reply.status reply.bytes = true → ctx.token ∈ q.rejected) :
    (finish_sync ctx reply).run.Follows (Grounds.base config) (fun _ q' => q'.Serves ctx hs) q := by
  unfold finish_sync
  split_ifs with hsuccess htoken
  · split
    · exact hq
    · next body _ =>
        refine Grounded.exceptBind ?_ (fun _ => .of_own (.exceptBind ?_ fun body => ?_)) q hq
        · obtain ⟨p,he,hp⟩ := receive_section body
          rw [run_internally,run_attempt,he]
          exact (Grounded.section (.of_own hp)).mapRet
        · rw [orPanic_does]
          exact process_sync_body_own body
        · exact .exceptBind (by simp [Act.own,Act.lone]) fun _ => by simp
  · exact ⟨hrejected htoken,fun _ _ => hq.next _ _⟩
  · exact hq

theorem repair_only_grounded (since : String) :
    Grounded (Grounds.base config) ctx hs (repair_only_response ctx since).run :=
  .of_own (.exceptBind (by simpa using inject_own _) fun _ => by simp)

theorem handle_sync_grounded (req : Request) :
    Grounded (Grounds.base config) ctx hs (handle_sync ctx req).run := by
  intro q hq
  unfold handle_sync
  split
  · rw [ExceptT.run_bind,run_fromUpstream]
    refine ⟨⟨ctx,hq.known,rfl⟩,fun answer _ => ?_⟩
    have hnext := hq.next (.fetch ctx.token req.path_and_query) answer
    cases answer with
    | error m => exact hnext
    | ok reply => exact finish_sync_follows hnext reply fun h => by simp [Grounds.next,rejected,h]
  · next since _ =>
      refine Grounded.exceptBind (.of_own (by simp [Act.own,Act.lone])) (fun ready => ?_) q hq
      split_ifs
      · exact repair_only_grounded since
      intro q hq
      refine ⟨hq.known,fun answer _ => ?_⟩
      have hnext := hq.next (.poll ctx req.path_and_query) answer
      rcases answer with _ | m | reply
      · exact repair_only_grounded since _ hnext
      · exact hnext
      · exact finish_sync_follows hnext reply fun h => by simp [Grounds.next,rejected,h]

theorem passthrough_grounded (req : Request) :
    Grounded (Grounds.base config) ctx hs (passthrough req).run :=
  .of_may (T := fun a => a = .passthrough (forwarded req)) (fun _ ha _ _ => ha ▸ trivial)
    (passthrough_does.mpr rfl)

theorem handle_send_grounded (fuel : Nat) (req : Request) (room_id event_type txn_id : String) :
    Grounded (Grounds.base config) ctx hs (handle_send fuel ctx req room_id event_type txn_id).run := by
  unfold handle_send
  split
  · exact passthrough_grounded req
  · next room _ =>
      split_ifs
      · exact passthrough_grounded req
      refine .exceptBind (.of_own (by simpa using is_room_encrypted_own room)) fun encrypted => ?_
      refine .exceptBind (.of_own (by simp)) fun bytes => ?_
      split
      · exact .ret _
      · next content _ =>
          dsimp only
          split_ifs
          · refine .exceptBind (.of_own (by simpa using rewrite_content_own content)) fun content => ?_
            refine .exceptBind ?_ fun body => ?_
            · rw [run_internally,run_withContext]
              exact (encrypt_content_grounded fuel room event_type content).mapRet.mapRet
            · rw [pure_bind]
              exact .of_own (.exceptBind (by simp [Act.own,Act.lone]) fun _ => by simp)
          · refine .of_own (.exceptBind (by simpa using reupload_own content) fun body => ?_)
            rw [pure_bind]
            exact .exceptBind (by simp [Act.own,Act.lone]) fun _ => by simp

end
end EmentE2ee
