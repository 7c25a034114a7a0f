import EmentE2ee.Proxy.Handle

/-!
# When no session can be started

A start that fails over the device's keys is answered with an error. After any other
failure the request is passed through, with whatever the client wrote in it.
-/
namespace EmentE2ee.FailClosed

open Concurrent
open Json (Value)

section
variable [Codec]

/-- Actions with their answers. -/
abbrev Event := Sigma Act.Ans

/-- Sends a client's body on as it came. -/
def forwardsBody (req : Request) : Act → Prop
  | .passthrough sent => sent.body = req.body
  | .request _ (.original _) _ => True
  | .upload _ _ _ body => body = req.body
  | _ => False

/-- Whose token it is, and of which device. -/
def owner (body : Value) : Option (UserId × DeviceId) :=
  ((body.get "user_id").bind Value.asStr).bind fun user_id =>
    ((body.get "device_id").bind Value.asStr).bind fun device_id =>
      (parseUserId user_id).map fun user_id => (user_id,device_id)

/-- The homeserver says that the token is not good. -/
def rejects (token : String) : Event → Prop
  | ⟨.request t .whoami none,answer⟩ => t = token ∧ ∃ body, answer = .ok (401,body)
  | _ => False

/-- Ends the start of a session for another reason than its device's keys: the
homeserver does not say whose token it is, or a store does not open. -/
def breaks : Event → Prop
  | ⟨.request _ .whoami none,.ok (status,body)⟩ => ¬ (isSuccess status = true ∧ (owner body).isSome)
  | ⟨.request _ .whoami none,.error _⟩ => True
  | ⟨.openStore _,.error _⟩ | ⟨.withStore ..,.error _⟩ | ⟨.openMedia _,.error _⟩ => True
  | _ => False

/-- A start that is told nothing of the kind succeeds or fails over the device's keys. -/
def Blames {α : Type} (es : List Event) : Except Error α → Prop
  | .ok _ => ∀ e ∈ es, ¬ breaks e
  | .error e => e.aboutDevice = false ↔ ∃ ev ∈ es, breaks ev

/-- Only the actions that end a start matter. -/
theorem Blames.of_same {α : Type} {es es' : List Event} {r : Except Error α}
    (hsame : ∀ ev, breaks ev → (ev ∈ es ↔ ev ∈ es')) (h : Blames es r) : Blames es' r := by
  cases r with
  | ok x =>
      have hnone : ∀ ev ∈ es, ¬ breaks ev := h
      exact fun ev hev hb => hnone ev ((hsame ev hb).mpr hev) hb
  | error e =>
      refine h.trans ⟨?_,?_⟩
      · rintro ⟨ev,hev,hb⟩
        exact ⟨ev,(hsame ev hb).mp hev,hb⟩
      · rintro ⟨ev,hev,hb⟩
        exact ⟨ev,(hsame ev hb).mpr hev,hb⟩

/-- Every way in which the program can be answered is such. -/
def Blaming {α : Type} (p : Fallible α) : Prop :=
  ∀ es r, Prog.Did p.run es (.ret r) → Blames es r

theorem Blaming.bind {α β : Type} {x : Fallible α} {f : α → Fallible β} (hx : Blaming x)
    (hf : ∀ a, Blaming (f a)) : Blaming (x >>= f) := by
  intro es r h
  rw [ExceptT.run_bind] at h
  obtain ⟨es₁,es₂,a,rfl,h₁,h₂⟩ := Prog.did_bind h
  have hfirst := hx es₁ a h₁
  cases a with
  | error e =>
      cases h₂
      rw [List.append_nil]
      exact hfirst
  | ok a =>
      have hnone : ∀ ev ∈ es₁, ¬ breaks ev := hfirst
      refine (hf a es₂ r h₂).of_same fun ev hb => ⟨List.mem_append_right _,fun hev => ?_⟩
      exact (List.mem_append.mp hev).resolve_left fun hev => hnone ev hev hb

theorem blaming_pure {α : Type} (a : α) : Blaming (pure a : Fallible α) := by
  intro es r h
  cases h
  exact fun ev hev => by simp at hev

/-- An action that ends no start. -/
theorem blaming_step {a : Act} (ha : ∀ r, ¬ breaks ⟨a,r⟩) : Blaming (step a) := by
  intro es r h
  cases h with
  | cons h =>
      cases h
      intro ev hev
      cases List.mem_singleton.mp hev
      exact ha _

/-- An error over the device's keys. -/
theorem blaming_throw {α : Type} {e : Error} (he : e.aboutDevice = true) :
    Blaming (throw e : Fallible α) := by
  intro es r h
  cases h
  simp [Blames,he]

theorem Blaming.withContext {α : Type} {p : Fallible α} (hp : Blaming p) (message : String) :
    Blaming (withContext message p) := by
  intro es r h
  rw [run_withContext] at h
  obtain ⟨es₁,es₂,a,rfl,h₁,h₂⟩ := Prog.did_bind h
  cases h₂
  rw [List.append_nil]
  have hfirst := hp es₁ a h₁
  cases a with
  | ok a => exact hfirst
  | error e => exact hfirst

/-- Opening a store or the media cache. -/
theorem blaming_call {α : Type} {p : M (Except String α)} (hp : ∀ es r, Prog.Did p es (.ret r) →
    (∀ x, r = .ok x → ∀ ev ∈ es, ¬ breaks ev) ∧ ∀ m, r = .error m → ∃ ev ∈ es, breaks ev) :
    Blaming (call p) := by
  intro es r h
  rw [run_call] at h
  obtain ⟨es₁,es₂,a,rfl,h₁,h₂⟩ := Prog.did_bind h
  cases h₂
  rw [List.append_nil]
  obtain ⟨hok,herror⟩ := hp es₁ a h₁
  cases a with
  | ok x => exact hok x rfl
  | error m => exact iff_of_true rfl (herror m rfl)

theorem open_machine_blames (store_dir : String) (user_id : UserId) (device_id : DeviceId) :
    Blaming (open_machine store_dir user_id device_id) := by
  refine .bind (.withContext (blaming_call fun es r h => ?_) _) fun _ =>
    .withContext (blaming_call fun es r h => ?_) _
  · cases h with
    | cons h =>
        cases h
        exact ⟨fun x hx => by simp [hx,breaks],fun m hm => by simp [hm,breaks]⟩
  · cases h with
    | cons h =>
        cases h
        exact ⟨fun x hx => by simp [hx,breaks],fun m hm => by simp [hm,breaks]⟩

theorem refuse_session_blames {α : Type} (conflict : DeviceConflict) :
    Blaming (SessionManager.refuse_session conflict : Fallible α) :=
  .bind (blaming_step fun _ => id) fun _ => blaming_throw rfl

theorem check_new_device_blames (user_id : UserId) (device_id : DeviceId)
    (published : Except Error (Option String)) :
    Blaming (SessionManager.check_new_device user_id device_id published) := by
  unfold SessionManager.check_new_device
  split
  · exact blaming_pure ()
  · exact refuse_session_blames _
  · exact blaming_throw rfl

theorem check_store_blames (user_id : UserId) (device_id : DeviceId) (store_dir : String)
    (olm : OlmMachine) (published : Except Error (Option String)) :
    Blaming (SessionManager.check_store user_id device_id store_dir olm published) := by
  unfold SessionManager.check_store
  split
  · split_ifs
    · exact blaming_pure _
    · exact refuse_session_blames _
  · exact blaming_pure _
  · exact blaming_pure _

theorem insert_locked_blames (config : Config) (token : String) (user_id : UserId)
    (device_id : DeviceId) (published : Except Error (Option String)) :
    Blaming (SessionManager.insert_locked config token user_id device_id published) := by
  refine .bind (blaming_step fun _ => id) fun present => ?_
  cases present with
  | some ctx => exact blaming_pure _
  | none =>
      refine .bind (blaming_step fun _ => id) fun has_store => ?_
      refine .bind ?_ fun _ => .bind (open_machine_blames _ _ _) fun olm => .bind ?_ fun republish => ?_
      · split_ifs
        · exact blaming_pure ()
        · exact check_new_device_blames _ _ _
      · split_ifs
        · exact check_store_blames _ _ _ _ _
        · exact blaming_pure _
      refine .bind (blaming_call fun es r h => ?_) fun _ =>
        .bind (blaming_step fun _ => id) fun _ => blaming_pure _
      cases h with
      | cons h =>
          cases h
          exact ⟨fun x hx => by simp [hx,breaks],fun m hm => by simp [hm,breaks]⟩

/-- Actions that end no start whatever they are answered. -/
def harmless (a : Act) : Prop := ∀ r, ¬ breaks ⟨a,r⟩

theorem harmless_events {α : Type} {p q : M α} (hp : p.Does harmless) {es : List Event}
    (h : Prog.Did p es q) : ∀ ev ∈ es, ¬ breaks ev := by
  induction h with
  | nil p => simp
  | @cons _ _ r _ _ _ ih =>
      intro ev hev
      obtain rfl | hev := List.mem_cons.mp hev
      · exact hp.1 r
      · exact ih (hp.2 r) ev hev

theorem blaming_lift {α : Type} {p : M α} (hp : p.Does harmless) :
    Blaming (ExceptT.lift p) := by
  intro es r h
  rw [ExceptT.run_lift,← bind_pure_comp] at h
  obtain ⟨es₁,es₂,a,rfl,h₁,h₂⟩ := Prog.did_bind h
  cases h₂
  rw [List.append_nil]
  exact harmless_events hp h₁

theorem blaming_withLock {α : Type} {l : Lock} {p : Fallible α} (hp : Blaming p) :
    Blaming (attempt (withLock l p.run)) := by
  intro es r h
  rw [run_attempt,withLock_eq] at h
  cases h with
  | cons h =>
      obtain ⟨es₁,es₂,a,rfl,h₁,h₂⟩ := Prog.did_bind h
      cases h₂ with
      | cons h₂ =>
          cases h₂
          refine (hp es₁ r h₁).of_same fun ev hb => ⟨fun hev => by simp [hev],fun hev => ?_⟩
          simp only [List.mem_cons,List.mem_append,List.not_mem_nil,or_false] at hev
          obtain rfl | hev | rfl := hev
          · exact hb.elim
          · exact hev
          · exact hb.elim

theorem published_identity_harmless (token : String) (user_id : UserId) (device_id : DeviceId) :
    (published_identity token user_id device_id).run.Does harmless := by
  refine .exceptBind ?_ fun answer => ?_
  · rw [withContext_does,json_request_does]
    exact fun _ => id
  · dsimp only
    split_ifs <;> simp

theorem insert_blames (config : Config) {token user_id device_id : String} {user : UserId}
    (huser : parseUserId user_id = some user) :
    Blaming (SessionManager.insert config token user_id device_id) := by
  unfold SessionManager.insert
  rw [huser]
  refine .bind (blaming_lift (published_identity_harmless _ _ _)) fun published =>
    .bind (blaming_withLock (insert_locked_blames _ _ _ _ _)) fun r => ?_
  obtain ⟨ctx,republish⟩ := r
  cases republish with
  | none => exact blaming_pure _
  | some republish =>
      exact .bind (blaming_step fun _ => id) fun _ => .bind (blaming_step fun _ => id) fun _ =>
        .bind (blaming_step fun _ => id) fun _ => blaming_pure _

/-- A start fails over something else than the device's keys exactly if one of its
actions was answered so. -/
theorem get_or_init_blames (config : Config) (token : String) :
    Blaming (SessionManager.get_or_init config token) := by
  refine .bind (blaming_step fun _ => id) fun present => ?_
  cases present with
  | some ctx => exact blaming_pure _
  | none =>
      intro es r h
      dsimp only at h
      rw [json_request,run_call_bind,act_bind] at h
      cases h with
      | @cons _ _ answer es _ h =>
          have hfailed : breaks ⟨.request token .whoami none,answer⟩ → ∀ {e : Error},
              es = [] → r = .error e → e.aboutDevice = false →
                Blames (⟨.request token .whoami none,answer⟩ :: es) r := by
            rintro hb e rfl rfl he
            exact iff_of_true he ⟨_,List.mem_singleton_self _,hb⟩
          cases answer with
          | error m =>
              cases h
              exact hfailed trivial rfl rfl rfl
          | ok answer =>
              obtain ⟨status,body⟩ := answer
              dsimp only at h
              split_ifs at h with hsuccess
              · have hunusable : owner body = none →
                    breaks ⟨.request token .whoami none,.ok (status,body)⟩ :=
                  fun hnone hb => by simp [hnone] at hb
                cases hu : (body.get "user_id").bind Value.asStr with
                | none =>
                    rw [hu] at h
                    cases h
                    exact hfailed (hunusable (by simp [owner,hu])) rfl rfl rfl
                | some user_id =>
                    cases hd : (body.get "device_id").bind Value.asStr with
                    | none =>
                        rw [hu,hd] at h
                        cases h
                        exact hfailed (hunusable (by simp [owner,hu,hd])) rfl rfl rfl
                    | some device_id =>
                        rw [hu,hd] at h
                        dsimp only at h
                        cases hp : parseUserId user_id with
                        | none =>
                            unfold SessionManager.insert at h
                            rw [hp] at h
                            cases h
                            exact hfailed (hunusable (by simp [owner,hu,hd,hp])) rfl rfl rfl
                        | some user =>
                            have howned : ¬ breaks ⟨.request token .whoami none,.ok (status,body)⟩ :=
                              fun hb => hb ⟨hsuccess,by simp [owner,hu,hd,hp]⟩
                            refine (insert_blames config hp es r h).of_same fun ev hb =>
                              ⟨List.mem_cons_of_mem _,fun hev => ?_⟩
                            exact (List.mem_cons.mp hev).resolve_left fun he => howned (he ▸ hb)
              · cases h
                exact hfailed (fun hb => hsuccess hb.1) rfl rfl rfl

/-- Requests whose body is only to leave encrypted. -/
def Confidential (req : Request) : Prop :=
  (∃ room_id event_type txn_id, classify req.method req.path = .send room_id event_type txn_id ∧
    event_type ≠ "m.room.encrypted") ∨ classify req.method req.path = .mediaUpload

/-- How a failed start is answered, if it is. -/
def refusal (e : Error) : Option ProxyError :=
  match e.asConflict,e.asUnchecked with
  | some conflict,_ => some (.deviceConflict conflict)
  | none,some unchecked => some (.deviceUnchecked unchecked)
  | none,none => none

omit [Codec] in
theorem refusal_none_iff (e : Error) : refusal e = none ↔ e.aboutDevice = false := by
  unfold refusal Error.aboutDevice
  cases e.asConflict <;> cases e.asUnchecked <;> simp

variable {h : Handlers} {fuel : Nat} {config : Config} {req : Request} {token : String}

/-- What follows the start of a session. -/
def afterStart (req : Request) (intercept : AccountContext → ProxyM Response) :
    Except Error AccountContext → M (Except Abort Response)
  | .ok ctx => (intercept ctx).run
  | .error e => (refusal e).elim (passthrough req).run fun x => .ret (.error (.error x))

theorem with_context_eq (htoken : bearer_token req = some token)
    (intercept : AccountContext → ProxyM Response) : (with_context config req intercept).run =
      (SessionManager.get_or_init config token).run >>= afterStart req intercept := by
  rw [with_context,htoken,context_for,ExceptT.run_bind,ExceptT.run_bind,ExceptT.run_lift,
    ← bind_pure_comp,Prog.bind_assoc,Prog.bind_assoc]
  congr 1
  funext started
  cases started with
  | ok ctx => rfl
  | error e =>
      rw [pure_bind]
      dsimp only [afterStart]
      unfold refusal
      cases e.asConflict with
      | some conflict => rfl
      | none => cases e.asUnchecked <;> rfl

theorem handle_eq (h : Handlers) (fuel : Nat) (config : Config) (hroute : Confidential req)
    (htoken : bearer_token req = some token) : ∃ intercept, (handle h fuel config req).run =
      (SessionManager.get_or_init config token).run >>= afterStart req intercept := by
  unfold handle
  obtain ⟨room_id,event_type,txn_id,hroute,_⟩ | hroute := hroute
  · rw [hroute]
    exact ⟨_,with_context_eq htoken _⟩
  · rw [hroute]
    exact ⟨_,with_context_eq htoken _⟩

omit [Codec] in
/-- Starting a session sends no body on. -/
theorem starting_forwards {a : Act} (ha : a.starting) : ¬ forwardsBody req a := by
  unfold forwardsBody
  split <;> first | exact ha.elim | exact not_false

/-- A start that was refused is all that the request leads to. -/
theorem refused_forwards {α : Type} {g : Except Error AccountContext → M α} {x : α} {e : Error}
    {es es' : List Event} {a : Act} {k : a.Ans → M α}
    (hstart : Prog.Did (SessionManager.get_or_init config token).run es (.ret (.error e)))
    (hrefused : g (.error e) = .ret x) (hes : es' <+: es ∨ es <+: es')
    (hdid : Prog.Did ((SessionManager.get_or_init config token).run >>= g) es' (.act a k)) :
    ¬ forwardsBody req a := by
  have hafter : ∀ more, ¬ Prog.Did ((SessionManager.get_or_init config token).run >>= g) (es ++ more)
      (.act a k) := by
    intro more hmore
    rw [hstart.bind_iff,hrefused] at hmore
    cases hmore
  obtain ⟨more,rfl⟩ | ⟨more,rfl⟩ := hes
  · obtain ⟨p,hp,hk⟩ := Prog.Did.of_bind hstart hdid
    cases p with
    | act b k' =>
        cases hk
        exact starting_forwards ((SessionManager.get_or_init_starting config token).did hp)
    | ret y =>
        have hend : Prog.Did ((SessionManager.get_or_init config token).run >>= Prog.ret)
            (es' ++ more) (.ret (.error e)) ↔ Prog.Did (.ret y) more (.ret (.error e)) := hp.bind_iff
        rw [Prog.bind_ret] at hend
        cases hend.mp hstart
        exact (hafter [] (by simpa using hdid)).elim
  · exact (hafter more hdid).elim

/-- After a start that failed, nothing of the client's is forwarded that the homeserver has
not rejected, exactly if no other answer than a rejection made it fail for another reason
than the device's keys. -/
theorem fail_closed_iff (hroute : Confidential req) (htoken : bearer_token req = some token)
    {es : List Event} {e : Error}
    (hstart : Prog.Did (SessionManager.get_or_init config token).run es (.ret (.error e))) :
    (∀ es' a k, es' <+: es ∨ es <+: es' →
      Prog.Did (handle h fuel config req).run es' (.act a k) → forwardsBody req a →
        ∃ ev ∈ es, rejects token ev) ↔
      ((∃ ev ∈ es, breaks ev) → ∃ ev ∈ es, rejects token ev) := by
  obtain ⟨intercept,hrun⟩ := handle_eq h fuel config hroute htoken
  have hblame : e.aboutDevice = false ↔ ∃ ev ∈ es, breaks ev := get_or_init_blames config token es _ hstart
  have hkept : refusal e = none ↔ ∃ ev ∈ es, breaks ev := (refusal_none_iff e).trans hblame
  rw [hrun]
  constructor
  · intro hclosed hbreaks
    obtain ⟨k,hk⟩ : ∃ k, (passthrough req).run = .act (.passthrough (forwarded req)) k := ⟨_,rfl⟩
    refine hclosed es (.passthrough (forwarded req)) k (.inl (List.prefix_refl es)) ?_ rfl
    have hpass : afterStart req intercept (.error e) = .act (.passthrough (forwarded req)) k := by
      rw [afterStart,hkept.mpr hbreaks]
      exact hk
    have hrest : Prog.Did ((SessionManager.get_or_init config token).run >>= afterStart req intercept)
        (es ++ []) (afterStart req intercept (.error e)) := hstart.bind_iff.mpr (.nil _)
    rw [List.append_nil,hpass] at hrest
    exact hrest
  · intro hrejected es' a k hes hdid hforwards
    by_cases hbreaks : ∃ ev ∈ es, breaks ev
    · exact hrejected hbreaks
    · obtain ⟨x,hx⟩ := Option.ne_none_iff_exists'.mp fun hnone => hbreaks (hkept.mp hnone)
      refine (refused_forwards hstart (x := .error (.error x)) ?_ hes hdid hforwards).elim
      rw [afterStart,hx]
      rfl

end

local instance : Codec := .plain (fun _ => none) some fun _ _ => 0

def picture : Request :=
  ⟨.post,"/_matrix/media/v3/upload",none,[("authorization","Bearer token")],[1]⟩

def noHandlers : Handlers := ⟨fun _ _ => refuse (.upstream ""),fun _ => refuse (.upstream "")⟩

theorem picture_token : bearer_token picture = some "token" := by decide

theorem picture_confidential : Confidential picture := .inr (by decide)

def whoami : Value := .object [("device_id",.string "DEV"),("user_id",.string "@alice:x")]

def queryBody : Value :=
  .object [("device_keys",.object [("@alice:x",.array [.string "DEV"])])]

/-- The homeserver does not answer which keys a new device has. -/
def unanswered : List Event :=
  [⟨.sessions (.get "token"),none⟩,⟨.request "token" .whoami none,.ok (200,whoami)⟩,
    ⟨.request "token" .keysQuery (some queryBody),.error "timed out"⟩,
    ⟨.lock .sessions,()⟩,⟨.sessions (.get "token"),none⟩,
    ⟨.hasStore (account_store_dir "" "@alice:x" "DEV"),false⟩,⟨.unlock .sessions,()⟩]

theorem unanswered_start : Prog.Did (SessionManager.get_or_init ⟨""⟩ "token").run unanswered
    (.ret (.error (.unchecked ⟨"DEV","keys/query failed: timed out"⟩))) :=
  .cons (.cons (.cons (.cons (.cons (.cons (.cons (.nil _)))))))

/-- Then nothing is forwarded. -/
theorem fail_closed_iff_unanswered : Confidential picture ∧
    ∀ es' a k, es' <+: unanswered ∨ unanswered <+: es' →
      Prog.Did (handle noHandlers 0 ⟨""⟩ picture).run es' (.act a k) → ¬ forwardsBody picture a := by
  refine ⟨picture_confidential,fun es' a k hes hdid hforwards => ?_⟩
  have hbreaks : ¬ ∃ ev ∈ unanswered, breaks ev := by
    simp [unanswered,breaks,isSuccess,owner,whoami,Value.get,Value.asObject,Json.Map.lookup,
      Value.asStr,parseUserId]
  have hrejects : ¬ ∃ ev ∈ unanswered, rejects "token" ev := by
    simp [unanswered,rejects]
  exact hrejects ((fail_closed_iff picture_confidential picture_token unanswered_start).mpr
    (fun h => (hbreaks h).elim) es' a k hes hdid hforwards)

/-- The homeserver answers that there are too many requests. -/
def limited : List Event :=
  [⟨.sessions (.get "token"),none⟩,⟨.request "token" .whoami none,.ok (429,.null)⟩]

/-- It has not rejected the token, and gets the picture. -/
theorem limited_picture_is_forwarded : Confidential picture ∧ bearer_token picture = some "token" ∧
    (∃ e, Prog.Did (SessionManager.get_or_init ⟨""⟩ "token").run limited (.ret (.error e))) ∧
    (¬ ∃ ev ∈ limited, rejects "token" ev) ∧
    ∃ k, Prog.Did (handle noHandlers 0 ⟨""⟩ picture).run limited
      (.act (.passthrough (forwarded picture)) k) ∧
      forwardsBody picture (.passthrough (forwarded picture)) := by
  have hstart : Prog.Did (SessionManager.get_or_init ⟨""⟩ "token").run limited
      (.ret (.error (.text (report "whoami failed with" 429 .null)))) := .cons (.cons (.nil _))
  obtain ⟨intercept,hrun⟩ := handle_eq noHandlers 0 ⟨""⟩ picture_confidential picture_token
  obtain ⟨k,hk⟩ : ∃ k, (passthrough picture).run = .act (.passthrough (forwarded picture)) k :=
    ⟨_,rfl⟩
  have hrest : Prog.Did ((SessionManager.get_or_init ⟨""⟩ "token").run >>= afterStart picture intercept)
      (limited ++ []) (passthrough picture).run := hstart.bind_iff.mpr (.nil _)
  rw [List.append_nil,hk] at hrest
  refine ⟨picture_confidential,picture_token,⟨_,hstart⟩,by simp [limited,rejects],k,?_,rfl⟩
  rw [hrun]
  exact hrest

end EmentE2ee.FailClosed
