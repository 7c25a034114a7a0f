import EmentE2ee.Proxy.AccountsApart
import EmentE2ee.Proxy.Grounds

/-!
# Every call has grounds for what it does

A request without a context first starts a session; what it then does, it does for the
context that it has got. Tasks and commands have theirs from the beginning.
-/
namespace EmentE2ee

open Concurrent
open Json (Value)

section
variable [Codec] {config : Config} {q : Grounds}

namespace Grounds
variable {ctx : AccountContext} {hs : List Handed}

theorem stage_next {stage : Stage} (h : q.stage = stage) (a : Act) (r : a.Ans) :
    (q.next a r).stage = stage.next a r := congrArg (fun s : Stage => s.next a r) h

theorem renewing_next (a : Act) (r : a.Ans) (h : ctx ∈ q.renewing) : ctx ∈ (q.next a r).renewing :=
  List.mem_append_right _ h

/-- Once the map's lock is given back, nothing is left of starting a session. -/
theorem unlock_settled (r : (Act.unlock .sessions).Ans) : (q.next (.unlock .sessions) r).settled := by
  change (q.stage.next (.unlock .sessions) r = _) ∨ (q.stage.next (.unlock .sessions) r = _)
  cases q.stage with
  | serving => exact .inr rfl
  | _ => exact .inl rfl

/-- A call that is so far, and knows whose the token is. -/
def At (stage : Stage) (whose : String × UserId × DeviceId) (q : Grounds) : Prop :=
  q.stage = stage ∧ whose ∈ q.named

theorem At.next {stage : Stage} {whose : String × UserId × DeviceId} (h : q.At stage whose) (a : Act)
    (r : a.Ans) : (q.next a r).At (stage.next a r) whose :=
  ⟨congrArg (fun s : Stage => s.next a r) h.1,List.mem_append_right _ h.2⟩

theorem At.vacant {x : Asking} {whose : String × UserId × DeviceId} (h : q.At (.entered x) whose) :
    (q.next (.sessions (.get x.token)) none).At (.vacant x) whose := by
  have hnext := h.next (.sessions (.get x.token)) none
  have hstage : Stage.next (.entered x) (.sessions (.get x.token)) none = .vacant x := if_pos rfl
  exact hstage ▸ hnext

/-- What has become of starting a session. -/
def Begun : Except Error AccountContext → Grounds → Prop
  | .ok ctx,q => q.Serves ctx []
  | .error _,q => q.settled

/-- What has become of an insertion under the lock. -/
def Inserted : Except Error (AccountContext × Option Bool) → Grounds → Prop
  | .ok (ctx,again),q => q.Serves ctx [] ∧ (again = some true → ctx ∈ q.renewing)
  | .error _,_ => True

end Grounds

open Grounds

namespace SessionManager

/-- A session is turned away, and nothing but that is done. -/
theorem refuse_session_follows {α : Type} (conflict : DeviceConflict) {D : Except Error α → Grounds → Prop}
    (hD : ∀ e q, D (.error e) q) :
    (refuse_session conflict : Fallible α).run.Follows (Grounds.base config) D q :=
  ⟨trivial,fun _ _ => hD _ _⟩

theorem check_new_device_follows (user_id : UserId) (device_id : DeviceId)
    (published : Except Error (Option String)) {x : Asking} {whose : String × UserId × DeviceId}
    (hq : q.At (.looked x false) whose) (hx : x.published = published.toOption) :
    (check_new_device user_id device_id published).run.Follows (Grounds.base config)
      (fun r q' => r = .ok () → q'.At (.looked x false) whose ∧ x.published = some none) q := by
  unfold check_new_device
  split
  · exact fun _ => ⟨hq,hx⟩
  · exact refuse_session_follows _ fun _ _ => nofun
  · exact nofun

theorem check_store_follows (user_id : UserId) (device_id : DeviceId) (store_dir : String)
    (olm : OlmMachine) (published : Except Error (Option String)) {x : Asking}
    {whose : String × UserId × DeviceId} (hq : q.At (.opened x true olm) whose)
    (hx : x.published = published.toOption) :
    (check_store user_id device_id store_dir olm published).run.Follows (Grounds.base config)
      (fun r q' => ∀ again, r = .ok again → q'.At (.opened x true olm) whose ∧
        (again = true → x.published = some none) ∧
        ∀ key, x.published = some (some key) → key = olm.ed25519) q := by
  unfold check_store
  split
  · next key =>
      split_ifs with hkey
      · refine fun _ he => ⟨hq,fun ht => ?_,fun key' hkey' => ?_⟩
        · cases he
          cases ht
        · rw [hx] at hkey'
          cases hkey'
          exact hkey
      · exact refuse_session_follows _ fun _ _ _ => nofun
  · refine fun _ _ => ⟨hq,fun _ => hx,fun key hkey => ?_⟩
    rw [hx] at hkey
    cases hkey
  · refine fun _ he => ⟨hq,fun ht => ?_,fun key hkey => ?_⟩
    · cases he
      cases ht
    · rw [hx] at hkey
      cases hkey

theorem open_machine_follows (user_id : UserId) (device_id : DeviceId) {x : Asking} {has_store : Bool}
    {whose : String × UserId × DeviceId} (hq : q.At (.looked x has_store) whose)
    (huser : x.user_id = user_id) (hdevice : x.device_id = device_id)
    (hnew : has_store = false → x.published = some none) :
    (open_machine config.store_dir user_id device_id).run.Follows (Grounds.base config)
      (fun r q' => ∀ olm, r = .ok olm → q'.At (.opened x has_store olm) whose) q := by
  refine Prog.Follows.exceptBind (D := fun r q' => r = .ok () → q'.At (.looked x has_store) whose) ?_ ?_
    fun _ _ _ => nofun
  · rw [run_withContext]
    exact ⟨trivial,fun r _ _ => hq.next _ r⟩
  · intro _ q' hstage
    rw [run_withContext]
    refine ⟨⟨x,has_store,(hstage rfl).1,huser.symm,hdevice.symm,?_,hnew⟩,fun r _ olm he => ?_⟩
    · rw [huser,hdevice]
    · cases r with
      | error e => cases he
      | ok olm' =>
          cases he
          exact (hstage rfl).next (.withStore ..) (.ok olm)

theorem insert_locked_follows (token : String) (user_id : UserId) (device_id : DeviceId)
    (published : Except Error (Option String))
    (hq : q.At (.entered ⟨token,user_id,device_id,published.toOption⟩) (token,user_id,device_id)) :
    (insert_locked config token user_id device_id published).run.Follows (Grounds.base config)
      Inserted q := by
  rw [insert_locked,run_step_bind]
  refine ⟨trivial,fun present _ => ?_⟩
  cases present with
  | some ctx =>
      refine ⟨serves_nil (hq.next (.sessions (.get token)) (some ctx)).1 List.mem_cons_self,fun ht => ?_⟩
      cases ht
  | none =>
      dsimp only
      rw [run_step_bind]
      have hvacant := hq.vacant
      refine ⟨⟨_,hvacant.1,rfl⟩,fun has_store _ => ?_⟩
      have hlooked := hvacant.next (.hasStore _) has_store
      refine Prog.Follows.exceptBind (D := fun r q' => r = .ok () →
        q'.At (.looked ⟨token,user_id,device_id,published.toOption⟩ has_store) (token,user_id,device_id) ∧
          (has_store = false → published.toOption = some none)) ?_ ?_ fun _ _ _ => trivial
      · cases has_store with
        | true =>
            refine fun _ => ⟨hlooked,fun ht => ?_⟩
            cases ht
        | false =>
            exact (check_new_device_follows user_id device_id published hlooked rfl).mono
              fun r q' h hr => ⟨(h hr).1,fun _ => (h hr).2⟩
      intro _ q₁ h₁
      obtain ⟨h₁,hnew⟩ := h₁ rfl
      refine (open_machine_follows user_id device_id h₁ rfl rfl hnew).exceptBind ?_ fun _ _ _ => trivial
      intro olm q₂ h₂
      have h₂ := h₂ olm rfl
      refine Prog.Follows.exceptBind (D := fun r q' => ∀ again, r = .ok again →
        q'.At (.opened ⟨token,user_id,device_id,published.toOption⟩ has_store olm)
            (token,user_id,device_id) ∧
          (again = true → has_store = true ∧ published.toOption = some none) ∧
          (has_store = true → ∀ key, published.toOption = some (some key) → key = olm.ed25519))
        ?_ ?_ fun _ _ _ => trivial
      · cases has_store with
        | true =>
            exact (check_store_follows user_id device_id _ olm published h₂ rfl).mono
              fun r q' h again hr => ⟨(h again hr).1,fun ht => ⟨rfl,(h again hr).2.1 ht⟩,fun _ => (h again hr).2.2⟩
        | false =>
            refine fun again hr => ⟨h₂,fun ht => ?_,fun ht => ?_⟩
            · cases hr
              cases ht
            · cases ht
      intro again q₃ h₃
      obtain ⟨h₃,hagain,hkey⟩ := h₃ again rfl
      rw [run_call_bind]
      refine ⟨trivial,fun r _ => ?_⟩
      have h₄ := h₃.next (.openMedia _) r
      cases r with
      | error e => trivial
      | ok _ =>
          rw [run_step_bind]
          refine ⟨⟨_,has_store,h₄.1,rfl,rfl,h₄.2,hkey⟩,fun _ _ => ⟨?_,fun ht => ?_⟩⟩
          · exact serves_nil (h₄.next (.sessions (.insert ..)) ()).1 List.mem_cons_self
          · obtain ⟨rfl,hnone⟩ := hagain (Option.some.inj ht)
            have hrenews : Stage.renews _ _ = [_] := (congrArg (fun s : Stage =>
              s.renews (.sessions (.insert token ⟨user_id,device_id,token,olm⟩))) h₄.1).trans (if_pos hnone)
            exact List.mem_append_left _ (hrenews.symm ▸ List.mem_cons_self)

/-- What is known of the published key is what the homeserver has answered. -/
theorem published_identity_follows (token : String) (user_id : UserId) (device_id : DeviceId)
    {whose : String × UserId × DeviceId} (hq : q.At .arriving whose) :
    (published_identity token user_id device_id).run.Follows (Grounds.base config)
      (fun r q' => q'.At (.asked ⟨token,user_id,device_id,r.toOption⟩) whose) q := by
  unfold published_identity
  refine Prog.Follows.exceptBind (D := fun r q' => q'.At (.asked ⟨token,user_id,device_id,
    r.toOption.bind fun answer => if isSuccess answer.1 then
      some (queriedKey user_id device_id answer.2) else none⟩) whose) ?_ ?_ fun _ _ h => h
  · rw [run_withContext]
    refine ⟨trivial,fun r _ => ?_⟩
    have hasked := hq.next (.request token .keysQuery (some (.object
      [("device_keys",.object [(user_id,.array [.string device_id])])]))) r
    cases r <;> exact hasked
  · intro answer q' hstage
    change Prog.Follows _ _ _ (if isSuccess answer.1 then _ else _ : Fallible _).run
    change q'.At (.asked ⟨token,user_id,device_id,if isSuccess answer.1 then _ else _⟩) whose at hstage
    split_ifs with hsuccess
    · rw [if_pos hsuccess] at hstage
      exact hstage
    · rw [if_neg hsuccess] at hstage
      exact hstage

theorem insert_follows (token user_id device_id : String) (hq : q.stage = .arriving)
    (hnamed : ∀ u, parseUserId user_id = some u → (token,u,device_id) ∈ q.named) :
    (insert config token user_id device_id).run.Follows (Grounds.base config) Begun q := by
  unfold insert
  split
  · exact .inl hq
  · next user_id huser =>
      have hq : q.At .arriving (token,user_id,device_id) := ⟨hq,hnamed user_id huser⟩
      refine (published_identity_follows token user_id device_id hq).liftBind fun published q₁ h₁ => ?_
      refine Prog.Follows.exceptBind (D := fun r q' => q'.settled ∧ Inserted r q') ?_ ?_ fun _ _ h => h.1
      · rw [run_attempt,withLock_eq]
        refine ⟨trivial,fun r _ => ?_⟩
        have hentered := h₁.next (.lock .sessions) r
        refine (insert_locked_follows token user_id device_id published hentered).bind fun inserted q₂ h₂ => ?_
        refine ⟨trivial,fun r _ => ⟨unlock_settled r,?_⟩⟩
        cases inserted with
        | error e => trivial
        | ok inserted => exact ⟨h₂.1.next _ r,fun ht => renewing_next _ r (h₂.2 ht)⟩
      · intro inserted q₂ h₂
        obtain ⟨ctx,again⟩ := inserted
        obtain ⟨-,hserves,hagain⟩ := h₂
        cases again with
        | none => exact hserves
        | some again =>
            refine ⟨trivial,fun r _ => ?_⟩
            have h₃ := hserves.next (.sessions (.settle ctx.user_id)) r
            refine ⟨h₃.known,fun r' _ => ?_⟩
            have h₄ := h₃.next (.spawn ctx .periodicPump) r'
            refine ⟨⟨h₄.known,fun ht => ?_⟩,fun r'' _ => h₄.next _ r''⟩
            exact renewing_next _ r' (renewing_next _ r (hagain (congrArg some ht)))

theorem get_or_init_follows (token : String) (hq : q.stage = .arriving) :
    (get_or_init config token).run.Follows (Grounds.base config) Begun q := by
  rw [get_or_init,run_step_bind]
  refine ⟨trivial,fun present _ => ?_⟩
  cases present with
  | some ctx =>
      exact serves_nil (stage_next hq (.sessions (.get token)) (some ctx)) List.mem_cons_self
  | none =>
      have h₁ := stage_next hq (.sessions (.get token)) none
      dsimp only
      rw [json_request,run_call_bind]
      refine ⟨trivial,fun answer _ => ?_⟩
      have h₂ := stage_next h₁ (.request token .whoami none) answer
      cases answer with
      | error e => exact .inl h₂
      | ok answer =>
          change Prog.Follows _ _ _ (if isSuccess answer.1 then _ else _ : Fallible _).run
          split_ifs with hsuccess
          · split
            · exact .inl h₂
            · exact .inl h₂
            · next user_id device_id huser hdevice =>
                refine insert_follows token _ _ h₂ fun u hu => List.mem_append_left _ ?_
                change _ ∈ if isSuccess answer.1 then (identified token answer.2).toList else []
                rw [if_pos hsuccess,identified,huser,hdevice]
                simp [hu]
          · exact .inl h₂

/-- The homeserver tells whom it has logged in. -/
theorem insert_from_login_follows (login_response : Value) (hq : q.stage = .arriving)
    (hnamed : ∀ token, (login_response.get "access_token").bind Value.asStr = some token →
      ∀ whose, identified token login_response = some whose → whose ∈ q.named) :
    (insert_from_login config login_response).run.Follows (Grounds.base config) Begun q := by
  unfold insert_from_login
  split
  · exact .inl hq
  · exact .inl hq
  · exact .inl hq
  · next token user_id device_id htoken huser hdevice =>
      refine insert_follows _ _ _ hq fun u hu => hnamed token htoken _ ?_
      rw [identified,huser,hdevice]
      simp [hu]

end SessionManager

omit [Codec] in
theorem settled_of_begun {r : Except Error AccountContext} (h : Begun r q) : q.settled := by
  cases r with
  | ok ctx => exact h.settled
  | error e => exact h

theorem passthrough_follows (req : Request) (hq : q.settled) :
    (passthrough req).run.Follows (Grounds.base config) (fun _ => settled) q := by
  refine Prog.Follows.of_does (J := settled) (T := fun a => a = .passthrough (forwarded req)) ?_
    (passthrough_does.mpr rfl) hq
  rintro _ rfl q' hq'
  refine ⟨trivial,fun r _ => hq'.imp ?_ ?_⟩
  · exact congrArg fun s : Stage => s.next (.passthrough (forwarded req)) r
  · exact congrArg fun s : Stage => s.next (.passthrough (forwarded req)) r

theorem with_context_follows (req : Request) {intercept : AccountContext → ProxyM Response}
    (hi : ∀ ctx, Grounded (Grounds.base config) ctx [] (intercept ctx).run) (hq : q.stage = .arriving) :
    (with_context config req intercept).run.Follows (Grounds.base config) (fun _ => settled) q := by
  unfold with_context
  refine Prog.Follows.exceptBind (D := fun r q' => q'.settled ∧ ∀ ctx, r = .ok (some ctx) →
    q'.Serves ctx []) ?_ ?_ fun _ _ h => h.1
  · unfold context_for
    cases bearer_token req with
    | none => exact ⟨.inl hq,fun _ => nofun⟩
    | some token =>
        refine (SessionManager.get_or_init_follows token hq).liftBind fun started q' hbegun => ?_
        have hsettled := settled_of_begun hbegun
        cases started with
        | ok ctx =>
            refine ⟨hsettled,fun _ he => ?_⟩
            cases he
            exact hbegun
        | error e =>
            dsimp only
            split <;> exact ⟨hsettled,fun _ => nofun⟩
  · intro found q' h
    cases found with
    | none => exact passthrough_follows req h.1
    | some ctx => exact ((hi ctx) q' (h.2 ctx rfl)).mono fun _ _ h => h.settled

theorem handle_follows {req : Request} (hs : Handlers) (fuel : Nat) (config : Config)
    (hadmin : ∀ sub, classify req.method req.path ≠ .admin sub)
    (hlogin : classify req.method req.path ≠ .login) (hq : q.stage = .arriving) :
    (handle hs fuel config req).run.Follows (Grounds.base config) (fun _ => settled) q := by
  have hown : ∀ {p : AccountContext → ProxyM Response}, (∀ ctx, (p ctx).run.Does (Act.own ctx)) →
      (with_context config req p).run.Follows (Grounds.base config) (fun _ => settled) q :=
    fun h => with_context_follows req (fun ctx => .of_own (h ctx)) hq
  unfold handle
  cases hroute : classify req.method req.path with
  | admin sub => exact (hadmin sub hroute).elim
  | login => exact (hlogin hroute).elim
  | sync => exact with_context_follows req (fun ctx => handle_sync_grounded req) hq
  | messages room_id => exact hown fun ctx => handle_history_get_own req _
  | context room_id => exact hown fun ctx => handle_history_get_own req _
  | roomEvent room_id => exact hown fun ctx => handle_history_get_own req _
  | notifications => exact hown fun ctx => handle_history_get_own req _
  | send room_id event_type txn_id =>
      exact with_context_follows req (fun ctx => handle_send_grounded fuel req room_id event_type txn_id) hq
  | mediaUpload => exact hown fun ctx => handle_upload_own req
  | passthrough => exact passthrough_follows req (.inl hq)
  | mediaDownload server media_id authenticated =>
      cases authenticated with
      | true => exact hown fun ctx => handle_download_own server media_id
      | false =>
          refine ⟨trivial,fun sessions _ => ?_⟩
          have hserving : (q.next (.sessions .list) sessions).stage = .serving := stage_next hq _ _
          cases sessions with
          | nil => exact passthrough_follows req (.inr hserving)
          | cons ctx rest =>
              have hserves : (q.next (.sessions .list) (ctx :: rest)).Serves ctx [] :=
                serves_nil hserving List.mem_cons_self
              refine (Grounded.of_own (handle_download_own server media_id) _ hserves).mono ?_
              exact fun _ _ h => h.settled

section
variable {B : Type} {S : B → Type} {give : (b : B) → S b → List (AccountContext × Handed)}
  {ctx : AccountContext} {hs : List Handed} {α : Type}

omit [Codec] in
theorem Grounds.Serves.further {gs : List (AccountContext × Handed)} (h : q.Serves ctx hs) :
    ({ q with handed := gs ++ q.handed,accepted := none } : Grounds).Serves ctx hs :=
  ⟨h.stage,h.known,fun x hx => List.mem_append_right _ (h.handed x hx)⟩

namespace Grounded

theorem widen {p : M α} (h : Grounded (Grounds.base config) ctx hs p) :
    Grounded (Grounds.phases config give) ctx hs (p.widen : WideM S α) :=
  fun q hq => Prog.Follows.widen (P := Grounds.phases config give) (h q hq)

theorem further (b : B) : Grounded (Grounds.phases config give) ctx hs (further b : WideM S (S b)) :=
  fun _ hq => ⟨trivial,fun _ _ => hq.further⟩

theorem furtherCall {b : B} {f : S b → Except String α} :
    Grounded (Grounds.phases config give) ctx hs
      (furtherCall (.act (.inr b) fun r => .ret (f r)) : WideFallible S α).run :=
  fun _ hq => ⟨trivial,fun _ _ => hq.further⟩

theorem lift {p : WideM S α} (h : Grounded (Grounds.phases config give) ctx hs p) :
    Grounded (Grounds.phases config give) ctx hs (ExceptT.lift p : WideFallible S α).run := by
  rw [ExceptT.run_lift]
  exact h.map

theorem orBail {x : Option α} {message : String} :
    Grounded (Grounds.phases config give) ctx hs (orBail x message : WideFallible S α).run := by
  cases x with
  | none => exact .ret _
  | some a => exact .ret _

theorem adapt {x : WideFallible S α} (h : Grounded (Grounds.phases config give) ctx hs x.run)
    (f : Error → Error) : Grounded (Grounds.phases config give) ctx hs (x.adapt f).run := h.map

/-- A section under a lock. -/
theorem underLock {l : Lock} {p : WideM S α} (h : Grounded (Grounds.phases config give) ctx hs p) :
    Grounded (Grounds.phases config give) ctx hs (underLock l p) := by
  refine fun q hq => ⟨trivial,fun r _ => ?_⟩
  refine (h.bind fun a => ?_) _ (hq.next (.lock l) r)
  exact fun q' hq' => ⟨trivial,fun r _ => hq'.next (.unlock l) r⟩

theorem record : Grounded (Grounds.phases config give) ctx hs (usual (.recordFinished ctx) : WideM S Unit) :=
  fun _ hq => ⟨hq.known,fun r _ => hq.next (.recordFinished ctx) r⟩

end Grounded

open Verify in
theorem verify_grounded (fuel : Nat) (with_user : UserId) (wanted : Ctl.Wanted) :
    Grounded (Grounds.phases config fun (_ : VerifyAct) _ => []) ctx hs
      (Admin.verify fuel ctx with_user wanted).run := by
  have hcovers : Verify.Covers ctx (Grounded (Grounds.phases config fun (_ : VerifyAct) _ => []) ctx hs) := {
    ret := .ret
    bind := .bind
    verify := fun a _ _ => .further a
    record := .record
    send := fun fuel outgoing => .widen (send_verification_request_grounded fuel outgoing) }
  have hending : ∀ {p : WideM VerifyAct.Ans (Option OutgoingVerificationRequest)},
      Grounded (Grounds.phases config fun (_ : VerifyAct) _ => []) ctx hs p →
        Grounded (Grounds.phases config fun (_ : VerifyAct) _ => []) ctx hs (ending ctx p) :=
    fun hp => .underLock (.bind hp fun _ => .bind .record fun _ => .ret _)
  refine hcovers.wanted (fun sas => ?_) (fun keys => .widen (.of_own ?_)) (.widen (pump_grounded fuel))
    (fun _ => hending (.further _)) (fun _ => hending (.further _)) with_user wanted
  · refine .underLock (.bind (.further _) fun confirmed => ?_)
    cases confirmed with
    | error e => exact .ret _
    | ok confirmed => exact .bind .record fun _ => .ret _
  · refine .exceptBind (by simp [Act.own,Act.lone]) fun answer => ?_
    dsimp only
    split_ifs <;> simp

end

section
variable [Vault] {ctx : AccountContext} {hs : List Handed}

/-- What the vault hands out. -/
def VaultAct.handed : (a : VaultAct) → a.Ans → List (AccountContext × Handed)
  | .queryKeysForUsers ctx _,(id,device_keys) => [(ctx,.query id device_keys)]
  | _,_ => []

abbrev Joining {α : Type} (config : Config) (ctx : AccountContext) (hs : List Handed) (x : Recovering α) :
    Prop := Grounded (Grounds.phases config VaultAct.handed) ctx hs x.run

theorem fetch_account_data_grounded (event_type : String) :
    Joining config ctx hs (fetch_account_data ctx event_type) := by
  refine .exceptBind Grounded.furtherCall fun answer => ?_
  dsimp only
  split_ifs <;> exact .ret _

theorem get_secret_grounded (key : Vault.SecretStorageKey) (secret_name : String) :
    Joining config ctx hs (get_secret ctx key secret_name) := by
  refine .exceptBind (fetch_account_data_grounded _) fun content => ?_
  split
  · exact .ret _
  · exact .exceptBind .orBail fun _ => .exceptBind .orBail fun _ =>
      .exceptBind .orBail fun _ => .ret _

/-- The query that the machine has handed out is sent, and its answer fed back. -/
theorem query_own_keys_grounded : Joining config ctx hs (query_own_keys ctx) := by
  intro q hq
  refine Prog.Follows.liftBind (D := fun r q' => q'.Serves ctx (.query r.1 r.2 :: hs)) ?_ ?_
  · refine ⟨trivial,fun r _ => ⟨hq.stage,hq.known,?_⟩⟩
    refine List.forall_mem_cons.mpr ⟨List.mem_cons_self,fun x hx => ?_⟩
    exact List.mem_append_right _ (hq.handed x hx)
  · intro request q' hq'
    refine ⟨trivial,fun answer _ => ?_⟩
    have hnext := hq'.next (.request ctx.token .keysQuery
      (some (.object [("device_keys",request.2)]))) answer
    have hserves : Serves ctx hs _ := hnext.mono fun x hx => List.mem_cons_of_mem _ hx
    cases answer with
    | error e => exact hserves
    | ok answer =>
        change Prog.Follows _ _ _ (if isSuccess answer.1 then _ else _ : Recovering Unit).run
        split_ifs with hsuccess
        · refine Prog.Follows.widen (P := Grounds.phases config VaultAct.handed) (Grounded.mark hserves ?_)
          refine ⟨_,_,if_pos hsuccess,.inr ⟨.query request.1 request.2,?_,rfl,rfl⟩⟩
          exact hnext.handed _ List.mem_cons_self
        · exact hserves

theorem sign_own_device_grounded : Joining config ctx hs (sign_own_device ctx) := by
  refine .exceptBind (.widen (.of_own (by simp [Act.own,Act.lone]))) fun device => ?_
  refine .exceptBind .orBail fun _ => .exceptBind (.adapt .furtherCall _) fun _ => ?_
  refine .exceptBind (.widen (.of_own (by simp [Act.own,Act.lone]))) fun answer => ?_
  dsimp only
  split_ifs
  · exact query_own_keys_grounded
  · exact .ret _

theorem download_room_keys_grounded (key : Vault.DecryptionKey) (version : String) :
    Joining config ctx hs (download_room_keys ctx key version) := by
  refine .exceptBind .furtherCall fun answer => ?_
  dsimp only
  split_ifs
  · exact .exceptBind .orBail fun _ => .exceptBind (.adapt .furtherCall _) fun _ => .ret _
  · exact .ret _

theorem restore_from_backup_grounded (secret : String) :
    Joining config ctx hs (restore_from_backup ctx secret) := by
  refine .exceptBind .orBail fun key => .exceptBind ?_ fun version => ?_
  · refine .exceptBind .furtherCall fun answer => ?_
    dsimp only
    split_ifs
    · exact .ret _
    · exact .exceptBind .orBail fun _ => .ret _
    · exact .ret _
  cases version with
  | none => exact .ret _
  | some version =>
      refine .exceptBind .orBail fun info => ?_
      split_ifs
      · refine .exceptBind .furtherCall fun stored => ?_
        dsimp only
        split_ifs
        · exact download_room_keys_grounded key version.version
        · refine .exceptBind ?_ fun _ => download_room_keys_grounded key version.version
          exact .exceptBind .furtherCall fun _ => .exceptBind .furtherCall fun _ => .furtherCall
      · exact .ret _

theorem bootstrap_grounded (fuel : Nat) (recovery_key : String) :
    Joining config ctx hs (bootstrap fuel ctx recovery_key) := by
  have hrestore : ∀ key, Joining config ctx hs (restore_and_pump fuel ctx key) := fun key => by
    refine .exceptBind (get_secret_grounded _ _) fun secret => .exceptBind ?_ fun _ =>
      .exceptBind (.lift (.widen (pump_grounded fuel))) fun _ => .ret _
    cases secret with
    | none => exact .ret _
    | some secret => exact restore_from_backup_grounded secret
  have hopen : Joining config ctx hs (open_secret_storage_key ctx recovery_key) :=
    .exceptBind (fetch_account_data_grounded _) fun _ => .exceptBind .orBail fun _ =>
      .exceptBind .orBail fun _ => .exceptBind (fetch_account_data_grounded _) fun _ =>
        .exceptBind .orBail fun _ => .exceptBind .orBail fun _ => .orBail
  refine .exceptBind hopen fun key => ?_
  refine .exceptBind (get_secret_grounded _ _) fun _ => .exceptBind (get_secret_grounded _ _) fun _ =>
    .exceptBind (get_secret_grounded _ _) fun _ => .exceptBind query_own_keys_grounded fun _ => ?_
  refine .exceptBind (.adapt .furtherCall _) fun status => ?_
  dsimp only
  split_ifs
  · exact .exceptBind sign_own_device_grounded fun _ => .exceptBind (hrestore key) fun _ => .ret _
  · exact .exceptBind (hrestore key) fun _ => .ret _

end

namespace AccountsApart

open Login (LoginAct forward_login finish_login loggedIn)

section
variable [Vault]

/-- What further actions hand out. -/
def handedFurther : (b : Further) → FurtherAns b → List (AccountContext × Handed)
  | .inr (.inl a),r => a.handed r
  | _,_ => []

abbrev grounds (config : Config) : Phases Doing Ans Grounds := Grounds.phases config handedFurther

/-- Whose the token of a login's answer is. -/
def loginNamed (reply : Reply) : Option (String × UserId × DeviceId) :=
  (loggedIn reply).bind fun login_response => (loginToken reply).bind (identified · login_response)

/-- The homeserver's answer to a login. -/
def loginAnswer : (b : Further) → FurtherAns b → List Reply
  | .inr (.inr (.post ..)),.ok reply => [reply]
  | _,_ => []

def answeredBy : (a : Doing) → Ans a → List Reply
  | .inl _,_ => []
  | .inr b,r => loginAnswer b r

/-- What a call knows when it starts. -/
def Call.grounds : Call → Grounds
  | request _ | forwardLogin _ => .arriving []
  | login _ reply => .arriving (loginNamed reply).toList
  | sessionStart ctx again => .serving ctx again
  | pump ctx | requestRoomKey ctx .. | verify ctx .. | bootstrap ctx _ => .serving ctx false

variable {hs : Handlers} {fuel : Nat}

/-- The phases of a login. -/
abbrev loginGrounds (config : Config) : Phases (Act ⊕ LoginAct) (Sum.elim Act.Ans LoginAct.Ans) Grounds :=
  Grounds.phases config fun _ _ => []

omit [Vault] in
theorem forward_login_follows (req : Request) (hq : q.stage = .arriving) :
    (forward_login req).run.Follows (loginGrounds config) (fun _ => settled) q := by
  unfold forward_login readBody
  split_ifs
  · refine ⟨trivial,fun plan _ => ⟨trivial,fun r _ => ?_⟩⟩
    cases r <;> exact .inl hq
  · exact .inl hq

omit [Vault] in
theorem note_device_follows (login_response : Value) (requested : String)
    {whose : Option (String × UserId × DeviceId)} (hq : q.stage = .arriving ∧ ∀ w ∈ whose, w ∈ q.named) :
    (Login.note_device config login_response requested).Follows (loginGrounds config)
      (fun _ q' => q'.stage = .arriving ∧ ∀ w ∈ whose, w ∈ q'.named) q := by
  unfold Login.note_device
  split
  · split_ifs
    · exact hq
    · exact ⟨trivial,fun _ _ => hq⟩
  · exact hq

omit [Vault] in
theorem finish_login_follows (requested : Option String) {reply : Reply} (hq : q.stage = .arriving)
    (hnamed : ∀ w ∈ loginNamed reply, w ∈ q.named) :
    (finish_login config requested reply).Follows (loginGrounds config) (fun _ => settled) q := by
  refine Prog.Follows.bind (D := fun _ => settled) ?_ fun _ _ h => h
  cases h : loggedIn reply with
  | none => exact .inl hq
  | some login_response =>
      refine Prog.Follows.bind (D := fun _ q' => q'.stage = .arriving ∧ ∀ w ∈ loginNamed reply, w ∈ q'.named)
        ?_ fun _ q' hq' => ?_
      · cases requested with
        | none => exact ⟨hq,hnamed⟩
        | some requested => exact note_device_follows login_response requested ⟨hq,hnamed⟩
      · refine Prog.Follows.bind (D := fun _ => settled) ?_ fun _ _ h => h
        refine Prog.Follows.widen (P := loginGrounds config) ?_
        refine (SessionManager.insert_from_login_follows login_response hq'.1 ?_).mono
          fun _ _ h => settled_of_begun h
        intro token htoken whose hwhose
        refine hq'.2 whose ?_
        simp only [loginNamed,loginToken,h,Option.bind_some,htoken]
        exact hwhose

theorem grounded_settled {ctx : AccountContext} {α : Type} {p : Prog Doing Ans α}
    (h : Grounded (grounds config) ctx [] p) :
    p.Follows (grounds config) (fun _ => settled) (.serving ctx false) :=
  (h _ (serving_serves ctx false)).mono fun _ _ h => h.settled

theorem starts_grounded {l : Call} {p : Prog Doing Ans (Res l)} (h : Starts hs fuel config l p) :
    p.Follows (grounds config) (fun _ => settled) l.grounds := by
  have hwiden : ∀ {α : Type} {p : M α} {q : Grounds}, p.Follows (Grounds.base config) (fun _ => settled) q →
      (p.widen : Prog Doing Ans α).Follows (grounds config) (fun _ => settled) q :=
    fun h => Prog.Follows.widen (P := grounds config) h
  cases h with
  | request hadmin hlogin => exact hwiden (handle_follows hs fuel config hadmin hlogin rfl)
  | forwardLogin req =>
      have h : Prog.Follows (loginGrounds config) _ (.arriving []) _ := forward_login_follows req rfl
      refine Prog.Follows.via ?_ (fun _ _ _ _ => trivial) ?_ h
      · rintro q (a | a) h <;> exact h
      · rintro q (a | a) r <;> rfl
  | login requested reply =>
      have h : Prog.Follows (loginGrounds config) _ _ _ :=
        finish_login_follows requested (q := (Call.login requested reply).grounds) rfl fun w hw =>
          Option.mem_toList.mpr hw
      refine Prog.Follows.via ?_ (fun _ _ _ _ => trivial) ?_ h
      · rintro q (a | a) h <;> exact h
      · rintro q (a | a) r <;> rfl
  | sessionStart ctx again =>
      exact hwiden ((session_start_follows fuel again).mono fun _ _ h => h.settled)
  | pump ctx => exact grounded_settled (.widen (pump_grounded fuel))
  | requestRoomKey ctx room_id raw session_id =>
      exact grounded_settled (.widen (request_room_key_grounded room_id raw session_id))
  | verify ctx with_user wanted =>
      refine grounded_settled fun q hq => ?_
      have h : Prog.Follows (Grounds.phases config _) _ q _ := verify_grounded fuel with_user wanted q hq
      refine Prog.Follows.via ?_ (fun _ _ _ _ => trivial) ?_ h
      · rintro q (a | a) h <;> exact h
      · rintro q (a | a) r <;> rfl
  | bootstrap ctx recovery_key =>
      refine grounded_settled fun q hq => ?_
      have h : Prog.Follows (Grounds.phases config _) _ q _ := bootstrap_grounded fuel recovery_key q hq
      refine Prog.Follows.via ?_ (fun _ _ _ _ => trivial) ?_ h
      · rintro q (a | a) h <;> exact h
      · rintro q (a | a) r <;> rfl

/-- What was handed out in one step. -/
def handedBy : Sigma Ans → List (AccountContext × Handed)
  | ⟨.inl a,r⟩ => handed a r
  | ⟨.inr b,r⟩ => handedFurther b r

def acceptedBy : Sigma Ans → Option Accepted
  | ⟨.inl a,r⟩ => accepted a r
  | ⟨.inr _,_⟩ => none

theorem next_handed (q : Grounds) (e : Sigma Ans) :
    ((grounds config).next q e.1 e.2).handed = handedBy e ++ q.handed := by
  obtain ⟨a | b,r⟩ := e <;> rfl

theorem next_accepted (q : Grounds) (e : Sigma Ans) :
    ((grounds config).next q e.1 e.2).accepted = acceptedBy e := by
  obtain ⟨a | b,r⟩ := e <;> rfl

/-- All that a call was handed was handed out in one of its steps. -/
theorem after_handed {es : List (Sigma Ans)} {q : Grounds} {x : AccountContext × Handed}
    (h : x ∈ ((grounds config).after q es).handed) : x ∈ q.handed ∨ ∃ e ∈ es, x ∈ handedBy e := by
  induction es using List.reverseRecOn with
  | nil => exact .inl h
  | append_singleton es e ih =>
      rw [Phases.after_concat,next_handed] at h
      rcases List.mem_append.mp h with h | h
      · exact .inr ⟨e,by simp,h⟩
      · exact (ih h).imp_right fun ⟨e,he,hx⟩ => ⟨e,by simp [he],hx⟩

/-- Only an accepted request of that kind is one. -/
theorem acceptedBy_eq {e : Sigma Ans} {x : Accepted} (h : acceptedBy e = some x) :
    ∃ status, isSuccess status = true ∧
      e = ⟨.inl (.request x.token x.endpoint (some x.body)),.ok (status,x.response)⟩ := by
  obtain ⟨a | b,r⟩ := e
  · cases a with
    | request token endpoint body =>
        cases body with
        | none => cases h
        | some body =>
            rcases r with m | ⟨status,response⟩
            · cases h
            · change (if isSuccess status then _ else _) = _ at h
              split_ifs at h with hs
              cases h
              exact ⟨status,hs,rfl⟩
    | _ => cases h
  · cases h

omit [Vault] in
theorem Call.grounds_handed (l : Call) : l.grounds.handed = [] := by
  cases l <;> rfl

omit [Vault] in
theorem Call.grounds_accepted (l : Call) : l.grounds.accepted = none := by
  cases l <;> rfl

/-- **Marks.** Whatever a call has done before, it tells a machine that a request was sent
only right after the homeserver has accepted, for the machine's account and with the answer
that the machine is given, the request of that transaction ID, or the very request that the
machine has handed this call under that ID. -/
theorem marks_accepted {l : Call} {p : Prog Doing Ans (Res l)} (h : Starts hs fuel config l p)
    {es : List (Sigma Ans)} {ctx : AccountContext} {id : String} {response : Value}
    {k : Ans (.inl (.olm ctx (.markRequestAsSent id response))) → Prog Doing Ans (Res l)}
    (hd : p.Did es (.act (.inl (.olm ctx (.markRequestAsSent id response))) k)) :
    ∃ before status endpoint body, isSuccess status = true ∧
      es = before ++ [⟨.inl (.request ctx.token endpoint (some body)),.ok (status,response)⟩] ∧
      (endpoint.txn = some id ∨ ∃ e ∈ before, ∃ x, (ctx,x) ∈ handedBy e ∧ x.id = some id ∧
        x.wire = (endpoint,body)) := by
  have hfollows := (starts_grounded h).did (fun _ _ _ => trivial) hd
  obtain ⟨-,endpoint,body,haccepted,hsent⟩ := hfollows.1
  rcases List.eq_nil_or_concat es with rfl | ⟨before,e,rfl⟩
  · rw [show (grounds config).after l.grounds [] = l.grounds from rfl,l.grounds_accepted] at haccepted
    cases haccepted
  rw [List.concat_eq_append,Phases.after_concat] at haccepted hsent
  rw [next_accepted] at haccepted
  obtain ⟨status,hsuccess,rfl⟩ := acceptedBy_eq haccepted
  refine ⟨before,status,endpoint,body,hsuccess,List.concat_eq_append,hsent.imp_right ?_⟩
  rintro ⟨x,hx,hid,hwire⟩
  rw [next_handed] at hx
  rcases after_handed hx with hx | ⟨e,he,hx⟩
  · rw [l.grounds_handed] at hx
    cases hx
  · exact ⟨e,he,x,hx,hid,hwire⟩

end
end AccountsApart
end

namespace AccountsApart
local instance : Codec := .plain (fun _ => none) some fun _ _ => 0
local instance : Vault := closed

/-- The machine asks for the keys of a user. -/
def asking : OutgoingRequest := ⟨"id",.keysQuery ⟨.object [("@bob:x",.array [])],none⟩⟩

/-- A pump that has sent what the machine asks. -/
def pumped : List (Sigma Ans) :=
  [⟨.inl (.lock (.pump alice)),()⟩,⟨.inl (.olm alice .outgoingRequests),.ok [asking]⟩,
    ⟨.inl (.request "token" .keysQuery (some asking.request.wire.2)),.ok (200,.object [])⟩]

theorem marks_accepted_pumped : ∃ before status endpoint body, isSuccess status = true ∧
    pumped = before ++ [⟨.inl (.request "token" endpoint (some body)),.ok (status,.object [])⟩] ∧
    (endpoint.txn = some "id" ∨ ∃ e ∈ before, ∃ x, (alice,x) ∈ handedBy e ∧ x.id = some "id" ∧
      x.wire = (endpoint,body)) :=
  marks_accepted (show Starts passing 1 ⟨"store"⟩ (.pump alice) _ from .pump alice)
    (show Prog.Did _ pumped (.act (.inl (.olm alice (.markRequestAsSent "id" (.object [])))) _) from
      .cons (.cons (.cons (.nil _))))

end AccountsApart
end EmentE2ee
