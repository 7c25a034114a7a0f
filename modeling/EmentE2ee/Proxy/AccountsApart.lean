import EmentE2ee.Proxy.Commands
import EmentE2ee.Proxy.Login

/-!
# Accounts side by side

Requests, logins, tasks and commands for any accounts run at once, and any of them can be
abandoned where it is. They never wait for each other in a circle, and what one does for
an account leaves the others alone.
-/
namespace EmentE2ee.AccountsApart

open Concurrent
open Json (Value)
open Login (LoginAct forward_login finish_login loggedIn)
open Verify (VerifyAct)

section
variable [Vault]

/-- The further actions, of both kinds of commands and of logins. -/
abbrev Further := VerifyAct ⊕ VaultAct ⊕ LoginAct

abbrev Doing := Act ⊕ Further

variable [Codec]

abbrev FurtherAns : Further → Type := Sum.elim VerifyAct.Ans (Sum.elim VaultAct.Ans LoginAct.Ans)

abbrev Ans : Doing → Type := Sum.elim Act.Ans FurtherAns

inductive Call where
  /-- A request that is neither the admin's nor a login. -/
  | request (req : Request)
  /-- A login, up to the homeserver's answer. -/
  | forwardLogin (req : Request)
  /-- The rest of it, with the device ID that was asked for. -/
  | login (requested : Option String) (reply : Reply)
  | sessionStart (ctx : AccountContext) (again : Bool)
  | pump (ctx : AccountContext)
  | requestRoomKey (ctx : AccountContext) (room_id : RoomId) (raw : Value) (session_id : String)
  | verify (ctx : AccountContext) (with_user : UserId) (wanted : Ctl.Wanted)
  | bootstrap (ctx : AccountContext) (recovery_key : String)

abbrev Res : Call → Type
  | .request _ => Except Abort Response
  | .forwardLogin _ => Except Abort (Option String × Reply)
  | .login .. => Response
  | .verify .. => Except Error Value
  | .bootstrap .. => Except Error BootstrapReport
  | _ => Unit

/-- A program about flows, among all actions. -/
def ofVerify {α : Type} (p : WideM VerifyAct.Ans α) : Prog Doing Ans α :=
  p.via (Sum.map id Sum.inl) fun
    | .inl _,r => r
    | .inr _,r => r

def ofVault {α : Type} (p : WideM VaultAct.Ans α) : Prog Doing Ans α :=
  p.via (Sum.map id (Sum.inr ∘ Sum.inl)) fun
    | .inl _,r => r
    | .inr _,r => r

def ofLogin {α : Type} (p : WideM LoginAct.Ans α) : Prog Doing Ans α :=
  p.via (Sum.map id (Sum.inr ∘ Sum.inr)) fun
    | .inl _,r => r
    | .inr _,r => r

inductive Starts (hs : Handlers) (fuel : Nat) (config : Config) :
    (l : Call) → Prog Doing Ans (Res l) → Prop
  | request {req : Request} : (∀ sub, classify req.method req.path ≠ .admin sub) →
      classify req.method req.path ≠ .login →
      Starts hs fuel config (.request req) (handle hs fuel config req).run.widen
  | forwardLogin (req : Request) :
      Starts hs fuel config (.forwardLogin req) (ofLogin (forward_login req).run)
  | login (requested : Option String) (reply : Reply) :
      Starts hs fuel config (.login requested reply) (ofLogin (finish_login config requested reply))
  | sessionStart (ctx : AccountContext) (again : Bool) :
      Starts hs fuel config (.sessionStart ctx again) (session_start fuel ctx again).widen
  | pump (ctx : AccountContext) : Starts hs fuel config (.pump ctx) (EmentE2ee.pump fuel ctx).widen
  | requestRoomKey (ctx : AccountContext) (room_id : RoomId) (raw : Value) (session_id : String) :
      Starts hs fuel config (.requestRoomKey ctx room_id raw session_id)
        (request_room_key ctx room_id raw session_id).widen
  | verify (ctx : AccountContext) (with_user : UserId) (wanted : Ctl.Wanted) :
      Starts hs fuel config (.verify ctx with_user wanted)
        (ofVerify (Admin.verify fuel ctx with_user wanted).run)
  | bootstrap (ctx : AccountContext) (recovery_key : String) :
      Starts hs fuel config (.bootstrap ctx recovery_key)
        (ofVault (EmentE2ee.bootstrap fuel ctx recovery_key).run)

/-- The token of a login's answer. -/
def loginToken (reply : Reply) : Option String :=
  (loggedIn reply).bind fun login_response => (login_response.get "access_token").bind Value.asStr

/-- What sends a login on. -/
def forwarding (req : Request) : LoginAct → Prop
  | .planLogin body => body = req.body
  | .post path_and_query _ => path_and_query = req.path_and_query
  | .recordLogin .. => False

/-- What is noted of a login, in the directory of the device that it has become. -/
def noting (config : Config) (reply : Reply) : LoginAct → Prop
  | .recordLogin dir device_id _ => ∃ login_response user_id, loggedIn reply = some login_response ∧
      ((login_response.get "user_id").bind Value.asStr).bind parseUserId = some user_id ∧
      (login_response.get "device_id").bind Value.asStr = some device_id ∧
      dir = account_store_dir config.store_dir user_id device_id
  | _ => False

/-- Actions with the authority of a login's token, and of what is noted of it. -/
def underLogin {B : Type} (config : Config) (reply : Reply) (T : B → Prop) : Act ⊕ B → Prop :=
  Sum.elim (fun a => ∃ token, loginToken reply = some token ∧ a.under config token) T

/-- What a call may do. -/
def Call.may (config : Config) : Call → Doing → Prop
  | request req => Sum.elim (req.may config) fun _ => False
  | forwardLogin req =>
      Sum.elim (fun _ => False) (Sum.elim (fun _ => False) (Sum.elim (fun _ => False) (forwarding req)))
  | login _ reply =>
      underLogin config reply (Sum.elim (fun _ => False) (Sum.elim (fun _ => False) (noting config reply)))
  | sessionStart ctx _ | pump ctx | requestRoomKey ctx .. => forAccount ctx fun _ => False
  | verify ctx .. => forAccount ctx (Sum.elim (verifying ctx) fun _ => False)
  | bootstrap ctx _ =>
      forAccount ctx (Sum.elim (fun _ => False) (Sum.elim (VaultAct.ofAccount ctx) fun _ => False))

/-- The token whose authority a call has. -/
def Call.token : Call → Option String
  | request req => bearer_token req
  | forwardLogin _ => none
  | login _ reply => loginToken reply
  | sessionStart ctx _ | pump ctx | requestRoomKey ctx .. | verify ctx .. | bootstrap ctx _ =>
      some ctx.token

/-- Answers that are counted on. -/
def answers : (a : Doing) → Ans a → Prop
  | .inl a,r => keyed a r
  | .inr _,_ => True

variable {ω : Type}

/-- What further actions may do, and be answered. -/
abbrev FurtherOutside (ω : Type) := (b : Further) → ω → FurtherAns b → ω → Prop

def doing (O : Outside ω) (W : FurtherOutside ω) : Sem Doing Ans (State ω)
  | .inl a,s,r,s' => sem O a s r s'
  | .inr b,s,r,s' => W b s.world r s'.world ∧ s' = { s with world := s'.world }

/-- The proxy has just started. -/
structure Started (s : State ω) : Prop where
  sessions : s.sessions = ∅
  locked : ∀ l, s.locked l = false

/-- Any number of calls. One that is abandoned gives back the locks it holds, and a restart
forgets all sessions. -/
def system (O : Outside ω) (W : FurtherOutside ω) (hs : Handlers) (fuel : Nat) (config : Config) :
    Phased Call Doing Ans Res (State ω) (Stand Doing Lock) where
  toPhases := (wideLocking Further).stands answers
  sem a r _ s s' := doing O W a s r s'
  env _ s s' := ∃ w, s' = { s with world := w }
  start _ := Starts hs fuel config
  restart _ s' := Started s'
  first l := ⟨l.may config,[]⟩
  final q := q.held = []
  waits _ := True
  release q s := { s with locked := fun l => if l ∈ q.held then false else s.locked l }

variable {O : Outside ω} {W : FurtherOutside ω} {hs : Handlers} {fuel : Nat} {config : Config}

section
variable {reply : Reply}

/-- Answers that a login counts on. -/
def loginAnswers : (a : Act ⊕ LoginAct) → Sum.elim Act.Ans LoginAct.Ans a → Prop
  | .inl a,r => keyed a r
  | .inr _,_ => True

/-- What is done of a login, with the locks in their order. -/
abbrev LoggingIn {α : Type} (T : Act ⊕ LoginAct → Prop) (p : WideM LoginAct.Ans α) : Prop :=
  (wideLocking LoginAct).Within loginAnswers T ((wideLocking LoginAct).below 0) (fun _ => True) p

omit [Vault] in
theorem forward_login_within (req : Request) :
    LoggingIn (Sum.elim (fun _ => False) (forwarding req)) (forward_login req).run := by
  refine .of_every (P := Sum.elim (fun _ => False) (forwarding req)) ?_ ?_
  · rintro (a | a) ha
    · exact ha.elim
    · exact ⟨ha,rfl⟩
  unfold forward_login readBody
  split_ifs
  · refine ⟨rfl,fun plan => ⟨rfl,fun r => ?_⟩⟩
    cases r <;> trivial
  · trivial

omit [Vault] in
theorem note_device_within {login_response : Value} (h : loggedIn reply = some login_response)
    (requested : String) : LoggingIn (underLogin config reply (noting config reply))
      (Login.note_device config login_response requested) := by
  unfold Login.note_device
  split
  · next user_id device_id huser hdevice =>
      split_ifs
      · exact .ret trivial
      · exact .free ⟨login_response,user_id,h,huser,hdevice,rfl⟩ rfl fun _ _ => .ret trivial
  · exact .ret trivial

omit [Vault] in
theorem insert_from_login_within {login_response : Value} (h : loggedIn reply = some login_response) :
    LoggingIn (underLogin config reply (noting config reply))
      (SessionManager.insert_from_login config login_response).run.widen := by
  have hwiden : ∀ {p : M (Except Error AccountContext)}, locking.Within keyed
      (fun a => ∃ token, loginToken reply = some token ∧ a.under config token) (locking.below 0)
      (fun _ => True) p → LoggingIn (underLogin config reply (noting config reply)) p.widen :=
    fun h => .widen (fun _ ha => ha) (fun _ => rfl) rfl (fun _ _ hr => hr) h
  refine hwiden ?_
  unfold SessionManager.insert_from_login
  split
  · exact .ret trivial
  · exact .ret trivial
  · exact .ret trivial
  · next token user_id device_id htoken _ _ =>
      have hlogin : loginToken reply = some token := by rw [loginToken,h]; exact htoken
      have hinsert : Under config token 1 _ _ := insert_under user_id device_id
      refine Locking.Within.weaken (fun a ha => ⟨token,hlogin,ha⟩) (fun _ _ hr => hr) fun held hheld => ?_
      refine (hinsert.lower (Nat.zero_le 1) held hheld).mono fun _ _ h => ⟨trivial,h.2⟩

omit [Vault] in
theorem finish_login_within (requested : Option String) :
    LoggingIn (underLogin config reply (noting config reply)) (finish_login config requested reply) := by
  refine Locking.Within.bind (E := fun _ => True) ?_ fun _ _ => .ret trivial
  cases h : loggedIn reply with
  | none => exact .ret trivial
  | some login_response =>
      refine Locking.Within.bind (E := fun _ => True) ?_ fun _ _ => ?_
      · cases requested with
        | none => exact .ret trivial
        | some requested => exact note_device_within h requested
      · exact Locking.Within.bind (insert_from_login_within h) fun _ _ => .ret trivial

/-- A part of a login, among all actions. -/
theorem logging_in_stand {α : Type} {T : Act ⊕ LoginAct → Prop} {T' : Doing → Prop}
    (hT : ∀ a, T a → T' (Sum.map id (Sum.inr ∘ Sum.inr) a)) {p : WideM LoginAct.Ans α}
    (h : LoggingIn T p) : (ofLogin p).Follows ((wideLocking Further).stands answers)
      (fun _ q => q.held = []) ⟨T',[]⟩ := by
  refine Locking.Within.stand (K := locking.below 0) (E := fun _ => True) ?_ nofun
  refine Locking.Within.via hT ?_ ?_ ?_ h
  · rintro (a | a) <;> rfl
  · rfl
  · rintro (a | a) r hr
    · exact hr
    · trivial

end

/-- What is done for an account, among all actions. -/
theorem conducted_stand {ctx : AccountContext} {α : Type} {p : M α} {n : Nat}
    (h : Conducted ctx n p) :
    (p.widen : Prog Doing Ans α).Follows ((wideLocking Further).stands answers)
      (fun _ q => q.held = []) ⟨forAccount ctx fun _ => False,[]⟩ := by
  refine Locking.Within.stand (K := locking.below n) (E := fun _ => True) ?_ nofun
  exact Locking.Within.widen (fun _ ha => ha) (fun _ => rfl) rfl (fun _ _ _ => trivial) h

theorem system_starts : (system O W hs fuel config).Starts := by
  intro _ l p hp
  cases hp with
  | @request req hadmin hlogin =>
      refine Locking.Within.stand (K := locking.below 0) (E := fun _ => True) ?_ nofun
      exact Locking.Within.widen (fun _ ha => ha) (fun _ => rfl) rfl (fun _ _ hr => hr)
        (handle_served hs fuel config hadmin hlogin)
  | forwardLogin req =>
      refine logging_in_stand ?_ (forward_login_within req)
      rintro (a | a) ha
      · exact ha.elim
      · exact ha
  | login requested reply =>
      refine logging_in_stand ?_ (finish_login_within requested)
      rintro (a | a) ha <;> exact ha
  | sessionStart ctx again => exact conducted_stand (session_start_conducted fuel again)
  | pump ctx => exact conducted_stand (pump_conducted fuel)
  | requestRoomKey ctx room_id raw session_id =>
      exact conducted_stand (request_room_key_conducted room_id raw session_id)
  | verify ctx with_user wanted =>
      refine Locking.Within.stand (K := locking.below 0) (E := fun _ => True) ?_ nofun
      have hverify : Commanded ctx (verifying ctx) 0 _ := Admin.verify_commanded fuel with_user wanted
      refine Locking.Within.via ?_ ?_ ?_ (fun _ _ _ => trivial) hverify
      · rintro (a | a) ha <;> exact ha
      · rintro (a | a) <;> rfl
      · rfl
  | bootstrap ctx recovery_key =>
      refine Locking.Within.stand (K := locking.below 0) (E := fun _ => True) ?_ nofun
      have hjoins : Joins ctx 0 _ := bootstrap_joins fuel recovery_key
      refine Locking.Within.via ?_ ?_ ?_ (fun _ _ _ => trivial) hjoins
      · rintro (a | a) ha <;> exact ha
      · rintro (a | a) <;> rfl
      · rfl

/-- Every session is under the token of its context. -/
def Keyed (s : State ω) : Prop := ∀ token ctx, s.sessions.lookup token = some ctx → ctx.token = token

/-- A call that inserts sessions does so under their own tokens. -/
def Honest (q : Stand Doing Lock) : Prop :=
  ∀ token ctx, q.permitted (.inl (.sessions (.insert token ctx))) → ctx.token = token

theorem Call.honest (config : Config) (l : Call) : Honest ⟨l.may config,[]⟩ := by
  intro token ctx hmay
  cases l with
  | request req =>
      change req.may config _ at hmay
      unfold Request.may at hmay
      split at hmay
      · rcases hmay with h | h | ⟨_,h⟩ | ⟨_,h⟩ <;> cases h
      · split at hmay
        · exact hmay.2.trans hmay.1.symm
        · cases hmay
  | login requested reply =>
      obtain ⟨_,_,hunder⟩ := hmay
      exact hunder.2.trans hunder.1.symm
  | _ => exact hmay.elim

omit [Vault] in
theorem keyed_answers {a : Act} {s s' : State ω} {r : a.Ans} (hs : Keyed s) (h : sem O a s r s') :
    keyed a r := by
  cases a with
  | sessions a =>
      cases a with
      | get token =>
          cases r with
          | none => trivial
          | some ctx => exact hs token ctx h.1.symm
      | _ => trivial
  | _ => trivial

omit [Vault] in
/-- What an action does to the sessions. -/
theorem keyed_act {a : Act} {s s' : State ω} {r : a.Ans} (hs : Keyed s)
    (ha : ∀ token ctx, a = .sessions (.insert token ctx) → ctx.token = token)
    (h : sem O a s r s') : Keyed s' := by
  have hsame : s'.sessions = s.sessions → Keyed s' := fun he => by
    intro token ctx hlookup
    rw [he] at hlookup
    exact hs token ctx hlookup
  cases a with
  | sessions a =>
      cases a with
      | insert token ctx =>
          intro t c hlookup
          rw [h.2] at hlookup
          change (s.sessions.insert token ctx).lookup t = _ at hlookup
          by_cases ht : t = token
          · subst ht
            rw [AList.lookup_insert] at hlookup
            cases hlookup
            exact ha _ _ rfl
          · rw [AList.lookup_insert_ne ht] at hlookup
            exact hs t c hlookup
      | remove token =>
          intro t c hlookup
          rw [h.2] at hlookup
          change (s.sessions.erase token).lookup t = _ at hlookup
          by_cases ht : t = token
          · subst ht
            rw [AList.lookup_erase] at hlookup
            cases hlookup
          · rw [AList.lookup_erase_ne ht] at hlookup
            exact hs t c hlookup
      | list => exact hsame (by rw [h.2])
      | get token => exact hsame (by rw [h.2]; rfl)
      | refuse conflict => exact hsame (by rw [h.2]; rfl)
      | settle user_id => exact hsame (by rw [h.2]; rfl)
  | rooms c a => exact hsame (by rw [h.2]; rfl)
  | repairs c a => exact hsame (by rw [h.2]; rfl)
  | seen c a => exact hsame (by rw [h.2]; rfl)
  | stats c now n d k => exact hsame (by rw [h]; rfl)
  | lock l => exact hsame (by rw [h.2])
  | unlock l => exact hsame (by rw [h])
  | _ => exact hsame (by rw [h.2])

omit [Vault] in
/-- What an action does to the locks. -/
theorem effect_act {a : Act} {s s' : State ω} {r : a.Ans} (h : sem O a s r s') :
    (lockUse a).effect s.locked s'.locked := by
  cases a with
  | lock l => exact ⟨h.1,by rw [h.2]⟩
  | unlock l => exact congrArg State.locked h
  | sessions a => cases a <;> exact h.2 ▸ rfl
  | rooms c a => exact h.2 ▸ rfl
  | repairs c a => exact h.2 ▸ rfl
  | seen c a => exact h.2 ▸ rfl
  | stats c now n d k => exact h ▸ rfl
  | _ => exact (show s'.locked = s.locked by rw [h.2])

omit [Codec] [Vault] in
theorem Started.keyed {s : State ω} (h : Started s) : Keyed s := by
  intro token ctx hlookup
  rw [h.sessions] at hlookup
  cases hlookup

def Apart (s : State ω) (qs : List (Stand Doing Lock)) : Prop := Keyed s ∧ ∀ q ∈ qs, Honest q

theorem system_locked : Locked (system O W hs fuel config) (wideLocking Further) Stand.held State.locked where
  may h := h.2
  next _ _ _ := rfl
  first _ := rfl
  final h := h
  sem {a r _ s s'} h := by
    cases a with
    | inl a => exact effect_act h
    | inr b => exact (show _ = _ by rw [h.2])
  env h := by
    obtain ⟨w,rfl⟩ := h
    rfl
  restart h := h.locked
  release _ _ := rfl

theorem apart_keeps : (system O W hs fuel config).Keeps (fun _ _ _ => True)
    (Locked.With Stand.held State.locked Apart) := by
  refine .beside (D := fun _ _ => True) system_locked.preserves (fun _ _ _ => trivial) ?_ ?_ ?_ ?_ ?_
  · exact fun {_ l _} _ _ => l.honest config
  · intro s s' q a r b hmay _ hsem hkeyed hhonest
    cases a with
    | inl a =>
        have hkeep : Keyed s' := keyed_act hkeyed (fun token ctx he => hhonest token ctx (he ▸ hmay.1)) hsem
        exact ⟨keyed_answers hkeyed hsem,hkeep,hhonest,fun _ _ h => h⟩
    | inr b =>
        refine ⟨trivial,fun token ctx hlookup => ?_,hhonest,fun _ _ h => h⟩
        rw [hsem.2] at hlookup
        exact hkeyed token ctx hlookup
  · exact fun hkeyed => ⟨hkeyed,fun _ h => h⟩
  · rintro s _ qs ⟨w,rfl⟩ hkeyed hhonest
    exact ⟨hkeyed,hhonest⟩
  · exact Started.keyed

abbrev Calls (ω : Type) := Phased.Config Call Doing Ans Res (State ω) (Stand Doing Lock)

theorem Started.holds {s₀ : State ω} (h₀ : Started s₀) {c : Calls ω}
    (h : (system O W hs fuel config).Reachable (fun _ _ _ => True) s₀ c) :
    (system O W hs fuel config).Holds (Locked.With Stand.held State.locked Apart) c := by
  refine .reachable apart_keeps system_starts ⟨⟨h₀.keyed,nofun⟩,fun l => ?_⟩ h
  rw [h₀.locked]
  rfl

/-- **Locks.** A lock that is taken is held by one call in progress, one that has ended
holds none, and while some have not ended, one that has not waits for no lock. -/
theorem locks_in_order {s₀ : State ω} (h₀ : Started s₀) {c : Calls ω}
    (h : (system O W hs fuel config).Reachable (fun _ _ _ => True) s₀ c) :
    (∀ l, c.state.locked l = true → ∃ us t vs, c.tasks = us ++ t :: vs ∧ l ∈ t.2.held ∧
      ∀ u ∈ us ++ vs, l ∉ u.2.held) ∧
    (∀ t ∈ c.tasks, t.1.rest.head = none → t.2.held = []) ∧
    ((∃ t ∈ c.tasks, t.1.rest.head ≠ none) → ∃ t ∈ c.tasks, ∃ a, t.1.rest.head = some a ∧
      ¬ ((wideLocking Further).use a).blocked c.state.locked t.2.held) := by
  have hholds := h₀.holds h
  have htop : ∀ l, (wideLocking Further).rank l ≤ 1 := by
    intro l
    cases l <;> simp [wideLocking,Lock.rank]
  refine ⟨fun l hl => Locked.holder hholds hl,fun t ht hend => system_locked.ended hholds ht hend,?_⟩
  rintro ⟨t,ht,hrest⟩
  exact system_locked.unblocked htop hholds ht hrest

/-- What an action does to the map: a context under a token, or the token's removal. -/
def change : Act → List (String × Option AccountContext)
  | .sessions (.insert token ctx) => [(token,some ctx)]
  | .sessions (.remove token) => [(token,none)]
  | _ => []

omit [Vault] in
theorem sessions_of_sem {O : Outside ω} {a : Act} {s s' : State ω} {r : a.Ans}
    (h : sem O a s r s') (ha : change a = []) : s'.sessions = s.sessions := by
  cases a with
  | rooms c a => rw [h.2]; rfl
  | repairs c a => rw [h.2]; rfl
  | seen c a => rw [h.2]; rfl
  | stats c now n d k => rw [h]; rfl
  | sessions a =>
      cases a with
      | insert token ctx => cases ha
      | remove token => cases ha
      | list => rw [h.2]
      | get token => rw [h.2]; rfl
      | refuse conflict => rw [h.2]; rfl
      | settle user_id => rw [h.2]; rfl
  | lock l => rw [h.2]
  | unlock l => rw [h]
  | _ => rw [h.2]

omit [Vault] in
/-- Whatever is in the map was there before, or has just been put there. -/
theorem lookup_next {a : Act} {t t' : State ω} {r : a.Ans} (h : sem O a t r t')
    {token : String} {ctx : AccountContext} (hlookup : t'.sessions.lookup token = some ctx) :
    t.sessions.lookup token = some ctx ∨ a = .sessions (.insert token ctx) := by
  by_cases hc : change a = []
  · rw [sessions_of_sem h hc] at hlookup
    exact .inl hlookup
  · cases a with
    | sessions a =>
        cases a with
        | insert u c =>
            rw [h.2] at hlookup
            change (t.sessions.insert u c).lookup token = _ at hlookup
            by_cases hu : token = u
            · subst hu
              rw [AList.lookup_insert] at hlookup
              cases hlookup
              exact .inr rfl
            · rw [AList.lookup_insert_ne hu] at hlookup
              exact .inl hlookup
        | remove u =>
            rw [h.2] at hlookup
            change (t.sessions.erase u).lookup token = _ at hlookup
            by_cases hu : token = u
            · subst hu
              rw [AList.lookup_erase] at hlookup
              cases hlookup
            · rw [AList.lookup_erase_ne hu] at hlookup
              exact .inl hlookup
        | _ => exact (hc rfl).elim
    | _ => exact (hc rfl).elim

omit [Vault] in
/-- What is in the map stays, unless it is taken out or another is put in its place. -/
theorem lookup_stays {a : Act} {t t' : State ω} {r : a.Ans} (h : sem O a t r t')
    {token : String} {ctx : AccountContext} (hlookup : t.sessions.lookup token = some ctx) :
    t'.sessions.lookup token = some ctx ∨ a = .sessions (.remove token) ∨
      ∃ c, a = .sessions (.insert token c) := by
  by_cases hc : change a = []
  · rw [sessions_of_sem h hc]
    exact .inl hlookup
  · cases a with
    | sessions a =>
        cases a with
        | insert u c =>
            by_cases hu : token = u
            · exact .inr (.inr ⟨c,by rw [hu]⟩)
            · rw [h.2]
              exact .inl ((AList.lookup_insert_ne hu).trans hlookup)
        | remove u =>
            by_cases hu : token = u
            · exact .inr (.inl (by rw [hu]))
            · rw [h.2]
              exact .inl ((AList.lookup_erase_ne hu).trans hlookup)
        | _ => exact (hc rfl).elim
    | _ => exact (hc rfl).elim

/-- Everything about the accounts that are not of a token is the same in both states. -/
def Spares (token : Option String) (s s' : State ω) : Prop :=
  ∀ ctx : AccountContext, token ≠ some ctx.token → s'.accounts ctx = s.accounts ctx ∧
    s'.sessions.lookup ctx.token = s.sessions.lookup ctx.token

omit [Vault] in
/-- Actions with a token's authority leave the accounts of other tokens alone. -/
theorem under_spares {a : Act} {s s' : State ω} {r : a.Ans} {token : String} (ha : a.under config token)
    (h : sem O a s r s') : Spares (some token) s s' := by
  intro ctx htoken
  have hne : ctx.token ≠ token := fun he => htoken (congrArg some he.symm)
  refine ⟨(sem_account h ctx).resolve_right fun ht => ?_,?_⟩
  · generalize s'.accounts ctx = acc at ht
    cases ht <;> exact hne ha
  · by_cases hc : change a = []
    · rw [sessions_of_sem h hc]
    · cases a with
      | sessions a =>
          cases a with
          | insert t c =>
              rw [h.2]
              exact AList.lookup_insert_ne (by rw [ha.1]; exact hne)
          | remove t =>
              rw [h.2]
              exact AList.lookup_erase_ne (by rw [show t = token from ha]; exact hne)
          | _ => exact (hc rfl).elim
      | _ => exact (hc rfl).elim

omit [Vault] in
/-- Whatever is done outside leaves all accounts alone. -/
theorem outside_spares {a : Act} {s s' : State ω} {r : a.Ans} (ha : a.outside) (h : sem O a s r s')
    (token : Option String) : Spares token s s' := by
  intro ctx _
  cases a <;> first | exact ha.elim | exact ⟨by rw [h.2],by rw [h.2]⟩

theorem Call.spares {l : Call} {a : Doing} {s s' : State ω} {r : Ans a} (hmay : l.may config a)
    (h : doing O W a s r s') : Spares l.token s s' := by
  have haccount : ∀ {ctx : AccountContext} {T : Further → Prop}, forAccount ctx T a →
      Spares (some ctx.token) s s' := by
    intro ctx T ha
    cases a with
    | inl a => exact under_spares (Act.ofAccount.under ha config) h
    | inr b => exact fun _ _ => ⟨by rw [h.2],by rw [h.2]⟩
  cases l with
  | request req =>
      cases a with
      | inr b => exact hmay.elim
      | inl a =>
          change req.may config a at hmay
          change sem O a s r s' at h
          change Spares (bearer_token req) s s'
          unfold Request.may at hmay
          split at hmay
          · rcases hmay with rfl | rfl | ⟨ctx,rfl⟩ | ⟨token,rfl⟩
            · exact fun _ _ => ⟨by rw [h.2],by rw [h.2]⟩
            · exact outside_spares (by trivial) h _
            · exact outside_spares (by trivial) h _
            · exact outside_spares (by trivial) h _
          · split at hmay
            · next token htoken =>
                rw [htoken]
                exact under_spares hmay h
            · subst hmay
              exact outside_spares (by trivial) h _
  | forwardLogin req =>
      cases a with
      | inl a => exact hmay.elim
      | inr b => exact fun _ _ => ⟨by rw [h.2],by rw [h.2]⟩
  | login requested reply =>
      cases a with
      | inr b => exact fun _ _ => ⟨by rw [h.2],by rw [h.2]⟩
      | inl a =>
          obtain ⟨token,htoken,hunder⟩ := hmay
          change Spares (loginToken reply) s s'
          rw [htoken]
          exact under_spares hunder h
  | sessionStart ctx again => exact haccount hmay
  | pump ctx => exact haccount hmay
  | requestRoomKey ctx room_id raw session_id => exact haccount hmay
  | verify ctx with_user wanted => exact haccount hmay
  | bootstrap ctx recovery_key => exact haccount hmay

end

section
/-- A vault that opens nothing. -/
@[reducible] def closed : Vault where
  SecretStorageKey := Unit
  KeyDescription := Unit
  EncryptedData := Unit
  DecryptionKey := Unit
  PublicKey := Unit
  RoomKeyBackupInfo := Unit
  SessionData := Unit
  BackedUpRoomKey := Unit
  keyDescription _ _ := none
  fromAccountData _ _ := none
  key_id _ := ""
  encryptedUnder _ _ := none
  encryptedData _ := none
  decrypt _ _ _ := none
  fromUtf8 _ := none
  fromBase64 _ := none
  megolm_v1_public_key _ := ()
  backupVersionInfo _ := none
  backupInfo _ := none
  backup_key_matches _ _ := false
  backupKeys _ := none
  sessionData _ := none
  decrypt_session_data _ _ := none

local instance : Codec := .plain (fun _ => none) some fun _ _ => 0

local instance : Vault := closed

def anything : Outside Unit := fun _ _ _ _ => True
def anyFurther : FurtherOutside Unit := fun _ _ _ _ => True

def passing : Handlers := ⟨fun _ req => passthrough req,passthrough⟩

abbrev busy : Phased Call Doing Ans Res (State Unit) (Stand Doing Lock) :=
  system anything anyFurther passing 0 ⟨"store"⟩

def alice : AccountContext := ⟨"@alice:x","DEV","token",⟨0,"key"⟩⟩

def idle : State Unit := ⟨fun _ => .default 0,∅,[],fun _ => false,()⟩

theorem idle_started : Started idle := ⟨rfl,fun _ => rfl⟩

def pumping : State Unit := { idle with locked := Function.update idle.locked (.pump alice) true }

def sync : Request :=
  ⟨.get,"/_matrix/client/v3/sync",none,[("authorization","Bearer other")],[]⟩

theorem sync_route : classify sync.method sync.path = .sync := by decide

theorem sync_token : bearer_token sync = some "other" := by decide

abbrev syncing : Prog Doing Ans (Res (.request sync)) := (handle passing 0 ⟨"store"⟩ sync).run.widen

/-- The pump has its lock when the request comes. -/
theorem both_reached : ∃ t, busy.Reachable (fun _ _ _ => True) idle
    ⟨pumping,[t,(⟨.request sync,syncing⟩,⟨(Call.request sync).may ⟨"store"⟩,[]⟩)]⟩ := by
  have h₀ : busy.Reachable (fun _ _ _ => True) idle ⟨idle,[] ++ [(⟨.pump alice,_⟩,_)]⟩ :=
    Phased.Reachable.start .refl (.pump alice)
  have hlock : busy.sem (.inl (.lock (.pump alice))) () true idle pumping := ⟨rfl,rfl⟩
  have h₁ := h₀.act [] rfl trivial hlock
  exact ⟨_,h₁.start (.request (by rw [sync_route]; nofun) (by rw [sync_route]; nofun))⟩

theorem locks_in_order_both : ∃ c, busy.Reachable (fun _ _ _ => True) idle c ∧
    c.state.locked (.pump alice) = true ∧
    (∀ l, c.state.locked l = true → ∃ us t vs, c.tasks = us ++ t :: vs ∧ l ∈ t.2.held ∧
      ∀ u ∈ us ++ vs, l ∉ u.2.held) ∧
    (∀ t ∈ c.tasks, t.1.rest.head = none → t.2.held = []) ∧
    ((∃ t ∈ c.tasks, t.1.rest.head ≠ none) → ∃ t ∈ c.tasks, ∃ a, t.1.rest.head = some a ∧
      ¬ ((wideLocking Further).use a).blocked c.state.locked t.2.held) := by
  obtain ⟨t,h⟩ := both_reached
  have hpump : pumping.locked (.pump alice) = true := by simp [pumping]
  exact ⟨_,h,hpump,locks_in_order idle_started h⟩

end
end EmentE2ee.AccountsApart
