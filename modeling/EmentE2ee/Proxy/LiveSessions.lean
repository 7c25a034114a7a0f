import EmentE2ee.Proxy.GroundedCalls

/-!
# One live machine for a device

The session map goes by token, while stores, and what serializes access to them, go by
device. The homeserver says of which device a token is when it has logged in and when it
is asked, and a sync may find that a token is dead. These decide whether there are two
machines over one store.
-/
namespace EmentE2ee.LiveSessions

open Concurrent AccountsApart
open Json (Value)
open Login (loggedIn)

def storeDir (config : Config) (ctx : AccountContext) : String :=
  account_store_dir config.store_dir ctx.user_id ctx.device_id

/-- The store directory of the device that a token is said to be of. -/
def saidDir (config : Config) (x : String × UserId × DeviceId) : String :=
  account_store_dir config.store_dir x.2.1 x.2.2

/-- The proxy's state, and since it started: the logins that were answered, all that was
said of tokens, and what of it a sync has not found out of date. -/
structure Told (ω : Type) where
  state : State ω
  logins : List Reply
  said : List (String × UserId × DeviceId)
  standing : List (String × UserId × DeviceId)

variable {ω : Type}

/-- Over no store directory there are two contexts in the map. -/
def Single (config : Config) (s : State ω) : Prop :=
  ∀ t₁ t₂ c₁ c₂, s.sessions.lookup t₁ = some c₁ → s.sessions.lookup t₂ = some c₂ →
    storeDir config c₁ = storeDir config c₂ → t₁ = t₂

section
variable [Codec] [Vault]

/-- What an answer says of tokens: who has logged in, or who asks. -/
def saidBy : (a : Doing) → Ans a → List (String × UserId × DeviceId)
  | .inl a,r => named a r
  | .inr b,r => (loginAnswer b r).filterMap loginNamed

/-- The token whose session is taken out. -/
def takenOut : Doing → Option String
  | .inl (.sessions (.remove token)) => some token
  | _ => none

structure Fresh (s : Told ω) : Prop where
  started : Started s.state
  logins : s.logins = []
  said : s.said = []
  standing : s.standing = []

/-- Any number of calls, of which any can be abandoned. The rest of a login comes after
its answer. -/
def system (O : Outside ω) (W : FurtherOutside ω) (hs : Handlers) (fuel : Nat) (config : Config) :
    Phased Call Doing Ans Res (Told ω) Grounds where
  toPhases := grounds config
  sem a r _ s s' := doing O W a s.state r s'.state ∧ s'.logins = answeredBy a r ++ s.logins ∧
    s'.said = saidBy a r ++ s.said ∧
    s'.standing = saidBy a r ++ s.standing.filter fun x => takenOut a ≠ some x.1
  env _ s s' := ∃ w, s' = { s with state := { s.state with world := w } }
  start s l p := Starts hs fuel config l p ∧ ∀ requested reply, l = .login requested reply → reply ∈ s.logins
  restart _ s' := Fresh s'
  first := Call.grounds
  final := Grounds.settled
  waits _ := True
  release _ s := s

/-- A session is started for a token that no sync has found dead since it was said whose
it is, while one has found dead every other token that was said to be of a device with the
same store. -/
def Superseding (config : Config) (s : Told ω) : Doing → Prop
  | .inl (.sessions (.insert token ctx)) =>
      ∀ x ∈ s.said, saidDir config x = storeDir config ctx → (x ∈ s.standing ↔ x.1 = token)
  | _ => True

abbrev Calls (ω : Type) := Phased.Config Call Doing Ans Res (Told ω) Grounds

/-- Runs in which every session is started so, if they are to be such. -/
def Guarded (superseding : Prop) (config : Config) (s : Told ω) (_ : Grounds) (a : Doing) : Prop :=
  superseding → Superseding config s a

/-- Sessions in the map are what was said of their tokens, and still stands. -/
structure Kept (superseding : Prop) (config : Config) (s : Told ω) : Prop where
  logins : ∀ reply ∈ s.logins, ∀ x, loginNamed reply = some x → x ∈ s.said
  standing : ∀ x ∈ s.standing, x ∈ s.said
  stands : superseding → ∀ token ctx, s.state.sessions.lookup token = some ctx →
    (token,ctx.user_id,ctx.device_id) ∈ s.standing
  single : superseding → Single config s.state

/-- What a call has been told is so. -/
def Heard (s : Told ω) (q : Grounds) : Prop := ∀ x ∈ q.named, x ∈ s.said

variable {O : Outside ω} {W : FurtherOutside ω} {hs : Handlers} {fuel : Nat} {config : Config}
  {superseding : Prop} {s s' : Told ω} {q : Grounds}

omit [Vault] in
theorem Fresh.kept (h : Fresh s) : Kept superseding config s := by
  refine ⟨?_,?_,fun _ token ctx hlookup => ?_,fun _ t₁ t₂ c₁ c₂ hlookup => ?_⟩
  · rw [h.logins]
    nofun
  · rw [h.standing]
    nofun
  · rw [h.started.sessions] at hlookup
    cases hlookup
  · rw [h.started.sessions] at hlookup
    cases hlookup

omit [Codec] [Vault] in
/-- A session that is put into the map is what was said of its token. -/
theorem inserted_said (hq : Heard s q) {token : String} {ctx : AccountContext}
    (hmay : q.May config (.sessions (.insert token ctx))) : (token,ctx.user_id,ctx.device_id) ∈ s.said := by
  obtain ⟨x,_,_,hctx,rfl,hnamed,_⟩ := hmay
  rw [hctx]
  exact hq _ hnamed

/-- What is in the map after an action was there before, or has just been put there. -/
theorem kept_lookup {a : Doing} {r : Ans a} (hsem : doing O W a s.state r s'.state) {token : String}
    {ctx : AccountContext} (hlookup : s'.state.sessions.lookup token = some ctx) :
    s.state.sessions.lookup token = some ctx ∧ takenOut a ≠ some token ∨
      a = .inl (.sessions (.insert token ctx)) := by
  cases a with
  | inl a =>
      rcases lookup_next hsem hlookup with hbefore | rfl
      · refine .inl ⟨hbefore,fun htaken => ?_⟩
        obtain rfl : a = .sessions (.remove token) := by
          cases a with
          | sessions a =>
              cases a with
              | remove t => cases htaken; rfl
              | _ => cases htaken
          | _ => cases htaken
        cases htaken
        rw [hsem.2] at hlookup
        cases (AList.lookup_erase token s.state.sessions).symm.trans hlookup
      · exact .inr rfl
  | inr b =>
      rw [hsem.2] at hlookup
      exact .inl ⟨hlookup,nofun⟩

/-- One action keeps the invariant. -/
theorem Kept.act {a : Doing} {r : Ans a} (h : Kept superseding config s) (hq : Heard s q)
    (hmay : (grounds config).may q a) (hok : Guarded superseding config s q a)
    (hdo : doing O W a s.state r s'.state) (hnext : s'.logins = answeredBy a r ++ s.logins ∧
      s'.said = saidBy a r ++ s.said ∧
      s'.standing = saidBy a r ++ s.standing.filter fun x => takenOut a ≠ some x.1) :
    Kept superseding config s' := by
  obtain ⟨hlogins,hsaid,hstanding⟩ := hnext
  have hstays : superseding → ∀ token ctx, s.state.sessions.lookup token = some ctx →
    takenOut a ≠ some token →
      (token,ctx.user_id,ctx.device_id) ∈ s'.standing := by
    intro hs token ctx hlookup htaken
    rw [hstanding]
    refine List.mem_append_right _ (List.mem_filter.mpr ⟨h.stands hs token ctx hlookup,?_⟩)
    simpa using htaken
  -- A session that is put into the map is the only one that stands for its directory.
  have hnew : superseding → ∀ token ctx, a = .inl (.sessions (.insert token ctx)) →
      (token,ctx.user_id,ctx.device_id) ∈ s.standing ∧ ∀ t c, s.state.sessions.lookup t = some c →
        storeDir config c = storeDir config ctx → t = token := by
    rintro hs token ctx rfl
    have hsuper := hok hs
    have hmay : q.May config (.sessions (.insert token ctx)) := hmay
    refine ⟨(hsuper _ (inserted_said hq hmay) rfl).mpr rfl,fun t c hlookup hdir => ?_⟩
    have hstands := h.stands hs t c hlookup
    exact (hsuper _ (h.standing _ hstands) hdir).mp hstands
  refine ⟨?_,?_,fun hs token ctx hlookup => ?_,fun hs t₁ t₂ c₁ c₂ h₁ h₂ hdir => ?_⟩
  · intro reply hreply x hx
    rw [hlogins] at hreply
    rw [hsaid]
    rcases List.mem_append.mp hreply with hreply | hreply
    · cases a with
      | inl a => cases hreply
      | inr b => exact List.mem_append_left _ (List.mem_filterMap.mpr ⟨reply,hreply,hx⟩)
    · exact List.mem_append_right _ (h.logins reply hreply x hx)
  · intro x hx
    rw [hstanding] at hx
    rw [hsaid]
    rcases List.mem_append.mp hx with hx | hx
    · exact List.mem_append_left _ hx
    · exact List.mem_append_right _ (h.standing x (List.mem_filter.mp hx).1)
  · rcases kept_lookup hdo hlookup with ⟨hbefore,htaken⟩ | rfl
    · exact hstays hs token ctx hbefore htaken
    · rw [hstanding]
      exact List.mem_append_right _ (List.mem_filter.mpr ⟨(hnew hs token ctx rfl).1,by simp [takenOut]⟩)
  · rcases kept_lookup hdo h₁ with ⟨hb₁,-⟩ | ha₁
    · rcases kept_lookup hdo h₂ with ⟨hb₂,-⟩ | ha₂
      · exact h.single hs t₁ t₂ c₁ c₂ hb₁ hb₂ hdir
      · exact (hnew hs t₂ c₂ ha₂).2 t₁ c₁ hb₁ hdir
    · rcases kept_lookup hdo h₂ with ⟨hb₂,-⟩ | ha₂
      · exact ((hnew hs t₁ c₁ ha₁).2 t₂ c₂ hb₂ hdir.symm).symm
      · cases ha₁.symm.trans ha₂
        rfl

/-- What a call hears is said. -/
theorem Heard.next {a : Doing} {r : Ans a} (hq : Heard s q) (hsaid : s'.said = saidBy a r ++ s.said) :
    Heard s' ((grounds config).next q a r) := by
  intro x hx
  rw [hsaid]
  cases a with
  | inl a =>
      rcases List.mem_append.mp hx with hx | hx
      · exact List.mem_append_left _ hx
      · exact List.mem_append_right _ (hq x hx)
  | inr b => exact List.mem_append_right _ (hq x hx)

theorem system_keeps : (system O W hs fuel config).Keeps (Guarded superseding config)
    fun s qs => (Kept superseding config s ∧ ∀ q ∈ qs, Heard s q) ∧ True := by
  refine .beside (D := fun _ _ => True) ⟨fun _ _ => trivial,fun _ _ _ _ => trivial,fun _ _ _ => trivial,
    fun _ _ _ _ _ => trivial,fun _ _ => trivial,fun _ _ => trivial⟩ (fun _ _ _ => trivial) ?_ ?_ ?_ ?_ ?_
  · intro s l p hp h x hx
    cases l with
    | login requested reply => exact h.logins reply (hp.2 requested reply rfl) x (Option.mem_toList.mp hx)
    | _ => cases hx
  · intro s s' q a r b hmay hok hsem h hq
    refine ⟨trivial,h.act hq hmay hok hsem.1 hsem.2,hq.next hsem.2.2.1,fun q' _ hq' x hx => ?_⟩
    rw [hsem.2.2.1]
    exact List.mem_append_right _ (hq' x hx)
  · exact fun h => ⟨h,fun _ hq => hq⟩
  · rintro s _ qs ⟨w,rfl⟩ h hqs
    exact ⟨⟨h.logins,h.standing,h.stands,h.single⟩,hqs⟩
  · exact Fresh.kept

theorem system_starts : (system O W hs fuel config).Starts := fun _ _ _ hp => starts_grounded hp.1

theorem Fresh.holds {s₀ : Told ω} (h₀ : Fresh s₀) {c : Calls ω}
    (h : (system O W hs fuel config).Reachable (Guarded superseding config) s₀ c) :
    (system O W hs fuel config).Holds
      (fun s qs => (Kept superseding config s ∧ ∀ q ∈ qs, Heard s q) ∧ True) c :=
  .reachable system_keeps system_starts ⟨⟨h₀.kept,nofun⟩,trivial⟩ h

/-- **One live machine for a device.** In a run where each session is started for a token
that no sync has found dead since the homeserver said whose it is, while one has found dead
every other token that was said to be of a device with the same store, there are never two
contexts over one store directory. In any run a session is put into the map for a token
only where that is what the homeserver has said of it, and one is taken out only by a sync
that has found its token dead. -/
theorem one_machine {s₀ : Told ω} (h₀ : Fresh s₀) :
    (∀ c, (system O W hs fuel config).Reachable (fun s _ => Superseding config s) s₀ c →
      Single config c.state.state) ∧
    ∀ c, (system O W hs fuel config).Reachable (fun _ _ _ => True) s₀ c → ∀ t ∈ c.tasks,
      (∀ token ctx, t.1.rest.head = some (.inl (.sessions (.insert token ctx))) →
        ctx.token = token ∧ (token,ctx.user_id,ctx.device_id) ∈ c.state.said) ∧
      ∀ token, t.1.rest.head = some (.inl (.sessions (.remove token))) → token ∈ t.2.rejected := by
  constructor
  · intro c h
    have hguard : (fun s _ => Superseding config s) = Guarded (ω := ω) True config := by
      funext s q a
      exact propext ⟨fun hok _ => hok,fun hok => hok trivial⟩
    exact (h₀.holds (hguard ▸ h)).1.1.1.single trivial
  · intro c h t ht
    have hguard : (fun _ _ _ => True) = Guarded (ω := ω) False config := by
      funext s q a
      exact (eq_true False.elim).symm
    obtain ⟨⟨⟨-,hheard⟩,-⟩,hfollows⟩ := h₀.holds (hguard ▸ h)
    have hq : Heard c.state t.2 := hheard t.2 (List.mem_map_of_mem ht)
    have hfollows := hfollows t ht
    obtain ⟨⟨l,p⟩,q⟩ := t
    cases p with
    | ret x => exact ⟨nofun,nofun⟩
    | act a k =>
        refine ⟨fun token ctx ha => ?_,fun token ha => ?_⟩
        · cases ha
          have hmay : q.May config (.sessions (.insert token ctx)) := hfollows.1
          refine ⟨?_,inserted_said hq hmay⟩
          obtain ⟨x,_,_,hctx,rfl,_⟩ := hmay
          rw [hctx]
        · cases ha
          exact hfollows.1

end

section
def welcome (token : String) : Value :=
  .object [("access_token",.string token),("device_id",.string "DEV"),("user_id",.string "@alice:x")]

/-- Two logins' answers, and that a token is dead. -/
local instance : Codec := .plain
  (fun bytes => some <| if bytes = [1] then welcome "t1" else if bytes = [2] then welcome "t2"
    else .object [("errcode",.string "M_UNKNOWN_TOKEN")]) some fun _ _ => 0
local instance : Vault := closed

def disk : Config := ⟨"store"⟩

def relaying : Handlers := ⟨fun _ req => passthrough req,passthrough⟩

def around : Outside Unit := fun _ _ _ _ => True
def aside : FurtherOutside Unit := fun _ _ _ _ => True

abbrev house : Phased Call Doing Ans Res (Told Unit) Grounds := system around aside relaying 0 disk

def alice (token : String) : AccountContext := ⟨"@alice:x","DEV",token,⟨0,"key"⟩⟩

def device (token : String) : String × UserId × DeviceId := (token,"@alice:x","DEV")

def empty : Told Unit := ⟨idle,[],[],[]⟩

theorem empty_fresh : Fresh empty := ⟨idle_started,rfl,rfl,rfl⟩

def login : Request := ⟨.post,"/_matrix/client/v3/login",none,[],[]⟩

/-- Nothing is in the way of a session for a token. -/
structure Ready (superseding : Prop) (token : String) (s : Told Unit) : Prop where
  unlocked : s.state.locked .sessions = false
  absent : s.state.sessions.lookup token = none
  superseded : superseding → s.standing = [] ∧ ∀ x ∈ s.said, x.1 ≠ token

/-- An action that tells nothing of tokens. -/
theorem does {a : Doing} {r : Ans a} {s : Told Unit} {t : State Unit}
    (h : doing around aside a s.state r t)
    (hnothing : answeredBy a r = [] ∧ saidBy a r = [] ∧ takenOut a = none) :
    house.sem a r true s { s with state := t } := by
  refine ⟨h,by rw [hnothing.1]; rfl,by rw [hnothing.2.1]; rfl,?_⟩
  simp [hnothing.2.1,hnothing.2.2]

/-- One of the world outside. -/
theorem asks {a : Act} {r : a.Ans} {s : Told Unit} (ha : a.outside)
    (hnothing : answeredBy (.inl a) r = [] ∧ saidBy (.inl a) r = [] ∧ takenOut (.inl a) = none) :
    house.sem (.inl a) r true s s :=
  does (sem_outside (w := ()) ha trivial) hnothing

theorem login_reached {superseding : Prop} {s : Told Unit} {ts : List (Thread Call Doing Ans Res × Grounds)}
    {token : String} (reply : Reply)
    (h : house.Reachable (Guarded superseding disk) empty ⟨s,ts⟩) (hready : Ready superseding token s)
    (hreply : loggedIn reply = some (welcome token)) (hnamed : loginNamed reply = some (device token)) :
    ∃ c, house.Reachable (Guarded superseding disk) empty c ∧
      c.state.state.sessions = s.state.sessions.insert token (alice token) ∧
      c.state.state.locked .sessions = false ∧ c.state.said = device token :: s.said ∧
      c.state.standing = device token :: s.standing := by
  have hforward := h.start (l := .forwardLogin login) ⟨.forwardLogin login,nofun⟩
  have hplanned := hforward.act (t := s) ts (a := .inr (.inr (.inr (.planLogin []))))
    (r := LoginPlan.default) rfl (fun _ => trivial) (does ⟨trivial,rfl⟩ ⟨rfl,rfl,rfl⟩)
  have hanswered := hplanned.act
    (t := ⟨s.state,reply :: s.logins,device token :: s.said,device token :: s.standing⟩) ts
    (a := .inr (.inr (.inr (.post "/_matrix/client/v3/login" (.raw []))))) (r := Except.ok reply)
    rfl (fun _ => trivial)
    ⟨⟨trivial,rfl⟩,rfl,by simp [saidBy,loginAnswer,hnamed],by simp [saidBy,loginAnswer,hnamed,takenOut]⟩
  have h₀ := hanswered.start (l := .login none reply) ⟨.login none reply,by
    rintro _ _ ⟨⟩
    exact List.mem_cons_self⟩
  have hfinish : ofLogin (Login.finish_login disk none reply) = ofLogin (do
      (SessionManager.insert_from_login disk (welcome token)).run.widen >>= fun _ => pure ()
      pure (raw_response reply.status (contentType reply.headers) (.raw reply.bytes))) := by
    unfold Login.finish_login
    rw [hreply]
    rfl
  rw [hfinish] at h₀
  have hsuper : superseding → ∀ x ∈ device token :: s.said,
      (x ∈ device token :: s.standing ↔ x.1 = token) := by
    intro hs x hx
    obtain ⟨hnone,hother⟩ := hready.superseded hs
    rcases List.mem_cons.mp hx with rfl | hx
    · exact iff_of_true List.mem_cons_self rfl
    · refine iff_of_false (fun hstanding => ?_) (hother x hx)
      rw [hnone] at hstanding
      exact hother x hx (congrArg Prod.fst (List.mem_singleton.mp hstanding))
  have h₁ := h₀.act _ (r := .error "unreachable") rfl (fun _ => trivial) (asks trivial ⟨rfl,rfl,rfl⟩)
  have h₂ := h₁.act _ (r := ()) rfl (fun _ => trivial) (does ⟨hready.unlocked,rfl⟩ ⟨rfl,rfl,rfl⟩)
  have h₃ := h₂.act _ (r := none) rfl (fun _ => trivial) (does ⟨hready.absent.symm,rfl⟩ ⟨rfl,rfl,rfl⟩)
  have h₄ := h₃.act _ (r := true) rfl (fun _ => trivial) (asks trivial ⟨rfl,rfl,rfl⟩)
  have h₅ := h₄.act _ (r := .ok ()) rfl (fun _ => trivial) (asks trivial ⟨rfl,rfl,rfl⟩)
  have h₆ := h₅.act _ (r := .ok ⟨0,"key"⟩) rfl (fun _ => trivial) (asks trivial ⟨rfl,rfl,rfl⟩)
  have h₇ := h₆.act _ (r := .ok ()) rfl (fun _ => trivial) (asks trivial ⟨rfl,rfl,rfl⟩)
  have h₈ := h₇.act _ (r := ()) rfl (fun hs x hx _ => hsuper hs x hx) (does ⟨rfl,rfl⟩ ⟨rfl,rfl,rfl⟩)
  have h₉ := h₈.act _ (r := ()) rfl (fun _ => trivial) (does rfl ⟨rfl,rfl,rfl⟩)
  exact ⟨_,h₉,rfl,by simp [SessionsAct.run],rfl,rfl⟩

theorem empty_ready (superseding : Prop) (token : String) : Ready superseding token empty :=
  ⟨rfl,rfl,fun _ => ⟨rfl,nofun⟩⟩

def reply₁ : Reply := ⟨200,[],[1]⟩
def reply₂ : Reply := ⟨200,[],[2]⟩

/-- The device logs in again, and its old context stays. -/
theorem two_machines : ∃ c, house.Reachable (fun _ _ _ => True) empty c ∧
    c.state.state.sessions.lookup "t1" = some (alice "t1") ∧
    c.state.state.sessions.lookup "t2" = some (alice "t2") ∧ ¬ Single disk c.state.state := by
  obtain ⟨c₁,h₁,hsessions₁,hunlocked₁,-⟩ := login_reached reply₁ .refl
    (empty_ready False "t1") rfl rfl
  have hready : Ready False "t2" c₁.state := ⟨hunlocked₁,by rw [hsessions₁]; rfl,False.elim⟩
  obtain ⟨c₂,h₂,hsessions₂,-⟩ := login_reached reply₂ h₁ hready rfl rfl
  have hold : c₂.state.state.sessions.lookup "t1" = some (alice "t1") := by
    rw [hsessions₂,hsessions₁]
    rfl
  have hnew : c₂.state.state.sessions.lookup "t2" = some (alice "t2") := by
    rw [hsessions₂]
    exact AList.lookup_insert ..
  refine ⟨c₂,h₂.mono fun _ _ _ _ => trivial,hold,hnew,fun hsingle => ?_⟩
  exact absurd (hsingle "t1" "t2" _ _ hold hnew rfl) (by decide)

/-- A sync under the old token. -/
def sync : Request := ⟨.get,"/_matrix/client/v3/sync",none,[("authorization","Bearer t1")],[]⟩

theorem sync_route : classify sync.method sync.path = .sync := by decide

theorem sync_handled : handle relaying 0 disk sync =
    (do
      let ctx ← context_for disk (some "t1")
      match ctx with
      | some ctx => do
          let reply ← fromUpstream (act (.fetch ctx.token sync.path_and_query))
          finish_sync ctx reply
      | none => passthrough sync) := by
  have hsync : ∀ ctx, handle_sync ctx sync = (do
      let reply ← fromUpstream (act (.fetch ctx.token sync.path_and_query))
      finish_sync ctx reply) := by
    intro ctx
    unfold handle_sync
    rw [show query_param (sync.query.getD "") "since" = none by decide]
  unfold handle
  rw [sync_route,with_context,show bearer_token sync = some "t1" by decide]
  refine bind_congr fun ctx => ?_
  cases ctx with
  | none => rfl
  | some ctx => exact hsync ctx

/-- A sync that finds the token dead takes its session out. -/
theorem sync_reached {s : Told Unit} {ts : List (Thread Call Doing Ans Res × Grounds)}
    (h : house.Reachable (Guarded True disk) empty ⟨s,ts⟩)
    (hlookup : s.state.sessions.lookup "t1" = some (alice "t1")) :
    ∃ c, house.Reachable (Guarded True disk) empty c ∧
      c.state.state.sessions = s.state.sessions.erase "t1" ∧
      c.state.state.locked = s.state.locked ∧ c.state.said = s.said ∧
      c.state.standing = s.standing.filter fun x => some "t1" ≠ some x.1 := by
  have hstart := h.start (l := .request sync)
    ⟨.request (by rw [sync_route]; nofun) (by rw [sync_route]; nofun),nofun⟩
  rw [sync_handled] at hstart
  have h₁ := hstart.act _ (r := some (alice "t1")) rfl (fun _ => trivial)
    (does ⟨hlookup.symm,rfl⟩ ⟨rfl,rfl,rfl⟩)
  have h₂ := h₁.act _ (r := .ok ⟨401,[],[0]⟩)
    (show _ = Prog.act (.inl (.fetch "t1" sync.path_and_query)) _ from rfl) (fun _ => trivial)
    (asks trivial ⟨rfl,rfl,rfl⟩)
  have h₃ := h₂.act (t := ⟨{ s.state with sessions := s.state.sessions.erase "t1" },s.logins,s.said,
      s.standing.filter fun x => some "t1" ≠ some x.1⟩) _ (r := ())
    (show _ = Prog.act (.inl (.sessions (.remove "t1"))) _ from rfl) (fun _ => trivial)
    ⟨⟨rfl,rfl⟩,rfl,rfl,rfl⟩
  exact ⟨_,h₃,rfl,rfl,rfl,rfl⟩

theorem one_machine_moved : ∃ c, house.Reachable (fun s _ => Superseding disk s) empty c ∧
    c.state.said = [device "t2",device "t1"] ∧ c.state.state.sessions.lookup "t2" = some (alice "t2") ∧
    Single disk c.state.state := by
  obtain ⟨c₁,h₁,hsessions₁,hunlocked₁,hsaid₁,hstanding₁⟩ := login_reached reply₁ .refl
    (empty_ready True "t1") rfl rfl
  obtain ⟨c₂,h₂,hsessions₂,hlocked₂,hsaid₂,hstanding₂⟩ := sync_reached h₁
    (by rw [hsessions₁]; exact AList.lookup_insert ..)
  have hready : Ready True "t2" c₂.state := by
    refine ⟨by rw [hlocked₂]; exact hunlocked₁,?_,fun _ => ⟨?_,?_⟩⟩
    · rw [hsessions₂,hsessions₁]
      rfl
    · rw [hstanding₂,hstanding₁]
      rfl
    · rw [hsaid₂,hsaid₁]
      rintro x hx
      rw [List.mem_singleton.mp hx]
      decide
  obtain ⟨c₃,h₃,hsessions₃,-,hsaid₃,-⟩ := login_reached reply₂ h₂ hready rfl rfl
  have h : house.Reachable (fun s _ => Superseding disk s) empty c₃ := h₃.mono fun _ _ _ hok => hok trivial
  refine ⟨c₃,h,?_,?_,(one_machine empty_fresh).1 c₃ h⟩
  · rw [hsaid₃,hsaid₂,hsaid₁]
    rfl
  · rw [hsessions₃]
    exact AList.lookup_insert ..

end
end EmentE2ee.LiveSessions
