import EmentE2ee.Concurrent.Run
import EmentE2ee.Crypto.SyncCalls
import EmentE2ee.Proxy.Handle

/-!
# What an answered sync acknowledges

The homeserver deletes to-device events once the client syncs with the position
that came with them. So an answer must either hand back the client's own
position, or carry only events that a machine of the client's has taken. It does
as long as a request without a session is not answered with new events, and the
marks of earlier requests are all backed.
-/
namespace EmentE2ee.SyncAnswers

open Concurrent
open Json (Value)
open SyncCalls (Backed Outcome Watched watched takes)

section
variable {ω : Type}

/-- The proxy's state, with the batches that each context's machine has taken. -/
structure Handing (ω : Type) where
  state : State ω
  handed : AccountContext → List (List Value)

def Handing.seen (s : Handing ω) (ctx : AccountContext) : SeenToDevice := (s.state.accounts ctx).seen

/-- Actions that neither touch the context's memory nor hand its machine a batch. -/
def calm (ctx : AccountContext) : Act → Prop
  | .seen c _ | .olm c (.receiveSyncChanges _) => c ≠ ctx
  | _ => True

theorem calm_of_mild {a : Act} (h : a.mild) (ctx : AccountContext) : calm ctx a := by
  unfold calm
  split <;> first | exact h.elim | trivial

theorem calm_of_starting {a : Act} (h : a.starting) (ctx : AccountContext) : calm ctx a := by
  unfold calm
  split <;> first | exact h.elim | trivial

/-- Nothing of note has happened to a context. -/
structure Still (token : String) (ctx : AccountContext) (s s' : Handing ω) : Prop where
  seen : ctx.token = token → s'.seen ctx = s.seen ctx
  handed : s'.handed ctx = s.handed ctx

theorem Still.rfl {token : String} {ctx : AccountContext} {s : Handing ω} : Still token ctx s s :=
  ⟨fun _ => Eq.refl _,Eq.refl _⟩

theorem Still.trans {token : String} {ctx : AccountContext} {s₁ s₂ s₃ : Handing ω}
    (h : Still token ctx s₁ s₂) (h' : Still token ctx s₂ s₃) : Still token ctx s₁ s₃ :=
  ⟨fun ht => (h'.seen ht).trans (h.seen ht),h'.handed.trans h.handed⟩

variable [Codec]

/-- The event was in a batch that the context's machine took. -/
def Handed (s : Handing ω) (ctx : AccountContext) (event : Value) : Prop :=
  ∃ raw, Codec.toRaw event = some raw ∧ raw ∈ (s.handed ctx).flatten

/-- What may happen besides the client's request: anything that leaves its
contexts' memories alone and lists sessions under their own tokens. -/
def Besides (token : String) (s s₁ : State ω) : Prop :=
  (∀ t ctx, s₁.sessions.lookup t = some ctx → ctx.token = t) ∧
    ∀ ctx, ctx.token = token → (s₁.accounts ctx).seen = (s.accounts ctx).seen

/-- Actions of the client's request that pass the guard. -/
def handing (O : Outside ω) (token : String) (ok : Handing ω → (a : Act) → a.Ans → Prop) :
    Sem Act Act.Ans (Handing ω) := fun a s r s' =>
  ok s a r ∧ ∃ s₁, Besides token s.state s₁ ∧ sem O a s₁ r s'.state ∧
    ∀ ctx, s'.handed ctx = s.handed ctx ++ takes ctx a r

/-- The position is the request's own. -/
def SinceKept (req : Request) (body : Value) : Prop :=
  ∃ since, query_param (req.query.getD "") "since" = some since ∧
    (body.get "next_batch").bind Value.asStr = some since

/-- A successful answer says nothing of events that were not handed over. -/
def Acknowledged (token : String) (req : Request) (s : Handing ω) (r : Except Abort Response) : Prop :=
  ∀ resp body, r = .ok resp → isSuccess resp.status = true → resp.body.parse = some body →
    SinceKept req body ∨ ∀ event ∈ incoming body, ∃ ctx, ctx.token = token ∧ Handed s ctx event

theorem acknowledged_error (token : String) (req : Request) (s : Handing ω) (e : Abort) :
    Acknowledged token req s (.error e) := by
  intro resp body h
  cases h

/-- The homeserver's own answer would do. -/
def Harmless (req : Request) (r : Except String Reply) : Prop :=
  ∀ reply body, r = .ok reply → isSuccess reply.status = true →
    Codec.fromSlice reply.bytes = some body → SinceKept req body ∨ incoming body = []

/-- No event of the body has the key of another one. -/
def Apart (S : SeenToDevice) (P : Value → Prop) (events : List Value) : Prop :=
  ∀ event ∈ events, ∀ other, P other ∨ other ∈ events → S.key other = S.key event → other = event

/-- What the steps of a request have to meet: new events convert and are told
apart, and no answer with new events is passed through. -/
def proper (token : String) (req : Request) (s : Handing ω) : (a : Act) → a.Ans → Prop
  | .seen ctx (.mark events),_ => ctx.token = token →
      (s.seen ctx).Converts events ∧ Apart (s.seen ctx) (Handed s ctx) events
  | .passthrough _,r => Harmless req r
  | _,_ => True

/-- A dropped request has no batch that its machine did not take. -/
def Paid (s s' : Handing ω) (a : Act) : Prop :=
  ∀ ctx changes, a = .olm ctx (.receiveSyncChanges changes) →
    changes.to_device_events = [] ∨ s'.handed ctx ≠ s.handed ctx

/-- The memories of the client's contexts are backed by what was handed over. -/
def Kept (token : String) (s : Handing ω) : Prop :=
  ∀ ctx, ctx.token = token → Backed (Handed s ctx) (s.seen ctx)

variable {O : Outside ω} {token : String} {ok : Handing ω → (a : Act) → a.Ans → Prop}
  {s s' : Handing ω}

theorem handing_still {a : Act} {r : a.Ans} {ctx : AccountContext} (ha : calm ctx a)
    (hs : handing O token ok a s r s') : Still token ctx s s' := by
  obtain ⟨_,s₁,hb,hsem,hh⟩ := hs
  refine ⟨fun ht => (SyncCalls.sem_seen ?_ hsem).trans (hb.2 ctx ht),?_⟩
  · unfold SyncCalls.sparesSeen
    split
    · exact ha
    · trivial
  · rw [hh]
    unfold takes
    split
    · rw [if_neg ha,List.append_nil]
    · exact List.append_nil _

theorem Still.event {ctx : AccountContext} (h : Still token ctx s s') (event : Value) :
    Handed s' ctx event ↔ Handed s ctx event := by
  rw [Handed,h.handed,Handed]

theorem Still.handed_eq {ctx : AccountContext} (h : Still token ctx s s') :
    Handed s' ctx = Handed s ctx := funext fun event => propext (h.event event)

theorem Still.backed {ctx : AccountContext} (h : Still token ctx s s') (ht : ctx.token = token)
    (hb : Backed (Handed s ctx) (s.seen ctx)) : Backed (Handed s' ctx) (s'.seen ctx) := by
  rw [h.seen ht,h.handed_eq]
  exact hb

theorem Kept.still (h : Kept token s) (hs : ∀ ctx, Still token ctx s s') : Kept token s' :=
  fun ctx ht => (hs ctx).backed ht (h ctx ht)

/-- Programs of calm actions leave everything of note as it was. -/
theorem still_wp {α : Type} {P : Act → Prop} {Q : α → Prop} (hP : ∀ a, P a → ∀ ctx, calm ctx a)
    {p : M α} (h : p.Every P Q) (s : Handing ω) :
    p.wp (handing O token ok) (fun r s' => Q r ∧ ∀ ctx, Still token ctx s s') s :=
  Prog.wp_of_every (I := fun s' => ∀ ctx, Still token ctx s s')
    (fun ha hs h ctx => (h ctx).trans (handing_still (hP _ ha ctx) hs)) h
    fun _ => .rfl

theorem still_wc {α : Type} {P : Act → Prop} (hP : ∀ a, P a → ∀ ctx, calm ctx a) {p : M α}
    (h : p.Does P) (s : Handing ω) :
    p.wc (handing O token ok) Act.waits (fun _ s' => ∀ ctx, Still token ctx s s') s :=
  Prog.wc_of_does (I := fun s' => ∀ ctx, Still token ctx s s')
    (fun ha hs h ctx => (h ctx).trans (handing_still (hP _ ha ctx) hs)) h
    fun _ => .rfl

theorem Kept.calm_wc {α : Type} {P : Act → Prop} (hk : Kept token s)
    (hP : ∀ a, P a → ∀ ctx, calm ctx a) {p : M α} (h : p.Does P) {Q : Act → Handing ω → Prop} :
    p.wc (handing O token ok) Act.waits (fun a s' => Q a s' → Kept token s') s := by
  refine Prog.wc_mono ?_ (still_wc hP h s)
  exact fun _ _ h _ => hk.still h

/-- Seen from one context, a request's actions are those of one call. -/
theorem handing_watched (ok : Handing ω → (a : Act) → a.Ans → Prop) {ctx : AccountContext}
    (ht : ctx.token = token) {a : Act} {s s' : Handing ω}
    {r : a.Ans} (hs : handing O token ok a s r s') :
    watched O ctx a ⟨s.state,s.handed ctx⟩ r ⟨s'.state,s'.handed ctx⟩ := by
  obtain ⟨_,s₁,hb,hsem,hh⟩ := hs
  exact ⟨s₁,hb.2 ctx ht,hsem,hh ctx⟩

/-- Other contexts are none of a call's business. -/
theorem receive_calm (ctx : AccountContext) (body : Value) :
    (receive_sync_changes ctx body).Does fun a => ∀ c, ctx ≠ c → calm c a := by
  refine (SyncCalls.receive_does ctx body).mono fun a ha c hc => ?_
  unfold calm
  split
  · exact fun he => hc (ha.symm.trans he)
  · exact fun he => hc (ha.symm.trans he)
  · trivial

variable {ctx : AccountContext} {req : Request}

/-- What the guard says of the marks, seen from before the call. -/
def Marked (s : Handing ω) (ctx : AccountContext) (events : List Value) : Prop :=
  (s.seen ctx).Converts events ∧ Apart (s.seen ctx) (Handed s ctx) events

theorem marked_after (ht : ctx.token = token) {a : Act} {r : a.Ans} {s₁ s₂ : Handing ω}
    {events : List Value} {m : (SeenAct.mark events).Ans} (ha : calm ctx a)
    (h₁ : handing O token (proper token req) a s r s₁)
    (h₂ : handing O token (proper token req) (.seen ctx (.mark events)) s₁ m s₂) :
    Marked s ctx events := by
  have hstill := handing_still ha h₁
  have hg := h₂.1 ht
  rwa [hstill.seen ht,hstill.handed_eq] at hg

theorem receive_marked_wp (ht : ctx.token = token) (body : Value) :
    (receive_sync_changes ctx body).wp (handing O token (proper token req))
      (fun _ _ => Marked s ctx (incoming body)) s := by
  rw [SyncCalls.receive_eq]
  intro _ s₁ h₁ marked s₂ h₂
  have hm := marked_after ht (a := .lock (.seen ctx)) trivial h₁ h₂
  exact Prog.wp_of_forall (fun _ _ => hm) _ _

theorem receive_marked_wc (ht : ctx.token = token) (body : Value) :
    (receive_sync_changes ctx body).wc (handing O token (proper token req)) Act.waits
      (fun a _ => (∃ x, a = .olm ctx x) → Marked s ctx (incoming body)) s := by
  rw [SyncCalls.receive_eq]
  refine ⟨fun _ h => by simp at h,fun _ s₁ h₁ => ⟨fun _ h => by simp at h,nofun,fun marked s₂ h₂ => ?_⟩⟩
  have hm := marked_after ht (a := .lock (.seen ctx)) trivial h₁ h₂
  refine ⟨nofun,?_⟩
  exact Prog.wc_of_forall (fun _ _ _ => hm) _ _

theorem handed_old {bs : List (List Value)} (hbs : s'.handed ctx = s.handed ctx ++ bs) {event : Value}
    (h : Handed s ctx event) : Handed s' ctx event := by
  obtain ⟨raw,hraw,hmem⟩ := h
  refine ⟨raw,hraw,?_⟩
  rw [hbs,List.flatten_append]
  exact List.mem_append_left _ hmem

theorem handed_new {bs : List (List Value)} (hbs : s'.handed ctx = s.handed ctx ++ bs)
    {event raw : Value} (hraw : Codec.toRaw event = some raw) (hmem : raw ∈ bs.flatten) :
    Handed s' ctx event := by
  refine ⟨raw,hraw,?_⟩
  rw [hbs,List.flatten_append]
  exact List.mem_append_right _ hmem

/-- What a call that meets the guard keeps, for its context and for others. -/
theorem kept_of_outcome (ht : ctx.token = token) (hk : Kept token s) {events : List Value}
    {e : SyncCalls.Ending} {bs : List (List Value)} (hbs : s'.handed ctx = s.handed ctx ++ bs)
    (ho : Outcome ctx (s.seen ctx) events e bs (s'.seen ctx))
    (hstill : ∀ c, ctx ≠ c → Still token c s s') (hconv : (s.seen ctx).Converts events)
    (hpaid : (∃ changes, e = .dropped (.olm ctx (.receiveSyncChanges changes))) → bs = [] →
      (s.seen ctx).newEvents events = []) : Kept token s' := by
  intro c hc
  by_cases he : ctx = c
  · subst he
    exact ho.backed (hk ctx ht) hconv hpaid (fun _ h => handed_old hbs h)
      fun _ _ raw hraw hmem => handed_new hbs hraw hmem
  · exact (hstill c he).backed hc (hk c hc)

theorem receive_kept_wp (ht : ctx.token = token) (hk : Kept token s) (body : Value) :
    (receive_sync_changes ctx body).wp (handing O token (proper token req)) (fun r s' =>
      Kept token s' ∧ (r = .ok () → ∀ event ∈ incoming body, Handed s' ctx event)) s := by
  have hcall := Prog.wp_map (f := fun s : Handing ω => (⟨s.state,s.handed ctx⟩ : Watched ω))
    (handing_watched (proper token req) ht) (SyncCalls.receive_wp (O := O) body ⟨s.state,s.handed ctx⟩)
  have hother : (receive_sync_changes ctx body).wp (handing O token (proper token req))
      (fun _ s' => True ∧ ∀ c, ctx ≠ c → Still token c s s') s :=
    Prog.wp_of_every (I := fun s' => ∀ c, ctx ≠ c → Still token c s s')
      (fun ha hs h c hc => (h c hc).trans (handing_still (ha c hc) hs)) (receive_calm ctx body)
      fun _ _ => .rfl
  refine Prog.wp_mono ?_ (Prog.wp_and hcall (Prog.wp_and hother (receive_marked_wp ht body)))
  rintro r s' ⟨⟨bs,hbs,ho⟩,⟨_,hstill⟩,hconv,hapart⟩
  change s'.handed ctx = s.handed ctx ++ bs at hbs
  refine ⟨kept_of_outcome ht hk hbs ho hstill hconv ?_,?_⟩
  · rintro ⟨changes,⟨⟩⟩
  · rintro rfl event he
    exact ho.handed (hk ctx ht) (fun _ h => handed_old hbs h)
      (fun _ _ raw hraw hmem => handed_new hbs hraw hmem) hapart he

theorem receive_kept_wc (ht : ctx.token = token) (hk : Kept token s) (body : Value) :
    (receive_sync_changes ctx body).wc (handing O token (proper token req)) Act.waits
      (fun a s' => Paid s s' a → Kept token s') s := by
  have hcall := Prog.wc_map (f := fun s : Handing ω => (⟨s.state,s.handed ctx⟩ : Watched ω))
    (handing_watched (proper token req) ht) (SyncCalls.receive_wc (O := O) body ⟨s.state,s.handed ctx⟩)
  have hother : (receive_sync_changes ctx body).wc (handing O token (proper token req)) Act.waits
      (fun _ s' => ∀ c, ctx ≠ c → Still token c s s') s :=
    Prog.wc_of_does (I := fun s' => ∀ c, ctx ≠ c → Still token c s s')
      (fun ha hs h c hc => (h c hc).trans (handing_still (ha c hc) hs)) (receive_calm ctx body)
      fun _ _ => .rfl
  refine Prog.wc_mono ?_ (Prog.wc_and hcall (Prog.wc_and hother (receive_marked_wc ht body)))
  rintro a s' ⟨⟨bs,hbs,ho⟩,hstill,hmarked⟩ hpaid
  change s'.handed ctx = s.handed ctx ++ bs at hbs
  by_cases ha : ∃ x, a = .olm ctx x
  · refine kept_of_outcome ht hk hbs ho hstill (hmarked ha).1 ?_
    rintro ⟨changes,⟨⟩⟩ rfl
    -- A dropped call without a batch had nothing to mark.
    have hempty := (hpaid ctx changes rfl).resolve_right fun h => h (by rw [hbs,List.append_nil])
    exact ho.nothing_lost hempty
  · obtain ⟨hS,rfl⟩ := ho.not_begun ha
    refine hk.still fun c => ?_
    by_cases hc : ctx = c
    · subst hc
      exact ⟨fun _ => hS,by rw [hbs,List.append_nil]⟩
    · exact hstill c hc

theorem insert_locked_token (config : Config) (t : String) (user_id : UserId) (device_id : DeviceId)
    (published : Except Error (Option String)) (s : Handing ω) :
    (SessionManager.insert_locked config t user_id device_id published).run.wp
      (handing O token ok) (fun r _ => ∀ x, r = .ok x → x.1.token = t) s := by
  rw [SessionManager.insert_locked,run_step_bind]
  rintro present s' ⟨_,s₁,hb,hsem,_⟩
  cases present with
  | some ctx =>
      rintro x ⟨⟩
      exact hb.1 t ctx hsem.1.symm
  | none =>
      have hnew : ∀ p : Fallible (AccountContext × Option Bool), p.run.Every (fun _ => True)
          (fun r => ∀ x, r = .ok x → x.1.token = t) →
          p.run.wp (handing O token ok) (fun r _ => ∀ x, r = .ok x → x.1.token = t) s' := fun p hp =>
        Prog.wp_mono (fun _ _ h => h.1)
          (Prog.wp_of_every (I := fun _ : Handing ω => True) (fun _ _ _ => trivial) hp trivial)
      refine hnew _ ?_
      refine .exceptBind (Prog.does_true _) (fun _ => ?_) fun _ => nofun
      refine .exceptBind (Prog.does_true _) (fun _ => ?_) fun _ => nofun
      refine .exceptBind (Prog.does_true _) (fun olm => ?_) fun _ => nofun
      refine .exceptBind (Prog.does_true _) (fun republish => ?_) fun _ => nofun
      refine .exceptBind (Prog.does_true _) (fun _ => ?_) fun _ => nofun
      refine .exceptBind (Prog.does_true _) (fun _ => ?_) fun _ => nofun
      rintro x ⟨⟩
      rfl

theorem insert_token (config : Config) (t user_id device_id : String) (s : Handing ω) :
    (SessionManager.insert config t user_id device_id).run.wp (handing O token ok)
      (fun r _ => ∀ ctx, r = .ok ctx → ctx.token = t) s := by
  unfold SessionManager.insert
  split
  · exact nofun
  · next user _ =>
    rw [Prog.wp_exceptBind]
    refine Prog.wp_of_forall (fun r s₁ => ?_) _ _
    cases r with
    | error e => exact nofun
    | ok published =>
        dsimp only
        rw [Prog.wp_exceptBind,run_attempt,withLock_eq]
        intro _ s₂ _
        rw [Prog.wp_bind]
        refine Prog.wp_mono (fun r s₃ hr => ?_)
          (insert_locked_token config t user device_id published s₂)
        intro _ s₄ _
        cases r with
        | error e => exact nofun
        | ok x =>
            obtain ⟨ctx,republish⟩ := x
            have ht := hr _ rfl
            rw [Prog.wp_ret]
            dsimp only
            refine Prog.wp_mono (fun _ _ h => h.1) (Prog.wp_of_every (P := fun _ => True)
              (I := fun _ => True) (fun _ _ _ => trivial) ?_ trivial)
            cases republish with
            | none =>
                rintro c ⟨⟩
                exact ht
            | some republish =>
                refine ⟨trivial,fun _ => ⟨trivial,fun _ => ⟨trivial,fun _ => ?_⟩⟩⟩
                rintro c ⟨⟩
                exact ht

/-- A context belongs to the token it was asked for. -/
theorem get_or_init_token (config : Config) (t : String) (s : Handing ω) :
    (SessionManager.get_or_init config t).run.wp (handing O token ok)
      (fun r _ => ∀ ctx, r = .ok ctx → ctx.token = t) s := by
  rw [SessionManager.get_or_init,run_step_bind]
  rintro present s' ⟨_,s₁,hb,hsem,_⟩
  cases present with
  | some ctx =>
      rintro x ⟨⟩
      exact hb.1 t ctx hsem.1.symm
  | none =>
      dsimp only
      rw [Prog.wp_exceptBind]
      refine Prog.wp_of_forall (fun r s₁ => ?_) _ _
      cases r with
      | error e => exact nofun
      | ok answer =>
          obtain ⟨status,body⟩ := answer
          dsimp only
          split_ifs
          · split
            · exact nofun
            · exact nofun
            · exact insert_token ..
          · exact nofun

theorem get_or_init_still (config : Config) (t : String) (s : Handing ω) :
    (SessionManager.get_or_init config t).run.wp (handing O token ok) (fun r s' =>
      (∀ ctx, r = .ok ctx → ctx.token = t) ∧ ∀ ctx, Still token ctx s s') s :=
  Prog.wp_mono (fun _ _ h => ⟨h.1,h.2.2⟩) (Prog.wp_and (get_or_init_token config t s)
    (still_wp (fun _ h => calm_of_starting h) (SessionManager.get_or_init_starting config t) s))

theorem context_for_wp (config : Config) (t : String) (s : Handing ω) :
    (context_for config (some t)).run.wp (handing O token ok) (fun r s' =>
      (∀ ctx, r = .ok (some ctx) → ctx.token = t) ∧ ∀ ctx, Still token ctx s s') s := by
  rw [context_for,Prog.wp_exceptBind,Prog.wp_lift]
  refine Prog.wp_mono (fun started s' h => ?_) (get_or_init_still config t s)
  cases started with
  | ok ctx =>
      refine ⟨?_,h.2⟩
      rintro c ⟨⟩
      exact h.1 ctx rfl
  | error e =>
      dsimp only
      split <;> exact ⟨nofun,h.2⟩

theorem context_for_wc (config : Config) (t : String) (s : Handing ω) :
    (context_for config (some t)).run.wc (handing O token ok) Act.waits
      (fun _ s' => ∀ ctx, Still token ctx s s') s := by
  refine Prog.wc_exceptBind (Prog.wc_lift (still_wc (fun _ h => calm_of_starting h)
    (SessionManager.get_or_init_starting config t) s)) ?_
  refine Prog.wp_of_forall (fun r s' started h => ?_) _ _
  subst h
  cases started with
  | ok ctx => trivial
  | error e =>
      dsimp only
      split <;> trivial

omit [Codec] in
theorem incoming_get {body body' : Value} (h : body'.get "to_device" = body.get "to_device") :
    incoming body' = incoming body := by
  simp only [incoming,Value.pointer,h]

/-- What follows the machine's call leaves the marks alone, and the events. -/
def rewritten (ctx : AccountContext) (reply : Reply) (body : Value) : ProxyM Response := do
  let body ← orPanic (process_sync_body ctx body)
  ExceptT.lift (act (.spawn ctx .pump))
  pure (raw_response 200 (contentType reply.headers) (.json body))

theorem rewritten_mild (reply : Reply) (body : Value) :
    (rewritten ctx reply body).run.Does Act.mild := by
  refine .exceptBind ?_ fun _ => .exceptBind (by simp [Act.mild]) fun _ => by simp
  rw [orPanic_does]
  exact process_sync_body_mild ctx body

theorem rewritten_incoming (reply : Reply) (body : Value) :
    (rewritten ctx reply body).run.Every (fun _ => True) fun r => ∀ resp body', r = .ok resp →
      resp.body.parse = some body' → incoming body' = incoming body := by
  rw [rewritten,ExceptT.run_bind,run_orPanic,Prog.bind_assoc]
  refine (process_sync_body_get ctx (k := "to_device") (by decide) body).bind fun r h => ?_
  cases r with
  | none => exact nofun
  | some body₁ =>
      refine ⟨trivial,fun _ => ?_⟩
      rintro resp body' ⟨⟩ ⟨⟩
      exact incoming_get (h body₁ rfl)

theorem relayed_calm (reply : Reply) :
    (do
      (if is_unknown_token reply.status reply.bytes then
        ExceptT.lift (act (.sessions (.remove ctx.token)))
      else pure ())
      pure (raw_response reply.status (contentType reply.headers) (.raw reply.bytes))
        : ProxyM Response).run.Every (fun a => ∀ c, calm c a) fun r => ∀ resp, r = .ok resp →
          resp.status = reply.status := by
  refine .exceptBind ?_ (fun _ => ?_) fun _ => nofun
  · split_ifs
    · simp [calm]
    · simp
  · rintro resp ⟨⟩
    rfl

theorem finish_sync_wp (ht : ctx.token = token) (hk : Kept token s) (reply : Reply) :
    (finish_sync ctx reply).run.wp (handing O token (proper token req)) (fun r s' =>
      Kept token s' ∧ Acknowledged token req s' r) s := by
  unfold finish_sync
  by_cases hsuccess : isSuccess reply.status = true
  · rw [if_pos hsuccess]
    split
    · exact ⟨hk,acknowledged_error _ _ _ _⟩
    · next body _ =>
      rw [Prog.wp_exceptBind,run_internally,run_attempt,Prog.wp_bind]
      refine Prog.wp_mono (fun r s₁ h₁ => ?_) (receive_kept_wp ht hk body)
      cases r with
      | error e => exact ⟨h₁.1,acknowledged_error _ _ _ _⟩
      | ok _ =>
          change (rewritten ctx reply body).run.wp _ _ s₁
          refine Prog.wp_mono (fun r s₂ h₂ => ⟨h₁.1.still h₂.2,?_⟩)
            (still_wp (fun _ h => calm_of_mild h.1) ((rewritten_mild reply body).and
              (rewritten_incoming reply body)) s₁)
          intro resp body' hr _ hbody
          refine .inr fun event he => ⟨ctx,ht,?_⟩
          rw [(h₂.2 ctx).event]
          exact h₁.2 rfl event (h₂.1.2 resp body' hr hbody ▸ he)
  · rw [if_neg hsuccess]
    refine Prog.wp_mono (fun r s₁ h => ⟨hk.still h.2,?_⟩)
      (still_wp (fun _ h => h) (relayed_calm reply) s)
    intro resp body hr hs
    exact (hsuccess (h.1 resp hr ▸ hs)).elim

theorem finish_sync_wc (ht : ctx.token = token) (hk : Kept token s) (reply : Reply) :
    (finish_sync ctx reply).run.wc (handing O token (proper token req)) Act.waits
      (fun a s' => Paid s s' a → Kept token s') s := by
  unfold finish_sync
  by_cases hsuccess : isSuccess reply.status = true
  · rw [if_pos hsuccess]
    split
    · trivial
    · next body _ =>
      refine Prog.wc_exceptBind ?_ ?_
      · rw [run_internally]
        exact Prog.wc_bind_ret _ (receive_kept_wc ht hk body)
      rw [run_internally,run_attempt,Prog.wp_bind]
      refine Prog.wp_mono (fun r s₁ h₁ => ?_) (receive_kept_wp ht hk body)
      rintro _ _
      exact h₁.1.calm_wc (fun _ h => calm_of_mild h) (rewritten_mild reply body)
  · rw [if_neg hsuccess]
    exact hk.calm_wc (fun _ h => h) ((relayed_calm reply).mono (fun _ h => h) fun _ _ => trivial)

/-- An answer of repairs only keeps the position. -/
theorem repair_only_since (req : Request) (since : String)
    (h : query_param (req.query.getD "") "since" = some since) :
    (repair_only_response ctx since).run.Every (fun _ => True) fun r => ∀ resp body, r = .ok resp →
      resp.body.parse = some body → SinceKept req body := by
  rw [repair_only_response,ExceptT.run_bind,run_orPanic,Prog.bind_assoc]
  refine (inject_get ctx (k := "next_batch") (by decide) _).bind fun r hr => ?_
  cases r with
  | none => exact nofun
  | some injected =>
      rintro resp body ⟨⟩ ⟨⟩
      refine ⟨since,h,?_⟩
      rw [hr injected.1 injected.2 rfl]
      rfl

theorem repair_only_mild (since : String) :
    (repair_only_response ctx since).run.Does Act.mild := by
  refine .exceptBind ?_ fun _ => by simp
  rw [orPanic_does]
  exact inject_mild ctx _

theorem repair_only_wp (hk : Kept token s) (since : String)
    (h : query_param (req.query.getD "") "since" = some since) :
    (repair_only_response ctx since).run.wp (handing O token (proper token req)) (fun r s' =>
      Kept token s' ∧ Acknowledged token req s' r) s :=
  Prog.wp_mono (fun _ _ hr => ⟨hk.still hr.2,fun resp body he _ hb => .inl (hr.1.2 resp body he hb)⟩)
    (still_wp (fun _ h => calm_of_mild h.1) ((repair_only_mild since).and
      (repair_only_since req since h)) s)

theorem handle_sync_wp (ht : ctx.token = token) (hk : Kept token s) :
    (handle_sync ctx req).run.wp (handing O token (proper token req)) (fun r s' =>
      Kept token s' ∧ Acknowledged token req s' r) s := by
  unfold handle_sync
  split
  · rintro answer s₁ h₁
    have hk₁ := hk.still fun c => (handing_still (by trivial) h₁ : Still token c _ _)
    cases answer with
    | error m => exact ⟨hk₁,acknowledged_error _ _ _ _⟩
    | ok reply => exact finish_sync_wp ht hk₁ reply
  · next since hsince =>
    rintro ready s₁ h₁
    have hk₁ := hk.still fun c => (handing_still (by trivial) h₁ : Still token c _ _)
    cases ready with
    | true => exact repair_only_wp hk₁ since hsince
    | false =>
        rintro answer s₂ h₂
        have hk₂ := hk₁.still fun c => (handing_still (by trivial) h₂ : Still token c _ _)
        match answer with
        | none => exact repair_only_wp hk₂ since hsince
        | some (.error m) => exact ⟨hk₂,acknowledged_error _ _ _ _⟩
        | some (.ok reply) => exact finish_sync_wp ht hk₂ reply

omit [Codec] in
theorem Paid.still {s₁ : Handing ω} {a : Act} (hs : ∀ ctx, Still token ctx s s₁)
    (h : Paid s s' a) : Paid s₁ s' a := fun ctx changes ha => by
  rw [(hs ctx).handed]
  exact h ctx changes ha

/-- The guarded drops of what follows a calm program. -/
theorem wc_after {α : Type} {p : M α} {s₁ : Handing ω} (hs : ∀ ctx, Still token ctx s s₁)
    (h : p.wc (handing O token ok) Act.waits (fun a s' => Paid s₁ s' a → Kept token s') s₁) :
    p.wc (handing O token ok) Act.waits (fun a s' => Paid s s' a → Kept token s') s₁ :=
  Prog.wc_mono (fun _ _ h hp => h (hp.still hs)) h

theorem Kept.act_wc {α : Type} {a : Act} {k : a.Ans → M α} (hk : Kept token s)
    (ha : ∀ ctx, calm ctx a) (h : ∀ r s₁, Kept token s₁ →
      (k r).wc (handing O token ok) Act.waits (fun a s' => Paid s₁ s' a → Kept token s') s₁) :
    Prog.wc (handing O token ok) Act.waits (fun a s' => Paid s s' a → Kept token s') (.act a k) s := by
  refine ⟨fun _ _ => hk,fun r s₁ h₁ => ?_⟩
  have hs := fun c => handing_still (ha c) h₁
  exact ⟨fun _ _ => hk.still hs,wc_after hs (h r s₁ (hk.still hs))⟩

theorem handle_sync_wc (ht : ctx.token = token) (hk : Kept token s) :
    (handle_sync ctx req).run.wc (handing O token (proper token req)) Act.waits
      (fun a s' => Paid s s' a → Kept token s') s := by
  unfold handle_sync
  split
  · refine hk.act_wc (fun _ => trivial) fun answer s₁ hk₁ => ?_
    cases answer with
    | error m => trivial
    | ok reply => exact finish_sync_wc ht hk₁ reply
  · refine hk.act_wc (fun _ => trivial) fun ready s₁ hk₁ => ?_
    cases ready with
    | true => exact hk₁.calm_wc (fun _ h => calm_of_mild h) (repair_only_mild _)
    | false =>
        refine hk₁.act_wc (fun _ => trivial) fun answer s₂ hk₂ => ?_
        match answer with
        | none => exact hk₂.calm_wc (fun _ h => calm_of_mild h) (repair_only_mild _)
        | some (.error m) => trivial
        | some (.ok reply) => exact finish_sync_wc ht hk₂ reply

theorem passthrough_wp (hk : Kept token s) :
    (passthrough req).run.wp (handing O token (proper token req)) (fun r s' =>
      Kept token s' ∧ Acknowledged token req s' r) s := by
  rw [passthrough,Prog.wp_exceptBind,run_fromUpstream]
  rintro r s₁ h₁
  have hk₁ := hk.still fun c => (handing_still (by trivial) h₁ : Still token c _ _)
  cases r with
  | error m => exact ⟨hk₁,acknowledged_error _ _ _ _⟩
  | ok reply =>
      refine ⟨hk₁,?_⟩
      rintro resp body ⟨⟩ hs hbody
      rcases h₁.1 reply body rfl hs hbody with hsince | hnone
      · exact .inl hsince
      · exact .inr fun event he => by simp [hnone] at he

theorem passthrough_wc (hk : Kept token s) {Q : Act → Handing ω → Prop} :
    (passthrough req).run.wc (handing O token ok) Act.waits (fun a s' => Q a s' → Kept token s') s :=
  hk.calm_wc (P := fun a => ∀ c, calm c a) (fun _ h => h) (passthrough_does.mpr fun _ => trivial)

variable {config : Config}

theorem with_context_wp (ht : bearer_token req = some token) (hk : Kept token s) :
    (with_context config req fun ctx => handle_sync ctx req).run.wp
      (handing O token (proper token req)) (fun r s' =>
        Kept token s' ∧ Acknowledged token req s' r) s := by
  rw [with_context,ht,Prog.wp_exceptBind]
  refine Prog.wp_mono (fun r s₁ h₁ => ?_) (context_for_wp config token s)
  have hk₁ := hk.still h₁.2
  match r with
  | .error e => exact ⟨hk₁,acknowledged_error _ _ _ _⟩
  | .ok none => exact passthrough_wp hk₁
  | .ok (some ctx) => exact handle_sync_wp (h₁.1 ctx rfl) hk₁

theorem with_context_wc (ht : bearer_token req = some token) (hk : Kept token s) :
    (with_context config req fun ctx => handle_sync ctx req).run.wc
      (handing O token (proper token req)) Act.waits (fun a s' => Paid s s' a → Kept token s') s := by
  rw [with_context,ht]
  refine Prog.wc_exceptBind ?_ ?_
  · refine Prog.wc_mono ?_ (context_for_wc config token s)
    exact fun _ _ h _ => hk.still h
  refine Prog.wp_mono (fun r s₁ h₁ => ?_) (context_for_wp config token s)
  have hk₁ := hk.still h₁.2
  rintro ctx? rfl
  cases ctx? with
  | none => exact passthrough_wc hk₁
  | some ctx => exact wc_after h₁.2 (handle_sync_wc (h₁.1 ctx rfl) hk₁)

/-- A sync request, and how it ended. -/
inductive Exchange where
  | answered (req : Request) (r : Except Abort Response)
  | dropped (req : Request) (a : Act)

/-- The client's sync requests follow each other; `ok` is what the steps of
each have to meet, and `paid` what a dropped one has to. -/
inductive Step (O : Outside ω) (h : Handlers) (fuel : Nat) (config : Config) (token : String)
    (ok : Request → Handing ω → (a : Act) → a.Ans → Prop)
    (paid : Handing ω → Handing ω → Act → Prop) : Handing ω → Exchange → Handing ω → Prop
  | answered {s s' : Handing ω} {req : Request} {r : Except Abort Response} :
      classify req.method req.path = .sync → bearer_token req = some token →
      Prog.Exec (handing O token (ok req)) (handle h fuel config req).run s r s' →
      Step O h fuel config token ok paid s (.answered req r) s'
  | dropped {s s' : Handing ω} {req : Request} {a : Act} :
      classify req.method req.path = .sync → bearer_token req = some token →
      Prog.Cut (handing O token (ok req)) Act.waits (handle h fuel config req).run s a s' →
      paid s s' a → Step O h fuel config token ok paid s (.dropped req a) s'

/-- The answer, if there is one, acknowledges only what was handed over. -/
def Exchange.Acknowledges (token : String) (s : Handing ω) : Exchange → Prop
  | answered req r => Acknowledged token req s r
  | dropped .. => True

variable {h : Handlers} {fuel : Nat} {x : Exchange}

theorem handle_sync_route (hroute : classify req.method req.path = .sync) :
    handle h fuel config req = with_context config req fun ctx => handle_sync ctx req := by
  rw [handle,hroute]

theorem Step.kept (hk : Kept token s)
    (hs : Step O h fuel config token (proper token) Paid s x s') :
    Kept token s' ∧ x.Acknowledges token s' := by
  cases hs with
  | answered hroute ht hs =>
      rw [handle_sync_route hroute] at hs
      exact hs.wp (with_context_wp ht hk)
  | dropped hroute ht hs hpaid =>
      rw [handle_sync_route hroute] at hs
      exact ⟨hs.wc (with_context_wc ht hk) hpaid,trivial⟩

/-- In a run that starts with nothing remembered and meets the guard, every
successful answer hands back the client's position or carries only events that
a machine of the client's has taken. -/
theorem acknowledged_was_handed {s₀ : Handing ω} {xs : List Exchange}
    (h₀ : ∀ ctx, ctx.token = token → (s₀.seen ctx).order = [])
    (hrun : Run (Step O h fuel config token (proper token) Paid) s₀ xs s)
    (hs : Step O h fuel config token (proper token) Paid s x s') : x.Acknowledges token s' := by
  have hk : Kept token s := hrun.invariant
    (fun ctx ht k hk => by simp [h₀ ctx ht] at hk) fun s x s' hk hs => (hs.kept hk).1
  exact (hs.kept hk).2

end

@[reducible] def oneCodec : Codec := .plain (fun _ => some SyncCalls.oneKey) some fun _ _ => 7

local instance : Codec := oneCodec

def sync : Request := ⟨.get,"/_matrix/client/v3/sync",none,[("authorization","Bearer token")],[]⟩

theorem sync_route : classify sync.method sync.path = .sync := by decide

theorem sync_token : bearer_token sync = some "token" := by decide

/-- An action of a request with nobody else at work. -/
theorem handing_of {ω : Type} {O : Outside ω} {token : String}
    {ok : Handing ω → (a : Act) → a.Ans → Prop} {a : Act} {s : Handing ω} {r : a.Ans} {σ : State ω}
    (hok : ok s a r) (hl : ∀ t ctx, s.state.sessions.lookup t = some ctx → ctx.token = t)
    (h : sem O a s.state r σ) :
    handing O token ok a s r ⟨σ,fun ctx => s.handed ctx ++ takes ctx a r⟩ :=
  ⟨hok,s.state,⟨hl,fun _ _ => rfl⟩,h,fun _ => rfl⟩

/-- A homeserver that answers with one event, and a machine that takes it. -/
def answering : Outside Unit
  | .fetch _ _,_,r,w' => r = .ok ⟨200,[],[]⟩ ∧ w' = ()
  | .olm _ (.receiveSyncChanges _),_,r,w' => r = .ok [] ∧ w' = ()
  | .recordFinished _,_,_,_ | .now,_,_,_ | .spawn ..,_,_,_ => True
  | _,_,_,_ => False

def alone : Handing Unit where
  state := { SyncCalls.blank with sessions := AList.singleton "token" SyncCalls.alice }
  handed _ := []

theorem alone_listed : ∀ t ctx, alone.state.sessions.lookup t = some ctx → ctx.token = t := by
  intro t ctx h
  have hm := AList.mem_lookup_iff.mp h
  rw [alone,AList.singleton_entries,List.mem_singleton] at hm
  cases hm
  rfl

def noHandlers : Handlers := ⟨fun _ _ => refuse (.upstream ""),fun _ => refuse (.upstream "")⟩

theorem answered_one : ∃ σ handed, Step answering noHandlers 0 ⟨""⟩ "token" (proper "token") Paid
    alone (.answered sync (.ok (raw_response 200 none (.json SyncCalls.oneKey)))) ⟨σ,handed⟩ := by
  have hmark : Marked alone SyncCalls.alice (incoming SyncCalls.oneKey) := by
    refine ⟨SeenToDevice.converts_of_mark SyncCalls.marked_one,fun event he other ho _ => ?_⟩
    rw [List.mem_singleton.mp he]
    rcases ho with ⟨raw,_,hraw⟩ | ho
    · cases hraw
    · exact List.mem_singleton.mp ho
  apply Exists.intro
  apply Exists.intro
  apply Step.answered sync_route sync_token
  rw [handle_sync_route sync_route,with_context,sync_token]
  refine .act (r := some SyncCalls.alice) (handing_of trivial alone_listed ⟨rfl,rfl⟩) ?_
  refine .act (r := .ok ⟨200,[],[]⟩) (handing_of trivial alone_listed (sem_outside (w := ()) trivial ⟨rfl,rfl⟩)) ?_
  refine .act (r := ()) (handing_of trivial alone_listed ⟨rfl,rfl⟩) ?_
  refine .act (r := .ok ⟨[SyncCalls.roomKey],[7],0⟩) (handing_of (fun _ => hmark) alone_listed ⟨rfl,rfl⟩) ?_
  refine .act (r := .ok []) (handing_of trivial alone_listed (sem_outside (w := ()) trivial ⟨rfl,rfl⟩)) ?_
  refine .act (r := ()) (handing_of trivial alone_listed ⟨rfl,rfl⟩) ?_
  refine .act (r := ()) (handing_of trivial alone_listed (sem_outside (w := ()) trivial trivial)) ?_
  refine .act (r := (0 : Nat)) (handing_of trivial alone_listed (sem_outside (w := ()) trivial trivial)) ?_
  refine .act (r := ()) (handing_of trivial alone_listed rfl) ?_
  refine .act (r := ()) (handing_of trivial alone_listed rfl) ?_
  refine .act (r := []) (handing_of trivial alone_listed ⟨rfl,rfl⟩) ?_
  refine .act (r := ()) (handing_of trivial alone_listed (sem_outside (w := ()) trivial trivial)) ?_
  exact .ret _ _

/-- The event that is answered was handed over. -/
theorem acknowledged_was_handed_one : ∃ s' : Handing Unit,
    Step answering noHandlers 0 ⟨""⟩ "token" (proper "token") Paid alone
      (.answered sync (.ok (raw_response 200 none (.json SyncCalls.oneKey)))) s' ∧
    Acknowledged "token" sync s' (.ok (raw_response 200 none (.json SyncCalls.oneKey))) := by
  obtain ⟨σ,handed,hs⟩ := answered_one
  exact ⟨_,hs,acknowledged_was_handed (fun _ _ => rfl) .nil hs⟩

/-- A homeserver that refuses to say whose the token is, yet answers it. -/
def limiting : Outside Unit
  | .request _ .whoami _,_,r,w' => r = .ok (429,.null) ∧ w' = ()
  | .passthrough _,_,r,w' => r = .ok ⟨200,[],[]⟩ ∧ w' = ()
  | _,_,_,_ => False

def nobody : Handing Unit := ⟨SyncCalls.blank,fun _ => []⟩

theorem nobody_listed : ∀ t ctx, nobody.state.sessions.lookup t = some ctx → ctx.token = t := by
  intro t ctx h
  have hm := AList.mem_lookup_iff.mp h
  cases hm

/-- Without a session the event is passed through, and no machine has it. -/
theorem passed_through_unprocessed : ∃ x s, (∀ ctx, (nobody.seen ctx).order = []) ∧
    Run (Step limiting noHandlers 0 ⟨""⟩ "token" (fun _ _ _ _ => True) fun _ _ _ => True) nobody [x] s ∧
      ¬ x.Acknowledges "token" s := by
  have hrun : ∃ σ handed, Prog.Exec (handing limiting "token" fun _ _ _ => True)
      (handle noHandlers 0 ⟨""⟩ sync).run nobody (.ok ⟨200,[],.raw []⟩) ⟨σ,handed⟩ ∧
        ∀ c, handed c = [] := by
    rw [handle_sync_route sync_route,with_context,sync_token]
    apply Exists.intro
    apply Exists.intro
    constructor
    · refine .act (r := none) (handing_of trivial nobody_listed ⟨rfl,rfl⟩) ?_
      refine .act (r := .ok (429,.null)) (handing_of trivial nobody_listed
        (sem_outside (w := ()) trivial ⟨rfl,rfl⟩)) ?_
      refine .act (r := .ok ⟨200,[],[]⟩) (handing_of trivial nobody_listed
        (sem_outside (w := ()) trivial ⟨rfl,rfl⟩)) ?_
      exact .ret _ _
    · exact fun _ => rfl
  obtain ⟨σ,handed,hrun,hnone⟩ := hrun
  refine ⟨_,_,fun _ => rfl,.snoc .nil (.answered sync_route sync_token hrun),fun h => ?_⟩
  rcases h _ SyncCalls.oneKey rfl rfl rfl with ⟨since,hs,_⟩ | h
  · cases hs
  · obtain ⟨ctx,_,raw,_,hraw⟩ := h SyncCalls.roomKey (List.mem_singleton_self _)
    change raw ∈ (handed ctx).flatten at hraw
    rw [hnone] at hraw
    cases hraw

end EmentE2ee.SyncAnswers
