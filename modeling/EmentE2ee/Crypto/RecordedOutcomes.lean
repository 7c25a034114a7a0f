import EmentE2ee.Concurrent.Phases
import EmentE2ee.Crypto.FinishedFlows
import EmentE2ee.Crypto.SyncCalls
import EmentE2ee.Crypto.VerifyCommands
import EmentE2ee.Proxy.Handle

/-!
# Which outcomes are noted down in time

The machine forgets flows that have ended at the start of the next sync it processes.
Syncs and verify commands end flows with syncs paused, and note them down before the
pause is over, unless they fail or are abandoned on the way. An in-room event that is
decrypted ends flows at any time, and so does the start of a flow, as the machine puts an
end to all flows with a user who gets a second one. Nothing notes those down until a
command that ends a flow or a further sync does.
-/
namespace EmentE2ee.RecordedOutcomes

open Concurrent
open Json (Value)
open Verify

inductive Kind where
  | pause
  | resume
  | receive
  | confirm
  | cancel
  | feed
  | start
  | record
  | watch (user : UserId)
  | plain
  deriving DecidableEq

/-- What the action is to the flows of a context. -/
def kind (ctx : AccountContext) : Act ⊕ VerifyAct → Kind
  | .inl (.lock l) => if l = .seen ctx then .pause else .plain
  | .inl (.unlock l) => if l = .seen ctx then .resume else .plain
  | .inl (.olm c (.receiveSyncChanges _)) => if c = ctx then .receive else .plain
  | .inl (.olm c (.receiveVerificationEvent _)) => if c = ctx then .feed else .plain
  | .inl (.recordFinished c) => if c = ctx then .record else .plain
  | .inr (.watch c user) => if c = ctx then .watch user else .plain
  | .inr (.requestVerification c _) => if c = ctx then .start else .plain
  | .inr (.startSas c _) => if c = ctx then .start else .plain
  | .inr (.confirm c _) => if c = ctx then .confirm else .plain
  | .inr (.cancelWithCode c _ _) => if c = ctx then .cancel else .plain
  | .inr (.cancel c _) => if c = ctx then .cancel else .plain
  | _ => .plain

/-- Syncs are neither paused nor resumed, and no flow is ended but by an in-room event or
by the start of another. -/
def Kind.loose : Kind → Prop
  | feed | start | record | watch _ | plain => True
  | _ => False

def loose (ctx : AccountContext) (a : Act ⊕ VerifyAct) : Prop := (kind ctx a).loose

section
variable [Codec]

/-- The call that may have ended flows has not failed. -/
def well : (a : Act ⊕ VerifyAct) → Sum.elim Act.Ans VerifyAct.Ans a → Bool
  | .inl (.olm _ (.receiveSyncChanges _)),.error _ => false
  | .inr (.confirm ..),.error _ => false
  | _,_ => true

end

/-- Flows that have ended, of those with the own user or a watched one. -/
def concluded (own : UserId) (h : History) : Set VerificationRequest :=
  {q | ∃ flow ∈ h.finishing own, flow.request = q}

structure Course where
  history : History
  paused : Bool
  /-- Flows that have ended while their user was watched. -/
  ended : Set VerificationRequest
  /-- Those of them that were not noted down since. -/
  unrecorded : Set VerificationRequest
  /-- Of these, the ones ended by an in-room event, by the start of another flow, or by a
  call that failed or was abandoned. -/
  strays : Set VerificationRequest
  /-- Flows that were unrecorded when the machine forgot them. -/
  lost : Set VerificationRequest

/-- What the machine holds: each flow under the user it is with. -/
def Keyed (flows : UserId → List Flow) : Prop :=
  ∀ user, ∀ flow ∈ flows user, flow.request.other_user = user

/-- Flows that have ended stay. -/
def Stays (flows flows' : UserId → List Flow) : Prop :=
  ∀ user, ∀ flow ∈ flows user, flow.ended = true →
    ∃ flow' ∈ flows' user, flow'.ended = true ∧ flow'.request = flow.request

/-- Flows have moved on, and some have ended. -/
def Course.moved (s : Course) (own : UserId) (stray : Bool) (flows : UserId → List Flow) : Course :=
  let history := { s.history with flows := flows }
  let ended := concluded own history \ concluded own s.history
  { s with
    history := history
    ended := s.ended ∪ ended
    unrecorded := s.unrecorded ∪ ended
    strays := if stray then s.strays ∪ ended else s.strays }

/-- All that had ended is forgotten, and some have ended since. -/
def Course.received (s : Course) (own : UserId) (stray : Bool) (flows : UserId → List Flow) :
    Course :=
  let history := { s.history with flows := flows }
  { s with
    history := history
    ended := s.ended ∪ concluded own history
    unrecorded := concluded own history
    strays := if stray then concluded own history else ∅
    lost := s.lost ∪ s.unrecorded }

def Course.recorded (s : Course) (own : UserId) : Course :=
  { s with
    history := s.history.record_finished own
    unrecorded := s.unrecorded \ concluded own s.history
    strays := s.strays \ concluded own s.history }

/-- What an action does to the flows; those that a stray one has ended are strays. -/
def goes (own : UserId) (stray : Bool) (s s' : Course) : Kind → Prop
  | .pause => s.paused = false ∧ s' = { s with paused := true }
  | .resume => s' = { s with paused := false }
  | .receive => ∃ flows, Keyed flows ∧ s' = s.received own stray flows
  | .confirm => ∃ flows, Keyed flows ∧ Stays s.history.flows flows ∧ s' = s.moved own stray flows
  | .cancel => ∃ flows, Keyed flows ∧ Stays s.history.flows flows ∧ s' = s.moved own false flows
  -- A flow that is started can be the end of others.
  | .feed | .start => ∃ flows, Keyed flows ∧ Stays s.history.flows flows ∧ s' = s.moved own true flows
  | .record => s' = s.recorded own
  | .watch user => s' = { s with history := { s.history with log := s.history.log.watch user } }
  -- Flows may start and move on at any time.
  | .plain => ∃ flows, Keyed flows ∧ Stays s.history.flows flows ∧
      concluded own { s.history with flows := flows } ⊆ concluded own s.history ∧
      s' = { s with history := { s.history with flows := flows } }

/-- Where a call is: no pause is its own, or one is, or in it the call has yet to note
down what it may have ended. -/
inductive Phase where
  | out
  | inside
  | owing
  deriving DecidableEq

def Phase.may : Phase → Kind → Prop
  | out,k => k.loose ∨ k = .pause
  | inside,k => k ≠ .pause
  | owing,k => k = .record ∨ k = .plain

def Phase.next (q : Phase) (well : Bool) : Kind → Phase
  | .pause => .inside
  | .resume => .out
  | .receive | .confirm => if well then .owing else .inside
  | .cancel => .owing
  | .record => if q = .owing then .inside else q
  | _ => q

/-- The points at which a call can be abandoned. -/
def waits : Act ⊕ VerifyAct → Prop
  | .inl a => a.waits
  | .inr (.startSas ..) | .inr (.confirm ..) | .inr (.getDevice ..) => True
  | _ => False

section
variable [Codec]

def phases (ctx : AccountContext) : Phases (Act ⊕ VerifyAct) (Sum.elim Act.Ans VerifyAct.Ans) Phase where
  may q a := q.may (kind ctx a) ∧ (q = .owing → ¬ waits a)
  expects _ _ _ := True
  next q a r := q.next (well a r) (kind ctx a)

end

inductive Call where
  | answer
  | list
  | command
  /-- Any other part of the proxy at work. -/
  | other

section
variable [Codec]

abbrev Res : Call → Type
  | .answer => Except Abort Response
  | .list => Value
  | .command => Except Error Value
  | .other => Unit

/-- The calls that read the flows, or end some, and any other that does not end flows
but by an in-room event or by the start of one. -/
inductive Starts (ctx : AccountContext) :
    (l : Call) → Prog (Act ⊕ VerifyAct) (Sum.elim Act.Ans VerifyAct.Ans) (Res l) → Prop
  | sync (req : Request) : Starts ctx .answer (handle_sync ctx req).run.widen
  | history (req : Request) (route : Route) :
      Starts ctx .answer (handle_history_get ctx req route).run.widen
  | list (with_user : UserId) : Starts ctx .list (list ctx with_user)
  | start (fuel : Nat) (device_id : DeviceId) : Starts ctx .command (start fuel ctx device_id).run
  | show_flow (with_user : UserId) (flow_id : String) :
      Starts ctx .command (show_flow ctx with_user flow_id).run
  | advance (fuel : Nat) (with_user : UserId) (flow_id : String) (start_sas : Bool) :
      Starts ctx .command (advance fuel ctx with_user flow_id start_sas).run
  | accept (fuel : Nat) (with_user : UserId) (flow_id : String) :
      Starts ctx .command (accept fuel ctx with_user flow_id).run
  | start_sas (fuel : Nat) (with_user : UserId) (flow_id : String) :
      Starts ctx .command (start_sas fuel ctx with_user flow_id).run
  | sas_accept (fuel : Nat) (with_user : UserId) (flow_id : String) :
      Starts ctx .command (sas_accept fuel ctx with_user flow_id).run
  | confirm (fuel : Nat) (with_user : UserId) (flow_id : String) :
      Starts ctx .command (confirm fuel ctx with_user flow_id).run
  | mismatch (fuel : Nat) (with_user : UserId) (flow_id : String) :
      Starts ctx .command (mismatch fuel ctx with_user flow_id).run
  | cancel (fuel : Nat) (with_user : UserId) (flow_id : String) :
      Starts ctx .command (cancel fuel ctx with_user flow_id).run
  | other {p : Prog (Act ⊕ VerifyAct) (Sum.elim Act.Ans VerifyAct.Ans) Unit} :
      p.Does (loose ctx) → Starts ctx .other p

/-- Nothing has been noted down, and nothing has ended. -/
structure Fresh (s : Course) : Prop where
  keyed : Keyed s.history.flows
  log : s.history.log = .default
  noted : s.history.noted = []
  running : s.paused = false
  ended : s.ended = ∅
  unrecorded : s.unrecorded = ∅
  strays : s.strays = ∅
  lost : s.lost = ∅

/-- The course that the calls take, each of which gives the pause back where it is
abandoned. A restart forgets it. -/
def flows (ctx : AccountContext) :
    Phased Call (Act ⊕ VerifyAct) (Sum.elim Act.Ans VerifyAct.Ans) Res Course Phase where
  toPhases := phases ctx
  sem a r seen s s' := goes ctx.user_id (!(seen && well a r)) s s' (kind ctx a)
  env _ s s' := goes ctx.user_id false s s' .plain
  start _ := Starts ctx
  restart _ s' := Fresh s'
  first _ := .out
  final q := q = .out
  waits := waits
  release q s := if q = .out then s else { s with paused := false }

variable {ctx : AccountContext} {α : Type}

omit [Codec] in
theorem loose_next {q : Phase} {k : Kind} (hk : k.loose) (hq : q ≠ .owing) (w : Bool) :
    q.next w k = q := by
  cases k with
  | record => exact if_neg hq
  | feed => rfl
  | start => rfl
  | watch => rfl
  | plain => rfl
  | _ => exact hk.elim

/-- The program starts and ends with no pause of its own. -/
def Tidy {A : Type} {R : A → Type} (P : Phases A R Phase) (p : Prog A R α) : Prop :=
  p.Follows P (fun _ q => q = .out) .out

section
variable {A : Type} {R : A → Type} {P : Phases A R Phase} {β ε : Type}

omit [Codec] in
theorem Tidy.bind {p : Prog A R α} {f : α → Prog A R β} (hp : Tidy P p) (hf : ∀ a, Tidy P (f a)) :
    Tidy P (p >>= f) :=
  Prog.Follows.bind hp fun a _ hq => by rw [hq]; exact hf a

omit [Codec] in
theorem Tidy.exceptBind {x : ExceptT ε (Prog A R) α} {f : α → ExceptT ε (Prog A R) β}
    (hx : Tidy P x.run) (hf : ∀ a, Tidy P (f a).run) : Tidy P (x >>= f).run :=
  Prog.Follows.andThen hx fun a _ hq => by rw [hq]; exact hf a

end

theorem Tidy.of_loose {p : Prog (Act ⊕ VerifyAct) (Sum.elim Act.Ans VerifyAct.Ans) α}
    (h : p.Does (loose ctx)) : Tidy (phases ctx) p := by
  refine Prog.Follows.of_does (fun a ha q hq => ?_) h rfl
  subst hq
  exact ⟨⟨.inl ha,nofun⟩,fun r _ => loose_next ha (by simp) (well a r)⟩

omit [Codec] in
theorem loose_of_mild {a : Act} (h : a.mild) : loose ctx (.inl a) := by
  cases a with
  | lock l =>
      have hl : l ≠ .seen ctx := by
        rintro rfl
        exact h
      simp [loose,kind,hl,Kind.loose]
  | unlock l =>
      have hl : l ≠ .seen ctx := by
        rintro rfl
        exact h
      simp [loose,kind,hl,Kind.loose]
  | olm c x =>
      cases x with
      | receiveSyncChanges _ => exact h.elim
      | receiveVerificationEvent _ =>
          simp only [loose,kind]
          split_ifs <;> trivial
      | _ => trivial
  | recordFinished c =>
      simp only [loose,kind]
      split_ifs <;> trivial
  | _ => trivial

theorem Tidy.of_mild {p : M α} (h : p.Does Act.mild) : Tidy (phases ctx).left p := by
  refine Prog.Follows.of_does (fun a ha q hq => ?_) h rfl
  subst hq
  exact ⟨⟨.inl (loose_of_mild ha),nofun⟩,fun r _ => loose_next (loose_of_mild ha) (by simp) _⟩

/-- An action that is nothing to the flows. -/
theorem plain_follows {a : Act} {k : a.Ans → M α} {D : α → Phase → Prop} {q : Phase}
    (ha : kind ctx (.inl a) = .plain) (hq : q ≠ .owing ∨ ¬ a.waits)
    (hk : ∀ r, (k r).Follows (phases ctx).left D q) :
    (Prog.act a k).Follows (phases ctx).left D q := by
  refine ⟨⟨?_,fun ho => hq.resolve_left fun hne => hne ho⟩,fun r _ => ?_⟩
  · rw [ha]
    cases q with
    | out => exact .inl trivial
    | inside => exact nofun
    | owing => exact .inr rfl
  · change (k r).Follows _ D (q.next (well (.inl a) r) (kind ctx (.inl a)))
    rw [ha]
    exact hk r

/-- What the machine has answered a batch with is noted down under the pause. -/
theorem process_follows (body : Value) (events : List Value) :
    (process_sync_changes ctx body events).run.Follows (phases ctx).left
      (fun _ q => q = .inside) .inside := by
  obtain ⟨e,he⟩ | ⟨changes,_,he⟩ := SyncCalls.process_run ctx body events
  · rw [he]
    rfl
  · rw [he]
    have hkind : kind ctx (.inl (.olm ctx (.receiveSyncChanges changes))) = .receive := if_pos rfl
    refine ⟨⟨by rw [hkind]; exact nofun,nofun⟩,fun r _ => ?_⟩
    change (SyncCalls.afterMachine ctx r).Follows _ _ (Phase.next _ _ (kind ctx _))
    rw [hkind]
    cases r with
    | error m => rfl
    | ok infos =>
        have hrecord : kind ctx (.inl (.recordFinished ctx)) = .record := if_pos rfl
        refine plain_follows rfl (.inr id) fun _ =>
          ⟨⟨by rw [hrecord]; exact .inl rfl,fun _ => id⟩,fun _ _ => ?_⟩
        change Phase.next _ _ (kind ctx _) = _
        rw [hrecord]
        rfl

/-- A sync's batch, from the pause to its end. -/
theorem receive_tidy (body : Value) : Tidy (phases ctx).left (receive_sync_changes ctx body) := by
  have hpause : kind ctx (.inl (.lock (.seen ctx))) = .pause := if_pos rfl
  have hresume : kind ctx (.inl (.unlock (.seen ctx))) = .resume := if_pos rfl
  have hend : ∀ r : Except Error Unit,
      (.act (.unlock (.seen ctx)) fun _ => .ret r : M (Except Error Unit)).Follows (phases ctx).left
        (fun _ q => q = .out) .inside := by
    intro r
    refine ⟨⟨by rw [hresume]; exact nofun,nofun⟩,fun _ _ => ?_⟩
    change Phase.next _ _ (kind ctx _) = _
    rw [hresume]
    rfl
  rw [SyncCalls.receive_eq]
  refine ⟨⟨by rw [hpause]; exact .inr rfl,nofun⟩,fun _ _ => ?_⟩
  change Prog.Follows _ _ (Phase.next _ _ (kind ctx _)) _
  rw [hpause]
  refine plain_follows rfl (.inl nofun) fun marked => ?_
  refine Prog.Follows.bind (D := fun _ q => q = .inside) ?_ fun r q hq => hq ▸ hend r
  cases marked with
  | error e => rfl
  | ok batch =>
      refine (process_follows body batch.to_device_events).bind fun result q hq => ?_
      subst hq
      cases result with
      | error e => exact plain_follows rfl (.inl nofun) fun _ => rfl
      | ok n => exact plain_follows rfl (.inl nofun) fun now => plain_follows rfl (.inl nofun) fun _ => rfl

theorem handle_sync_tidy (req : Request) : Tidy (phases ctx).left (handle_sync ctx req).run := by
  have hfinish : ∀ reply, Tidy (phases ctx).left (finish_sync ctx reply).run := by
    intro reply
    unfold finish_sync
    split_ifs with hsuccess htoken
    · split
      · rfl
      · next body _ =>
          refine Tidy.exceptBind ?_ fun _ => .exceptBind (.of_mild ?_) fun _ => .of_mild ?_
          · rw [run_internally]
            exact (receive_tidy body).bind fun _ => rfl
          · rw [orPanic_does]
            exact process_sync_body_mild ctx body
          · exact .exceptBind (by simp [Act.mild]) fun _ => by simp
    · exact Tidy.exceptBind (plain_follows rfl (.inl (by decide)) fun _ => rfl) fun _ => rfl
    · rfl
  have honly : ∀ since, Tidy (phases ctx).left (repair_only_response ctx since).run := fun since =>
    .of_mild (.exceptBind (by simpa using inject_mild ctx _) fun _ => by simp)
  unfold handle_sync
  split
  · exact Tidy.exceptBind (.of_mild (by simp [Act.mild])) hfinish
  · next since _ =>
      refine Tidy.exceptBind (.of_mild (by simp [Act.mild])) fun ready => ?_
      split_ifs
      · exact honly since
      refine Tidy.exceptBind (.of_mild (by simp [Act.mild])) fun answer => ?_
      cases answer with
      | none => exact honly since
      | some reply => exact Tidy.exceptBind (.of_mild (by simp)) hfinish

theorem handle_history_get_mild (req : Request) (route : Route) :
    (handle_history_get ctx req route).run.Does Act.mild := by
  have hroom : ∀ {room_id : String} {f : RoomId → M Value} {body : Value},
      (∀ r, (f r).Does Act.mild) → ((parseRoomId room_id).elim (pure body) f).Does Act.mild := by
    intro room_id f body hf
    cases parseRoomId room_id with
    | none => trivial
    | some r => exact hf r
  refine .exceptBind (by simp [Act.mild]) fun reply => ?_
  split_ifs
  · split
    · simp
    · next body _ =>
        refine .exceptBind ?_ fun _ => by simp
        rw [proxy_lift_does]
        cases route with
        | notifications => exact process_notifications_body_mild ctx body
        | messages room_id => exact hroom fun r => process_messages_body_mild ctx r body
        | context room_id => exact hroom fun r => process_context_body_mild ctx r body
        | roomEvent room_id => exact hroom fun r => decrypt_event_mild ctx r .repairable body
        | _ => trivial
  · simp

theorem widen_tidy {p : Fallible α} (h : p.run.Does Act.mild) :
    Tidy (phases ctx) (Fallible.widen p : Verifying α).run :=
  Tidy.of_loose (Prog.widen_does (h.mono fun _ => loose_of_mild))

omit [Codec] in
theorem loose_of_lasting {a : VerifyAct} (h : ¬ a.ends) : loose ctx (.inr a) := by
  cases a with
  | watch c user =>
      simp only [loose,kind]
      split_ifs <;> trivial
  | requestVerification c _ =>
      simp only [loose,kind]
      split_ifs <;> trivial
  | startSas c _ =>
      simp only [loose,kind]
      split_ifs <;> trivial
  | confirm _ _ => exact (h trivial).elim
  | cancelWithCode _ _ _ => exact (h trivial).elim
  | cancel _ _ => exact (h trivial).elim
  | _ => trivial

theorem tidy_covers : Covers ctx (Tidy (phases ctx)) where
  ret _ := rfl
  bind := Tidy.bind
  verify a _ ha := Tidy.of_loose ((verifyAct_does a).mpr (loose_of_lasting ha))
  record := Tidy.of_loose ((usual_does _).mpr (loose_of_mild (by trivial)))
  send fuel outgoing := widen_tidy (send_verification_request_mild ctx fuel outgoing)

/-- A section that pauses syncs, and owes nothing at its end. -/
theorem paused_tidy {p : WideM VerifyAct.Ans α}
    (h : p.Follows (phases ctx) (fun _ q => q = .inside) .inside) :
    Tidy (phases ctx) (paused ctx p) := by
  have hpause : kind ctx (.inl (.lock (.seen ctx))) = .pause := if_pos rfl
  have hresume : kind ctx (.inl (.unlock (.seen ctx))) = .resume := if_pos rfl
  refine ⟨⟨by rw [hpause]; exact .inr rfl,nofun⟩,fun _ _ => ?_⟩
  change Prog.Follows _ _ (Phase.next _ _ (kind ctx _)) _
  rw [hpause]
  refine h.bind fun r q hq => ?_
  subst hq
  refine ⟨⟨by rw [hresume]; exact nofun,nofun⟩,fun _ _ => ?_⟩
  change Phase.next _ _ (kind ctx _) = _
  rw [hresume]
  rfl

/-- What has ended a flow is followed by noting it down. -/
theorem record_follows {k : Unit → WideM VerifyAct.Ans α} {q : Phase} (hq : q ≠ .out)
    (hk : (k ()).Follows (phases ctx) (fun _ q => q = .inside) .inside) :
    (.act (.inl (.recordFinished ctx)) k : WideM VerifyAct.Ans α).Follows (phases ctx)
      (fun _ q => q = .inside) q := by
  have hrecord : kind ctx (.inl (.recordFinished ctx)) = .record := if_pos rfl
  refine ⟨⟨?_,fun _ => id⟩,fun _ _ => ?_⟩
  · rw [hrecord]
    cases q with
    | out => exact (hq rfl).elim
    | inside => exact nofun
    | owing => exact .inl rfl
  · change Prog.Follows _ _ (Phase.next _ _ (kind ctx _)) _
    rw [hrecord]
    cases q with
    | out => exact (hq rfl).elim
    | inside => exact hk
    | owing => exact hk

theorem confirming_tidy (sas : Sas) : Tidy (phases ctx) (confirming ctx sas) := by
  have hconfirm : kind ctx (.inr (.confirm ctx sas)) = .confirm := if_pos rfl
  refine paused_tidy ⟨⟨by rw [hconfirm]; exact nofun,nofun⟩,fun r _ => ?_⟩
  change Prog.Follows _ _ (Phase.next _ _ (kind ctx _)) _
  rw [hconfirm]
  cases r with
  | error e => rfl
  | ok confirmed => exact record_follows nofun rfl

/-- A command that ends a flow. -/
theorem ending_tidy {a : VerifyAct} {p : WideM VerifyAct.Ans (Option OutgoingVerificationRequest)}
    {f : a.Ans → Option OutgoingVerificationRequest} (hp : p = .act (.inr a) fun r => .ret (f r))
    (ha : kind ctx (.inr a) = .cancel) : Tidy (phases ctx) (ending ctx p) := by
  subst hp
  refine paused_tidy ⟨⟨by rw [ha]; exact nofun,nofun⟩,fun r _ => ?_⟩
  change Prog.Follows _ _ (Phase.next _ _ (kind ctx _)) _
  rw [ha]
  exact record_follows nofun rfl

theorem confirm_tidy (fuel : Nat) (with_user : UserId) (flow_id : String) :
    Tidy (phases ctx) (confirm fuel ctx with_user flow_id).run := by
  refine tidy_covers.confirm confirming_tidy (fun keys => widen_tidy ?_) ?_ with_user flow_id
  · refine .exceptBind (by simp [Act.mild]) fun answer => ?_
    dsimp only
    split_ifs <;> simp
  · exact Tidy.of_loose (Prog.widen_does ((pump_quiet ctx fuel).mono fun _ h => loose_of_mild h.mild))

theorem mismatch_tidy (fuel : Nat) (with_user : UserId) (flow_id : String) :
    Tidy (phases ctx) (mismatch fuel ctx with_user flow_id).run := by
  refine tidy_covers.mismatch (fun sas => ?_) fuel with_user flow_id
  exact ending_tidy (a := .cancelWithCode ctx sas "m.mismatched_sas") (f := id) rfl (if_pos rfl)

theorem cancel_tidy (fuel : Nat) (with_user : UserId) (flow_id : String) :
    Tidy (phases ctx) (cancel fuel ctx with_user flow_id).run := by
  refine tidy_covers.cancel (fun request => ?_) fuel with_user flow_id
  exact ending_tidy (a := .cancel ctx request) (f := id) rfl (if_pos rfl)

theorem flows_starts : (flows ctx).Starts := by
  have hcovers : Covers ctx (Tidy (phases ctx)) := tidy_covers
  intro _ l p hp
  cases hp with
  | sync req => exact (handle_sync_tidy req).widen
  | history req route => exact Prog.Follows.widen (Tidy.of_mild (handle_history_get_mild req route))
  | list with_user => exact hcovers.list with_user
  | start fuel device_id => exact hcovers.start fuel device_id
  | show_flow with_user flow_id => exact hcovers.show_flow with_user flow_id
  | advance fuel with_user flow_id start_sas => exact hcovers.advance fuel with_user flow_id start_sas
  | accept fuel with_user flow_id => exact hcovers.accept fuel with_user flow_id
  | start_sas fuel with_user flow_id => exact hcovers.start_sas fuel with_user flow_id
  | sas_accept fuel with_user flow_id => exact hcovers.sas_accept fuel with_user flow_id
  | confirm fuel with_user flow_id => exact confirm_tidy fuel with_user flow_id
  | mismatch fuel with_user flow_id => exact mismatch_tidy fuel with_user flow_id
  | cancel fuel with_user flow_id => exact cancel_tidy fuel with_user flow_id
  | other h => exact Tidy.of_loose h

end

/-- A flow once noted down, after it has ended, has an outcome in the log, as long as that
has room. -/
structure Recalls (h : History) : Prop where
  told : h.Told
  ended : ∀ flow ∈ h.noted, flow.ended = true
  recalls : ∀ flow ∈ h.noted,
    (h.log.get flow.request.flow_id).isSome ∨ h.log.order.length = MAX_FINISHED

/-- A full log stays full. -/
theorem full_record {log : VerificationLog} (hkept : log.Kept)
    (h : log.order.length = MAX_FINISHED) (id : String) (v : Value) :
    (log.record id v).order.length = MAX_FINISHED := by
  by_cases hmem : id ∈ log.order
  · rw [(VerificationLog.record_known hmem hkept v).1]
    exact h
  · cases horder : log.order with
    | nil =>
        rw [horder] at h
        cases h
    | cons oldest rest =>
        rw [(VerificationLog.record_full hmem hkept horder h v).1,List.length_append,
          List.length_singleton]
        rw [horder,List.length_cons] at h
        exact h

theorem Recalls.step {h h' : History} (hr : Recalls h) (hs : History.Step h h') : Recalls h' := by
  have htold := hr.told.step hs
  cases hs with
  | watch user =>
      refine ⟨htold,hr.ended,fun flow hmem => ?_⟩
      rw [VerificationLog.watch_get,VerificationLog.watch_order]
      exact hr.recalls flow hmem
  | machine _ => exact ⟨htold,hr.ended,hr.recalls⟩
  | @note flow hended =>
      obtain ⟨_,hself,hothers⟩ := hr.told.kept.record flow.request.flow_id (outcome flow)
      have hfull := full_record hr.told.kept
      rw [← History.note_log h hended] at hself hothers
      refine ⟨htold,fun other hmem => ?_,fun other hmem => ?_⟩
      · rcases List.mem_append.mp hmem with hmem | hmem
        · exact hr.ended other hmem
        · rw [List.mem_singleton.mp hmem]
          exact hended
      by_cases hid : other.request.flow_id = flow.request.flow_id
      · exact .inl (by rw [hid,hself]; rfl)
      have hother : other ∈ h.noted := by
        rcases List.mem_append.mp hmem with hmem | hmem
        · exact hmem
        · rw [List.mem_singleton.mp hmem] at hid
          exact (hid rfl).elim
      rcases hr.recalls other hother with hsome | hlength
      · rcases hothers _ hid with hsame | ⟨_,rest,new,_,horder,hlength⟩
        · exact .inl (by rw [hsame]; exact hsome)
        · exact .inr (by rw [horder]; exact hlength)
      · rw [History.note_log h hended]
        exact .inr (hfull hlength _ _)

theorem Recalls.steps {h h' : History} (hr : Recalls h) (hs : History.Steps h h') : Recalls h' := by
  induction hs with
  | refl => exact hr
  | tail _ hs ih => exact ih.step hs

section
variable {own : UserId} {s s' : Course} {k : Kind} {stray : Bool}

theorem record_users (log : VerificationLog) (id : String) (v : Value) :
    (log.record id v).users = log.users := by
  unfold VerificationLog.record
  split_ifs
  · rfl
  · split
    · rfl
    · split_ifs <;> rfl

theorem record_finished_users (log : VerificationLog) (user_id : UserId)
    (flows : UserId → List Flow) : (log.record_finished user_id flows).users = log.users := by
  have hnote : ∀ (log : VerificationLog) (flow : Flow), (log.note flow).users = log.users := by
    intro log flow
    unfold VerificationLog.note
    split_ifs
    · exact record_users log _ _
    · rfl
  have hnotes : ∀ (fs : List Flow) (log : VerificationLog),
      (fs.foldl .note log).users = log.users := by
    intro fs
    induction fs with
    | nil => exact fun _ => rfl
    | cons flow fs ih => exact fun log => (ih _).trans (hnote log flow)
  unfold VerificationLog.record_finished
  generalize log.users ++ [user_id] = users
  induction users generalizing log with
  | nil => rfl
  | cons user users ih => exact (ih _).trans (hnotes (flows user) log)

/-- A flow that has ended, of a user that is watched or the own one. -/
theorem mem_concluded {h : History} {q : VerificationRequest} :
    q ∈ concluded own h ↔ ∃ user, (user ∈ h.log.users ∨ user = own) ∧
      ∃ flow ∈ h.flows user, flow.ended = true ∧ flow.request = q := by
  simp only [concluded,History.finishing,Set.mem_ofPred_eq,List.mem_flatMap,List.mem_append,
    List.mem_singleton,List.mem_filter]
  constructor
  · rintro ⟨flow,⟨user,huser,hmem,hended⟩,rfl⟩
    exact ⟨user,huser,flow,hmem,hended,rfl⟩
  · rintro ⟨user,huser,flow,hmem,hended,rfl⟩
    exact ⟨flow,⟨user,huser,hmem,hended⟩,rfl⟩

theorem concluded_stays {h : History} {flows : UserId → List Flow} (hf : Stays h.flows flows) :
    concluded own h ⊆ concluded own { h with flows := flows } := by
  intro q hq
  obtain ⟨user,huser,flow,hmem,hended,rfl⟩ := mem_concluded.mp hq
  obtain ⟨flow',hmem',hended',hsame⟩ := hf user flow hmem hended
  exact mem_concluded.mpr ⟨user,huser,flow',hmem',hended',hsame⟩

theorem concluded_watch (h : History) (user : UserId) :
    concluded own h ⊆ concluded own { h with log := h.log.watch user } := by
  intro q hq
  obtain ⟨u,hu,hflow⟩ := mem_concluded.mp hq
  refine mem_concluded.mpr ⟨u,hu.imp_left fun hu => ?_,hflow⟩
  change u ∈ (h.log.watch user).users
  unfold VerificationLog.watch
  split_ifs
  · exact hu
  · exact List.mem_append_left _ hu

theorem concluded_recorded (h : History) : concluded own (h.record_finished own) = concluded own h := by
  ext q
  rw [mem_concluded,mem_concluded]
  change (∃ user, (user ∈ (h.log.record_finished own h.flows).users ∨ user = own) ∧ _) ↔ _
  rw [record_finished_users]
  rfl

/-- The actions take the history the steps it can take. -/
theorem goes_steps (h : goes own stray s s' k) : History.Steps s.history s'.history := by
  cases k with
  | pause => exact h.2 ▸ .refl
  | resume => exact h ▸ .refl
  | receive =>
      obtain ⟨flows,hkeyed,rfl⟩ := h
      exact .single (.machine _ hkeyed)
  | confirm =>
      obtain ⟨flows,hkeyed,_,rfl⟩ := h
      exact .single (.machine _ hkeyed)
  | cancel =>
      obtain ⟨flows,hkeyed,_,rfl⟩ := h
      exact .single (.machine _ hkeyed)
  | feed =>
      obtain ⟨flows,hkeyed,_,rfl⟩ := h
      exact .single (.machine _ hkeyed)
  | start =>
      obtain ⟨flows,hkeyed,_,rfl⟩ := h
      exact .single (.machine _ hkeyed)
  | record => exact h ▸ History.record_finished_steps _ own
  | watch user => exact h ▸ .single (.watch _ user)
  | plain =>
      obtain ⟨flows,hkeyed,_,_,rfl⟩ := h
      exact .single (.machine _ hkeyed)

/-- What is kept of the flows, wherever the calls are. -/
structure Accounts (own : UserId) (s : Course) : Prop where
  recalls : Recalls s.history
  held : s.unrecorded ⊆ concluded own s.history
  strays : s.strays ⊆ s.unrecorded
  accounted : ∀ q ∈ s.ended, q ∈ s.unrecorded ∨ q ∈ s.lost ∨
    ∃ flow ∈ s.history.noted, flow.request = q

theorem Accounts.moved (h : Accounts own s) {flows : UserId → List Flow} (hf : Stays s.history.flows flows)
    (hr : Recalls { s.history with flows := flows }) : Accounts own (s.moved own stray flows) := by
  refine ⟨hr,?_,?_,?_⟩
  · exact Set.union_subset (h.held.trans (concluded_stays hf)) Set.sdiff_subset
  · simp only [Course.moved]
    split_ifs
    · exact Set.union_subset_union_left _ h.strays
    · exact h.strays.trans Set.subset_union_left
  · rintro q (hq | hq)
    · exact (h.accounted q hq).imp_left Or.inl
    · exact .inl (.inr hq)

theorem Accounts.step (h : Accounts own s) (hs : goes own stray s s' k) : Accounts own s' := by
  have hr := h.recalls.steps (goes_steps hs)
  cases k with
  | pause =>
      rw [hs.2]
      exact ⟨h.recalls,h.held,h.strays,h.accounted⟩
  | resume =>
      rw [show s' = _ from hs]
      exact ⟨h.recalls,h.held,h.strays,h.accounted⟩
  | receive =>
      obtain ⟨flows,_,rfl⟩ := hs
      refine ⟨hr,subset_rfl,?_,?_⟩
      · simp only [Course.received]
        split_ifs
        · exact subset_rfl
        · exact Set.empty_subset _
      · rintro q (hq | hq)
        · exact .inr ((h.accounted q hq).elim (fun hq => .inl (.inr hq)) (Or.imp_left Or.inl))
        · exact .inl hq
  | confirm =>
      obtain ⟨flows,_,hf,rfl⟩ := hs
      exact h.moved hf hr
  | cancel =>
      obtain ⟨flows,_,hf,rfl⟩ := hs
      exact h.moved hf hr
  | feed =>
      obtain ⟨flows,_,hf,rfl⟩ := hs
      exact h.moved hf hr
  | start =>
      obtain ⟨flows,_,hf,rfl⟩ := hs
      exact h.moved hf hr
  | record =>
      rw [show s' = _ from hs] at hr ⊢
      refine ⟨hr,?_,Set.sdiff_subset_sdiff_left h.strays,fun q hq => ?_⟩
      · change _ ⊆ concluded own (s.history.record_finished own)
        rw [concluded_recorded]
        exact Set.sdiff_subset.trans h.held
      · rcases h.accounted q hq with hq | hq | ⟨flow,hmem,rfl⟩
        · obtain ⟨flow,hmem,rfl⟩ := h.held hq
          exact .inr (.inr ⟨flow,List.mem_append_right _ hmem,rfl⟩)
        · exact .inr (.inl hq)
        · exact .inr (.inr ⟨flow,List.mem_append_left _ hmem,rfl⟩)
  | watch user =>
      rw [show s' = _ from hs] at hr ⊢
      exact ⟨hr,h.held.trans (concluded_watch _ user),h.strays,h.accounted⟩
  | plain =>
      obtain ⟨flows,_,hf,_,rfl⟩ := hs
      exact ⟨hr,h.held.trans (concluded_stays hf),h.strays,h.accounted⟩

/-- How many calls have the pause. -/
def pausing (qs : List Phase) : Nat := qs.countP fun q => q ≠ .out

theorem pausing_mid (qs rs : List Phase) (q : Phase) :
    pausing (qs ++ q :: rs) = pausing (qs ++ rs) + if q = .out then 0 else 1 := by
  unfold pausing
  rw [List.countP_append,List.countP_append,List.countP_cons]
  by_cases hq : q = .out
  · simp [hq]
  · simp [hq]
    omega

theorem pausing_owing {qs : List Phase} (h : .owing ∈ qs) : 0 < pausing qs :=
  List.countP_pos_iff.mpr ⟨_,h,rfl⟩

/-- One call at most has the pause, and what a call has ended since is noted down, or
that call has yet to do so. -/
structure Inv (own : UserId) (s : Course) (qs : List Phase) : Prop where
  accounts : Accounts own s
  one : pausing qs = if s.paused then 1 else 0
  owing : s.unrecorded ⊆ s.strays ∨ .owing ∈ qs

variable {qs rs : List Phase} {q : Phase}

theorem Inv.alone (h : Inv own s (qs ++ q :: rs)) (hq : q ≠ .out) :
    s.paused = true ∧ pausing (qs ++ rs) = 0 := by
  have hone := h.one
  rw [pausing_mid,if_neg hq] at hone
  split_ifs at hone with hp
  exact ⟨hp,by omega⟩

/-- Where another call is in the pause, it is not this one that owes anything. -/
theorem Inv.settled (h : Inv own s (qs ++ q :: rs)) (hq : q = .inside) :
    s.unrecorded ⊆ s.strays := by
  refine h.owing.resolve_right fun ho => ?_
  have hnone := (h.alone (by rw [hq]; exact nofun)).2
  have hmem : .owing ∈ qs ++ rs := by
    simp only [List.mem_append,List.mem_cons] at ho ⊢
    rcases ho with ho | ho | ho
    · exact .inl ho
    · rw [hq] at ho
      cases ho
    · exact .inr ho
  have hpos := pausing_owing hmem
  omega

theorem owing_mid : .owing ∈ qs ++ q :: rs ↔ q = .owing ∨ .owing ∈ qs ++ rs := by
  simp only [List.mem_append,List.mem_cons]
  constructor
  · rintro (h | h | h)
    · exact .inr (.inl h)
    · exact .inl h.symm
    · exact .inr (.inr h)
  · rintro (h | h | h)
    · exact .inr (.inl h.symm)
    · exact .inl h
    · exact .inr (.inr h)

/-- What an action that neither pauses nor resumes does to the count of pauses. -/
theorem Inv.count (h : Inv own s (qs ++ q :: rs)) {q' : Phase} (hq : q' = .out ↔ q = .out)
    (hp : s'.paused = s.paused) : pausing (qs ++ q' :: rs) = if s'.paused then 1 else 0 := by
  rw [pausing_mid,hp,← h.one,pausing_mid]
  simp only [hq]

/-- Only a call that has the pause resumes syncs, or ends flows of its own. -/
theorem may_inside (hmay : q.may k) (hk : ¬ k.loose) (hp : k ≠ .pause) : q = .inside := by
  cases q with
  | out => exact (hmay.elim hk hp).elim
  | inside => rfl
  | owing =>
      rcases hmay with rfl | rfl
      · exact (hk trivial).elim
      · exact (hk trivial).elim

/-- The invariant is kept by an action whose answer the call learns. -/
theorem Inv.act (h : Inv own s (qs ++ q :: rs)) (hmay : q.may k) {w : Bool}
    (hs : goes own (!w) s s' k) : Inv own s' (qs ++ q.next w k :: rs) := by
  have haccounts := h.accounts.step hs
  -- The pause stays with the calls that had it, and nothing new is owed.
  have hsame : q.next w k = q → s'.paused = s.paused →
      (s.unrecorded ⊆ s.strays → s'.unrecorded ⊆ s'.strays) → Inv own s' (qs ++ q.next w k :: rs) :=
    fun hq hp hu => by
      rw [hq]
      exact ⟨haccounts,h.count Iff.rfl hp,h.owing.imp_left hu⟩
  cases k with
  | pause =>
      have hq : q = .out := by
        cases q with
        | out => rfl
        | inside => exact (hmay rfl).elim
        | owing => cases hmay <;> contradiction
      subst hq
      have hone := h.one
      rw [pausing_mid,if_pos rfl,hs.1,if_neg nofun] at hone
      refine ⟨haccounts,?_,?_⟩
      · rw [pausing_mid,if_neg nofun,hs.2]
        simpa using hone
      · rw [hs.2,owing_mid]
        refine h.owing.imp_right fun ho => .inr ?_
        exact (owing_mid.mp ho).resolve_left nofun
  | resume =>
      obtain rfl := may_inside hmay id nofun
      have halone := h.alone nofun
      rw [show s' = _ from hs] at haccounts ⊢
      refine ⟨haccounts,?_,.inl (h.settled rfl)⟩
      rw [pausing_mid,halone.2]
      rfl
  | receive =>
      obtain rfl := may_inside hmay id nofun
      obtain ⟨flows,_,rfl⟩ := hs
      refine ⟨haccounts,h.count (by cases w <;> simp [Phase.next]) rfl,?_⟩
      cases w with
      | true => exact .inr (owing_mid.mpr (.inl rfl))
      | false => exact .inl subset_rfl
  | confirm =>
      obtain rfl := may_inside hmay id nofun
      obtain ⟨flows,_,_,rfl⟩ := hs
      refine ⟨haccounts,h.count (by cases w <;> simp [Phase.next]) rfl,?_⟩
      cases w with
      | true => exact .inr (owing_mid.mpr (.inl rfl))
      | false => exact .inl (Set.union_subset_union_left _ (h.settled rfl))
  | cancel =>
      obtain rfl := may_inside hmay id nofun
      obtain ⟨flows,_,_,rfl⟩ := hs
      exact ⟨haccounts,h.count (by simp [Phase.next]) rfl,.inr (owing_mid.mpr (.inl rfl))⟩
  | feed =>
      obtain ⟨flows,_,_,rfl⟩ := hs
      exact hsame rfl rfl (Set.union_subset_union_left _)
  | start =>
      obtain ⟨flows,_,_,rfl⟩ := hs
      exact hsame rfl rfl (Set.union_subset_union_left _)
  | record =>
      rw [show s' = _ from hs] at haccounts ⊢
      have hnone : s.unrecorded \ concluded own s.history = ∅ := Set.sdiff_eq_empty.mpr h.accounts.held
      refine ⟨haccounts,h.count (by cases q <;> simp [Phase.next]) rfl,.inl ?_⟩
      change s.unrecorded \ concluded own s.history ⊆ _
      rw [hnone]
      exact Set.empty_subset _
  | watch user => exact hsame rfl (by rw [show s' = _ from hs]) (by rw [show s' = _ from hs]; exact id)
  | plain =>
      obtain ⟨flows,_,_,_,rfl⟩ := hs
      exact hsame rfl rfl id

/-- A call that is abandoned gives the pause back, and owes nothing. -/
theorem Inv.abandon (h : Inv own s (qs ++ q :: rs)) (hq : q ≠ .owing) :
    Inv own (if q = .out then s else { s with paused := false }) (qs ++ rs) := by
  split_ifs with hout
  · subst hout
    refine ⟨h.accounts,?_,?_⟩
    · rw [← h.one,pausing_mid,if_pos rfl,Nat.add_zero]
    · exact h.owing.imp_right fun ho => ((owing_mid (q := .out)).mp ho).resolve_left nofun
  · obtain rfl : q = .inside := by
      cases q with
      | out => exact (hout rfl).elim
      | inside => rfl
      | owing => exact (hq rfl).elim
    refine ⟨⟨h.accounts.recalls,h.accounts.held,h.accounts.strays,h.accounts.accounted⟩,?_,
      .inl (h.settled rfl)⟩
    rw [(h.alone nofun).2]
    rfl

/-- Whatever a call has ended whose answer it does not learn is a stray. -/
theorem Inv.lose (h : Inv own s (qs ++ q :: rs)) (hmay : q.may k) (hq : q ≠ .owing)
    (hk : k ≠ .cancel) (hs : goes own true s s' k) (w : Bool) :
    Inv own (if q.next w k = .out then s' else { s' with paused := false }) (qs ++ rs) := by
  have hnext : q.next false k ≠ .owing ∧ (q.next w k = .out ↔ q.next false k = .out) := by
    cases k with
    | cancel => exact (hk rfl).elim
    | receive => cases w <;> simp [Phase.next]
    | confirm => cases w <;> simp [Phase.next]
    | record => simp [Phase.next,hq]
    | pause => simp [Phase.next]
    | resume => simp [Phase.next]
    | feed => exact ⟨hq,Iff.rfl⟩
    | start => exact ⟨hq,Iff.rfl⟩
    | watch user => exact ⟨hq,Iff.rfl⟩
    | plain => exact ⟨hq,Iff.rfl⟩
  simp only [hnext.2]
  exact Inv.abandon (h.act (w := false) hmay hs) hnext.1

end

/-- No flow is cancelled where a call can be abandoned. -/
theorem cancel_stays (ctx : AccountContext) {a : Act ⊕ VerifyAct} (h : waits a) :
    kind ctx a ≠ .cancel := by
  unfold kind
  split
  all_goals first | exact h.elim | (split_ifs <;> simp) | simp

section
variable [Codec] {ctx : AccountContext} {ok : Course → Phase → Act ⊕ VerifyAct → Prop}

omit [Codec] in
theorem Fresh.inv {own : UserId} {s : Course} (h : Fresh s) : Inv own s [] := by
  have hnone : ∀ id, s.history.log.get id = none := fun id => by
    rw [h.log]
    rfl
  refine ⟨⟨⟨⟨?_,?_,h.keyed⟩,?_,?_⟩,?_,?_,?_⟩,?_,?_⟩
  · rw [h.log]
    exact .default
  · intro id v hv
    rw [hnone] at hv
    cases hv
  · simp [h.noted]
  · simp [h.noted]
  · simp [h.unrecorded]
  · simp [h.strays,h.unrecorded]
  · simp [h.ended]
  · rw [h.running]
    rfl
  · exact .inl (by simp [h.unrecorded])

theorem flows_keeps : (flows ctx).Keeps ok (Inv ctx.user_id) where
  start {s qs l p} _ h := by
    refine ⟨h.accounts,?_,h.owing.imp_right (List.mem_append_left _)⟩
    change pausing (qs ++ .out :: []) = _
    rw [pausing_mid,List.append_nil]
    exact h.one
  expects _ _ _ _ := trivial
  act {s s' qs rs q a r} hmay _ hs h := h.act (w := well a r) hmay.1 (by simpa [flows] using hs)
  leave hmay hw h := h.abandon fun hq => hmay.2 hq hw
  lose {s s' qs rs q a r} hmay hw _ hs h :=
    h.lose hmay.1 (fun hq => hmay.2 hq hw) (cancel_stays ctx hw) hs (well a r)
  env {s s' qs} hs h := by
    have haccounts := h.accounts.step (show goes ctx.user_id false s s' .plain from hs)
    obtain ⟨flows,_,_,_,rfl⟩ := hs
    exact ⟨haccounts,h.one,h.owing⟩
  restart hs _ := hs.inv

theorem Fresh.holds {s₀ : Course} (h₀ : Fresh s₀)
    {c : Phased.Config Call (Act ⊕ VerifyAct) (Sum.elim Act.Ans VerifyAct.Ans) Res Course Phase}
    (h : (flows ctx).Reachable ok s₀ c) : (flows ctx).Holds (Inv ctx.user_id) c :=
  .reachable flows_keeps flows_starts h₀.inv h

/-- The guard under which a batch goes to the machine only while there are no strays. -/
def settledFirst (ctx : AccountContext) (s : Course) (_ : Phase) (a : Act ⊕ VerifyAct) : Prop :=
  kind ctx a = .receive → s.strays = ∅

omit [Codec] in
/-- Flows are forgotten with a batch only. -/
theorem goes_lost {own : UserId} {stray : Bool} {s s' : Course} {k : Kind}
    (hs : goes own stray s s' k) :
    s'.lost = s.lost ∨ k = .receive ∧ s'.lost = s.lost ∪ s.unrecorded := by
  cases k with
  | receive =>
      obtain ⟨flows,_,rfl⟩ := hs
      exact .inr ⟨rfl,rfl⟩
  | pause => exact .inl (by rw [hs.2])
  | resume => exact .inl (by rw [show s' = _ from hs])
  | record => exact .inl (by rw [show s' = _ from hs]; rfl)
  | watch user => exact .inl (by rw [show s' = _ from hs])
  | confirm =>
      obtain ⟨flows,_,_,rfl⟩ := hs
      exact .inl rfl
  | cancel =>
      obtain ⟨flows,_,_,rfl⟩ := hs
      exact .inl rfl
  | feed =>
      obtain ⟨flows,_,_,rfl⟩ := hs
      exact .inl rfl
  | start =>
      obtain ⟨flows,_,_,rfl⟩ := hs
      exact .inl rfl
  | plain =>
      obtain ⟨flows,_,_,_,rfl⟩ := hs
      exact .inl rfl

omit [Codec] in
theorem Inv.lost {own : UserId} {stray : Bool} {s s' : Course} {k : Kind} {qs rs : List Phase}
    {q : Phase} (h : Inv own s (qs ++ q :: rs)) (hmay : q.may k) (hlost : s.lost = ∅)
    (hok : k = .receive → s.strays = ∅) (hs : goes own stray s s' k) : s'.lost = ∅ := by
  rcases goes_lost hs with hsame | ⟨rfl,hgone⟩
  · rw [hsame,hlost]
  · have hunrecorded := h.settled (may_inside hmay id nofun)
    rw [hok rfl] at hunrecorded
    rw [hgone,hlost,Set.subset_empty_iff.mp hunrecorded,Set.union_empty]

theorem flows_keep_outcomes : (flows ctx).Keeps (settledFirst ctx) fun s qs =>
    Inv ctx.user_id s qs ∧ s.lost = ∅ := by
  have hkeeps : (flows ctx).Keeps (settledFirst ctx) (Inv ctx.user_id) := flows_keeps
  refine ⟨⟨?_,?_,?_,?_,?_,?_⟩,fun _ _ _ _ => trivial⟩
  · exact fun hp h => ⟨hkeeps.start hp h.1,h.2⟩
  · exact fun hmay hok hs h =>
      ⟨hkeeps.act hmay hok hs h.1,h.1.lost hmay.1 h.2 hok hs⟩
  · intro s qs rs q a hmay hw h
    refine ⟨hkeeps.leave hmay hw h.1,?_⟩
    change (if q = .out then s else { s with paused := false }).lost = ∅
    split_ifs <;> exact h.2
  · intro s s' qs rs q a r hmay hw hok hs h
    have hlost := h.1.lost hmay.1 h.2 hok hs
    refine ⟨hkeeps.lose hmay hw hok hs h.1,?_⟩
    change (if _ = Phase.out then s' else { s' with paused := false }).lost = ∅
    split_ifs <;> exact hlost
  · intro s s' qs hs h
    refine ⟨hkeeps.env hs h.1,?_⟩
    obtain ⟨flows,_,_,_,rfl⟩ := hs
    exact h.2
  · exact fun hs h => ⟨hkeeps.restart hs h.1,hs.lost⟩

/-- The flow was noted down after it had ended, and the log has its outcome, or that of the
last flow noted down under its ID where there was another. -/
def Recorded (h : History) (q : VerificationRequest) : Prop :=
  (∃ flow ∈ h.noted, flow.ended = true ∧ flow.request = q) ∧
    ∃ flow, h.lastNoted q.flow_id = some flow ∧ flow.ended = true ∧
      h.log.get q.flow_id = some (outcome flow) ∧
      ((∀ other ∈ h.noted, other.request.flow_id = q.flow_id → other.request = q) →
        flow.request = q)

omit [Codec] in
theorem Recalls.recorded {h : History} (hr : Recalls h) {flow : Flow} (hmem : flow ∈ h.noted) :
    Recorded h flow.request ∨ h.log.order.length = MAX_FINISHED := by
  refine (hr.recalls flow hmem).imp_left fun hsome => ?_
  obtain ⟨v,hv⟩ := Option.isSome_iff_exists.mp hsome
  obtain ⟨last,hlast,rfl⟩ := hr.told.last _ v hv
  have hnoted : last ∈ h.noted := List.mem_reverse.mp (List.mem_of_find?_eq_some hlast)
  have hid : last.request.flow_id = flow.request.flow_id := by
    simpa using List.find?_some hlast
  exact ⟨⟨flow,hmem,hr.ended flow hmem,rfl⟩,last,hlast,hr.ended last hnoted,hv,
    fun hown => hown last hnoted hid⟩

/-- As long as no batch goes to the machine while there are strays, every flow that has
ended while its user was watched is still held by it, or its outcome is in the log, or
the log is full of outcomes. -/
theorem outcomes_kept {s₀ : Course} (h₀ : Fresh s₀)
    {c : Phased.Config Call (Act ⊕ VerifyAct) (Sum.elim Act.Ans VerifyAct.Ans) Res Course Phase}
    (h : (flows ctx).Reachable (settledFirst ctx) s₀ c) : ∀ q ∈ c.state.ended,
      (q ∈ c.state.unrecorded ∧ q ∈ concluded ctx.user_id c.state.history) ∨
      Recorded c.state.history q ∨ c.state.history.log.order.length = MAX_FINISHED := by
  have hheld := Phased.Holds.reachable flows_keep_outcomes flows_starts ⟨h₀.inv,h₀.lost⟩ h
  obtain ⟨⟨hinv,hlost⟩,_⟩ := hheld
  intro q hq
  rcases hinv.accounts.accounted q hq with hq | hq | ⟨flow,hmem,rfl⟩
  · exact .inl ⟨hq,hinv.accounts.held hq⟩
  · rw [hlost] at hq
    exact hq.elim
  · exact .inr (hinv.accounts.recalls.recorded hmem)

end

local instance : Codec := .plain (fun _ => some SyncCalls.oneKey) some fun _ _ => 7

/-- A flow with an own device, cancelled. -/
def gone : Flow where
  request := ⟨0,"$flow","@alice:x"⟩
  view := ⟨none,false,false,false,false,true,none,none,false,"cancelled"⟩
  sas := none

def heldThen (user : UserId) : List Flow := if user = "@alice:x" then [gone] else []

def blank : Course := ⟨.start fun _ => [],false,∅,∅,∅,∅⟩

theorem blank_fresh : Fresh blank := ⟨fun _ _ h => (List.not_mem_nil h).elim,rfl,rfl,rfl,rfl,rfl,rfl,rfl⟩

def fed : Course := blank.moved "@alice:x" true heldThen

theorem held_keyed : Keyed heldThen := by
  intro user flow hmem
  unfold heldThen at hmem
  split_ifs at hmem with hu
  · rw [List.mem_singleton.mp hmem]
    exact hu.symm
  · cases hmem

theorem gone_concluded : gone.request ∈ concluded "@alice:x" fed.history :=
  mem_concluded.mpr ⟨"@alice:x",.inr rfl,gone,by simp [fed,Course.moved,heldThen],rfl,rfl⟩

theorem gone_unrecorded : gone.request ∈ fed.unrecorded := by
  refine .inr ⟨gone_concluded,fun h => ?_⟩
  obtain ⟨user,_,flow,hmem,_⟩ := mem_concluded.mp h
  cases hmem

/-- The flows that have ended are noted down. -/
def recording : Prog (Act ⊕ VerifyAct) (Sum.elim Act.Ans VerifyAct.Ans) Unit :=
  .act (.inl (.recordFinished SyncCalls.alice)) fun _ => .ret ()

/-- An in-room event is shown to the machine first. -/
def feeding : Prog (Act ⊕ VerifyAct) (Sum.elim Act.Ans VerifyAct.Ans) Unit :=
  .act (.inl (.olm SyncCalls.alice (.receiveVerificationEvent .null))) fun _ => recording

theorem feeding_kinds :
    kind SyncCalls.alice (.inl (.olm SyncCalls.alice (.receiveVerificationEvent .null))) = .feed ∧
      kind SyncCalls.alice (.inl (.recordFinished SyncCalls.alice)) = .record := by
  simp [kind]

theorem fed_reached (ok : Course → Phase → Act ⊕ VerifyAct → Prop)
    (hok : ok blank .out (.inl (.olm SyncCalls.alice (.receiveVerificationEvent .null)))) :
    ∃ q, (flows SyncCalls.alice).Reachable ok blank ⟨fed,[(⟨.other,recording⟩,q)]⟩ := by
  obtain ⟨hfeed,hrecord⟩ := feeding_kinds
  have hstart : (flows SyncCalls.alice).Reachable ok blank
      ⟨blank,[] ++ [(⟨.other,feeding⟩,.out)]⟩ := by
    refine Phased.Reachable.start .refl (.other ⟨?_,fun _ => ⟨?_,fun _ => trivial⟩⟩)
    · rw [loose,hfeed]
      trivial
    · rw [loose,hrecord]
      trivial
  refine ⟨_,hstart.act _ (r := .ok ()) rfl hok ?_⟩
  change goes "@alice:x" false blank fed
    (kind SyncCalls.alice (.inl (.olm SyncCalls.alice (.receiveVerificationEvent .null))))
  rw [hfeed]
  exact ⟨heldThen,held_keyed,fun _ _ hmem => (List.not_mem_nil hmem).elim,rfl⟩

theorem outcomes_kept_fed : ∃ c, (flows SyncCalls.alice).Reachable (settledFirst SyncCalls.alice) blank c ∧
    gone.request ∈ c.state.ended ∧ Recorded c.state.history gone.request := by
  obtain ⟨hfeed,hrecord⟩ := feeding_kinds
  obtain ⟨q,hfed⟩ := fed_reached (settledFirst SyncCalls.alice) fun hk => by
    rw [hfeed] at hk
    cases hk
  have hnoted : (flows SyncCalls.alice).sem (.inl (.recordFinished SyncCalls.alice)) () true fed
      (fed.recorded "@alice:x") := by
    change goes "@alice:x" false fed _ (kind SyncCalls.alice (.inl (.recordFinished SyncCalls.alice)))
    rw [hrecord]
    rfl
  have hguard : settledFirst SyncCalls.alice fed q (.inl (.recordFinished SyncCalls.alice)) := by
    intro hk
    rw [hrecord] at hk
    cases hk
  have h := Phased.Reachable.act [] hfed rfl hguard hnoted
  have hended : gone.request ∈ (fed.recorded "@alice:x").ended := gone_unrecorded
  have hroom : (fed.recorded "@alice:x").history.log.order.length ≠ MAX_FINISHED := by decide
  refine ⟨_,h,hended,?_⟩
  rcases outcomes_kept blank_fresh h _ hended with ⟨hlate,_⟩ | hrecorded | hfull
  · exact (hlate.2 gone_concluded).elim
  · exact hrecorded
  · exact (hroom hfull).elim

def sync : Request := ⟨.get,"/_matrix/client/v3/sync",none,[],[]⟩

/-- Flows as they are. -/
theorem plain_stays (s : Course) (h : Keyed s.history.flows) (own : UserId) (stray : Bool) :
    goes own stray s s .plain :=
  ⟨s.history.flows,h,fun _ flow hmem hended => ⟨flow,hmem,hended,rfl⟩,subset_rfl,rfl⟩

/-- A sync that hands its batch over while the outcome of a flow is not noted down. -/
theorem sync_reached : ∃ changes k q q', (flows SyncCalls.alice).Reachable (fun _ _ _ => True) blank
    ⟨{ fed with paused := true },[(⟨.other,recording⟩,q'),
      (⟨.answer,.act (.inl (.olm SyncCalls.alice (.receiveSyncChanges changes))) k⟩,q)]⟩ := by
  obtain ⟨q',h⟩ := fed_reached (fun _ _ _ => True) trivial
  have hfetch : (flows SyncCalls.alice).sem (.inl (.fetch "token" "/_matrix/client/v3/sync"))
      (.ok ⟨200,[],[]⟩) true fed fed := plain_stays fed held_keyed _ false
  have hpause : (flows SyncCalls.alice).sem (.inl (.lock (.seen SyncCalls.alice))) () true fed
      { fed with paused := true } := by
    have hkind : kind SyncCalls.alice (.inl (.lock (.seen SyncCalls.alice))) = .pause := by simp [kind]
    change goes "@alice:x" false fed _ (kind SyncCalls.alice (.inl (.lock (.seen SyncCalls.alice))))
    rw [hkind]
    exact ⟨rfl,rfl⟩
  have hmark : (flows SyncCalls.alice).sem
      (.inl (.seen SyncCalls.alice (.mark (incoming SyncCalls.oneKey)))) (.ok ⟨[],[],0⟩) true
      { fed with paused := true } { fed with paused := true } :=
    plain_stays _ held_keyed _ false
  have h₁ := (h.start (.sync sync)).act _ rfl trivial hfetch
  have h₂ := (h₁.act _ rfl trivial hpause).act _ rfl trivial hmark
  exact ⟨_,_,_,_,h₂⟩

end EmentE2ee.RecordedOutcomes
