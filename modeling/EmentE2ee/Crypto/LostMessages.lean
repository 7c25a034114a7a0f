import EmentE2ee.Concurrent.Run
import EmentE2ee.Crypto.Verify

/-!
# Verification messages that could not be sent

A message that a call of the machine returns is sent by the action that made the call,
or not at all: the machine returns it to no other call, and the proxy keeps it nowhere.
-/
namespace EmentE2ee

open Concurrent
open Json (Value)
open Verify

/-- The request carries the message of this transaction ID. -/
def Act.carries (txn : String) : Act → Prop
  | .request _ (.sendToDevice _ txn_id) _ | .request _ (.sendEvent _ _ txn_id) _ => txn_id = txn
  | _ => False

def OutgoingVerificationRequest.txn_id : OutgoingVerificationRequest → String
  | toDevice r => r.txn_id
  | inRoom r => r.txn_id

def AnyOutgoingRequest.txn_id : AnyOutgoingRequest → Option String
  | toDeviceRequest r => some r.txn_id
  | roomMessage r => some r.txn_id
  | _ => none

namespace LostMessages

section
variable [Codec]

/-- The messages the machine has queued, and those it shares room keys with. -/
def queued : (a : Act) → a.Ans → List String
  | .olm _ .outgoingRequests,.ok requests => requests.filterMap fun r => r.request.txn_id
  | .olm _ (.shareRoomKey ..),.ok requests => requests.map ToDeviceRequest.txn_id
  | _,_ => []

/-- The messages of a flow that a call returns. -/
def returned : (a : VerifyAct) → a.Ans → List OutgoingVerificationRequest
  | .accept ..,r | .acceptSas ..,r | .cancelWithCode ..,r | .cancel ..,r => r.toList
  | .startSas ..,.ok started => (started.map Prod.snd).toList
  | .confirm ..,.ok confirmed => confirmed.1
  | .requestVerification ..,r => [r.2]
  | _,_ => []

def obtained : (a : Act ⊕ VerifyAct) → Sum.elim Act.Ans VerifyAct.Ans a → List OutgoingVerificationRequest
  | .inl _,_ => []
  | .inr a,r => returned a r

def handed : (a : Act ⊕ VerifyAct) → Sum.elim Act.Ans VerifyAct.Ans a → List String
  | .inl a,r => queued a r
  | .inr a,r => (returned a r).map OutgoingVerificationRequest.txn_id

def carries (txn : String) : Act ⊕ VerifyAct → Prop := Sum.elim (Act.carries txn) fun _ => False

def succeeded : (a : Act ⊕ VerifyAct) → Sum.elim Act.Ans VerifyAct.Ans a → Prop
  | .inl (.request ..),.ok (status,_) => isSuccess status
  | _,_ => False

abbrev Event := Sigma (Sum.elim Act.Ans VerifyAct.Ans)

def Obtained (m : OutgoingVerificationRequest) (es : List Event) : Prop := ∃ e ∈ es, m ∈ obtained e.1 e.2

/-- The homeserver has taken the message. -/
def Delivered (m : OutgoingVerificationRequest) (es : List Event) : Prop :=
  ∃ e ∈ es, carries m.txn_id e.1 ∧ succeeded e.1 e.2

abbrev VerifySem (σ : Type) := Sem (Act ⊕ VerifyAct) (Sum.elim Act.Ans VerifyAct.Ans) σ

/-- The machine returns a message only on the call that makes the change, and does not
queue it. The state may as well be changed by others between two actions. -/
structure ReturnsOnce {σ : Type} (sem : VerifySem σ) (given : σ → Set String) : Prop where
  grows : ∀ {a s r s'}, sem a s r s' → given s ⊆ given s'
  fresh : ∀ {a s r s'}, sem a s r s' → ∀ txn ∈ handed a r, txn ∉ given s
  made : ∀ {a s r s'}, sem a s r s' → ∀ m ∈ obtained a r, m.txn_id ∈ given s'

/-- The actions on a flow. -/
inductive Call where
  | advance (starts : Bool)
  | accept
  | start_sas
  | sas_accept
  | confirm
  | mismatch
  | cancel
  deriving DecidableEq, Repr

def Call.run (fuel : Nat) (ctx : AccountContext) (with_user : UserId) (flow_id : String) :
    Call → Verifying Value
  | advance starts => Verify.advance fuel ctx with_user flow_id starts
  | accept => Verify.accept fuel ctx with_user flow_id
  | start_sas => Verify.start_sas fuel ctx with_user flow_id
  | sas_accept => Verify.sas_accept fuel ctx with_user flow_id
  | confirm => Verify.confirm fuel ctx with_user flow_id
  | mismatch => Verify.mismatch fuel ctx with_user flow_id
  | cancel => Verify.cancel fuel ctx with_user flow_id

inductive Step where
  | call (c : Call) (ctx : AccountContext) (with_user : UserId) (flow_id : String)
  /-- A call that is dropped on the way. -/
  | dropped (c : Call) (ctx : AccountContext) (with_user : UserId) (flow_id : String)
  /-- Anything else that changes the machine. -/
  | other

/-- A step of the process, and what it adds to the record. -/
def steps {σ : Type} (sem : VerifySem σ) (given : σ → Set String) (fuel : Nat) :
    σ × List Event → Step → σ × List Event → Prop
  | s,.call c ctx with_user flow_id,s' =>
      ∃ r, Prog.Exec (Prog.noted sem) (c.run fuel ctx with_user flow_id).run s r s'
  | s,.dropped c ctx with_user flow_id,s' => ∃ a,
      Prog.Cut (Prog.noted sem) (fun _ => True) (c.run fuel ctx with_user flow_id).run s a s'
  | s,.other,s' => given s.1 ⊆ given s'.1 ∧ s'.2 = s.2

/-- While it is not handed the message, the program does not send it. -/
def Keeps {α : Type} (txn : String) (p : M α) : Prop :=
  p.DoesWhile (fun a r => txn ∉ queued a r) fun a => ¬ a.carries txn

variable {ctx : AccountContext} {txn : String} {α β : Type}

theorem keeps_of_does {p : M α} (h : p.Does fun a => ¬ a.carries txn) : Keeps txn p := h.doesWhile

theorem keeps_withContext {p : Fallible α} (h : Keeps txn p.run) (message : String) :
    Keeps txn (withContext message p).run := Prog.DoesWhile.map h _

theorem keeps_lift {p : M α} (h : Keeps txn p) : Keeps txn (ExceptT.lift p : Fallible α).run := by
  rw [ExceptT.run_lift]
  exact Prog.DoesWhile.map h _

theorem keeps_withLock {l : Lock} {p : M α} (h : Keeps txn p) : Keeps txn (withLock l p) := by
  rw [withLock_eq]
  exact ⟨by exact id,fun _ _ => h.bind fun _ => ⟨by exact id,fun _ _ => trivial⟩⟩

theorem mark_request_as_sent_keeps (txn_id : String) (kind : ResponseKind) (body : Value) :
    Keeps txn (mark_request_as_sent ctx txn_id kind body).run :=
  keeps_of_does (mark_request_as_sent_does ctx (by simp [Act.carries]) kind)

theorem send_and_mark_keeps {request : OutgoingRequest} (h : request.request.txn_id ≠ some txn) :
    Keeps txn (send_and_mark ctx request).run := by
  refine .exceptBind (keeps_of_does ?_) fun answer => ?_
  · rw [json_request_does]
    cases hr : request.request with
    | toDeviceRequest r => exact fun hc => h (by rw [hr]; exact congrArg some hc)
    | roomMessage r => exact fun hc => h (by rw [hr]; exact congrArg some hc)
    | _ => exact fun hc => hc
  · dsimp only
    split_ifs
    · exact mark_request_as_sent_keeps ..
    · trivial

theorem send_all_keeps {requests : List OutgoingRequest}
    (h : ∀ r ∈ requests, r.request.txn_id ≠ some txn) : Keeps txn (send_all ctx requests).run := by
  induction requests with
  | nil => trivial
  | cons request requests ih =>
      refine .exceptBind (send_and_mark_keeps (h _ (by simp))) fun _ => ?_
      exact ih fun r hr => h r (by simp [hr])

theorem drain_keeps (fuel : Nat) : Keeps txn (drain ctx fuel) := by
  induction fuel with
  | zero => trivial
  | succ fuel ih =>
      refine ⟨by simp [Act.carries],fun r hr => ?_⟩
      dsimp only [Prog.bind]
      split
      · trivial
      · trivial
      · next requests _ =>
          refine (send_all_keeps fun request hrequest hid => hr ?_).bind fun sent => ?_
          · exact List.mem_filterMap.mpr ⟨request,hrequest,hid⟩
          · cases sent with
            | error _ => trivial
            | ok _ => exact ih

theorem upload_backups_keeps (n : Nat) : Keeps txn (upload_backups ctx n).run := by
  induction n with
  | zero => trivial
  | succ n ih =>
      refine .exceptBind (keeps_of_does (by simp [Act.carries])) fun batch => ?_
      cases batch with
      | none => trivial
      | some batch =>
          refine .exceptBind (keeps_of_does (by simp [Act.carries])) fun answer => ?_
          dsimp only
          split_ifs
          · exact .exceptBind (mark_request_as_sent_keeps ..) fun _ => ih
          · trivial

theorem pump_keeps (fuel : Nat) : Keeps txn (pump fuel ctx) := by
  refine keeps_withLock ((drain_keeps fuel).bind fun drained => ?_)
  split_ifs
  · refine .bind (.exceptBind (keeps_of_does (by simp [Act.carries])) fun enabled => ?_) fun _ => trivial
    split_ifs
    · exact upload_backups_keeps 100
    · trivial
  · trivial

theorem send_to_device_keeps {request : ToDeviceRequest} (h : request.txn_id ≠ txn) :
    Keeps txn (send_to_device ctx request).run := by
  refine .exceptBind (keeps_of_does (by simpa [Act.carries] using h)) fun answer => ?_
  dsimp only
  split_ifs
  · exact mark_request_as_sent_keeps ..
  · trivial

theorem send_shares_keeps {requests : List ToDeviceRequest} (h : ∀ r ∈ requests, r.txn_id ≠ txn) :
    Keeps txn (send_shares ctx requests).run := by
  induction requests with
  | nil => trivial
  | cons request requests ih =>
      refine .exceptBind (keeps_withContext (send_to_device_keeps (h _ (by simp))) _) fun _ => ?_
      exact ih fun r hr => h r (by simp [hr])

theorem history_visibility_or_fetch_keeps (room_id : RoomId) :
    Keeps txn (history_visibility_or_fetch ctx room_id) := by
  refine keeps_of_does (.bind (by simp [Act.carries]) fun tracked => ?_)
  cases tracked with
  | some v => trivial
  | none => simp [Act.carries]

theorem encryption_settings_keeps (room_id : RoomId) :
    Keeps txn (encryption_settings ctx room_id).run := by
  refine .exceptBind (keeps_of_does (by simp [Act.carries])) fun settings => ?_
  exact .exceptBind (keeps_lift (history_visibility_or_fetch_keeps room_id)) fun _ => trivial

theorem send_keys_claim_keeps (request_id : String) (request : KeysClaimRequest) :
    Keeps txn (send_keys_claim ctx request_id request).run := by
  refine .exceptBind (keeps_of_does (by simp [Act.carries])) fun answer => ?_
  dsimp only
  split_ifs
  · exact mark_request_as_sent_keeps ..
  · trivial

theorem joined_members_keeps (room_id : RoomId) : Keeps txn (joined_members ctx room_id).run := by
  refine .exceptBind (keeps_of_does (by simp [Act.carries])) fun t =>
    .exceptBind (keeps_of_does (by simp [Act.carries])) fun cached => ?_
  cases cached with
  | some members => trivial
  | none =>
      refine .exceptBind (keeps_of_does (by simp [Act.carries])) fun answer => ?_
      dsimp only
      split_ifs
      · trivial
      · exact keeps_of_does (by simp [Act.carries])
      · trivial

theorem is_room_encrypted_keeps (room_id : RoomId) :
    Keeps txn (is_room_encrypted ctx room_id).run := by
  refine .exceptBind (keeps_of_does (by simp [Act.carries])) fun unencrypted => ?_
  split_ifs
  · trivial
  · refine .exceptBind (keeps_of_does (by simp [Act.carries])) fun settings => ?_
    split_ifs
    · trivial
    · refine .exceptBind (keeps_of_does (by simp [Act.carries])) fun answer => ?_
      dsimp only
      split_ifs
      · exact keeps_of_does (by simp [Act.carries])
      · split
        · trivial
        · exact keeps_of_does (by simp [Act.carries])
      · trivial

theorem claim_share_encrypt_keeps (fuel : Nat) (room_id : RoomId) (event_type : String)
    (content : Value) (members : List UserId) :
    Keeps txn (claim_share_encrypt fuel ctx room_id event_type content members).run := by
  refine claim_share_encrypt_doesWhile ctx (by exact id) (pump_keeps fuel) (by exact id)
    send_keys_claim_keeps (encryption_settings_keeps room_id) (fun _ => by exact id) ?_ fun _ _ => by exact id
  intro settings requests hrequests
  exact send_shares_keeps fun request hrequest htxn =>
    hrequests (List.mem_map.mpr ⟨request,hrequest,htxn⟩)

theorem encrypt_content_keeps (fuel : Nat) (room_id : RoomId) (event_type : String)
    (content : Value) : Keeps txn (encrypt_content fuel ctx room_id event_type content).run := by
  refine .exceptBind (joined_members_keeps room_id) fun members => ?_
  exact keeps_withLock (claim_share_encrypt_keeps ..)

theorem send_verification_request_keeps (fuel : Nat) {m : OutgoingVerificationRequest}
    (h : m.txn_id ≠ txn) : Keeps txn (send_verification_request fuel ctx m).run := by
  cases m with
  | toDevice r => exact send_to_device_keeps h
  | inRoom r =>
      have hsend : ∀ wire : String × Value, Keeps txn
          (json_request ctx.token (.sendEvent r.room_id wire.1 r.txn_id) (some wire.2) >>= fun answer =>
            if isSuccess answer.1 then mark_request_as_sent ctx r.txn_id .roomMessage answer.2
            else fail (report "in-room verification send failed" answer.1 answer.2)).run := by
        intro wire
        refine .exceptBind (keeps_of_does ?_) fun answer => ?_
        · rw [json_request_does]
          exact h
        · split_ifs
          · exact mark_request_as_sent_keeps ..
          · trivial
      refine .exceptBind (is_room_encrypted_keeps r.room_id) fun encrypted => ?_
      dsimp only
      split_ifs
      · exact .exceptBind (encrypt_content_keeps ..) fun content => hsend ("m.room.encrypted",content)
      · exact hsend (r.event_type,r.content)

/-- The same for the programs of verification. -/
def Silent (txn : String) (p : WideM VerifyAct.Ans α) : Prop :=
  p.DoesWhile (fun a r => txn ∉ handed a r) fun a => ¬ carries txn a

theorem silent_of_does {p : WideM VerifyAct.Ans α} (h : p.Does fun a => ¬ carries txn a) :
    Silent txn p := h.doesWhile

omit [Codec] in
theorem reading_silent (a : VerifyAct) (_ : a.reading) : ¬ carries txn (.inr a) := fun h => h

omit [Codec] in
theorem detail_silent (a : VerifyAct) (_ : a.detail) : ¬ carries txn (.inr a) := fun h => h

theorem widen_silent {p : Fallible α} (h : Keeps txn p.run) :
    Silent txn (Fallible.widen p : Verifying α).run := Prog.widen_doesWhile h

theorem show_flow_silent (with_user : UserId) (flow_id : String) :
    Silent txn (show_flow ctx with_user flow_id).run :=
  silent_of_does (show_flow_does reading_silent (fun h => h) with_user flow_id)

theorem send_silent (fuel : Nat) {m : OutgoingVerificationRequest} (h : m.txn_id ≠ txn) :
    Silent txn (Fallible.widen (send_verification_request fuel ctx m) : Verifying Unit).run :=
  widen_silent (send_verification_request_keeps fuel h)

theorem send_any_silent (fuel : Nat) {outgoing : Option OutgoingVerificationRequest}
    (h : txn ∉ outgoing.toList.map OutgoingVerificationRequest.txn_id) :
    Silent txn (send_any fuel ctx outgoing).run := by
  cases outgoing with
  | none => trivial
  | some m => exact send_silent fuel fun hm => h (by simp [hm])

theorem send_each_silent (fuel : Nat) {ms : List OutgoingVerificationRequest}
    (h : txn ∉ ms.map OutgoingVerificationRequest.txn_id) : Silent txn (send_each fuel ctx ms).run := by
  induction ms with
  | nil => trivial
  | cons m ms ih =>
      refine .exceptBind (send_silent fuel fun hm => h (by simp [hm])) fun _ => ih fun hms => h ?_
      exact List.mem_cons_of_mem _ hms

/-- What such a program comes to is handed on. -/
theorem silent_lift {p : WideM VerifyAct.Ans α} {Q : α → Prop} {f : α → Verifying β}
    (hp : p.EveryWhile (fun a r => txn ∉ handed a r) (fun a => ¬ carries txn a) Q)
    (hf : ∀ a, Q a → Silent txn (f a).run) : Silent txn (ExceptT.lift p >>= f).run := by
  refine Prog.EveryWhile.exceptBind (Q := fun r => ∀ a, r = .ok a → Q a) ?_ fun a ha => hf a (ha a rfl)
  rw [ExceptT.run_lift]
  refine Prog.EveryWhile.map (hp.mono fun a ha b hb => ?_)
  cases hb
  exact ha

theorem silent_call {p : WideM VerifyAct.Ans (Except String α)} {Q : α → Prop} {f : α → Verifying β}
    (hp : p.EveryWhile (fun a r => txn ∉ handed a r) (fun a => ¬ carries txn a) fun r =>
      ∀ a, r = .ok a → Q a)
    (hf : ∀ a, Q a → Silent txn (f a).run) : Silent txn (furtherCall p >>= f).run := by
  refine Prog.EveryWhile.exceptBind (Q := fun r => ∀ a, r = .ok a → Q a) ?_ fun a ha => hf a (ha a rfl)
  refine Prog.EveryWhile.bind hp fun r hr a ha => ?_
  cases r with
  | ok b =>
      cases ha
      exact hr a rfl
  | error e => cases ha

/-- What a call has returned is not the message. -/
theorem silent_further {a : VerifyAct} {f : a.Ans → Verifying α}
    (hf : ∀ r, txn ∉ handed (.inr a) r → Silent txn (f r).run) :
    Silent txn (ExceptT.lift (verifyAct a) >>= f).run :=
  silent_lift ⟨fun h => h,fun _ hr => hr⟩ hf

theorem paused_every {p : WideM VerifyAct.Ans α} {Q : α → Prop}
    (hp : p.EveryWhile (fun a r => txn ∉ handed a r) (fun a => ¬ carries txn a) Q) :
    (paused ctx p).EveryWhile (fun a r => txn ∉ handed a r) (fun a => ¬ carries txn a) Q := by
  refine ⟨fun h => h,fun _ _ => ?_⟩
  exact Prog.EveryWhile.bind (p := p) hp fun _ hQ => ⟨fun h => h,fun _ _ => hQ⟩

/-- A change that ends a flow hands its message to the action that made it. -/
theorem silent_ending {p : WideM VerifyAct.Ans (Option OutgoingVerificationRequest)}
    {f : Option OutgoingVerificationRequest → Verifying α}
    (hp : p.EveryWhile (fun a r => txn ∉ handed a r) (fun a => ¬ carries txn a) fun outgoing =>
      txn ∉ outgoing.toList.map OutgoingVerificationRequest.txn_id)
    (hf : ∀ outgoing : Option OutgoingVerificationRequest,
      txn ∉ outgoing.toList.map OutgoingVerificationRequest.txn_id → Silent txn (f outgoing).run) :
    Silent txn (ExceptT.lift (ending ctx p) >>= f).run :=
  silent_lift (paused_every (Prog.EveryWhile.bind hp fun _ h => ⟨fun h => h,fun _ _ => h⟩)) hf

theorem orBail_silent {x : Option α} {message : String} {f : α → Verifying β}
    (hf : ∀ a, x = some a → Silent txn (f a).run) : Silent txn (orBail x message >>= f).run := by
  cases x with
  | none => trivial
  | some a => exact hf a rfl

theorem startSas_silent {request : VerificationRequest}
    {f : Option (Sas × OutgoingVerificationRequest) → Verifying α}
    (hf : ∀ started : Option (Sas × OutgoingVerificationRequest),
      txn ∉ (started.map Prod.snd).toList.map OutgoingVerificationRequest.txn_id →
        Silent txn (f started).run) :
    Silent txn (furtherCall (verifyAct (.startSas ctx request)) >>= f).run := by
  refine silent_call ⟨fun h => h,fun r hr started hstarted => ?_⟩ hf
  cases hstarted
  exact hr

theorem get_request_silent (with_user : UserId) (flow_id : String) :
    Silent txn (get_request ctx with_user flow_id).run :=
  .exceptBind (silent_of_does (read_lift_does reading_silent (by trivial))) fun _ =>
    silent_of_does (orBail_does ..)

theorem get_sas_silent (with_user : UserId) (flow_id : String) :
    Silent txn (get_sas ctx with_user flow_id).run := by
  refine .exceptBind (silent_of_does (read_lift_does reading_silent (by trivial))) fun verification => ?_
  split <;> trivial

theorem flow_summary_silent (request : VerificationRequest) :
    Silent txn (ExceptT.lift (flow_summary ctx request) : Verifying Value).run :=
  silent_of_does ((wide_lift_does _).mpr (flow_summary_does detail_silent request))

theorem record_silent : Silent txn (ExceptT.lift (usual (.recordFinished ctx)) : Verifying Unit).run :=
  silent_of_does (by simp [carries,Act.carries])

theorem take_step_silent (fuel : Nat) (request : VerificationRequest) (sas : Option Sas) (flow : Flow)
    (starts : Bool) : Silent txn (take_step fuel ctx request sas flow starts).run := by
  unfold take_step
  split
  · refine .exceptBind (silent_of_does (read_lift_does reading_silent (by trivial))) fun view => ?_
    split_ifs
    · exact silent_further fun outgoing h => send_any_silent fuel h
    · trivial
  · split_ifs
    · exact startSas_silent fun started h => send_any_silent fuel h
    · trivial
  · cases sas with
    | none => trivial
    | some sas => exact silent_further fun outgoing h => send_any_silent fuel h
  · trivial

theorem advance_silent (fuel : Nat) (with_user : UserId) (flow_id : String) (starts : Bool) :
    Silent txn (advance fuel ctx with_user flow_id starts).run := by
  refine .exceptBind (silent_of_does (read_lift_does reading_silent (by trivial))) fun _ => ?_
  refine .exceptBind (silent_of_does (read_lift_does reading_silent (by trivial))) fun request => ?_
  cases request with
  | none => exact show_flow_silent with_user flow_id
  | some request =>
      refine .exceptBind (silent_of_does ?_) fun sas => .exceptBind (silent_of_does ?_) fun flow => ?_
      · exact (wide_lift_does _).mpr (active_sas_does detail_silent request)
      · exact (wide_lift_does _).mpr (flow_does detail_silent request sas)
      refine .exceptBind (take_step_silent ..) fun _ => .exceptBind record_silent fun _ => ?_
      exact show_flow_silent with_user flow_id

theorem accept_silent (fuel : Nat) (with_user : UserId) (flow_id : String) :
    Silent txn (accept fuel ctx with_user flow_id).run := by
  refine .exceptBind (get_request_silent ..) fun request => silent_further fun outgoing h => ?_
  refine orBail_silent fun m hm => .exceptBind (send_silent fuel fun htxn => h ?_) fun _ => ?_
  · subst hm
    exact List.mem_singleton.mpr htxn.symm
  · exact flow_summary_silent request

theorem start_sas_silent (fuel : Nat) (with_user : UserId) (flow_id : String) :
    Silent txn (start_sas fuel ctx with_user flow_id).run := by
  refine .exceptBind (get_request_silent ..) fun request => startSas_silent fun started h => ?_
  refine orBail_silent fun m hm => .exceptBind (send_silent fuel fun htxn => h ?_) fun _ => ?_
  · subst hm
    exact List.mem_singleton.mpr htxn.symm
  · exact flow_summary_silent request

theorem sas_accept_silent (fuel : Nat) (with_user : UserId) (flow_id : String) :
    Silent txn (sas_accept fuel ctx with_user flow_id).run := by
  refine .exceptBind (get_sas_silent ..) fun sas => silent_further fun outgoing h => ?_
  exact .exceptBind (send_any_silent fuel h) fun _ => show_flow_silent with_user flow_id

theorem mismatch_silent (fuel : Nat) (with_user : UserId) (flow_id : String) :
    Silent txn (mismatch fuel ctx with_user flow_id).run := by
  refine .exceptBind (get_sas_silent ..) fun sas => ?_
  refine silent_ending ⟨fun h => h,fun r hr => hr⟩ fun outgoing h => ?_
  exact .exceptBind (send_any_silent fuel h) fun _ => show_flow_silent with_user flow_id

theorem cancel_silent (fuel : Nat) (with_user : UserId) (flow_id : String) :
    Silent txn (cancel fuel ctx with_user flow_id).run := by
  refine .exceptBind (get_request_silent ..) fun request => ?_
  refine silent_ending ⟨fun h => h,fun r hr => hr⟩ fun outgoing h => ?_
  exact .exceptBind (send_any_silent fuel h) fun _ => show_flow_silent with_user flow_id

theorem upload_signatures_keeps (signed_keys : Value) :
    Keeps txn (upload_signatures ctx signed_keys).run := by
  refine .exceptBind (keeps_of_does (by simp [Act.carries])) fun answer => ?_
  dsimp only
  split_ifs <;> trivial

theorem confirm_silent (fuel : Nat) (with_user : UserId) (flow_id : String) :
    Silent txn (confirm fuel ctx with_user flow_id).run := by
  refine .exceptBind (get_sas_silent ..) fun sas => ?_
  refine silent_call (Q := fun confirmed => txn ∉ confirmed.1.map OutgoingVerificationRequest.txn_id)
    (paused_every ⟨fun h => h,fun r hr => ?_⟩) fun confirmed hconfirmed => ?_
  · cases r with
    | error e => exact fun _ h => by cases h
    | ok confirmed =>
        refine ⟨fun h => h,fun _ _ a ha => ?_⟩
        cases ha
        exact hr
  refine .exceptBind (send_each_silent fuel hconfirmed) fun _ => .exceptBind ?_ fun _ => ?_
  · cases confirmed.2 with
    | none => trivial
    | some signed_keys => exact widen_silent (upload_signatures_keeps signed_keys)
  refine .exceptBind ?_ fun _ => .exceptBind record_silent fun _ => show_flow_silent with_user flow_id
  have hpump : Silent txn ((pump fuel ctx).widen : WideM VerifyAct.Ans Unit) :=
    Prog.widen_doesWhile (pump_keeps fuel)
  rw [ExceptT.run_lift]
  exact Prog.DoesWhile.map hpump _

theorem call_silent (c : Call) (fuel : Nat) (with_user : UserId) (flow_id : String) :
    Silent txn (c.run fuel ctx with_user flow_id).run := by
  cases c with
  | advance starts => exact advance_silent fuel with_user flow_id starts
  | accept => exact accept_silent fuel with_user flow_id
  | start_sas => exact start_sas_silent fuel with_user flow_id
  | sas_accept => exact sas_accept_silent fuel with_user flow_id
  | confirm => exact confirm_silent fuel with_user flow_id
  | mismatch => exact mismatch_silent fuel with_user flow_id
  | cancel => exact cancel_silent fuel with_user flow_id

variable {σ : Type} {sem : VerifySem σ} {given : σ → Set String}

/-- A message once returned is not handed out again. -/
theorem ReturnsOnce.keeps (hS : ReturnsOnce sem given) {a : Act ⊕ VerifyAct} {s s' : σ}
    {r : Sum.elim Act.Ans VerifyAct.Ans a} (hs : txn ∈ given s) (h : sem a s r s') :
    txn ∉ handed a r ∧ txn ∈ given s' :=
  ⟨fun hr => hS.fresh h txn hr hs,hS.grows h hs⟩

theorem step_silent (hS : ReturnsOnce sem given) {fuel : Nat} {s s' : σ × List Event} {i : Step}
    (h : steps sem given fuel s i s') (hs : txn ∈ given s.1) :
    txn ∈ given s'.1 ∧ ∃ more, s'.2 = s.2 ++ more ∧ ∀ e ∈ more, ¬ carries txn e.1 := by
  cases i with
  | call c ctx with_user flow_id =>
      obtain ⟨r,h⟩ := h
      exact Prog.DoesWhile.exec (N := fun a r => txn ∉ handed a r)
        (I := fun s => txn ∈ given s) hS.keeps
        (call_silent c fuel with_user flow_id) h hs
  | dropped c ctx with_user flow_id =>
      obtain ⟨a,h⟩ := h
      exact Prog.DoesWhile.cut (N := fun a r => txn ∉ handed a r)
        (I := fun s => txn ∈ given s) hS.keeps
        (call_silent c fuel with_user flow_id) h hs
  | other => exact ⟨h.1 hs,[],by rw [h.2,List.append_nil],by simp⟩

theorem run_silent (hS : ReturnsOnce sem given) {fuel : Nat} {s s' : σ × List Event} {is : List Step}
    (h : Run (steps sem given fuel) s is s') (hs : txn ∈ given s.1) :
    txn ∈ given s'.1 ∧ ∃ more, s'.2 = s.2 ++ more ∧ ∀ e ∈ more, ¬ carries txn e.1 := by
  induction h with
  | nil => exact ⟨hs,[],(List.append_nil _).symm,by simp⟩
  | snoc _ h ih =>
      obtain ⟨hs₁,more₁,heq₁,hmore₁⟩ := ih
      obtain ⟨hs₂,more₂,heq₂,hmore₂⟩ := step_silent hS h hs₁
      refine ⟨hs₂,more₁ ++ more₂,by rw [heq₂,heq₁,List.append_assoc],fun e he => ?_⟩
      exact (List.mem_append.mp he).elim (hmore₁ e) (hmore₂ e)

/-- What a run has obtained was returned to it. -/
theorem obtained_given (hS : ReturnsOnce sem given) {p : WideM VerifyAct.Ans α}
    {s s' : σ × List Event} {x : α} (h : Prog.Exec (Prog.noted sem) p s x s')
    (hs : ∀ m, Obtained m s.2 → m.txn_id ∈ given s.1) : ∀ m, Obtained m s'.2 → m.txn_id ∈ given s'.1 := by
  induction h with
  | ret a s => exact hs
  | act hr _ ih =>
      refine ih fun m hm => ?_
      obtain ⟨e,he,hm⟩ := hm
      rw [hr.2] at he
      obtain he | he := List.mem_append.mp he
      · exact hS.grows hr.1 (hs m ⟨e,he,hm⟩)
      · cases List.mem_singleton.mp he
        exact hS.made hr.1 m hm

/-- Where a message that an action has obtained is not delivered by it, nothing that is
done later sends the message. -/
theorem never_sent_again (hS : ReturnsOnce sem given) {fuel : Nat} {c : Call} {with_user : UserId}
    {flow_id : String} {s s' : σ} {r : Except Error Value} {es : List Event}
    (hcall : Prog.Exec (Prog.noted sem) (c.run fuel ctx with_user flow_id).run (s,[]) r (s',es))
    {m : OutgoingVerificationRequest} (hobtained : Obtained m es) (hfailed : ¬ Delivered m es)
    {is : List Step} {later : σ × List Event} (hlater : Run (steps sem given fuel) (s',es) is later) :
    ¬ Delivered m later.2 ∧ ∃ more, later.2 = es ++ more ∧ ∀ e ∈ more, ¬ carries m.txn_id e.1 := by
  have hgiven : m.txn_id ∈ given s' := by
    refine obtained_given hS hcall (fun m hm => ?_) m hobtained
    obtain ⟨e,he,_⟩ := hm
    cases he
  obtain ⟨_,more,heq,hmore⟩ := run_silent hS hlater hgiven
  refine ⟨fun hd => ?_,more,heq,hmore⟩
  obtain ⟨e,he,hcarries,hsucceeded⟩ := hd
  rw [heq] at he
  obtain he | he := List.mem_append.mp he
  · exact hfailed ⟨e,he,hcarries,hsucceeded⟩
  · exact hmore e he hcarries

end

local instance : Codec := .plain (fun _ => none) some fun _ _ => 0

inductive Phase where
  | requested
  | ready
  deriving DecidableEq, Repr

def bob : UserId := "@bob:x"
def alice : AccountContext := ⟨"@alice:x","DEV","token",⟨0,"key"⟩⟩
def theRequest : VerificationRequest := ⟨0,"flow",bob⟩
def readyRequest : ToDeviceRequest := ⟨"m.key.verification.ready","txn",.object []⟩
def readyMessage : OutgoingVerificationRequest := .toDevice readyRequest

/-- A machine with one flow, which returns its message when the request is accepted. -/
def machine : VerifySem Phase
  | .inr (.getVerificationRequest ..),s,r,s' => r = some theRequest ∧ s' = s
  | .inr (.accept ..),.requested,r,s' => r = some readyMessage ∧ s' = .ready
  | a,s,r,s' => handed a r = [] ∧ s' = s

def given : Phase → Set String
  | .requested => ∅
  | .ready => {"txn"}

theorem obtained_nil {a : Act ⊕ VerifyAct} {r : Sum.elim Act.Ans VerifyAct.Ans a} (h : handed a r = []) :
    obtained a r = [] := by
  cases a with
  | inl a => rfl
  | inr a => exact List.map_eq_nil_iff.mp h

theorem machine_returns_once : ReturnsOnce machine given where
  grows := by
    intro a s r s' h
    unfold machine at h
    split at h
    · rw [h.2]
    · exact Set.empty_subset _
    · rw [h.2]
  fresh := by
    intro a s r s' h txn htxn
    unfold machine at h
    split at h
    · cases htxn
    · exact fun h => h
    · rw [h.1] at htxn
      cases htxn
  made := by
    intro a s r s' h m hm
    unfold machine at h
    split at h
    · cases hm
    · obtain ⟨rfl,rfl⟩ := h
      cases List.mem_singleton.mp hm
      rfl
    · rw [obtained_nil h.1] at hm
      cases hm

def put : Act ⊕ VerifyAct :=
  .inl (.request "token" (.sendToDevice "m.key.verification.ready" "txn")
    (some (.object [("messages",.object [])])))

/-- What is recorded of an acceptance for which the homeserver was not reached. -/
def failed : List Event :=
  [⟨.inr (.getVerificationRequest alice bob "flow"),some theRequest⟩,
    ⟨.inr (.accept alice theRequest),some readyMessage⟩,⟨put,.error "connection refused"⟩]

def refused : List Event :=
  [⟨.inr (.getVerificationRequest alice bob "flow"),some theRequest⟩,
    ⟨.inr (.accept alice theRequest),none⟩]

theorem asked (s : Phase) (es : List Event) : Prog.noted machine
    (.inr (.getVerificationRequest alice bob "flow")) (s,es) (some theRequest)
      (s,es ++ failed.take 1) := ⟨⟨rfl,rfl⟩,rfl⟩

theorem failed_run : Prog.Exec (Prog.noted machine) (Verify.accept 1 alice bob "flow").run
    (.requested,[]) (.error (.text "connection refused")) (.ready,failed) := by
  have haccept : Prog.noted machine (.inr (.accept alice theRequest)) (.requested,failed.take 1)
    (some readyMessage) (.ready,failed.take 2) := ⟨⟨rfl,rfl⟩,rfl⟩
  have hput : Prog.noted machine put (.ready,failed.take 2) (.error "connection refused")
    (.ready,failed) := ⟨⟨rfl,rfl⟩,rfl⟩
  exact .act (asked _ _) (.act haccept (.act hput (.ret _ _)))

/-- Once the homeserver is reached again, there is nothing left to accept. -/
theorem refused_run : Prog.Exec (Prog.noted machine) (Verify.accept 1 alice bob "flow").run
    (.ready,failed) (.error (.text "flow cannot be accepted in its current state"))
      (.ready,failed ++ refused) := by
  have haccept : Prog.noted machine (.inr (.accept alice theRequest)) (.ready,failed ++ failed.take 1)
    none (.ready,failed ++ refused) := ⟨⟨rfl,rfl⟩,rfl⟩
  exact .act (asked _ _) (.act haccept (.ret _ _))

theorem failed_obtained : Obtained readyMessage failed :=
  ⟨⟨.inr (.accept alice theRequest),some readyMessage⟩,by simp [failed],List.mem_singleton.mpr rfl⟩

theorem failed_not_delivered : ¬ Delivered readyMessage failed := by
  rintro ⟨e,he,hcarries,hsucceeded⟩
  simp only [failed,List.mem_cons,List.not_mem_nil,or_false] at he
  obtain rfl | rfl | rfl := he
  · exact hsucceeded
  · exact hsucceeded
  · exact hsucceeded

/-- The acceptance that failed, and its repetition. -/
theorem never_sent_again_once : ReturnsOnce machine given ∧
    ¬ Delivered readyMessage (failed ++ refused) :=
  ⟨machine_returns_once,(never_sent_again machine_returns_once failed_run (c := .accept)
    failed_obtained failed_not_delivered
      (Run.single.mpr ⟨_,refused_run⟩ : Run (steps machine given 1) _ [.call .accept alice bob "flow"] _)).1⟩

/-- No repetition of an action, and nothing else, sends the message of the acceptance. -/
theorem acceptance_is_lost : ReturnsOnce machine given ∧
    ¬ ∀ c s s' r es m, Prog.Exec (Prog.noted machine) (Call.run 1 alice bob "flow" c).run (s,[]) r
      (s',es) → Obtained m es → ¬ Delivered m es →
        ∃ is later, Run (steps machine given 1) (s',es) is later ∧ Delivered m later.2 := by
  refine ⟨machine_returns_once,fun hall => ?_⟩
  obtain ⟨is,later,hrun,e,he,hcarries,hsucceeded⟩ := hall .accept _ _ _ _ readyMessage failed_run
    failed_obtained failed_not_delivered
  have hgiven : readyMessage.txn_id ∈ given Phase.ready := rfl
  obtain ⟨_,more,heq,hmore⟩ := run_silent machine_returns_once hrun hgiven
  rw [heq] at he
  obtain he | he := List.mem_append.mp he
  · exact failed_not_delivered ⟨e,he,hcarries,hsucceeded⟩
  · exact hmore e he hcarries

end LostMessages
end EmentE2ee
