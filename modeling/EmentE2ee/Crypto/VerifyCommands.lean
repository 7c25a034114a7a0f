import EmentE2ee.Crypto.Verify

/-!
# What holds of every verify command

The commands are put together from looking flows up, changing them, sending what a
change has produced and noting outcomes down. What holds of these, and of sequences of
what it holds of, holds of the commands; those that end a flow do so with syncs paused.
-/
namespace EmentE2ee.Verify

open Concurrent
open Json (Value)

variable [Codec]

/-- The section of `confirm` that pauses syncs. -/
def confirming (ctx : AccountContext) (sas : Sas) :
    WideM VerifyAct.Ans (Except String (List OutgoingVerificationRequest × Option Value)) :=
  paused ctx do
    let confirmed ← verifyAct (.confirm ctx sas)
    match confirmed with
    | .error e => pure (.error e)
    | .ok confirmed => do
        usual (.recordFinished ctx)
        pure (.ok confirmed)

/-- Actions that end a flow. -/
def VerifyAct.ends : VerifyAct → Prop
  | confirm .. | cancelWithCode .. | cancel .. => True
  | _ => False

/-- Whose flows an action is about. -/
def VerifyAct.account : VerifyAct → AccountContext
  | watch ctx _ | logged ctx _ | allLogged ctx => ctx
  | getVerificationRequest ctx .. | getVerificationRequests ctx _ | getVerification ctx .. => ctx
  | view ctx _ | viewSas ctx _ | accept ctx _ | startSas ctx _ | acceptSas ctx _ => ctx
  | confirm ctx _ | cancelWithCode ctx .. | cancel ctx _ => ctx
  | getDevice ctx .. | requestVerification ctx _ => ctx

/-- A property of the parts of commands, and of what is put together from them. -/
structure Covers (ctx : AccountContext) (G : ∀ {α : Type}, WideM VerifyAct.Ans α → Prop) : Prop where
  ret : ∀ {α : Type} (a : α), G (Prog.ret a)
  bind : ∀ {α β : Type} {p : WideM VerifyAct.Ans α} {f : α → WideM VerifyAct.Ans β},
    G p → (∀ a, G (f a)) → G (p >>= f)
  verify : ∀ a : VerifyAct, a.account = ctx → ¬ a.ends → G (verifyAct a)
  record : G (usual (.recordFinished ctx))
  send : ∀ fuel outgoing,
    G (Fallible.widen (send_verification_request fuel ctx outgoing) : Verifying Unit).run

namespace Covers
variable {ctx : AccountContext} {G : ∀ {α : Type}, WideM VerifyAct.Ans α → Prop} {α β : Type}

theorem exceptBind (h : Covers ctx G) {x : Verifying α} {f : α → Verifying β} (hx : G x.run)
    (hf : ∀ a, G (f a).run) : G (x >>= f).run := by
  rw [ExceptT.run_bind]
  refine h.bind hx fun r => ?_
  cases r with
  | ok a => exact hf a
  | error e => exact h.ret _

theorem lift (h : Covers ctx G) {p : WideM VerifyAct.Ans α} (hp : G p) :
    G (ExceptT.lift p : Verifying α).run := by
  rw [ExceptT.run_lift,← bind_pure_comp]
  exact h.bind hp fun a => h.ret _

theorem further (h : Covers ctx G) {p : WideM VerifyAct.Ans (Except String α)} (hp : G p) :
    G (furtherCall p).run := h.bind hp fun _ => h.ret _

theorem orBail (h : Covers ctx G) (x : Option α) (message : String) :
    G (orBail x message : Verifying α).run := by
  cases x with
  | none => exact h.ret _
  | some a => exact h.ret _

/-- An action that ends no flow. -/
theorem step (h : Covers ctx G) {a : VerifyAct} (hctx : a.account = ctx) (ha : ¬ a.ends) :
    G (ExceptT.lift (verifyAct a) : Verifying a.Ans).run := h.lift (h.verify a hctx ha)

theorem active_sas (h : Covers ctx G) (request : VerificationRequest) : G (active_sas ctx request) :=
  h.bind (h.verify _ rfl id) fun _ => h.ret _

theorem flow (h : Covers ctx G) (request : VerificationRequest) (sas : Option Sas) :
    G (flow ctx request sas) := by
  refine h.bind (h.verify _ rfl id) fun view => ?_
  cases sas with
  | none => exact h.ret _
  | some sas => exact h.bind (h.verify _ rfl id) fun _ => h.ret _

theorem flow_summary (h : Covers ctx G) (request : VerificationRequest) :
    G (flow_summary ctx request) :=
  h.bind (h.active_sas request) fun sas => h.bind (h.flow request sas) fun _ => h.ret _

theorem get_request (h : Covers ctx G) (with_user : UserId) (flow_id : String) :
    G (get_request ctx with_user flow_id).run :=
  h.exceptBind (h.step rfl id) fun _ => h.orBail ..

theorem get_sas (h : Covers ctx G) (with_user : UserId) (flow_id : String) :
    G (get_sas ctx with_user flow_id).run := by
  refine h.exceptBind (h.step rfl id) fun verification => ?_
  split <;> exact h.ret _

theorem settle (h : Covers ctx G) (with_user : UserId) (summary : Value) :
    G (settle ctx with_user summary) := by
  have hawait : ∀ device_id n, G (await_trust ctx with_user device_id n) := by
    intro device_id n
    induction n with
    | zero => exact h.ret _
    | succ n ih =>
        refine h.bind (h.verify _ rfl id) fun device => ?_
        split
        · split_ifs
          · exact h.ret _
          · exact ih
        · exact ih
  unfold Verify.settle
  split_ifs
  · cases (summary.get "other_device").bind Value.asStr with
    | none => exact h.ret _
    | some device_id => exact hawait device_id 40
  · exact h.ret _

theorem show_flow (h : Covers ctx G) (with_user : UserId) (flow_id : String) :
    G (show_flow ctx with_user flow_id).run := by
  have hsettle : ∀ summary : Value, G (do
      ExceptT.lift (Verify.settle ctx with_user summary)
      pure summary : Verifying Value).run := fun summary =>
    h.exceptBind (h.lift (h.settle with_user summary)) fun _ => h.ret _
  refine h.exceptBind (h.step rfl id) fun _ => h.exceptBind (h.lift h.record) fun _ => ?_
  refine h.exceptBind (h.step rfl id) fun request => ?_
  cases request with
  | some request => exact h.exceptBind (h.lift (h.flow_summary request)) hsettle
  | none => exact h.exceptBind (h.step rfl id) fun logged => h.exceptBind (h.orBail ..) hsettle

theorem list (h : Covers ctx G) (with_user : UserId) : G (list ctx with_user) := by
  have hsummaries : ∀ requests, G (flow_summaries ctx requests) := by
    intro requests
    induction requests with
    | nil => exact h.ret _
    | cons request requests ih =>
        exact h.bind (h.flow_summary request) fun _ => h.bind ih fun _ => h.ret _
  refine h.bind (h.verify _ rfl id) fun _ => h.bind h.record fun _ => ?_
  refine h.bind (h.verify _ rfl id) fun requests => h.bind (hsummaries requests) fun _ => ?_
  exact h.bind (h.verify _ rfl id) fun _ => h.ret _

theorem send_any (h : Covers ctx G) (fuel : Nat) (outgoing : Option OutgoingVerificationRequest) :
    G (send_any fuel ctx outgoing).run := by
  cases outgoing with
  | none => exact h.ret _
  | some outgoing => exact h.send fuel outgoing

theorem start (h : Covers ctx G) (fuel : Nat) (device_id : DeviceId) :
    G (start fuel ctx device_id).run := by
  refine h.exceptBind (h.further (h.verify _ rfl id)) fun device => h.exceptBind (h.orBail ..) fun _ => ?_
  refine h.exceptBind (h.step rfl id) fun started => ?_
  exact h.exceptBind (h.send fuel started.2) fun _ => h.lift (h.flow_summary started.1)

theorem take_step (h : Covers ctx G) (fuel : Nat) (request : VerificationRequest) (sas : Option Sas)
    (flow : Flow) (start_sas : Bool) : G (take_step fuel ctx request sas flow start_sas).run := by
  unfold Verify.take_step
  split
  · refine h.exceptBind (h.step rfl id) fun view => ?_
    split_ifs
    · exact h.exceptBind (h.step rfl id) fun outgoing => h.send_any fuel outgoing
    · exact h.ret _
  · split_ifs
    · exact h.exceptBind (h.further (h.verify _ rfl id)) fun started => h.send_any fuel _
    · exact h.ret _
  · cases sas with
    | none => exact h.ret _
    | some sas => exact h.exceptBind (h.step rfl id) fun outgoing => h.send_any fuel outgoing
  · exact h.ret _

theorem advance (h : Covers ctx G) (fuel : Nat) (with_user : UserId) (flow_id : String)
    (start_sas : Bool) : G (advance fuel ctx with_user flow_id start_sas).run := by
  refine h.exceptBind (h.step rfl id) fun _ => h.exceptBind (h.step rfl id) fun request => ?_
  cases request with
  | none => exact h.show_flow with_user flow_id
  | some request =>
      refine h.exceptBind (h.lift (h.active_sas request)) fun sas => ?_
      refine h.exceptBind (h.lift (h.flow request sas)) fun flow => ?_
      refine h.exceptBind (h.take_step fuel request sas flow start_sas) fun _ => ?_
      exact h.exceptBind (h.lift h.record) fun _ => h.show_flow with_user flow_id

theorem accept (h : Covers ctx G) (fuel : Nat) (with_user : UserId) (flow_id : String) :
    G (accept fuel ctx with_user flow_id).run := by
  refine h.exceptBind (h.get_request with_user flow_id) fun request => ?_
  refine h.exceptBind (h.step rfl id) fun outgoing => h.exceptBind (h.orBail ..) fun outgoing => ?_
  exact h.exceptBind (h.send fuel outgoing) fun _ => h.lift (h.flow_summary request)

theorem start_sas (h : Covers ctx G) (fuel : Nat) (with_user : UserId) (flow_id : String) :
    G (start_sas fuel ctx with_user flow_id).run := by
  refine h.exceptBind (h.get_request with_user flow_id) fun request => ?_
  refine h.exceptBind (h.further (h.verify _ rfl id)) fun started =>
    h.exceptBind (h.orBail ..) fun started => ?_
  exact h.exceptBind (h.send fuel started.2) fun _ => h.lift (h.flow_summary request)

theorem sas_accept (h : Covers ctx G) (fuel : Nat) (with_user : UserId) (flow_id : String) :
    G (sas_accept fuel ctx with_user flow_id).run := by
  refine h.exceptBind (h.get_sas with_user flow_id) fun sas => h.exceptBind (h.step rfl id) fun outgoing => ?_
  exact h.exceptBind (h.send_any fuel outgoing) fun _ => h.show_flow with_user flow_id

theorem confirm (h : Covers ctx G) (hconfirm : ∀ sas, G (confirming ctx sas))
    (hupload : ∀ keys, G (Fallible.widen (upload_signatures ctx keys) : Verifying Unit).run)
    {fuel : Nat} (hpump : G ((pump fuel ctx).widen : WideM VerifyAct.Ans Unit)) (with_user : UserId)
    (flow_id : String) : G (confirm fuel ctx with_user flow_id).run := by
  have hsend : ∀ outgoing, G (send_each fuel ctx outgoing).run := by
    intro outgoing
    induction outgoing with
    | nil => exact h.ret _
    | cons outgoing rest ih => exact h.exceptBind (h.send fuel outgoing) fun _ => ih
  refine h.exceptBind (h.get_sas with_user flow_id) fun sas => ?_
  refine h.exceptBind (h.further (hconfirm sas)) fun confirmed => ?_
  obtain ⟨outgoing_requests,signature_upload⟩ := confirmed
  refine h.exceptBind (hsend outgoing_requests) fun _ => h.exceptBind ?_ fun _ => ?_
  · cases signature_upload with
    | none => exact h.ret _
    | some keys => exact hupload keys
  · exact h.exceptBind (h.lift hpump) fun _ =>
      h.exceptBind (h.lift h.record) fun _ => h.show_flow with_user flow_id

theorem mismatch (h : Covers ctx G)
    (hend : ∀ sas, G (ending ctx (verifyAct (.cancelWithCode ctx sas "m.mismatched_sas")))) (fuel : Nat)
    (with_user : UserId) (flow_id : String) : G (mismatch fuel ctx with_user flow_id).run := by
  refine h.exceptBind (h.get_sas with_user flow_id) fun sas => ?_
  refine h.exceptBind (h.lift (hend sas)) fun outgoing => ?_
  exact h.exceptBind (h.send_any fuel outgoing) fun _ => h.show_flow with_user flow_id

theorem cancel (h : Covers ctx G) (hend : ∀ request, G (ending ctx (verifyAct (.cancel ctx request))))
    (fuel : Nat) (with_user : UserId) (flow_id : String) :
    G (cancel fuel ctx with_user flow_id).run := by
  refine h.exceptBind (h.get_request with_user flow_id) fun request => ?_
  refine h.exceptBind (h.lift (hend request)) fun outgoing => ?_
  exact h.exceptBind (h.send_any fuel outgoing) fun _ => h.show_flow with_user flow_id

end Covers
end EmentE2ee.Verify
