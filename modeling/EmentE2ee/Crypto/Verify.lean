import EmentE2ee.Crypto.Encrypt
import EmentE2ee.Wide
import Mathlib.Data.List.AList

/-!
# Interactive verification

The flows live in the machine. An action on a flow changes it there, and sends the
message that the change has produced. How flows ended is noted down in a log, as the
machine forgets them with the next sync.
-/
namespace EmentE2ee.Verify

open Concurrent
open Json (Value)

structure CancelInfo where
  reason : String
  code : String
  cancelled_by_us : Bool
  deriving DecidableEq, Repr

/-- A handle on a flow. -/
structure VerificationRequest where
  handle : Nat
  flow_id : String
  other_user : UserId
  deriving DecidableEq, Repr

structure RequestView where
  other_device_id : Option DeviceId
  we_started : Bool
  is_ready : Bool
  is_done : Bool
  is_passive : Bool
  is_cancelled : Bool
  cancel_info : Option CancelInfo
  their_supported_methods : Option (List String)
  /-- The state is that of a request not yet answered. -/
  requested : Bool
  state : String
  deriving DecidableEq, Repr

/-- A handle on the emoji verification of a flow. -/
structure Sas where
  handle : Nat
  flow_id : String
  other_user : UserId
  deriving DecidableEq, Repr

structure Emoji where
  symbols : List String
  descriptions : List String
  formatted : String
  deriving DecidableEq, Repr

structure SasView where
  emoji : Option Emoji
  supports_emoji : Bool
  decimals : Option (Nat × Nat × Nat)
  other_device_id : DeviceId
  we_started : Bool
  has_been_accepted : Bool
  have_we_confirmed : Bool
  is_done : Bool
  is_cancelled : Bool
  can_be_presented : Bool
  cancel_info : Option CancelInfo
  deriving DecidableEq, Repr

structure Flow where
  request : VerificationRequest
  view : RequestView
  sas : Option SasView
  deriving DecidableEq, Repr

inductive Stage where
  | cancelled
  | done
  | sasIncoming
  | confirmed
  | compare
  | keyExchange
  | ready
  | outgoing
  | incoming
  deriving DecidableEq, Repr

def Stage.word : Stage → String
  | cancelled => "cancelled"
  | done => "done"
  | sasIncoming => "sas_incoming"
  | confirmed => "confirmed"
  | compare => "compare"
  | keyExchange => "key_exchange"
  | ready => "ready"
  | outgoing => "outgoing"
  | incoming => "incoming"

/-- Where a flow stands. -/
def stage (request : RequestView) (sas : Option SasView) : Stage :=
  if request.is_cancelled || sas.any SasView.is_cancelled then .cancelled
  else if request.is_done || sas.any SasView.is_done then .done
  else match sas with
    | some sas =>
        if !sas.we_started && !sas.has_been_accepted then .sasIncoming
        else if sas.have_we_confirmed then .confirmed
        else if sas.can_be_presented then .compare
        else .keyExchange
    | none =>
        if request.is_ready then .ready
        else if request.we_started then .outgoing
        else .incoming

def orNull {α : Type} (f : α → Value) (x : Option α) : Value := x.elim .null f

def cancel_summary (info : CancelInfo) : Value :=
  .object [("cancelled_by_us",.bool info.cancelled_by_us),("code",.string info.code),
    ("reason",.string info.reason)]

def request_summary (request : VerificationRequest) (view : RequestView) : Json.Map :=
  [("cancel_info",orNull cancel_summary view.cancel_info),
    ("flow_id",.string request.flow_id),
    ("is_cancelled",.bool view.is_cancelled),
    ("is_done",.bool view.is_done),
    ("is_passive",.bool view.is_passive),
    ("is_ready",.bool view.is_ready),
    ("other_device",orNull .string view.other_device_id),
    ("other_user",.string request.other_user),
    ("state",.string view.state),
    ("their_methods",orNull (fun m => .array (m.map .string)) view.their_supported_methods),
    ("we_started",.bool view.we_started)]

def emoji_summary (emoji : Emoji) : Value :=
  .object [("descriptions",.array (emoji.descriptions.map .string)),
    ("formatted",.string emoji.formatted),("symbols",.array (emoji.symbols.map .string))]

def decimals_summary (d : Nat × Nat × Nat) : Value :=
  .array [.number (.posInt d.1),.number (.posInt d.2.1),.number (.posInt d.2.2)]

def sas_summary (sas : SasView) : Value :=
  .object [("can_be_presented",.bool sas.can_be_presented),
    ("cancel_info",orNull cancel_summary sas.cancel_info),
    ("decimals",orNull decimals_summary sas.decimals),
    -- Emoji are there even when the two sides agreed on decimals only.
    ("emoji",orNull emoji_summary (sas.emoji.filter fun _ => sas.supports_emoji)),
    ("has_been_accepted",.bool sas.has_been_accepted),
    ("have_we_confirmed",.bool sas.have_we_confirmed),
    ("is_cancelled",.bool sas.is_cancelled),
    ("is_done",.bool sas.is_done),
    ("other_device",.string sas.other_device_id),
    ("we_started",.bool sas.we_started)]

/-- The request, its SAS if any, and the stage. -/
def Flow.fields (flow : Flow) : Json.Map :=
  let summary := Json.Map.insert "stage" (.string (stage flow.view flow.sas).word)
    (request_summary flow.request flow.view)
  match flow.sas with
  | none => summary
  | some sas =>
      let summary := Json.Map.insert "sas" (sas_summary sas) summary
      -- The request no longer names its peer once it is done or cancelled.
      if flow.view.other_device_id.isNone then
        Json.Map.insert "other_device" (.string sas.other_device_id) summary
      else summary

def Flow.ended (flow : Flow) : Bool := flow.view.is_done || flow.view.is_cancelled

def MAX_FINISHED : Nat := 32

structure VerificationLog where
  /-- Users, other than the own one, that flows were started or looked up with. -/
  users : List UserId
  finished : AList fun _ : String => Value
  order : List String

namespace VerificationLog

def default : VerificationLog := ⟨[],∅,[]⟩

def watch (log : VerificationLog) (user : UserId) : VerificationLog :=
  if user ∈ log.users then log else { log with users := log.users ++ [user] }

def record (log : VerificationLog) (flow_id : String) (summary : Value) : VerificationLog :=
  let finished := log.finished.insert flow_id summary
  if (log.finished.lookup flow_id).isSome then { log with finished := finished }
  else
    match log.order ++ [flow_id] with
    | [] => { log with finished := finished }
    | oldest :: rest =>
        if MAX_FINISHED < (oldest :: rest).length then
          { log with finished := finished.erase oldest, order := rest }
        else { log with finished := finished, order := oldest :: rest }

def get (log : VerificationLog) (flow_id : String) : Option Value := log.finished.lookup flow_id

def all (log : VerificationLog) : List Value := log.order.filterMap log.finished.lookup

/-- Note down a flow that has ended. -/
def note (log : VerificationLog) (flow : Flow) : VerificationLog :=
  if flow.ended then
    log.record flow.request.flow_id (.object (Json.Map.insert "finished" (.bool true) flow.fields))
  else log

/-- Note down every flow that has ended, of those the machine shows. -/
def record_finished (log : VerificationLog) (user_id : UserId) (flows : UserId → List Flow) :
    VerificationLog :=
  (log.users ++ [user_id]).foldl (fun log user => (flows user).foldl note log) log

end VerificationLog

structure DeviceTrust where
  is_locally_trusted : Bool
  is_verified : Bool
  deriving DecidableEq, Repr

inductive VerifyAct where
  | watch (ctx : AccountContext) (user : UserId)
  /-- What the log has of a flow. -/
  | logged (ctx : AccountContext) (flow_id : String)
  | allLogged (ctx : AccountContext)
  | getVerificationRequest (ctx : AccountContext) (user : UserId) (flow_id : String)
  | getVerificationRequests (ctx : AccountContext) (user : UserId)
  /-- The verification of a flow, with its handle if it is by emoji. -/
  | getVerification (ctx : AccountContext) (user : UserId) (flow_id : String)
  | view (ctx : AccountContext) (request : VerificationRequest)
  | viewSas (ctx : AccountContext) (sas : Sas)
  | accept (ctx : AccountContext) (request : VerificationRequest)
  | startSas (ctx : AccountContext) (request : VerificationRequest)
  | acceptSas (ctx : AccountContext) (sas : Sas)
  /-- The answer has the signatures to be uploaded, if any. -/
  | confirm (ctx : AccountContext) (sas : Sas)
  | cancelWithCode (ctx : AccountContext) (sas : Sas) (code : String)
  | cancel (ctx : AccountContext) (request : VerificationRequest)
  | getDevice (ctx : AccountContext) (user : UserId) (device_id : DeviceId)
  | requestVerification (ctx : AccountContext) (device_id : DeviceId)

abbrev VerifyAct.Ans : VerifyAct → Type
  | watch .. => Unit
  | logged .. => Option Value
  | allLogged _ => List Value
  | getVerificationRequest .. => Option VerificationRequest
  | getVerificationRequests .. => List VerificationRequest
  | getVerification .. => Option (Option Sas)
  | view .. => RequestView
  | viewSas .. => SasView
  | accept .. => Option OutgoingVerificationRequest
  | startSas .. => Except String (Option (Sas × OutgoingVerificationRequest))
  | acceptSas .. => Option OutgoingVerificationRequest
  | confirm .. => Except String (List OutgoingVerificationRequest × Option Value)
  | cancelWithCode .. => Option OutgoingVerificationRequest
  | cancel .. => Option OutgoingVerificationRequest
  | getDevice .. => Except String (Option DeviceTrust)
  | requestVerification .. => VerificationRequest × OutgoingVerificationRequest

variable [Codec]

abbrev Verifying := WideFallible VerifyAct.Ans

def verifyAct (a : VerifyAct) : WideM VerifyAct.Ans a.Ans := further a

def active_sas (ctx : AccountContext) (request : VerificationRequest) :
    WideM VerifyAct.Ans (Option Sas) := do
  let verification ← verifyAct (.getVerification ctx request.other_user request.flow_id)
  pure verification.join

def flow (ctx : AccountContext) (request : VerificationRequest) (sas : Option Sas) :
    WideM VerifyAct.Ans Flow := do
  let view ← verifyAct (.view ctx request)
  match sas with
  | none => pure ⟨request,view,none⟩
  | some sas => do
      let sas_view ← verifyAct (.viewSas ctx sas)
      pure ⟨request,view,some sas_view⟩

/-- Everything about one flow. -/
def flow_summary (ctx : AccountContext) (request : VerificationRequest) :
    WideM VerifyAct.Ans Value := do
  let sas ← active_sas ctx request
  let flow ← flow ctx request sas
  pure (.object flow.fields)

def get_request (ctx : AccountContext) (with_user : UserId) (flow_id : String) :
    Verifying VerificationRequest := do
  let request ← ExceptT.lift (verifyAct (.getVerificationRequest ctx with_user flow_id))
  orBail request ("no verification flow " ++ flow_id ++ " with " ++ with_user)

def get_sas (ctx : AccountContext) (with_user : UserId) (flow_id : String) : Verifying Sas := do
  let verification ← ExceptT.lift (verifyAct (.getVerification ctx with_user flow_id))
  match verification with
  | some (some sas) => pure sas
  | some none => bail ("flow " ++ flow_id ++ " is not a SAS verification")
  | none => bail ("flow " ++ flow_id ++ " has no active SAS yet (accept it first, then start-sas — " ++
      "or wait for the other side to choose emoji verification)")

def flow_summaries (ctx : AccountContext) : List VerificationRequest → WideM VerifyAct.Ans (List Value)
  | [] => pure []
  | request :: requests => do
      let summary ← flow_summary ctx request
      let summaries ← flow_summaries ctx requests
      pure (summary :: summaries)

def list (ctx : AccountContext) (with_user : UserId) : WideM VerifyAct.Ans Value := do
  verifyAct (.watch ctx with_user)
  usual (.recordFinished ctx)
  let requests ← verifyAct (.getVerificationRequests ctx with_user)
  let requests ← flow_summaries ctx requests
  let finished ← verifyAct (.allLogged ctx)
  pure (.object [("finished",.array finished),("requests",.array requests)])

/-- Request verification of one of the own devices. -/
def start (fuel : Nat) (ctx : AccountContext) (device_id : DeviceId) : Verifying Value := do
  let device ← furtherCall (verifyAct (.getDevice ctx ctx.user_id device_id))
  let _ ← orBail device ("device " ++ device_id ++ " not found (has it queried keys yet?)")
  let (request,outgoing) ← ExceptT.lift (verifyAct (.requestVerification ctx device_id))
  Fallible.widen (send_verification_request fuel ctx outgoing)
  ExceptT.lift (flow_summary ctx request)

/-- Look for the effect of a flow that is done, the other device being trusted. -/
def await_trust (ctx : AccountContext) (with_user : UserId) (device_id : DeviceId) :
    Nat → WideM VerifyAct.Ans Unit
  | 0 => pure ()
  | n + 1 => do
      let device ← verifyAct (.getDevice ctx with_user device_id)
      match device with
      | .ok (some device) =>
          if device.is_locally_trusted || device.is_verified then pure ()
          else await_trust ctx with_user device_id n
      | _ => await_trust ctx with_user device_id n

/-- Hold an answer that reads as done back until its effect is there, for a while. -/
def settle (ctx : AccountContext) (with_user : UserId) (summary : Value) : WideM VerifyAct.Ans Unit :=
  if (summary.get "stage").bind Value.asStr = some Stage.done.word then
    ((summary.get "other_device").bind Value.asStr).elim (pure ()) fun device_id =>
      await_trust ctx with_user device_id 40
  else pure ()

/-- A flow that has ended is answered from the log. -/
def show_flow (ctx : AccountContext) (with_user : UserId) (flow_id : String) : Verifying Value := do
  ExceptT.lift (verifyAct (.watch ctx with_user))
  ExceptT.lift (usual (.recordFinished ctx))
  let request ← ExceptT.lift (verifyAct (.getVerificationRequest ctx with_user flow_id))
  let summary ← match request with
    | some request => ExceptT.lift (flow_summary ctx request)
    | none => do
        let logged ← ExceptT.lift (verifyAct (.logged ctx flow_id))
        orBail logged ("no verification flow " ++ flow_id ++ " with " ++ with_user)
  ExceptT.lift (settle ctx with_user summary)
  pure summary

/-- Send what a change of a flow has produced, if anything. -/
def send_any (fuel : Nat) (ctx : AccountContext) (outgoing : Option OutgoingVerificationRequest) :
    Verifying Unit :=
  outgoing.elim (pure ()) fun outgoing => Fallible.widen (send_verification_request fuel ctx outgoing)

/-- The step that needs no human, at a stage. -/
def take_step (fuel : Nat) (ctx : AccountContext) (request : VerificationRequest) (sas : Option Sas)
    (flow : Flow) (start_sas : Bool) : Verifying Unit :=
  match stage flow.view flow.sas with
  | .incoming => do
      let view ← ExceptT.lift (verifyAct (.view ctx request))
      if view.requested then
        let outgoing ← ExceptT.lift (verifyAct (.accept ctx request))
        send_any fuel ctx outgoing
      else pure ()
  | .ready =>
      if flow.view.we_started || start_sas then do
        let started ← furtherCall (verifyAct (.startSas ctx request))
        send_any fuel ctx (started.map Prod.snd)
      else pure ()
  | .sasIncoming =>
      sas.elim (pure ()) fun sas => do
        let outgoing ← ExceptT.lift (verifyAct (.acceptSas ctx sas))
        send_any fuel ctx outgoing
  | _ => pure ()

def advance (fuel : Nat) (ctx : AccountContext) (with_user : UserId) (flow_id : String)
    (start_sas : Bool) : Verifying Value := do
  ExceptT.lift (verifyAct (.watch ctx with_user))
  let request ← ExceptT.lift (verifyAct (.getVerificationRequest ctx with_user flow_id))
  match request with
  | none => show_flow ctx with_user flow_id
  | some request => do
      let sas ← ExceptT.lift (active_sas ctx request)
      let flow ← ExceptT.lift (flow ctx request sas)
      take_step fuel ctx request sas flow start_sas
      ExceptT.lift (usual (.recordFinished ctx))
      show_flow ctx with_user flow_id

def accept (fuel : Nat) (ctx : AccountContext) (with_user : UserId) (flow_id : String) :
    Verifying Value := do
  let request ← get_request ctx with_user flow_id
  let outgoing ← ExceptT.lift (verifyAct (.accept ctx request))
  let outgoing ← orBail outgoing "flow cannot be accepted in its current state"
  Fallible.widen (send_verification_request fuel ctx outgoing)
  ExceptT.lift (flow_summary ctx request)

def start_sas (fuel : Nat) (ctx : AccountContext) (with_user : UserId) (flow_id : String) :
    Verifying Value := do
  let request ← get_request ctx with_user flow_id
  let started ← furtherCall (verifyAct (.startSas ctx request))
  let started ← orBail started "flow is not ready for SAS (accept it on both sides first)"
  Fallible.widen (send_verification_request fuel ctx started.2)
  ExceptT.lift (flow_summary ctx request)

def sas_accept (fuel : Nat) (ctx : AccountContext) (with_user : UserId) (flow_id : String) :
    Verifying Value := do
  let sas ← get_sas ctx with_user flow_id
  let outgoing ← ExceptT.lift (verifyAct (.acceptSas ctx sas))
  send_any fuel ctx outgoing
  show_flow ctx with_user flow_id

/-- While it lasts, no sync is processed. -/
def paused {α : Type} (ctx : AccountContext) (p : WideM VerifyAct.Ans α) : WideM VerifyAct.Ans α :=
  underLock (.seen ctx) p

def send_each (fuel : Nat) (ctx : AccountContext) : List OutgoingVerificationRequest → Verifying Unit
  | [] => pure ()
  | outgoing :: rest => do
      Fallible.widen (send_verification_request fuel ctx outgoing)
      send_each fuel ctx rest

def upload_signatures (ctx : AccountContext) (signed_keys : Value) : Fallible Unit := do
  let (status,body) ← json_request ctx.token .signaturesUpload (some signed_keys)
  if isSuccess status then pure ()
  else fail ("signature upload after verification failed: " ++ Codec.statusText status ++ " " ++
    Codec.display body)

/-- The emoji matched. -/
def confirm (fuel : Nat) (ctx : AccountContext) (with_user : UserId) (flow_id : String) :
    Verifying Value := do
  let sas ← get_sas ctx with_user flow_id
  let (outgoing_requests,signature_upload) ← furtherCall (paused ctx do
    let confirmed ← verifyAct (.confirm ctx sas)
    match confirmed with
    | .error e => pure (.error e)
    | .ok confirmed => do
        -- Done already if the other side confirmed first.
        usual (.recordFinished ctx)
        pure (.ok confirmed))
  send_each fuel ctx outgoing_requests
  signature_upload.elim (pure ()) fun signed_keys => Fallible.widen (upload_signatures ctx signed_keys)
  ExceptT.lift (pump fuel ctx).widen
  ExceptT.lift (usual (.recordFinished ctx))
  show_flow ctx with_user flow_id

/-- A change that ends a flow, noted down before a sync makes the machine forget it. -/
def ending (ctx : AccountContext) (p : WideM VerifyAct.Ans (Option OutgoingVerificationRequest)) :
    WideM VerifyAct.Ans (Option OutgoingVerificationRequest) :=
  paused ctx do
    let outgoing ← p
    usual (.recordFinished ctx)
    pure outgoing

/-- The emoji did not match, and the other device is told so. -/
def mismatch (fuel : Nat) (ctx : AccountContext) (with_user : UserId) (flow_id : String) :
    Verifying Value := do
  let sas ← get_sas ctx with_user flow_id
  let outgoing ← ExceptT.lift (ending ctx (verifyAct (.cancelWithCode ctx sas "m.mismatched_sas")))
  send_any fuel ctx outgoing
  show_flow ctx with_user flow_id

def cancel (fuel : Nat) (ctx : AccountContext) (with_user : UserId) (flow_id : String) :
    Verifying Value := do
  let request ← get_request ctx with_user flow_id
  let outgoing ← ExceptT.lift (ending ctx (verifyAct (.cancel ctx request)))
  send_any fuel ctx outgoing
  show_flow ctx with_user flow_id

/-- Actions that leave all flows as they are. -/
def VerifyAct.reading : VerifyAct → Prop
  | accept .. | startSas .. | acceptSas .. | confirm .. => False
  | cancelWithCode .. | cancel .. | requestVerification .. => False
  | _ => True

/-- Of these, the ones about a flow in hand, or a device. -/
def VerifyAct.detail : VerifyAct → Prop
  | getVerification .. | view .. | viewSas .. | getDevice .. => True
  | _ => False

omit [Codec] in
theorem VerifyAct.detail.reads : {a : VerifyAct} → a.detail → a.reading
  | .getVerification .., _ | .view .., _ | .viewSas .., _ | .getDevice .., _ => trivial

section
variable {P : Act ⊕ VerifyAct → Prop} {ctx : AccountContext}

@[simp] theorem verifyAct_does (a : VerifyAct) :
    @Prog.Does (Act ⊕ VerifyAct) (Sum.elim Act.Ans VerifyAct.Ans) (no_index a.Ans) P (verifyAct a) ↔
      P (.inr a) := further_does a

theorem read_lift_does (h : ∀ a : VerifyAct, a.reading → P (.inr a)) {a : VerifyAct}
    (ha : a.reading) : (ExceptT.lift (verifyAct a) : Verifying a.Ans).run.Does P :=
  (wide_lift_does _).mpr ((verifyAct_does a).mpr (h a ha))

theorem active_sas_does (h : ∀ a : VerifyAct, a.detail → P (.inr a)) (request : VerificationRequest) :
    (active_sas ctx request).Does P :=
  .bind ((verifyAct_does _).mpr (h _ trivial)) fun _ => trivial

theorem flow_does (h : ∀ a : VerifyAct, a.detail → P (.inr a)) (request : VerificationRequest)
    (sas : Option Sas) : (flow ctx request sas).Does P := by
  refine .bind ((verifyAct_does _).mpr (h _ trivial)) fun view => ?_
  cases sas with
  | none => trivial
  | some sas => exact .bind ((verifyAct_does _).mpr (h _ trivial)) fun _ => trivial

theorem flow_summary_does (h : ∀ a : VerifyAct, a.detail → P (.inr a))
    (request : VerificationRequest) : (flow_summary ctx request).Does P :=
  .bind (active_sas_does h request) fun sas => .bind (flow_does h request sas) fun _ => trivial

theorem await_trust_does (h : ∀ a : VerifyAct, a.detail → P (.inr a)) (with_user : UserId)
    (device_id : DeviceId) (n : Nat) : (await_trust ctx with_user device_id n).Does P := by
  induction n with
  | zero => trivial
  | succ n ih =>
      refine .bind ((verifyAct_does _).mpr (h _ trivial)) fun device => ?_
      split
      · split_ifs
        · trivial
        · exact ih
      · exact ih

theorem settle_does (h : ∀ a : VerifyAct, a.detail → P (.inr a)) (with_user : UserId)
    (summary : Value) : (settle ctx with_user summary).Does P := by
  unfold settle
  split_ifs
  · cases (summary.get "other_device").bind Value.asStr with
    | none => trivial
    | some device_id => exact await_trust_does h with_user device_id 40
  · trivial

theorem show_flow_does (h : ∀ a : VerifyAct, a.reading → P (.inr a))
    (hrecord : P (.inl (.recordFinished ctx))) (with_user : UserId) (flow_id : String) :
    (show_flow ctx with_user flow_id).run.Does P := by
  have hdetail : ∀ a : VerifyAct, a.detail → P (.inr a) := fun a ha => h a ha.reads
  refine .exceptBind (read_lift_does h (by trivial)) fun _ => .exceptBind (by simpa using hrecord) fun _ => ?_
  refine .exceptBind (read_lift_does h (by trivial)) fun request => ?_
  have hsettle : ∀ summary : Value, (do
      ExceptT.lift (settle ctx with_user summary)
      pure summary : Verifying Value).run.Does P := fun summary =>
    .exceptBind (by simpa using settle_does hdetail with_user summary) fun _ => trivial
  cases request with
  | some request =>
      exact .exceptBind (by simpa using flow_summary_does hdetail request) fun summary => hsettle summary
  | none =>
      refine .exceptBind (read_lift_does h (by trivial)) fun logged => ?_
      exact .exceptBind (orBail_does ..) fun summary => hsettle summary

end
end EmentE2ee.Verify
