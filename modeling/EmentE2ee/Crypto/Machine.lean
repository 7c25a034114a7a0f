import EmentE2ee.Action

/-!
# The machine's outgoing requests

Each queued request is sent to its endpoint and its answer fed back. Draining
the queue is repeated until it is empty or a request fails; the number of
repetitions is bounded by fuel, as nothing bounds what the machine queues.
-/
namespace EmentE2ee

open Concurrent
open Json (Value)

variable [Codec]

def parse_response (kind : ResponseKind) (body : Value) : Fallible Unit :=
  if Codec.readsAs kind body then pure () else fail "unexpected response body"

/-- Feed the response to a request back into the machine. -/
def mark_request_as_sent (ctx : AccountContext) (id : String) (kind : ResponseKind)
    (body : Value) : Fallible Unit := do
  parse_response kind body
  call (act (.olm ctx (.markRequestAsSent id body)))

def withTimeout (timeout : Option Nat) (m : Json.Map) : Value :=
  match timeout with
  | some ms => .object (Json.Map.insert "timeout" (.number (.posInt ms)) m)
  | none => .object m

namespace AnyOutgoingRequest

def kind : AnyOutgoingRequest → ResponseKind
  | keysUpload _ => .keysUpload
  | keysQuery _ => .keysQuery
  | keysClaim _ => .keysClaim
  | toDeviceRequest _ => .toDevice
  | signatureUpload _ => .signatureUpload
  | roomMessage _ => .roomMessage

/-- A key of an upload's body, where there is something to upload. -/
def uploadEntry (key : String) (entries : Json.Map) (m : Json.Map) : Json.Map :=
  if entries.isEmpty then m else Json.Map.insert key (.object entries) m

def uploadBody (r : KeysUploadRequest) : Value :=
  let m := match r.device_keys with
    | some keys => [("device_keys",keys)]
    | none => []
  .object (uploadEntry "fallback_keys" r.fallback_keys (uploadEntry "one_time_keys" r.one_time_keys m))

/-- Where a request goes, and with which body. -/
def wire : AnyOutgoingRequest → Endpoint × Value
  | keysUpload r => (.keysUpload,uploadBody r)
  | keysQuery r => (.keysQuery,withTimeout r.timeout [("device_keys",r.device_keys)])
  | keysClaim r => (.keysClaim,withTimeout r.timeout [("one_time_keys",r.one_time_keys)])
  | toDeviceRequest r => (.sendToDevice r.event_type r.txn_id,.object [("messages",r.messages)])
  | signatureUpload signed_keys => (.signaturesUpload,signed_keys)
  | roomMessage r => (.sendEvent r.room_id r.event_type r.txn_id,r.content)

end AnyOutgoingRequest

def mark_as_sent (ctx : AccountContext) (request : OutgoingRequest) (response_body : Value) :
    Fallible Unit :=
  mark_request_as_sent ctx request.request_id request.request.kind response_body

def send_and_mark (ctx : AccountContext) (request : OutgoingRequest) : Fallible Unit := do
  let (status,response_body) ←
    json_request ctx.token request.request.wire.1 (some request.request.wire.2)
  if isSuccess status then mark_as_sent ctx request response_body
  else fail (report "upstream returned" status response_body)

/-- One batch of room keys at a time, up to a bound. -/
def upload_backups (ctx : AccountContext) : Nat → Fallible Unit
  | 0 => pure ()
  | n + 1 => do
      let batch ← call (act (.olm ctx .backup))
      match batch with
      | none => pure ()
      | some (txn_id,request) =>
          let (status,response_body) ← json_request ctx.token (.roomKeys request.version)
            (some (.object [("rooms",request.rooms)]))
          if isSuccess status then
            mark_request_as_sent ctx txn_id .backupKeys response_body
            upload_backups ctx n
          else fail (report "room_keys upload returned" status response_body)

def upload_pending_backups (ctx : AccountContext) : Fallible Unit := do
  let enabled ← step (.olm ctx .backupEnabled)
  if enabled then upload_backups ctx 100 else pure ()

/-- Sends requests in order up to the first that fails. -/
def send_all (ctx : AccountContext) : List OutgoingRequest → Fallible Unit
  | [] => pure ()
  | request :: requests => do
      send_and_mark ctx request
      send_all ctx requests

/-- True once the queue is empty. -/
def drain (ctx : AccountContext) : Nat → M Bool
  | 0 => pure false
  | fuel + 1 => do
      let queued ← act (.olm ctx .outgoingRequests)
      match queued with
      | .error _ => pure false
      | .ok [] => pure true
      | .ok requests =>
          let sent ← (send_all ctx requests).run
          match sent with
          | .error _ => pure false
          | .ok () => drain ctx fuel

/-- Drain the queue; with it drained, push new room keys to the backup. -/
def pump (fuel : Nat) (ctx : AccountContext) : M Unit :=
  withLock (.pump ctx) do
    let drained ← drain ctx fuel
    if drained then
      let _ ← (upload_pending_backups ctx).run
      pure ()
    else pure ()

def send_keys_claim (ctx : AccountContext) (id : String) (request : KeysClaimRequest) :
    Fallible Unit := do
  let body := withTimeout request.timeout [("one_time_keys",request.one_time_keys)]
  let (status,response_body) ← json_request ctx.token .keysClaim (some body)
  if isSuccess status then mark_request_as_sent ctx id .keysClaim response_body
  else fail (report "keys/claim returned" status response_body)

def send_to_device (ctx : AccountContext) (request : ToDeviceRequest) : Fallible Unit := do
  let (status,response_body) ←
    json_request ctx.token (.sendToDevice request.event_type request.txn_id)
      (some (.object [("messages",request.messages)]))
  if isSuccess status then mark_request_as_sent ctx request.txn_id .toDevice response_body
  else fail (report "sendToDevice returned" status response_body)

section
variable (ctx : AccountContext)

theorem mark_request_as_sent_does {P : Act → Prop} {id : String} {body : Value}
    (hP : P (.olm ctx (.markRequestAsSent id body))) (kind : ResponseKind) :
    (mark_request_as_sent ctx id kind body).run.Does P := by
  refine .exceptBind ?_ fun _ => by simpa using hP
  unfold parse_response
  split_ifs <;> simp

theorem send_and_mark_does (request : OutgoingRequest) :
    (send_and_mark ctx request).run.Does Act.tending := by
  refine .exceptBind ?_ fun answer => ?_
  · rw [json_request_does]
    cases request.request with
    | roomMessage r => exact ⟨trivial,r.clear⟩
    | _ => exact ⟨trivial,trivial⟩
  · dsimp only
    split_ifs
    · exact mark_request_as_sent_does ctx ⟨trivial,trivial⟩ _
    · simp

theorem upload_backups_does (n : Nat) : (upload_backups ctx n).run.Does Act.tending := by
  induction n with
  | zero => simp [upload_backups]
  | succ n ih =>
      refine .exceptBind (by simp [Act.tending,Act.serving,Act.preparing]) fun batch => ?_
      cases batch with
      | none => simp
      | some batch =>
          refine .exceptBind (by simp [Act.tending,Act.serving,Act.preparing]) fun answer => ?_
          dsimp only
          split_ifs
          · exact .exceptBind (mark_request_as_sent_does ctx ⟨trivial,trivial⟩ _) fun _ => ih
          · simp

theorem upload_pending_backups_does : (upload_pending_backups ctx).run.Does Act.tending := by
  refine .exceptBind (by simp [Act.tending,Act.serving,Act.preparing]) fun enabled => ?_
  split_ifs
  · exact upload_backups_does ctx 100
  · simp

theorem send_all_does (requests : List OutgoingRequest) :
    (send_all ctx requests).run.Does Act.tending := by
  induction requests with
  | nil => simp [send_all]
  | cons request requests ih => exact .exceptBind (send_and_mark_does ctx request) fun _ => ih

theorem drain_does (fuel : Nat) : (drain ctx fuel).Does Act.tending := by
  induction fuel with
  | zero => simp [drain]
  | succ fuel ih =>
      refine .bind (by simp [Act.tending,Act.serving,Act.preparing]) fun queued => ?_
      split
      · simp
      · simp
      · refine .bind (send_all_does ctx _) fun sent => ?_
        cases sent with
        | error _ => simp
        | ok _ => exact ih

theorem pump_does (fuel : Nat) : (pump fuel ctx).Does Act.tending := by
  refine withLock_does ⟨trivial,trivial⟩ (.bind (drain_does ctx fuel) fun drained => ?_) ⟨trivial,trivial⟩
  split_ifs
  · exact .bind (upload_pending_backups_does ctx) fun _ => by simp
  · simp

theorem pump_quiet (fuel : Nat) : (pump fuel ctx).Does Act.quiet :=
  (pump_does ctx fuel).mono fun _ h => h.1.quiet

theorem send_keys_claim_does (id : String) (request : KeysClaimRequest) :
    (send_keys_claim ctx id request).run.Does Act.tending := by
  refine .exceptBind (by simp [Act.tending,Act.serving,Act.preparing]) fun answer => ?_
  dsimp only
  split_ifs
  · exact mark_request_as_sent_does ctx ⟨trivial,trivial⟩ _
  · simp

theorem send_to_device_does (request : ToDeviceRequest) :
    (send_to_device ctx request).run.Does Act.tending := by
  refine .exceptBind (by simp [Act.tending,Act.serving,Act.preparing]) fun answer => ?_
  dsimp only
  split_ifs
  · exact mark_request_as_sent_does ctx ⟨trivial,trivial⟩ _
  · simp

end

end EmentE2ee
