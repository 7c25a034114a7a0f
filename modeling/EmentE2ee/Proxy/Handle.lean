import EmentE2ee.Crypto.Encrypt
import EmentE2ee.Crypto.Sync
import EmentE2ee.Proxy.Routes
import EmentE2ee.Session

/-!
# Handling a request

Intercepted requests need the context of their token. A session that cannot be
set up falls back to passing the request through, unless it is held back over
its device's keys.
-/
namespace EmentE2ee

open Concurrent
open Json (Value)

variable [Codec]

/-- The client's access token, from its header or the legacy parameter. -/
def bearer_token (req : Request) : Option String :=
  match ((req.headers.find? fun h => h.1 = "authorization").map Prod.snd).bind
      (stripPrefix "Bearer ") with
  | some token => some token
  | none => req.query.bind fun q =>
      (q.toList.splitOn '&').findSome? fun kv => stripPrefix "access_token=" (String.ofList kv)

def context_for (config : Config) (token : Option String) : ProxyM (Option AccountContext) :=
  match token with
  | none => pure none
  | some token => do
      let started ← ExceptT.lift (SessionManager.get_or_init config token).run
      match started with
      | .ok ctx => pure (some ctx)
      | .error error =>
          match error.asConflict,error.asUnchecked with
          | some conflict,_ => refuse (.deviceConflict conflict)
          | none,some unchecked => refuse (.deviceUnchecked unchecked)
          -- Could not initialize the session; passing through.
          | none,none => pure none

/-- Forward a request for events and decrypt those of the answer. -/
def handle_history_get (ctx : AccountContext) (req : Request) (route : Route) : ProxyM Response := do
  let reply ← fromUpstream (act (.fetch ctx.token req.path_and_query))
  if isSuccess reply.status then
    match Codec.fromSlice reply.bytes with
    | none => refuse (.internal (.text "upstream response is not valid JSON"))
    | some body =>
        let body ← ExceptT.lift (match route with
          | .notifications => process_notifications_body ctx body
          | .messages room_id =>
              (parseRoomId room_id).elim (pure body) fun r => process_messages_body ctx r body
          | .context room_id =>
              (parseRoomId room_id).elim (pure body) fun r => process_context_body ctx r body
          | .roomEvent room_id =>
              (parseRoomId room_id).elim (pure body) fun r => process_event_body ctx r body
          | _ => pure body)
        pure (raw_response 200 (contentType reply.headers) (.json body))
  else pure (raw_response reply.status (contentType reply.headers) (.raw reply.bytes))

/-- The handlers of the routes that are not about a session's events. -/
structure Handlers where
  admin : String → Request → ProxyM Response
  login : Request → ProxyM Response

/-- An intercepted request, passed through without a context. -/
def with_context (config : Config) (req : Request)
    (intercept : AccountContext → ProxyM Response) : ProxyM Response := do
  let ctx ← context_for config (bearer_token req)
  match ctx with
  | some ctx => intercept ctx
  | none => passthrough req

def handle (h : Handlers) (fuel : Nat) (config : Config) (req : Request) : ProxyM Response :=
  match classify req.method req.path with
  | .admin sub => h.admin sub req
  | .login => h.login req
  | .sync => with_context config req fun ctx => handle_sync ctx req
  | .messages room_id =>
      with_context config req fun ctx => handle_history_get ctx req (.messages room_id)
  | .context room_id =>
      with_context config req fun ctx => handle_history_get ctx req (.context room_id)
  | .roomEvent room_id =>
      with_context config req fun ctx => handle_history_get ctx req (.roomEvent room_id)
  | .notifications => with_context config req fun ctx => handle_history_get ctx req .notifications
  | .send room_id event_type txn_id =>
      with_context config req fun ctx => handle_send fuel ctx req room_id event_type txn_id
  | .mediaUpload => with_context config req fun ctx => handle_upload ctx req
  | .mediaDownload server media_id true =>
      with_context config req fun ctx => handle_download ctx server media_id
  | .mediaDownload server media_id false => do
      -- The legacy path carries no token; any active session will do.
      let sessions ← ExceptT.lift (act (.sessions .list))
      match sessions with
      | ctx :: _ => handle_download ctx server media_id
      | [] => passthrough req
  | .passthrough => passthrough req

end EmentE2ee
