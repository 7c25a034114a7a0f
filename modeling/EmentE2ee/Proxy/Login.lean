import EmentE2ee.Crypto.LoginPlan
import EmentE2ee.Crypto.Media
import EmentE2ee.Session
import EmentE2ee.Wide

/-!
# Logging in

A login goes to the homeserver with the device that the proxy has chosen for it. The
session of a successful one is started at once; the client is answered whether or not
that works out.
-/
namespace EmentE2ee.Login

open Concurrent
open Json (Value)

inductive LoginAct where
  | planLogin (body : Bytes)
  /-- A POST of JSON, with no token. -/
  | post (path_and_query : String) (body : Payload)
  /-- Note, in a device's store directory, what the client asks for when it means it. -/
  | recordLogin (dir : String) (device_id : DeviceId) (requested : String)

abbrev LoginAct.Ans : LoginAct → Type
  | planLogin _ => LoginPlan
  | post .. => Except String Reply
  | recordLogin .. => Except String Unit

variable [Codec]

def loginAct (a : LoginAct) : WideM LoginAct.Ans a.Ans := further a

/-- Where a login got another device ID than the client asked for, note which one. -/
def note_device (config : Config) (login_response : Value) (requested : String) :
    WideM LoginAct.Ans Unit :=
  match ((login_response.get "user_id").bind Value.asStr).bind parseUserId,
      (login_response.get "device_id").bind Value.asStr with
  | some user_id,some device_id =>
      if device_id = requested then pure ()
      else do
        let dir := account_store_dir config.store_dir user_id device_id
        -- Where it cannot be noted, the next login gets a new device.
        let _ ← loginAct (.recordLogin dir device_id requested)
        pure ()
  | _,_ => pure ()

/-- A login up to the homeserver's answer, with the device ID that was asked for. -/
def forward_login (req : Request) :
    ExceptT Abort (WideM LoginAct.Ans) (Option String × Reply) := do
  let body_bytes ← ExceptT.mk (readBody "login body" (1024 * 1024) req).run.widen
  let plan ← ExceptT.lift (loginAct (.planLogin body_bytes))
  let reply ← ExceptT.mk (loginAct (.post req.path_and_query (plan.body.elim (.raw body_bytes) .json))
    >>= fun r => pure (r.mapError fun m => .error (.upstream m)))
  pure (plan.requested,reply)

/-- The body of a successful login's answer. -/
def loggedIn (reply : Reply) : Option Value :=
  if isSuccess reply.status then Codec.fromSlice reply.bytes else none

/-- What is made of the answer. -/
def finish_login (config : Config) (requested : Option String) (reply : Reply) :
    WideM LoginAct.Ans Response := do
  (match loggedIn reply with
    | some login_response => do
        requested.elim (pure ()) (note_device config login_response)
        -- A session that cannot be started now is tried again on the first sync.
        let _ ← (SessionManager.insert_from_login config login_response).run.widen
        pure ()
    | none => pure ())
  pure (raw_response reply.status (contentType reply.headers) (.raw reply.bytes))

def handle_login (config : Config) (req : Request) : ExceptT Abort (WideM LoginAct.Ans) Response := do
  let (requested,reply) ← forward_login req
  ExceptT.lift (finish_login config requested reply)

/-- Once the homeserver has answered, only the answer says whose login it is. -/
theorem handle_login_run (config : Config) (req : Request) : (handle_login config req).run =
    (forward_login req).run >>= fun
      | .ok (requested,reply) => finish_login config requested reply >>= fun resp => .ret (.ok resp)
      | .error e => .ret (.error e) := by
  unfold handle_login
  rw [ExceptT.run_bind]
  congr
  funext r
  cases r <;> rfl

end EmentE2ee.Login
