import EmentE2ee.Crypto.Device
import EmentE2ee.Crypto.Machine

/-!
# Sessions

The contexts of logged-in devices by access token. A context is made by a login
through the proxy, or on the first request with an unknown token; either way the
keys the homeserver has for the device are asked for first.
-/
namespace EmentE2ee

open Concurrent
open Json (Value)

variable [Codec]

/-- The `config` entries that matter to a session. -/
structure Config where
  store_dir : String
  deriving DecidableEq, Repr

namespace SessionManager

/-- Turn a session away, and remember the conflict. -/
def refuse_session {α : Type} (conflict : DeviceConflict) : Fallible α := do
  step (.sessions (.refuse conflict))
  throw (.conflict conflict)

/-- A store about to be made brings new keys, which only a device that has none
may be given. -/
def check_new_device (user_id : UserId) (device_id : DeviceId) :
    Except Error (Option String) → Fallible Unit
  | .ok none => pure ()
  | .ok (some _) => refuse_session ⟨user_id,device_id,none⟩
  | .error e => throw (.unchecked ⟨device_id,e.displayChain⟩)

/-- Whether the keys of an existing store have to be published again. -/
def check_store (user_id : UserId) (device_id : DeviceId) (store_dir : String) (olm : OlmMachine) :
    Except Error (Option String) → Fallible Bool
  | .ok (some key) =>
      if key = olm.ed25519 then pure false else refuse_session ⟨user_id,device_id,some store_dir⟩
  | .ok none => pure true
  -- A store's keys are published once, and only anew where known to be missing.
  | .error _ => pure false

/-- What `insert` does under the write lock. -/
def insert_locked (config : Config) (token : String) (user_id : UserId) (device_id : DeviceId)
    (published : Except Error (Option String)) : Fallible (AccountContext × Option Bool) := do
  -- Two concurrent requests may race here.
  let present ← step (.sessions (.get token))
  match present with
  | some ctx => pure (ctx,none)
  | none =>
      let store_dir := account_store_dir config.store_dir user_id device_id
      let has_store ← step (.hasStore store_dir)
      (if has_store then pure () else check_new_device user_id device_id published)
      let olm ← open_machine config.store_dir user_id device_id
      let republish ← (if has_store then check_store user_id device_id store_dir olm published
        else pure false)
      call (act (.openMedia (store_dir ++ "/media.sqlite")))
      let ctx : AccountContext := ⟨user_id,device_id,token,olm⟩
      step (.sessions (.insert token ctx))
      pure (ctx,some republish)

def insert (config : Config) (token user_id device_id : String) : Fallible AccountContext :=
  match parseUserId user_id with
  | none => fail "invalid user_id"
  | some user_id => do
      -- Asked before taking the lock: it is a request to the homeserver.
      let published ← ExceptT.lift (published_identity token user_id device_id).run
      let (ctx,republish) ← attempt (withLock .sessions
        (insert_locked config token user_id device_id published).run)
      match republish with
      | none => pure ctx
      | some republish =>
          step (.sessions (.settle ctx.user_id))
          step (.spawn ctx .periodicPump)
          step (.spawn ctx (.sessionStart republish))
          pure ctx

/-- The context of a token, asking the homeserver whose it is if need be. -/
def get_or_init (config : Config) (token : String) : Fallible AccountContext := do
  let present ← step (.sessions (.get token))
  match present with
  | some ctx => pure ctx
  | none =>
      let (status,body) ← json_request token .whoami none
      if isSuccess status then
        match (body.get "user_id").bind Value.asStr,(body.get "device_id").bind Value.asStr with
        | none,_ => fail "whoami response missing user_id"
        | some _,none =>
            fail "whoami response missing device_id (appservice tokens are unsupported)"
        | some user_id,some device_id => insert config token user_id device_id
      else fail (report "whoami failed with" status body)

/-- A context from a successful login's answer. -/
def insert_from_login (config : Config) (login_response : Value) : Fallible AccountContext :=
  match (login_response.get "access_token").bind Value.asStr,
      (login_response.get "user_id").bind Value.asStr,
      (login_response.get "device_id").bind Value.asStr with
  | none,_,_ => fail "login response missing access_token"
  | some _,none,_ => fail "login response missing user_id"
  | some _,some _,none => fail "login response missing device_id"
  | some token,some user_id,some device_id => insert config token user_id device_id

end SessionManager

/-- The task started with a new session: its keys show up on the homeserver
without waiting for the first sync. -/
def session_start (fuel : Nat) (ctx : AccountContext) (again : Bool) : M Unit := do
  if again then
    let _ ← (republish ctx).run
    pure ()
  else pure ()
  pump fuel ctx

/-- What starting a session takes. -/
def Act.starting : Act → Prop
  | .sessions _ | .lock .sessions | .unlock .sessions => True
  | .request _ .whoami _ | .request _ .keysQuery _ => True
  | .hasStore _ | .openStore _ | .withStore .. | .openMedia _ | .spawn .. => True
  | _ => False

namespace SessionManager

theorem refuse_session_starting {α : Type} (conflict : DeviceConflict) :
    (refuse_session conflict : Fallible α).run.Does Act.starting :=
  .exceptBind (by simp [Act.starting]) fun _ => trivial

theorem check_new_device_starting (user_id : UserId) (device_id : DeviceId)
    (published : Except Error (Option String)) :
    (check_new_device user_id device_id published).run.Does Act.starting := by
  unfold check_new_device
  split
  · simp
  · exact refuse_session_starting _
  · trivial

theorem check_store_starting (user_id : UserId) (device_id : DeviceId) (store_dir : String)
    (olm : OlmMachine) (published : Except Error (Option String)) :
    (check_store user_id device_id store_dir olm published).run.Does Act.starting := by
  unfold check_store
  split
  · split_ifs
    · simp
    · exact refuse_session_starting _
  · simp
  · simp

theorem insert_locked_starting (config : Config) (token : String) (user_id : UserId)
    (device_id : DeviceId) (published : Except Error (Option String)) :
    (insert_locked config token user_id device_id published).run.Does Act.starting := by
  refine .exceptBind (by simp [Act.starting]) fun present => ?_
  cases present with
  | some ctx => simp
  | none =>
      refine .exceptBind (by simp [Act.starting]) fun has_store => ?_
      refine .exceptBind ?_ fun _ => .exceptBind ?_ fun olm => .exceptBind ?_ fun republish => ?_
      · split_ifs
        · simp
        · exact check_new_device_starting ..
      · exact .exceptBind (by simp [Act.starting]) fun _ => by simp [Act.starting]
      · split_ifs
        · exact check_store_starting ..
        · simp
      · exact .exceptBind (by simp [Act.starting]) fun _ =>
          .exceptBind (by simp [Act.starting]) fun _ => by simp

theorem insert_starting (config : Config) (token user_id device_id : String) :
    (insert config token user_id device_id).run.Does Act.starting := by
  unfold insert
  split
  · simp
  · refine .exceptBind ?_ fun published => ?_
    · rw [lift_does]
      refine .exceptBind (by simp [Act.starting]) fun answer => ?_
      dsimp only
      split_ifs <;> simp
    refine .exceptBind ?_ fun r => ?_
    · exact withLock_does trivial (insert_locked_starting ..) trivial
    · obtain ⟨ctx,republish⟩ := r
      cases republish with
      | none => simp
      | some republish => simp [Act.starting]

theorem get_or_init_starting (config : Config) (token : String) :
    (get_or_init config token).run.Does Act.starting := by
  refine .exceptBind (by simp [Act.starting]) fun present => ?_
  cases present with
  | some ctx => simp
  | none =>
      refine .exceptBind (by simp [Act.starting]) fun answer => ?_
      dsimp only
      split_ifs
      · split
        · simp
        · simp
        · exact insert_starting ..
      · simp

end SessionManager

end EmentE2ee
