import EmentE2ee.Action

/-!
# One device ID, one set of identity keys

Which identity key the homeserver publishes for a device, and how a store's
device keys are published again once the homeserver has lost them.
-/
namespace EmentE2ee

open Concurrent
open Json (Value)

variable [Codec]

/-- Directory-safe encoding of an ID. -/
def sanitize_for_path (id : String) : String :=
  String.ofList (id.toList.map fun c =>
    if (c.toNat < 128 && c.isAlphanum) || ['.','-','_','@',':','=','+'].contains c then c else '_')

/-- Per-account on-disk state directory. -/
def account_store_dir (store_dir : String) (user_id : UserId) (device_id : DeviceId) : String :=
  store_dir ++ "/" ++ sanitize_for_path user_id ++ "/" ++ sanitize_for_path device_id

/-- Open, or create, the store of a device and the machine over it. -/
def open_machine (store_dir : String) (user_id : UserId) (device_id : DeviceId) :
    Fallible OlmMachine := do
  let dir := account_store_dir store_dir user_id device_id
  withContext ("failed to open crypto store at " ++ dir) (call (act (.openStore dir)))
  withContext "failed to build OlmMachine" (call (act (.withStore user_id device_id dir)))

/-- The ed25519 key of a device in the keys of a device object. -/
def deviceKey (device_id : DeviceId) (device : Value) : Option String :=
  ((device.get "keys").bind (Value.get ("ed25519:" ++ device_id))).bind Value.asStr

/-- The key a `keys/query` answer names for a device. -/
def queriedKey (user_id : UserId) (device_id : DeviceId) (response : Value) : Option String :=
  (((response.get "device_keys").bind (Value.get user_id)).bind (Value.get device_id)).bind
    (deviceKey device_id)

/-- The ed25519 identity key the homeserver publishes for a device, if any. -/
def published_identity (token : String) (user_id : UserId) (device_id : DeviceId) :
    Fallible (Option String) := do
  let body : Value := .object [("device_keys",.object [(user_id,.array [.string device_id])])]
  let (status,response) ←
    withContext "keys/query failed" (json_request token .keysQuery (some body))
  if isSuccess status then pure (queriedKey user_id device_id response)
  else fail ("keys/query answered " ++ Codec.statusText status)

/-- Publish this store's device keys again. -/
def republish (ctx : AccountContext) : Fallible Unit := do
  let device ← call (act (.olm ctx .getDevice))
  match device with
  | none => fail "this device is missing from its own store"
  | some keys =>
      let (status,response) ←
        json_request ctx.token .keysUpload (some (.object [("device_keys",keys)]))
      if isSuccess status then pure ()
      else fail (report "keys/upload answered" status response)

end EmentE2ee
