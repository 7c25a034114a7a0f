import EmentE2ee.Http

/-!
# Errors

Errors carry their texts. Two kinds are told apart when a session cannot be
set up: the homeserver holds other keys for the device than its store does, or
it did not say whether it holds any.
-/
namespace EmentE2ee

open Json (Value)

structure DeviceConflict where
  user_id : UserId
  device_id : DeviceId
  /-- The store holding other keys, if the device has one here. -/
  store : Option String
  deriving DecidableEq, Repr

namespace DeviceConflict

def detail (c : DeviceConflict) : String :=
  match c.store with
  | none =>
      "the homeserver has encryption keys for device " ++ c.device_id ++ " of " ++ c.user_id ++
        " that this proxy does not hold (its store was deleted, or another program set the " ++
        "device up)"
  | some store =>
      "the homeserver publishes other encryption keys for device " ++ c.device_id ++ " of " ++
        c.user_id ++ " than the store in " ++ store ++ " holds"

def again : String := "log in again to continue as a new device (in ement: C-u M-x ement-connect)"

def hint (c : DeviceConflict) : String :=
  match c.store with
  | none => "a device's keys cannot be replaced: " ++ again
  | some store =>
      "a device's keys cannot be replaced: move " ++ store ++ " away and " ++ again

def display (c : DeviceConflict) : String := c.detail ++ "; " ++ c.hint

end DeviceConflict

structure DeviceUnchecked where
  device_id : DeviceId
  reason : String
  deriving DecidableEq, Repr

def DeviceUnchecked.display (u : DeviceUnchecked) : String :=
  "could not find out whether device " ++ u.device_id ++ " already has encryption keys, so none " ++
    "were published for it yet: " ++ u.reason

/-- An error on its way up, with the contexts added to it. -/
inductive Error where
  | text (message : String)
  | context (message : String) (source : Error)
  | conflict (c : DeviceConflict)
  | unchecked (u : DeviceUnchecked)
  deriving DecidableEq, Repr

namespace Error

def display : Error → String
  | text m => m
  | context m _ => m
  | conflict c => c.display
  | unchecked u => u.display

/-- The error with all it was caused by. -/
def displayChain : Error → String
  | context m e => m ++ ": " ++ e.displayChain
  | e => e.display

def asConflict : Error → Option DeviceConflict
  | conflict c => some c
  | context _ e => e.asConflict
  | _ => none

def asUnchecked : Error → Option DeviceUnchecked
  | unchecked u => some u
  | context _ e => e.asUnchecked
  | _ => none

/-- One of the two kinds that hold a session back over its device's keys. -/
def aboutDevice (e : Error) : Bool := e.asConflict.isSome || e.asUnchecked.isSome

end Error

/-- Errors surfaced to the client. -/
inductive ProxyError where
  | upstream (message : String)
  | internal (e : Error)
  | badRequest (message : String)
  | deviceConflict (c : DeviceConflict)
  | deviceUnchecked (u : DeviceUnchecked)
  deriving DecidableEq, Repr

namespace ProxyError

def display : ProxyError → String
  | upstream m => "upstream request failed: " ++ m
  | internal e => e.display
  | badRequest m => m
  | deviceConflict c => c.display
  | deviceUnchecked u => u.display

def status : ProxyError → Nat
  | upstream _ => 502
  | internal _ => 500
  | badRequest _ => 400
  | deviceConflict _ => 409
  | deviceUnchecked _ => 502

def into_response (e : ProxyError) : Response where
  status := e.status
  headers := [("content-type","application/json")]
  body := .json (.object [("errcode",.string "M_UNKNOWN"),
    ("error",.string ("ement-e2ee: " ++ e.display))])

/-- No failure of the proxy passes for a success. -/
theorem into_response_fails (e : ProxyError) : isSuccess e.into_response.status = false := by
  cases e <;> rfl

end ProxyError

/-- How a handler ends without an answer of its own. -/
inductive Abort where
  | error (e : ProxyError)
  | panic
  deriving DecidableEq, Repr

end EmentE2ee
