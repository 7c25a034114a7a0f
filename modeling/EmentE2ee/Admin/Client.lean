import EmentE2ee.Error

/-!
# What ctl sends

Requests to the admin API name the session and the other user of a verification
in the query of a GET and in the body of a POST, and the flow in the path.
-/
namespace EmentE2ee.Ctl

open Json (Value)

structure VerifyCommon where
  user_id : Option String
  with_user : Option String
  deriving DecidableEq, Repr

def insertSome (key : String) (value : Option String) (m : Json.Map) : Json.Map :=
  match value with
  | some value => Json.Map.insert key (.string value) m
  | none => m

def common_body (common : VerifyCommon) : Json.Map :=
  insertSome "with_user" common.with_user (insertSome "user_id" common.user_id [])

/-- Parameters as they are, with nothing escaped. -/
def queryOf (parts : List String) : String :=
  if parts.isEmpty then "" else "?" ++ "&".intercalate parts

def common_query (common : VerifyCommon) : String :=
  queryOf ((common.user_id.toList.map fun user_id => "user_id=" ++ user_id) ++
    common.with_user.toList.map fun with_user => "with_user=" ++ with_user)

/-- Nanoseconds. -/
abbrev Duration := Nat

structure Options where
  /-- Start a verification with this device; none waits for a request. -/
  device : Option String
  user_id : Option String
  with_user : Option String
  timeout : Duration
  poll : Duration
  deriving DecidableEq, Repr

namespace Options

def params (o : Options) : Json.Map := common_body ⟨o.user_id,o.with_user⟩

def query (o : Options) : String :=
  queryOf ([("user_id",o.user_id),("with_user",o.with_user)].filterMap fun p =>
    p.2.map fun value => p.1 ++ "=" ++ value)

end Options

/-- The path of an action on a flow. -/
def flowPath (flow_id action : String) : String := "verify/" ++ flow_id ++ "/" ++ action

end EmentE2ee.Ctl
