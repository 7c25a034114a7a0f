import EmentE2ee.Action

/-!
# Passing a request through

The request reaches the homeserver as the client sent it, less the headers of
the connection itself, and so does the answer on its way back.
-/
namespace EmentE2ee

open Concurrent

variable [Codec]

def HOP_BY_HOP : List String :=
  ["connection","proxy-authenticate","proxy-authorization","te","trailer","transfer-encoding",
    "upgrade"]

def is_hop_by_hop (name : String) : Bool :=
  HOP_BY_HOP.contains name || name = "keep-alive" || name = "proxy-connection"

def copy_headers (src : Headers) : Headers :=
  src.filter fun h => !is_hop_by_hop h.1 && h.1 ≠ "host"

def forwarded (req : Request) : Request := { req with headers := copy_headers req.headers }

def passthrough (req : Request) : ProxyM Response := do
  let reply ← fromUpstream (act (.passthrough (forwarded req)))
  pure ⟨reply.status,copy_headers reply.headers,.raw reply.bytes⟩

theorem passthrough_does {P : Act → Prop} {req : Request} :
    (passthrough req).run.Does P ↔ P (.passthrough (forwarded req)) := by
  rw [passthrough,ExceptT.run_bind,run_fromUpstream,Prog.bind_assoc]
  refine ⟨fun h => h.1,fun h => ⟨h,fun r => ?_⟩⟩
  cases r <;> exact Prog.does_ret _

end EmentE2ee
