import EmentE2ee.Crypto.Machine

/-!
# Keys that the user imports

From an exported file, or from the backup at the end of a bootstrap. Either way
placeholders that the client is showing may be decryptable afterwards.
-/
namespace EmentE2ee

open Concurrent
open Json (Value)

variable [Codec]

/-- The import of a file's room keys, once it is decrypted. -/
def keys_import (ctx : AccountContext) (session_ids : List String) : ProxyM Response := do
  let (imported_count,total_count) ←
    internally (call (act (.olm ctx (.importRoomKeys session_ids))))
  ExceptT.lift (act (.repairs ctx .noteBulkImport))
  pure (raw_response 200 (some "application/json") (.json (.object
    [("imported",.number (.posInt imported_count)),("total",.number (.posInt total_count))])))

/-- The end of a bootstrap, once the backup's room keys are decrypted. -/
def bootstrap_end (fuel : Nat) (ctx : AccountContext) (session_ids : List String) :
    Fallible (Nat × Nat) := do
  let result ← withContext "importing room keys failed"
    (call (act (.olm ctx (.importRoomKeys session_ids))))
  ExceptT.lift (pump fuel ctx)
  step (.repairs ctx .noteBulkImport)
  pure result

end EmentE2ee
