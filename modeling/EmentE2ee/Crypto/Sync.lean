import EmentE2ee.Crypto.Repair
import EmentE2ee.Proxy.Passthrough

/-!
# Answering a sync

The crypto-relevant sections of the homeserver's answer go to the machine before
the answer, and thus its `next_batch`, goes back to the client. Events already
remembered are left out, and the marks of a batch are taken back when it fails.
-/
namespace EmentE2ee

open Concurrent
open Json (Value)

variable [Codec]

/-- An optional field of the body, converted. -/
def field {α : Type} (value : Option Value) (convert : Value → Option α) (message : String) :
    Fallible (Option α) :=
  match value with
  | none => pure none
  | some v =>
      match convert v with
      | some x => pure (some x)
      | none => fail message

/-- The counts, with the zero of an unlisted algorithm written out. -/
def withZeroCount (counts : List (String × Nat)) : List (String × Nat) :=
  if counts.any fun c => c.1 = "signed_curve25519" then counts
  else counts ++ [("signed_curve25519",0)]

/-- What the machine is told about a sync. -/
def sync_changes (body : Value) (to_device_events : List Value) : Fallible EncryptionSyncChanges := do
  let changed_devices ← field (body.get "device_lists") Codec.deviceLists
    "invalid device_lists in sync response"
  let counts ← field (body.get "device_one_time_keys_count") Codec.oneTimeKeyCounts
    "invalid device_one_time_keys_count in sync response"
  let unused_fallback_keys ← field ((body.get "device_unused_fallback_key_types").or
      (body.get "org.matrix.msc2732.device_unused_fallback_key_types")) Codec.fallbackKeyTypes
    "invalid device_unused_fallback_key_types in sync response"
  pure
    { to_device_events := to_device_events
      changed_devices := changed_devices.getD .null
      -- Where the whole field is missing the counts stay as they are.
      one_time_keys_counts := counts.elim [] withZeroCount
      unused_fallback_keys := unused_fallback_keys
      next_batch_token := (body.get "next_batch").bind Value.asStr }

/-- The number of room keys received. -/
def process_sync_changes (ctx : AccountContext) (body : Value) (to_device_events : List Value) :
    Fallible Nat := do
  let changes ← sync_changes body to_device_events
  let room_key_infos ← withContext "receive_sync_changes failed"
    (call (act (.olm ctx (.receiveSyncChanges changes))))
  step (.repairs ctx (.noteRoomKeys room_key_infos))
  -- The SDK forgets finished verification flows on the next sync.
  step (.recordFinished ctx)
  pure room_key_infos.length

/-- The incoming to-device events of a sync body. -/
def incoming (body : Value) : List Value :=
  ((body.pointer ["to_device","events"]).bind Value.asArray).getD []

def receive_sync_changes (ctx : AccountContext) (body : Value) : M (Except Error Unit) :=
  withLock (.seen ctx) do
    let marked ← act (.seen ctx (.mark (incoming body)))
    match marked with
    | .error e => pure (.error e)
    | .ok batch =>
        let result ← (process_sync_changes ctx body batch.to_device_events).run
        match result with
        | .ok room_keys =>
            let now ← act .now
            act (.stats ctx now batch.new_keys.length batch.duplicates room_keys)
            pure (.ok ())
        | .error e =>
            -- Nothing was processed: a later delivery of these events is no repeat.
            act (.seen ctx (.forgetAll batch.new_keys))
            pure (.error e)

def is_unknown_token (status : Nat) (bytes : Bytes) : Bool :=
  status = 401 &&
    ((Codec.fromSlice bytes).bind (Value.get "errcode")).bind Value.asStr = some "M_UNKNOWN_TOKEN"

/-- Nothing but repairs: the client's own position is handed back. -/
def repair_only_response (ctx : AccountContext) (since : String) : ProxyM Response := do
  let (_,body) ← orPanic (inject ctx (.object [("next_batch",.string since)]))
  pure (raw_response 200 (some "application/json") (.json body))

/-- The rest of a sync, once the homeserver has answered. -/
def finish_sync (ctx : AccountContext) (reply : Reply) : ProxyM Response :=
  if isSuccess reply.status then
    match Codec.fromSlice reply.bytes with
    | none => refuse (.internal (.text "sync response is not valid JSON"))
    | some body => do
        internally (attempt (receive_sync_changes ctx body))
        -- After the above, so that keys from this very sync are usable.
        let body ← orPanic (process_sync_body ctx body)
        ExceptT.lift (act (.spawn ctx .pump))
        pure (raw_response 200 (contentType reply.headers) (.json body))
  else do
    -- A dead token means the context is stale.
    (if is_unknown_token reply.status reply.bytes then
      ExceptT.lift (act (.sessions (.remove ctx.token)))
    else pure ())
    pure (raw_response reply.status (contentType reply.headers) (.raw reply.bytes))

def handle_sync (ctx : AccountContext) (req : Request) : ProxyM Response :=
  match query_param (req.query.getD "") "since" with
  | none => do
      let reply ← fromUpstream (act (.fetch ctx.token req.path_and_query))
      finish_sync ctx reply
  | some since => do
      let ready ← ExceptT.lift (act (.repairs ctx .hasReady))
      if ready then repair_only_response ctx since
      else
        -- An incremental sync is answered at once if a repair becomes possible.
        let answer ← ExceptT.lift (act (.poll ctx req.path_and_query))
        match answer with
        | none => repair_only_response ctx since
        | some reply =>
            let reply ← fromUpstream (pure reply)
            finish_sync ctx reply

end EmentE2ee
