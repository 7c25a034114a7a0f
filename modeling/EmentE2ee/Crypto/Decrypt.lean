import EmentE2ee.Crypto.Machine
import EmentE2ee.Crypto.Media
import EmentE2ee.Crypto.Rooms

/-!
# Decrypting what is received

Each encrypted event is replaced by its plaintext, or by a readable placeholder
when there is no key for it. A placeholder in a room timeline promises that it
will update, so it is tracked for repair when it is made.
-/
namespace EmentE2ee

open Concurrent
open Json (Value)

variable [Codec]

/-- Whether a placeholder can later be replaced in the client. -/
inductive Placeholder where
  | repairable
  | final
  deriving DecidableEq, Repr

/-- What became of an attempt to decrypt one event. -/
inductive Decryption where
  | decrypted (event : Value)
  | undecryptable (reason : String) (session_id : Option String) (raw : Value)
  /-- Passed on as it came. -/
  | untouched

/-- The envelope's unsigned data under that of the decrypted event, and the
mark of the proxy over both. -/
def mergeUnsigned (event encryption_info : Value) (new_object : Json.Map) : Value :=
  match (Json.Map.lookup "unsigned" new_object).getD (.object []) with
  | .object new_unsigned =>
      let original := ((event.get "unsigned").bind Value.asObject).getD []
      let merged := original.foldl (fun m e => orInsert e.1 e.2 m) new_unsigned
      let marked := Json.Map.insert "ement_e2ee"
        (.object [("decrypted",.bool true),("encryption_info",encryption_info)]) merged
      .object (Json.Map.insert "unsigned" (.object marked) new_object)
  | _ => .object new_object

def isVerification (event : Value) : Bool :=
  let event_type := ((event.get "type").bind Value.asStr).getD ""
  (stripPrefix "m.key.verification." event_type).isSome ||
    (event_type = "m.room.message" &&
      (event.pointer ["content","msgtype"]).bind Value.asStr = some "m.key.verification.request")

/-- In-room verification events also go to the verification machine. -/
def maybe_feed_verification (ctx : AccountContext) (event : Value) : M Unit :=
  if isVerification event then
    match Codec.messageLikeEvent event with
    | some parsed => do
        let _ ← act (.olm ctx (.receiveVerificationEvent parsed))
        pure ()
    | none => pure ()
  else pure ()

def isEncrypted (event : Value) : Bool :=
  (event.get "type").bind Value.asStr = some "m.room.encrypted"

def decrypt (ctx : AccountContext) (room_id : RoomId) (event : Value) : M Decryption :=
  if isEncrypted event then
    match Codec.toRaw event with
    | none => pure .untouched
    | some raw => do
        let result ← act (.olm ctx (.tryDecryptRoomEvent raw room_id))
        match result with
        | .ok (.decrypted decrypted encryption_info) =>
            match Codec.fromRaw decrypted with
            | some (.object new_object) =>
                let new_event := mergeUnsigned event encryption_info new_object
                maybe_feed_verification ctx new_event
                let new_event ← harvest_and_rewrite_decrypted ctx new_event
                pure (.decrypted new_event)
            | _ => pure .untouched
        | .ok (.unableToDecrypt reason session_id) =>
            pure (.undecryptable reason session_id raw)
        | .error _ => pure .untouched
  else pure .untouched

def ofOption : Option String → Value
  | some s => .string s
  | none => .null

/-- Copy a key that is present. -/
def copyKey (src : Value) (m : Json.Map) (key : String) : Json.Map :=
  match src.get key with
  | some v => Json.Map.insert key v m
  | none => m

def utdText (reason : String) (repairable : Bool) : String :=
  "🔒 [undecryptable: " ++ reason ++ "]" ++
    (if repairable then " This message will update in place if its key arrives." else "")

/-- A readable message in place of an undecryptable event. -/
def utd_placeholder (original : Value) (reason : String) (session_id : Option String)
    (repairable : Bool) : Value :=
  let base : Json.Map :=
    [("content",.object [("body",.string (utdText reason repairable)),("msgtype",.string "m.text")]),
      ("type",.string "m.room.message")]
  let copied := ["event_id","sender","origin_server_ts","room_id"].foldl (copyKey original) base
  let unsigned := ((original.get "unsigned").bind Value.asObject).getD []
  let marked := Json.Map.insert "ement_e2ee"
    (.object [("session_id",ofOption session_id),("utd",.bool true)]) unsigned
  .object (Json.Map.insert "unsigned" (.object marked) copied)

/-- Ask for the missing room key, once per megolm session. -/
def maybe_request_room_key (ctx : AccountContext) (room_id : RoomId) (raw : Value) :
    Option String → M Unit
  | none => pure ()
  | some session_id => do
      let fresh ← act (.rooms ctx (.insertRequested session_id))
      if fresh then act (.spawn ctx (.requestRoomKey room_id raw session_id)) else pure ()

/-- The task that asks for a room key. -/
def request_room_key (ctx : AccountContext) (room_id : RoomId) (raw : Value)
    (session_id : String) : M Unit := do
  -- Without the pump lock a concurrent pump sends the request too.
  let result ← withLock (.pump ctx) (do
    let (cancellation,request) ← call (act (.olm ctx (.requestRoomKey raw room_id)))
    cancellation.elim (pure ()) (send_and_mark ctx)
    send_and_mark ctx request : Fallible Unit).run
  match result with
  | .ok () => pure ()
  | .error _ => act (.rooms ctx (.removeRequested session_id))

def decrypt_event (ctx : AccountContext) (room_id : RoomId) (placeholder : Placeholder)
    (event : Value) : M Value := do
  let outcome ← decrypt ctx room_id event
  match outcome with
  | .decrypted new_event => pure new_event
  | .undecryptable reason session_id raw =>
      maybe_request_room_key ctx room_id raw session_id
      match placeholder with
      | .repairable =>
          act (.repairs ctx (.track room_id event session_id))
          pure (utd_placeholder event reason session_id true)
      | .final => pure (utd_placeholder event reason session_id false)
  | .untouched => pure event

def decrypt_events (ctx : AccountContext) (room_id : RoomId) : List Value → M (List Value)
  | [] => pure []
  | event :: events => do
      let event ← decrypt_event ctx room_id .repairable event
      let events ← decrypt_events ctx room_id events
      pure (event :: events)

/-- Decrypt the events of an array, in place. -/
def decryptArray (ctx : AccountContext) (room_id : RoomId) : Value → M Value
  | .array events => do
      let events ← decrypt_events ctx room_id events
      pure (.array events)
  | v => pure v

def scanArray (ctx : AccountContext) (room_id : RoomId) (events : Option Value) : M Unit :=
  match events.bind Value.asArray with
  | some events => scan_state_events ctx room_id events
  | none => pure ()

def process_messages_body (ctx : AccountContext) (room_id : RoomId) (body : Value) : M Value := do
  scanArray ctx room_id (body.get "state")
  body.updateM "chunk" (decryptArray ctx room_id)

def process_context_body (ctx : AccountContext) (room_id : RoomId) (body : Value) : M Value := do
  scanArray ctx room_id (body.get "state")
  let body ← body.updateM "events_before" (decryptArray ctx room_id)
  let body ← body.updateM "events_after" (decryptArray ctx room_id)
  body.updateM "event" (decrypt_event ctx room_id .repairable)

def process_event_body (ctx : AccountContext) (room_id : RoomId) (body : Value) : M Value :=
  decrypt_event ctx room_id .repairable body

def process_notification (ctx : AccountContext) (notification : Value) : M Value :=
  match ((notification.get "room_id").bind Value.asStr).bind parseRoomId with
  | none => pure notification
  | some room_id => notification.updateM "event" (decrypt_event ctx room_id .final)

/-- Notifications span rooms, and a later edit would not find their entries. -/
def process_notifications_body (ctx : AccountContext) (body : Value) : M Value :=
  body.updateM "notifications" fun
    | .array ns => do
        let ns ← ns.mapM (process_notification ctx)
        pure (.array ns)
    | v => pure v

section
variable (ctx : AccountContext)

theorem maybe_feed_verification_does (event : Value) :
    (maybe_feed_verification ctx event).Does Act.decrypting := by
  unfold maybe_feed_verification
  split_ifs
  · split
    · exact .bind (by simp [Act.decrypting]) fun _ => by simp
    · simp
  · simp

theorem decrypt_does (room_id : RoomId) (event : Value) :
    (decrypt ctx room_id event).Does Act.decrypting := by
  unfold decrypt
  split_ifs
  · split
    · simp
    · refine .bind (by simp [Act.decrypting]) fun result => ?_
      split
      · split
        · exact .bind (maybe_feed_verification_does ctx _) fun _ =>
            .bind (harvest_does ctx _) fun _ => by simp
        · simp
      · simp
      · simp
  · simp

theorem decrypt_quiet (room_id : RoomId) (event : Value) :
    (decrypt ctx room_id event).Does Act.quiet := (decrypt_does ctx room_id event).mono
      fun _ h => h.quiet

theorem maybe_request_room_key_quiet (room_id : RoomId) (raw : Value) (session_id : Option String) :
    (maybe_request_room_key ctx room_id raw session_id).Does Act.quiet := by
  cases session_id with
  | none => simp [maybe_request_room_key]
  | some session_id =>
      refine .bind (by simp [Act.quiet]) fun fresh => ?_
      split_ifs <;> simp [Act.quiet]

theorem decrypt_event_mild (room_id : RoomId) (placeholder : Placeholder) (event : Value) :
    (decrypt_event ctx room_id placeholder event).Does Act.mild := by
  refine .bind ((decrypt_quiet ctx room_id event).mono fun _ h => h.mild) fun outcome => ?_
  cases outcome with
  | decrypted new_event => simp
  | untouched => simp
  | undecryptable reason session_id raw =>
      refine .bind ((maybe_request_room_key_quiet ctx ..).mono fun _ h => h.mild) fun _ => ?_
      cases placeholder <;> simp [Act.mild]

theorem decryptArray_mild (room_id : RoomId) (events : Value) :
    (decryptArray ctx room_id events).Does Act.mild := by
  unfold decryptArray
  split
  · next events =>
      refine .bind ?_ fun _ => by simp
      induction events with
      | nil => simp [decrypt_events]
      | cons event events ih =>
          exact .bind (decrypt_event_mild ctx ..) fun _ => .bind ih fun _ => by simp
  · simp

theorem scanArray_mild (room_id : RoomId) (events : Option Value) :
    (scanArray ctx room_id events).Does Act.mild := by
  unfold scanArray
  split
  · exact scan_state_events_mild ctx ..
  · simp

theorem process_messages_body_mild (room_id : RoomId) (body : Value) :
    (process_messages_body ctx room_id body).Does Act.mild :=
  .bind (scanArray_mild ctx ..) fun _ => updateM_does (decryptArray_mild ctx room_id) body

theorem process_context_body_mild (room_id : RoomId) (body : Value) :
    (process_context_body ctx room_id body).Does Act.mild :=
  .bind (scanArray_mild ctx ..) fun _ =>
    .bind (updateM_does (decryptArray_mild ctx room_id) body) fun body =>
      .bind (updateM_does (decryptArray_mild ctx room_id) body) fun body =>
        updateM_does (decrypt_event_mild ctx room_id .repairable) body

theorem process_notifications_body_mild (body : Value) :
    (process_notifications_body ctx body).Does Act.mild := by
  refine updateM_does (fun v => ?_) body
  split
  · next ns =>
      refine .bind ?_ fun _ => by simp
      induction ns with
      | nil => trivial
      | cons n ns ih =>
          rw [List.mapM_cons]
          refine .bind ?_ fun _ => .bind ih fun _ => by simp
          unfold process_notification
          split
          · simp
          · exact updateM_does (decrypt_event_mild ctx _ .final) n
  · simp

end

end EmentE2ee
