import EmentE2ee.Crypto.Machine
import EmentE2ee.Crypto.Media
import EmentE2ee.Crypto.Rooms
import EmentE2ee.Proxy.Passthrough

/-!
# Encrypting what is sent

A client's event, or a message of an in-room verification, goes out encrypted
where the room is. Whether it is has to be known before anything is forwarded.
-/
namespace EmentE2ee

open Concurrent
open Json (Value)

variable [Codec]

/-- From the room's persisted settings and history visibility. -/
def encryption_settings (ctx : AccountContext) (room_id : RoomId) : Fallible EncryptionSettings := do
  let settings ← call (act (.olm ctx (.roomSettings room_id)))
  let room_settings := settings.getD ⟨"m.megolm.v1.aes-sha2",false,none,none⟩
  let visibility ← ExceptT.lift (history_visibility_or_fetch ctx room_id)
  pure
    { algorithm := room_settings.algorithm
      history_visibility := visibility
      rotation_period := room_settings.session_rotation_period
      rotation_period_msgs := room_settings.session_rotation_period_messages }

def send_shares (ctx : AccountContext) : List ToDeviceRequest → Fallible Unit
  | [] => pure ()
  | request :: requests => do
      withContext "sending room key share failed" (send_to_device ctx request)
      send_shares ctx requests

/-- Claim one-time keys, share the room key, then encrypt the content. -/
def claim_share_encrypt (fuel : Nat) (ctx : AccountContext) (room_id : RoomId)
    (event_type : String) (content : Value) (members : List UserId) : Fallible Value := do
  withContext "update_tracked_users failed"
    (call (act (.olm ctx (.updateTrackedUsers members))))
  -- The key queries this has produced are flushed before sessions are claimed.
  ExceptT.lift (pump fuel ctx)
  let missing ← withContext "get_missing_sessions failed"
    (call (act (.olm ctx (.getMissingSessions members))))
  missing.elim (pure ()) fun m =>
    withContext "keys/claim for missing sessions failed" (send_keys_claim ctx m.1 m.2)
  let settings ← encryption_settings ctx room_id
  let to_device_requests ← withContext "share_room_key failed"
    (call (act (.olm ctx (.shareRoomKey room_id members settings))))
  send_shares ctx to_device_requests
  match Codec.toRaw content with
  | none => fail "invalid event content"
  | some raw_content =>
      let encrypted ← withContext "encrypt_room_event_raw failed"
        (call (act (.olm ctx (.encryptRoomEventRaw room_id event_type raw_content))))
      match Codec.fromRaw encrypted with
      | none => fail "encrypted content is not valid JSON"
      | some value => pure value

def encrypt_content (fuel : Nat) (ctx : AccountContext) (room_id : RoomId) (event_type : String)
    (content : Value) : Fallible Value := do
  let members ← joined_members ctx room_id
  -- Concurrent sends must not race on session establishment.
  attempt (withLock (.share ctx)
    (claim_share_encrypt fuel ctx room_id event_type content members).run)

/-- Send a message of an in-room verification, and feed the answer back. -/
def send_room_message_request (fuel : Nat) (ctx : AccountContext) (request : RoomMessageRequest) :
    Fallible Unit := do
  let encrypted ← is_room_encrypted ctx request.room_id
  let (wire_type,wire_content) ←
    if encrypted then do
      let content ← encrypt_content fuel ctx request.room_id request.event_type request.content
      pure ("m.room.encrypted",content)
    else pure (request.event_type,request.content)
  let (status,response_body) ←
    json_request ctx.token (.sendEvent request.room_id wire_type request.txn_id) (some wire_content)
  if isSuccess status then mark_request_as_sent ctx request.txn_id .roomMessage response_body
  else fail (report "in-room verification send failed" status response_body)

inductive OutgoingVerificationRequest where
  | toDevice (r : ToDeviceRequest)
  | inRoom (r : RoomMessageRequest)

def send_verification_request (fuel : Nat) (ctx : AccountContext) :
    OutgoingVerificationRequest → Fallible Unit
  | .toDevice r => send_to_device ctx r
  | .inRoom r => send_room_message_request fuel ctx r

/-- Intercept a client's send: encrypted where the room is, else as it came. -/
def handle_send (fuel : Nat) (ctx : AccountContext) (req : Request)
    (room_id event_type txn_id : String) : ProxyM Response :=
  match parseRoomId room_id with
  | none => passthrough req
  | some room_id =>
      -- Never encrypt twice.
      if event_type = "m.room.encrypted" then passthrough req
      else do
        -- Fail closed: plaintext could leak into an encrypted room.
        let encrypted ← internally
          (withContext "could not determine room encryption state" (is_room_encrypted ctx room_id))
        let body_bytes ← readBody "send body" (4 * 1024 * 1024) req
        match Codec.fromSlice body_bytes with
        | none => refuse (.badRequest "send body is not JSON")
        | some content =>
            let (endpoint,wire_content) ←
              if encrypted then do
                let content ← ExceptT.lift (rewrite_content_for_encrypted_room ctx content)
                let encrypted_content ← internally (withContext "failed to encrypt event"
                  (encrypt_content fuel ctx room_id event_type content))
                -- The client's transaction ID stays.
                pure (Endpoint.sendEvent room_id "m.room.encrypted" txn_id,encrypted_content)
              else do
                let content ← internally (withContext "media fix-up for unencrypted room failed"
                  (reupload_plaintext_if_needed ctx content))
                pure (Endpoint.original req.path_and_query,content)
            let (status,response_body) ← internally (withContext "failed to forward send"
              (json_request ctx.token endpoint (some wire_content)))
            pure (raw_response status (some "application/json") (.json response_body))

/-- The same as serving the machine, but that the room's key is shared with the members. -/
def Act.sharing (room_id : RoomId) (members : List UserId) : Act → Prop
  | .olm _ (.shareRoomKey r users _) => r = room_id ∧ users = members
  | a => a.serving

omit [Codec] in
theorem Act.serving.sharing {a : Act} (h : a.serving) (room_id : RoomId) (members : List UserId) :
    a.sharing room_id members := by
  unfold Act.sharing
  split
  · exact h.elim
  · exact h

omit [Codec] in
theorem Act.sharing.quiet {a : Act} {room_id : RoomId} {members : List UserId}
    (h : a.sharing room_id members) : a.quiet := by
  unfold Act.sharing at h
  split at h
  · trivial
  · exact h.quiet

section
variable (ctx : AccountContext)

theorem encryption_settings_does (room_id : RoomId) :
    (encryption_settings ctx room_id).run.Does Act.tending := by
  refine .exceptBind (by simp [Act.tending,Act.serving,Act.preparing]) fun settings => ?_
  refine .exceptBind ?_ fun _ => by simp
  rw [lift_does]
  exact history_visibility_or_fetch_does ctx room_id

theorem send_shares_does (requests : List ToDeviceRequest) :
    (send_shares ctx requests).run.Does Act.tending := by
  induction requests with
  | nil => simp [send_shares]
  | cons request requests ih =>
      refine .exceptBind ?_ fun _ => ih
      rw [withContext_does]
      exact send_to_device_does ctx request

/-- The parts of the dance, while it is answered in certain ways. -/
theorem claim_share_encrypt_doesWhile {N : (a : Act) → a.Ans → Prop} {P : Act → Prop} {fuel : Nat}
    {room_id : RoomId} {event_type : String} {content : Value} {members : List UserId}
    (htrack : P (.olm ctx (.updateTrackedUsers members))) (hpump : (pump fuel ctx).DoesWhile N P)
    (hmissing : P (.olm ctx (.getMissingSessions members)))
    (hclaim : ∀ id request, (send_keys_claim ctx id request).run.DoesWhile N P)
    (hsettings : (encryption_settings ctx room_id).run.DoesWhile N P)
    (hshare : ∀ settings, P (.olm ctx (.shareRoomKey room_id members settings)))
    (hshares : ∀ settings requests, N (.olm ctx (.shareRoomKey room_id members settings)) (.ok requests) →
      (send_shares ctx requests).run.DoesWhile N P)
    (hencrypt : ∀ raw, Codec.toRaw content = some raw →
      P (.olm ctx (.encryptRoomEventRaw room_id event_type raw))) :
    (claim_share_encrypt fuel ctx room_id event_type content members).run.DoesWhile N P := by
  refine .exceptBind (Prog.Does.doesWhile (by simpa using htrack)) fun _ => ?_
  refine .exceptBind ?_ fun _ => ?_
  · rw [ExceptT.run_lift]
    exact hpump.map _
  refine .exceptBind (Prog.Does.doesWhile (by simpa using hmissing)) fun missing => ?_
  refine .exceptBind ?_ fun _ => ?_
  · cases missing with
    | none => trivial
    | some missing => exact Prog.DoesWhile.map (hclaim missing.1 missing.2) _
  refine .exceptBind hsettings fun settings => ?_
  refine Prog.EveryWhile.exceptBind (Q := fun r => ∀ requests, r = .ok requests →
    N (.olm ctx (.shareRoomKey room_id members settings)) (.ok requests))
      ⟨hshare settings,fun r hr requests heq => ?_⟩ fun requests hrequests => ?_
  · cases r with
    | ok _ =>
        cases heq
        exact hr
    | error _ => cases heq
  refine .exceptBind (hshares settings requests (hrequests requests rfl)) fun _ => ?_
  split
  · trivial
  · next raw hraw =>
      refine .exceptBind (Prog.Does.doesWhile (by simpa using hencrypt raw hraw)) fun encrypted => ?_
      split <;> trivial

theorem claim_share_encrypt_does (fuel : Nat) (room_id : RoomId) (event_type : String)
    (content : Value) (members : List UserId) :
    (claim_share_encrypt fuel ctx room_id event_type content members).run.Does
      (Act.sharing room_id members) := by
  have hserving : ∀ a, Act.tending a → a.sharing room_id members := fun _ h => h.1.sharing ..
  have htending : ∀ {α : Type} {p : M α}, p.Does Act.tending →
      p.DoesWhile (fun _ _ => True) (Act.sharing room_id members) := fun h => (h.mono hserving).doesWhile
  refine Prog.doesWhile_true.mp (claim_share_encrypt_doesWhile ctx trivial ?_ trivial ?_ ?_ ?_ ?_ ?_)
  · exact htending (pump_does ctx fuel)
  · exact fun id request => htending (send_keys_claim_does ctx id request)
  · exact htending (encryption_settings_does ctx room_id)
  · exact fun _ => ⟨rfl,rfl⟩
  · exact fun _ requests _ => htending (send_shares_does ctx requests)
  · exact fun _ _ => trivial

theorem encrypt_content_quiet (fuel : Nat) (room_id : RoomId) (event_type : String)
    (content : Value) : (encrypt_content fuel ctx room_id event_type content).run.Does Act.quiet := by
  refine .exceptBind (joined_members_quiet ctx room_id) fun members => ?_
  rw [attempt_does]
  refine withLock_does trivial ?_ trivial
  exact (claim_share_encrypt_does ctx ..).mono fun _ h => h.quiet

theorem send_verification_request_mild (fuel : Nat) (outgoing : OutgoingVerificationRequest) :
    (send_verification_request fuel ctx outgoing).run.Does Act.mild := by
  cases outgoing with
  | toDevice r => exact (send_to_device_does ctx r).mono fun _ h => h.1.quiet.mild
  | inRoom r =>
      have hsend : ∀ (wire_type : String) (wire_content : Value), (do
          let (status,response_body) ←
            json_request ctx.token (.sendEvent r.room_id wire_type r.txn_id) (some wire_content)
          if isSuccess status then mark_request_as_sent ctx r.txn_id .roomMessage response_body
          else fail (report "in-room verification send failed" status response_body) :
            Fallible Unit).run.Does Act.mild := fun wire_type wire_content => by
        refine .exceptBind (by simp [Act.mild]) fun answer => ?_
        dsimp only
        split_ifs
        · exact mark_request_as_sent_does ctx trivial _
        · simp
      refine .exceptBind (is_room_encrypted_mild ctx _) fun encrypted => ?_
      dsimp only
      split_ifs
      · exact .exceptBind ((encrypt_content_quiet ctx ..).mono fun _ h => h.mild) fun content =>
          hsend "m.room.encrypted" content
      · exact hsend r.event_type r.content

/-- Apart from preparing, the dance takes four steps of its own. -/
theorem encrypt_content_does {P : Act → Prop} (hprepares : ∀ a : Act, a.preparing → P a)
    (fuel : Nat) (room_id : RoomId) (event_type : String) (content : Value)
    (htrack : ∀ users, P (.olm ctx (.updateTrackedUsers users)))
    (hclaim : ∀ users, P (.olm ctx (.getMissingSessions users)))
    (hshare : ∀ users settings, P (.olm ctx (.shareRoomKey room_id users settings)))
    (hencrypt : ∀ raw, Codec.toRaw content = some raw →
      P (.olm ctx (.encryptRoomEventRaw room_id event_type raw))) :
    (encrypt_content fuel ctx room_id event_type content).run.Does P := by
  have htends : ∀ {α : Type} {p : M α}, p.Does Act.tending → p.DoesWhile (fun _ _ => True) P :=
    fun h => (h.mono fun a ha => hprepares a ha.2).doesWhile
  refine .exceptBind ((joined_members_preparing ctx room_id).mono hprepares) fun members => ?_
  rw [attempt_does]
  refine withLock_does (hprepares _ trivial) ?_ (hprepares _ trivial)
  refine Prog.doesWhile_true.mp
    (claim_share_encrypt_doesWhile ctx (htrack members) ?_ (hclaim members) ?_ ?_ ?_ ?_ hencrypt)
  · exact htends (pump_does ctx fuel)
  · exact fun id request => htends (send_keys_claim_does ctx id request)
  · exact htends (encryption_settings_does ctx room_id)
  · exact hshare members
  · exact fun _ requests _ => htends (send_shares_does ctx requests)

end

section
variable {ctx : AccountContext} {fuel : Nat} {req : Request} {room_id event_type txn_id : String}

/-- The next action of a send that has been answered so far: it prepares, it forwards
what the client sent, or it belongs to the encryption of the rewritten content. -/
inductive SendStep (ctx : AccountContext) (fuel : Nat) (req : Request)
    (room_id event_type txn_id : String) (es : List (Sigma Act.Ans)) : Act → Prop
  | preparing {a : Act} : a.composing → SendStep ctx fuel req room_id event_type txn_id es a
  | passed : parseRoomId room_id = none ∨ event_type = "m.room.encrypted" →
      SendStep ctx fuel req room_id event_type txn_id es (.passthrough (forwarded req))
  | clear {room : RoomId} {asked rest : List (Sigma Act.Ans)} {body : Option Value} :
      parseRoomId room_id = some room → es = asked ++ rest →
      (is_room_encrypted ctx room).run.Did asked (.ret (.ok false)) →
      SendStep ctx fuel req room_id event_type txn_id es
        (.request ctx.token (.original req.path_and_query) body)
  | encrypting {room : RoomId} {content content' : Value} {before rewriting es' : List (Sigma Act.Ans)}
      {a : Act} {k : a.Ans → M (Except Error Value)} : parseRoomId room_id = some room →
      Codec.fromSlice req.body = some content → es = before ++ (rewriting ++ es') →
      (rewrite_content_for_encrypted_room ctx content).Did rewriting (.ret content') →
      (encrypt_content fuel ctx room event_type content').run.Did es' (.act a k) →
      SendStep ctx fuel req room_id event_type txn_id es a
  | encrypted {room : RoomId} {content content' value : Value}
      {before rewriting es' : List (Sigma Act.Ans)} : parseRoomId room_id = some room →
      Codec.fromSlice req.body = some content → es = before ++ (rewriting ++ es') →
      (rewrite_content_for_encrypted_room ctx content).Did rewriting (.ret content') →
      (encrypt_content fuel ctx room event_type content').run.Did es' (.ret (.ok value)) →
      SendStep ctx fuel req room_id event_type txn_id es
        (.request ctx.token (.sendEvent room "m.room.encrypted" txn_id) (some value))

/-- The last action of a send, the request with what it forwards. -/
theorem forward_did_act {token : String} {endpoint : Endpoint} {body : Option Value} {a : Act}
    {es : List (Sigma Act.Ans)} {k : a.Ans → M (Except Abort Response)}
    (h : (do
      let (status,response_body) ← internally (withContext "failed to forward send"
        (json_request token endpoint body))
      pure (raw_response status (some "application/json") (.json response_body)) :
        ProxyM Response).run.Did es (.act a k)) : es = [] ∧ a = .request token endpoint body := by
  have hdone : ∀ {answer : Nat × Value} {es' : List (Sigma Act.Ans)},
      ¬ (pure (raw_response answer.1 (some "application/json") (.json answer.2)) :
        ProxyM Response).run.Did es' (.act a k) := fun h => by cases h
  obtain ⟨_,h⟩ | ⟨_,_,_,_,_,h⟩ := Prog.did_exceptBind_act h
  · obtain ⟨_,h⟩ := internally_did_act h
    obtain ⟨_,h⟩ := withContext_did_act h
    cases h with
    | nil => exact ⟨rfl,rfl⟩
    | @cons _ _ r _ _ h =>
        cases r <;> cases h
  · exact (hdone h).elim

theorem handle_send_did {es : List (Sigma Act.Ans)} {a : Act} {k : a.Ans → M (Except Abort Response)}
    (h : (handle_send fuel ctx req room_id event_type txn_id).run.Did es (.act a k)) :
    SendStep ctx fuel req room_id event_type txn_id es a := by
  have hpassed : parseRoomId room_id = none ∨ event_type = "m.room.encrypted" →
      (passthrough req).run.Did es (.act a k) →
        SendStep ctx fuel req room_id event_type txn_id es a := by
    intro hwhy h
    have ha : a = .passthrough (forwarded req) :=
      Prog.Does.did (P := fun a => a = .passthrough (forwarded req)) (passthrough_does.mpr rfl) h
    rw [ha]
    exact .passed hwhy
  unfold handle_send at h
  cases hroom : parseRoomId room_id with
  | none =>
      rw [hroom] at h
      exact hpassed (.inl hroom) h
  | some room =>
      simp only [hroom] at h
      split_ifs at h with htype
      · exact hpassed (.inr htype) h
      obtain ⟨_,h⟩ | ⟨es₁,es₂,encrypted,rfl,hasked,h⟩ := Prog.did_exceptBind_act h
      · obtain ⟨_,h⟩ := internally_did_act h
        obtain ⟨_,h⟩ := withContext_did_act h
        exact .preparing (Prog.Does.did (is_room_encrypted_composing ctx room) h)
      have hasked := withContext_did (internally_did hasked)
      obtain ⟨_,h⟩ | ⟨es₃,es₄,bytes,rfl,hbytes,h⟩ := Prog.did_exceptBind_act h
      · exact .preparing (Prog.Does.did (P := Act.composing) (readBody_does ..) h)
      have hbody : bytes = req.body := by
        unfold readBody at hbytes
        split_ifs at hbytes
        · cases hbytes
          rfl
        · cases hbytes
      subst hbody
      cases hread : Codec.fromSlice req.body with
      | none =>
          simp only [hread] at h
          cases h
      | some content =>
          simp only [hread] at h
          cases encrypted with
          | true =>
              simp only [if_true] at h
              obtain ⟨_,h⟩ | ⟨es₅,es₆,content',rfl,hrewrite,h⟩ := Prog.did_exceptBind_act h
              · obtain ⟨_,h⟩ := Prog.did_lift_act h
                exact .preparing (Prog.Does.did (rewrite_content_does ctx content) h).2
              obtain ⟨_,hx,hrewrite⟩ := Prog.did_lift hrewrite
              cases hx
              obtain ⟨_,h⟩ | ⟨es₇,es₈,value,rfl,hencrypt,h⟩ := Prog.did_exceptBind_act h
              · obtain ⟨_,h⟩ := internally_did_act h
                obtain ⟨_,h⟩ := withContext_did_act h
                exact .encrypting hroom hread (List.append_assoc ..).symm hrewrite h
              obtain ⟨rfl,rfl⟩ := forward_did_act h
              rw [List.append_nil,← List.append_assoc]
              exact .encrypted hroom hread rfl hrewrite (withContext_did (internally_did hencrypt))
          | false =>
              simp only [Bool.false_eq_true,if_false] at h
              obtain ⟨_,h⟩ | ⟨es₅,es₆,content',rfl,_,h⟩ := Prog.did_exceptBind_act h
              · obtain ⟨_,h⟩ := internally_did_act h
                obtain ⟨_,h⟩ := withContext_did_act h
                exact .preparing (Prog.Does.did (reupload_does ctx content) h).2
              obtain ⟨rfl,rfl⟩ := forward_did_act h
              exact .clear hroom rfl hasked

end

end EmentE2ee
