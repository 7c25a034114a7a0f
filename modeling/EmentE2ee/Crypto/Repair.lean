import EmentE2ee.Crypto.Decrypt

/-!
# Repairing placeholders

When a key turns up, the placeholder is replaced by an edit the client receives
with its next sync. Assignments into a body of an unexpected shape panic, which
is `none` here.
-/
namespace EmentE2ee

open Concurrent
open Json (Value)

variable [Codec]

def delivered_event_ids (body : Value) : List String :=
  (((body.pointer ["rooms","join"]).bind Value.asObject).getD []).flatMap fun e =>
    (((e.2.pointer ["timeline","events"]).bind Value.asArray).getD []).filterMap eventId

/-- Append an event to a room's timeline. -/
def appendEvent (event room : Value) : Option Value := do
  let room ←
    if (room.pointer ["timeline","events"]).any Value.isArray then some room
    else room.assign ["timeline","events"] (.array [])
  room.indexMut "timeline" (Value.indexMut "events" fun
    | .array events => some (.array (events ++ [event]))
    | _ => none)

def roomEntry (unread : Option Value) : Value :=
  let timeline : Value := .object [("events",.array []),("limited",.bool false)]
  match unread with
  | some unread => .object [("timeline",timeline),("unread_notifications",unread)]
  | none => .object [("timeline",timeline)]

def pushEvent (room_id : RoomId) (event body : Value) : Option Value :=
  body.indexMut "rooms" (Value.indexMut "join" (Value.indexMut room_id (appendEvent event)))

/-- Append an event to a joined room's timeline in a sync body; false if the
client is no longer in the room. -/
def push_into_sync (ctx : AccountContext) (body : Value) (room_id : RoomId) (event : Value) :
    M (Option (Bool × Value)) :=
  if body.isObject then
    if (((body.pointer ["rooms","join"]).bind Value.asObject).bind
        (Json.Map.lookup room_id)).isSome then
      pure ((pushEvent room_id event body).map fun b => (true,b))
    else do
      -- An entry of our own repeats the unread counts the room was last given.
      let unread ← act (.rooms ctx (.lastUnreadNotifications room_id))
      match unread with
      | none => pure (some (false,body))
      | some unread =>
          pure (((body.assign ["rooms","join",room_id] (roomEntry unread)).bind
            (pushEvent room_id event)).map fun b => (true,b))
  else pure (some (false,body))

def notice (body : String) : Value :=
  .object [("body",.string body),("msgtype",.string "m.notice")]

/-- What the edit puts in the placeholder's place. -/
def newContent (plain : Value) (event_type : String) : Option Value :=
  if event_type = "m.room.message" then
    (plain.get "content").map fun content =>
      let is_edit := (content.pointer ["m.relates_to","rel_type"]).bind Value.asStr = some "m.replace"
      match content.get "m.new_content" with
      | some inner => if is_edit then inner else content
      | none => content
  else if event_type = "m.reaction" then
    let key := ((plain.pointer ["content","m.relates_to","key"]).bind Value.asStr).getD "?"
    some (notice ("🔓 reacted with " ++ key))
  else some (notice ("🔓 [" ++ event_type ++ "] decrypted; reopen the room to render it"))

def relatesTo (event_id : String) (reply : Option Value) : Value :=
  match reply with
  | some reply =>
      .object [("event_id",.string event_id),("m.in_reply_to",reply),("rel_type",.string "m.replace")]
  | none => .object [("event_id",.string event_id),("rel_type",.string "m.replace")]

/-- The edit that replaces the placeholder of the decrypted event, if it has one. -/
def synthetic_edit (plain : Value) : Option (Option Value) :=
  match eventId plain,(plain.get "type").bind Value.asStr with
  | some event_id,some event_type =>
      match (newContent plain event_type).bind Value.asObject with
      | none => some none
      | some m =>
          -- A reply stays a reply; any other relation belongs to the original.
          let reply := (Json.Map.lookup "m.relates_to" m).bind (Value.get "m.in_reply_to")
          let new_content := Json.Map.remove "m.relates_to" m
          let content := Json.Map.insert "m.relates_to" (relatesTo event_id reply)
            (Json.Map.insert "m.new_content" (.object new_content) new_content)
          let marker := (plain.pointer ["unsigned","ement_e2ee"]).getD (.object [])
          (marker.assign ["repairs"] (.string event_id)).map fun marker =>
            let base : Json.Map :=
              [("content",.object content),("event_id",.string (event_id ++ "~decrypted")),
                ("type",.string "m.room.message"),("unsigned",.object [("ement_e2ee",marker)])]
            some (.object (["sender","origin_server_ts","room_id"].foldl (copyKey plain) base))
  | _,_ => some none

/-- Repairs one after the other; events this very response delivers need none. -/
def repair_all (ctx : AccountContext) (delivered : List String) :
    List PendingRepair → Nat → Value → M (Option (Nat × Value))
  | [],repaired,body => pure (some (repaired,body))
  | repair :: rest,repaired,body =>
      if repair.event_id ∈ delivered then repair_all ctx delivered rest repaired body
      else do
        let outcome ← decrypt ctx repair.room_id repair.event
        match outcome with
        | .decrypted plain =>
            match synthetic_edit plain with
            | none => pure none
            | some none => repair_all ctx delivered rest repaired body
            | some (some edit) =>
                let pushed ← push_into_sync ctx body repair.room_id edit
                match pushed with
                | none => pure none
                | some (true,body) => repair_all ctx delivered rest (repaired + 1) body
                | some (false,body) => repair_all ctx delivered rest repaired body
        | _ =>
            act (.repairs ctx (.requeue repair))
            repair_all ctx delivered rest repaired body

/-- Decrypt the placeholders whose keys have arrived and append their edits. -/
def inject (ctx : AccountContext) (body : Value) : M (Option (Nat × Value)) := do
  let ready ← act (.repairs ctx .takeReady)
  if ready.isEmpty then pure (some (0,body))
  else repair_all ctx (delivered_event_ids body) ready 0 body

inductive Section where
  | join
  | leave
  deriving DecidableEq, Repr

def Section.name : Section → String
  | join => "join"
  | leave => "leave"

def noteMembership (ctx : AccountContext) (room_id : RoomId) (room : Value) : Section → M Unit
  | .join => act (.rooms ctx (.noteJoined room_id (room.get "unread_notifications")))
  | .leave => act (.rooms ctx (.noteLeft room_id))

def process_room (ctx : AccountContext) (sec : Section) (room_id_str : String) (room : Value) :
    M Value :=
  match parseRoomId room_id_str with
  | none => pure room
  | some room_id => do
      noteMembership ctx room_id room sec
      scanArray ctx room_id (room.pointer ["state","events"])
      -- State events can also arrive in the timeline.
      scanArray ctx room_id (room.pointer ["timeline","events"])
      room.updateM "timeline" (Value.updateM "events" (decryptArray ctx room_id))

def process_rooms (ctx : AccountContext) (sec : Section) : Json.Map → M Json.Map
  | [] => pure []
  | (room_id_str,room) :: rooms => do
      let room ← process_room ctx sec room_id_str room
      let rooms ← process_rooms ctx sec rooms
      pure ((room_id_str,room) :: rooms)

def process_section (ctx : AccountContext) (sec : Section) (rooms : Value) : M Value :=
  rooms.updateM sec.name fun
    | .object m => do
        let m ← process_rooms ctx sec m
        pure (.object m)
    | v => pure v

/-- The decryption pass over a sync body. -/
def decrypt_sync_body (ctx : AccountContext) (body : Value) : M Value :=
  body.updateM "rooms" fun rooms => do
    let rooms ← process_section ctx .join rooms
    process_section ctx .leave rooms

/-- Rewrite a sync body: track room state, decrypt timelines, append repairs. -/
def process_sync_body (ctx : AccountContext) (body : Value) : M (Option Value) := do
  let body ← decrypt_sync_body ctx body
  let injected ← inject ctx body
  pure (injected.map Prod.snd)

/-- Actions of the repairs once they are taken: nothing that is delivered is put back. -/
def Act.repairing (delivered : List String) : Act → Prop
  | .repairs _ (.requeue repair) => repair.event_id ∉ delivered
  | .rooms _ (.lastUnreadNotifications _) => True
  | a => a.decrypting

omit [Codec] in
theorem Act.decrypting.repairing (delivered : List String) {a : Act} (h : a.decrypting) :
    a.repairing delivered := by
  unfold Act.repairing
  split
  · exact h.elim
  · trivial
  · exact h

section
variable (ctx : AccountContext)

theorem process_room_mild (sec : Section) (room_id_str : String) (room : Value) :
    (process_room ctx sec room_id_str room).Does Act.mild := by
  unfold process_room
  split
  · simp
  · refine .bind (by cases sec <;> simp [noteMembership,Act.mild]) fun _ => ?_
    refine .bind (scanArray_mild ctx ..) fun _ => .bind (scanArray_mild ctx ..) fun _ => ?_
    exact updateM_does (updateM_does fun v => decryptArray_mild ctx _ v) room

theorem process_section_mild (sec : Section) (rooms : Value) :
    (process_section ctx sec rooms).Does Act.mild := by
  refine updateM_does (fun v => ?_) rooms
  split
  · next m =>
      refine .bind ?_ fun _ => by simp
      induction m with
      | nil => simp [process_rooms]
      | cons e m ih => exact .bind (process_room_mild ctx ..) fun _ => .bind ih fun _ => by simp
  · simp

theorem decrypt_sync_body_mild (body : Value) : (decrypt_sync_body ctx body).Does Act.mild :=
  updateM_does (fun _ => .bind (process_section_mild ctx ..) fun _ => process_section_mild ctx ..) body

omit [Codec] in
theorem Act.repairing.mild {delivered : List String} {a : Act} (h : a.repairing delivered) :
    a.mild := by
  unfold Act.repairing at h
  split at h
  · trivial
  · trivial
  · exact h.quiet.mild

theorem push_into_sync_does (delivered : List String) (body : Value) (room_id : RoomId)
    (event : Value) : (push_into_sync ctx body room_id event).Does (Act.repairing delivered) := by
  unfold push_into_sync
  split_ifs
  · simp
  · refine .bind (by simp [Act.repairing]) fun unread => ?_
    cases unread <;> simp
  · simp

theorem repair_all_does (delivered : List String) (repairs : List PendingRepair) (n : Nat)
    (body : Value) : (repair_all ctx delivered repairs n body).Does (Act.repairing delivered) := by
  induction repairs generalizing n body with
  | nil => simp [repair_all]
  | cons repair rest ih =>
      unfold repair_all
      split_ifs with hd
      · exact ih n body
      refine .bind ((decrypt_does ctx ..).mono fun _ h => h.repairing delivered) fun outcome => ?_
      cases outcome with
      | undecryptable reason session_id raw => exact ⟨hd,fun _ => ih n body⟩
      | untouched => exact ⟨hd,fun _ => ih n body⟩
      | decrypted plain =>
          dsimp only
          split
          · simp
          · exact ih n body
          · refine .bind (push_into_sync_does ctx ..) fun pushed => ?_
            split
            · simp
            · exact ih ..
            · exact ih ..

theorem inject_mild (body : Value) : (inject ctx body).Does Act.mild := by
  refine .bind (by simp [Act.mild]) fun ready => ?_
  split_ifs
  · simp
  · exact (repair_all_does ctx ..).mono fun _ h => h.mild

theorem process_sync_body_mild (body : Value) : (process_sync_body ctx body).Does Act.mild :=
  .bind (decrypt_sync_body_mild ctx body) fun _ => .bind (inject_mild ctx _) fun _ => by simp

omit [Codec] in
theorem pushEvent_get {k : String} (hk : k ≠ "rooms") {room_id : RoomId} {event body body' : Value}
    (h : pushEvent room_id event body = some body') : body'.get k = body.get k :=
  Value.get_indexMut_ne hk.symm h

theorem push_into_sync_get {k : String} (hk : k ≠ "rooms") (body : Value) (room_id : RoomId)
    (event : Value) : (push_into_sync ctx body room_id event).Every (fun _ => True) fun r =>
      ∀ b body', r = some (b,body') → body'.get k = body.get k := by
  unfold push_into_sync
  split_ifs
  · rintro b body' h
    obtain ⟨body₁,h₁,⟨⟩⟩ := Option.map_eq_some_iff.mp h
    exact pushEvent_get hk h₁
  · refine ⟨trivial,fun unread => ?_⟩
    cases unread with
    | none =>
        rintro b body' ⟨⟩
        rfl
    | some unread =>
        rintro b body' h
        obtain ⟨body₂,h₂,⟨⟩⟩ := Option.map_eq_some_iff.mp h
        obtain ⟨body₁,h₁,h₂⟩ := Option.bind_eq_some_iff.mp h₂
        exact (pushEvent_get hk h₂).trans (Value.get_indexMut_ne hk.symm h₁)
  · rintro b body' ⟨⟩
    rfl

theorem repair_all_get {k : String} (hk : k ≠ "rooms") (delivered : List String)
    (repairs : List PendingRepair) (n : Nat) (body : Value) :
    (repair_all ctx delivered repairs n body).Every (fun _ => True) fun r =>
      ∀ m body', r = some (m,body') → body'.get k = body.get k := by
  induction repairs generalizing n body with
  | nil =>
      rintro m body' ⟨⟩
      rfl
  | cons repair rest ih =>
      unfold repair_all
      split_ifs
      · exact ih n body
      refine .bind (Prog.does_true _) fun outcome _ => ?_
      cases outcome with
      | undecryptable reason session_id raw => exact ⟨trivial,fun _ => ih n body⟩
      | untouched => exact ⟨trivial,fun _ => ih n body⟩
      | decrypted plain =>
          dsimp only
          split
          · exact nofun
          · exact ih n body
          · refine (push_into_sync_get ctx hk body ..).bind fun pushed hpushed => ?_
            match pushed with
            | none => exact nofun
            | some (true,body₁) =>
                exact (ih (n + 1) body₁).mono (fun _ h => h) fun r hr m body' he =>
                  (hr m body' he).trans (hpushed true body₁ rfl)
            | some (false,body₁) =>
                exact (ih n body₁).mono (fun _ h => h) fun r hr m body' he =>
                  (hr m body' he).trans (hpushed false body₁ rfl)

theorem inject_get {k : String} (hk : k ≠ "rooms") (body : Value) :
    (inject ctx body).Every (fun _ => True) fun r =>
      ∀ m body', r = some (m,body') → body'.get k = body.get k := by
  refine .perform trivial fun ready => ?_
  split_ifs
  · rintro m body' ⟨⟩
    rfl
  · exact repair_all_get ctx hk ..

/-- Only the rooms of a sync body are rewritten. -/
theorem process_sync_body_get {k : String} (hk : k ≠ "rooms") (body : Value) :
    (process_sync_body ctx body).Every (fun _ => True) fun r =>
      ∀ body', r = some body' → body'.get k = body.get k := by
  refine (updateM_get hk.symm _ body).bind fun body₁ h₁ => ?_
  refine (inject_get ctx hk body₁).bind fun injected h₂ => ?_
  rintro body' h
  obtain ⟨⟨m,body₂⟩,h₃,rfl⟩ := Option.map_eq_some_iff.mp h
  exact (h₂ m body₂ h₃).trans h₁

end

end EmentE2ee
