import EmentE2ee.Action

/-!
# Is a room encrypted, and who is in it

The negative cache is consulted first, then the settings the machine has, then
the homeserver. State events of sync and history responses keep all three up to
date.
-/
namespace EmentE2ee

open Concurrent
open Json (Value)

variable [Codec]

def is_room_encrypted (ctx : AccountContext) (room_id : RoomId) : Fallible Bool := do
  let unencrypted ← step (.rooms ctx (.isKnownUnencrypted room_id))
  if unencrypted then pure false
  else
    let settings ← call (act (.olm ctx (.roomSettings room_id)))
    if settings.isSome then pure true
    else
      let (status,body) ← json_request ctx.token (.stateEncryption room_id) none
      if status = 404 then
        step (.rooms ctx (.markUnencrypted room_id))
        pure false
      else if isSuccess status then
        -- The state endpoint returns the event content directly.
        match room_settings_from_content body with
        | none => fail ("malformed m.room.encryption content: " ++ Codec.display body)
        | some settings =>
            step (.rooms ctx (.markEncrypted room_id))
            let _ ← step (.olm ctx (.setRoomSettings room_id settings))
            pure true
      else
        fail ("failed to fetch m.room.encryption state: " ++ Codec.statusText status ++ " " ++
          Codec.display body)

/-- The keys of a member list that are user IDs. -/
def memberIds (body : Value) : List UserId :=
  ((body.get "joined").bind Value.asObject).elim [] fun joined =>
    joined.filterMap fun e => parseUserId e.1

def joined_members (ctx : AccountContext) (room_id : RoomId) : Fallible (List UserId) := do
  let t ← step .now
  let cached ← step (.rooms ctx (.cachedMembers room_id t))
  match cached with
  | some members => pure members
  | none =>
      let (status,body) ← json_request ctx.token (.joinedMembers room_id) none
      if isSuccess status then
        let members := memberIds body
        if members.isEmpty then fail ("joined_members returned no members for " ++ room_id)
        else
          let t ← step .now
          step (.rooms ctx (.cacheMembers room_id members t))
          pure members
      else
        fail ("joined_members failed: " ++ Codec.statusText status ++ " " ++ Codec.display body)

/-- Tracked from sync, fetched on demand, and shared where neither tells. -/
def history_visibility_or_fetch (ctx : AccountContext) (room_id : RoomId) : M String := do
  let tracked ← act (.rooms ctx (.historyVisibility room_id))
  match tracked with
  | some v => pure v
  | none =>
      let answer ← act (.request ctx.token (.stateHistoryVisibility room_id) none)
      let visibility := match answer with
        | .ok (status,body) =>
            if isSuccess status then
              ((body.get "history_visibility").bind Value.asStr).getD "shared"
            else "shared"
        | .error _ => "shared"
      act (.rooms ctx (.setHistoryVisibility room_id visibility))
      pure visibility

/-- The settings an `m.room.encryption` state event with an algorithm names. -/
def encryptionEvent (event : Value) : Option RoomSettings :=
  if ((event.get "state_key").bind Value.asStr).isNone then none
  else if (event.get "type").bind Value.asStr = some "m.room.encryption" then
    (event.get "content").bind room_settings_from_content
  else none

/-- What one event of a response's state tells. -/
def scan_state_event (ctx : AccountContext) (room_id : RoomId) (event : Value) : M Unit :=
  if ((event.get "state_key").bind Value.asStr).isNone then pure ()
  else
    match (event.get "type").bind Value.asStr with
    | some "m.room.encryption" =>
        match (event.get "content").bind room_settings_from_content with
        | none => pure ()
        | some settings => do
            act (.rooms ctx (.markEncrypted room_id))
            -- A differing re-configuration is rejected as a downgrade.
            let _ ← act (.olm ctx (.setRoomSettings room_id settings))
            pure ()
    | some "m.room.history_visibility" =>
        match (event.pointer ["content","history_visibility"]).bind Value.asStr with
        | some visibility => act (.rooms ctx (.setHistoryVisibility room_id visibility))
        | none => pure ()
    | some "m.room.member" => act (.rooms ctx (.invalidateMembers room_id))
    | _ => pure ()

def scan_state_events (ctx : AccountContext) (room_id : RoomId) : List Value → M Unit
  | [] => pure ()
  | event :: events => do
      scan_state_event ctx room_id event
      scan_state_events ctx room_id events

theorem joined_members_quiet (ctx : AccountContext) (room_id : RoomId) :
    (joined_members ctx room_id).run.Does Act.quiet := by
  unfold joined_members
  refine .exceptBind (by simp [Act.quiet]) fun t => .exceptBind (by simp [Act.quiet]) fun cached => ?_
  cases cached with
  | some members => simp
  | none =>
      refine .exceptBind (by simp [Act.quiet]) fun answer => ?_
      dsimp only
      split_ifs
      · simp
      · simp [Act.quiet]
      · simp

theorem joined_members_preparing (ctx : AccountContext) (room_id : RoomId) :
    (joined_members ctx room_id).run.Does Act.preparing := by
  unfold joined_members
  refine .exceptBind (by simp [Act.preparing]) fun t =>
    .exceptBind (by simp [Act.preparing]) fun cached => ?_
  cases cached with
  | some members => simp
  | none =>
      refine .exceptBind (by simp [Act.preparing]) fun answer => ?_
      dsimp only
      split_ifs
      · simp
      · simp [Act.preparing]
      · simp

theorem is_room_encrypted_composing (ctx : AccountContext) (room_id : RoomId) :
    (is_room_encrypted ctx room_id).run.Does Act.composing := by
  unfold is_room_encrypted
  refine .exceptBind (by simp [Act.composing,Act.preparing,Act.sends]) fun unencrypted => ?_
  split_ifs
  · simp
  refine .exceptBind (by simp [Act.composing,Act.preparing,Act.sends]) fun settings => ?_
  split_ifs
  · simp
  refine .exceptBind (by simp [Act.composing,Act.preparing,Act.sends]) fun answer => ?_
  dsimp only
  split_ifs
  · simp [Act.composing,Act.preparing,Act.sends]
  · split
    · simp
    · simp [Act.composing,Act.preparing,Act.sends]
  · simp

theorem is_room_encrypted_mild (ctx : AccountContext) (room_id : RoomId) :
    (is_room_encrypted ctx room_id).run.Does Act.mild := by
  unfold is_room_encrypted
  refine .exceptBind (by simp [Act.mild]) fun unencrypted => ?_
  split_ifs
  · simp
  refine .exceptBind (by simp [Act.mild]) fun settings => ?_
  split_ifs
  · simp
  refine .exceptBind (by simp [Act.mild]) fun answer => ?_
  dsimp only
  split_ifs
  · simp [Act.mild]
  · split
    · simp
    · simp [Act.mild]
  · simp

theorem history_visibility_or_fetch_does (ctx : AccountContext) (room_id : RoomId) :
    (history_visibility_or_fetch ctx room_id).Does Act.tending := by
  unfold history_visibility_or_fetch
  refine .bind (by simp [Act.tending,Act.serving,Act.preparing]) fun tracked => ?_
  cases tracked with
  | some v => simp
  | none => simp [Act.tending,Act.serving,Act.preparing]

theorem scan_state_events_mild (ctx : AccountContext) (room_id : RoomId) (events : List Value) :
    (scan_state_events ctx room_id events).Does Act.mild := by
  induction events with
  | nil => simp [scan_state_events]
  | cons event events ih =>
      refine .bind ?_ fun _ => ih
      unfold scan_state_event
      split_ifs
      · simp
      split
      · split
        · simp
        · exact ⟨trivial,fun _ => ⟨trivial,fun _ => trivial⟩⟩
      · split <;> simp [Act.mild]
      · simp [Act.mild]
      · simp

end EmentE2ee
