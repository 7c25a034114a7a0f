import EmentE2ee.Http
import Mathlib.Data.Finset.Basic
import Mathlib.Logic.Function.Basic

/-!
# Room metadata tracked from sync traffic

Per account: history visibility, cached members, the rooms confirmed to have no
encryption state, the sessions whose key was asked for, and the joined rooms
with the unread counts the client was last given.
-/
namespace EmentE2ee

open Json (Value)

/-- In seconds. -/
def MEMBER_CACHE_TTL : Nat := 600

structure MemberCache where
  at_ : Nat
  members : List UserId
  deriving DecidableEq, Repr

structure RoomSettings where
  algorithm : String
  only_allow_trusted_devices : Bool
  session_rotation_period : Option Nat
  session_rotation_period_messages : Option Nat
  deriving DecidableEq, Repr

structure RoomTracker where
  history_visibility : RoomId → Option String
  members : RoomId → Option MemberCache
  unencrypted : Finset RoomId
  requested_sessions : Finset String
  joined : RoomId → Option (Option Value)

namespace RoomTracker

def default : RoomTracker where
  history_visibility := fun _ => none
  members := fun _ => none
  unencrypted := ∅
  requested_sessions := ∅
  joined := fun _ => none

def cached_members (t : RoomTracker) (room_id : RoomId) (now : Nat) : Option (List UserId) :=
  (t.members room_id).bind fun cache =>
    if now - cache.at_ < MEMBER_CACHE_TTL then some cache.members else none

def cache_members (t : RoomTracker) (room_id : RoomId) (members : List UserId) (now : Nat) :
    RoomTracker :=
  { t with members := Function.update t.members room_id (some ⟨now,members⟩) }

def invalidate_members (t : RoomTracker) (room_id : RoomId) : RoomTracker :=
  { t with members := Function.update t.members room_id none }

def set_history_visibility (t : RoomTracker) (room_id : RoomId) (visibility : String) :
    RoomTracker :=
  { t with history_visibility := Function.update t.history_visibility room_id (some visibility) }

def is_known_unencrypted (t : RoomTracker) (room_id : RoomId) : Bool :=
  decide (room_id ∈ t.unencrypted)

def mark_unencrypted (t : RoomTracker) (room_id : RoomId) : RoomTracker :=
  { t with unencrypted := insert room_id t.unencrypted }

def mark_encrypted (t : RoomTracker) (room_id : RoomId) : RoomTracker :=
  { t with unencrypted := t.unencrypted.erase room_id }

/-- Note a request for the key of a session; false if there was one already. -/
def insert_requested (t : RoomTracker) (session_id : String) : RoomTracker × Bool :=
  ({ t with requested_sessions := insert session_id t.requested_sessions },
    decide (session_id ∉ t.requested_sessions))

def remove_requested (t : RoomTracker) (session_id : String) : RoomTracker :=
  { t with requested_sessions := t.requested_sessions.erase session_id }

def note_joined (t : RoomTracker) (room_id : RoomId) (unread_notifications : Option Value) :
    RoomTracker :=
  let last := (t.joined room_id).getD none
  { t with joined := Function.update t.joined room_id (some (unread_notifications.or last)) }

def note_left (t : RoomTracker) (room_id : RoomId) : RoomTracker :=
  { t with joined := Function.update t.joined room_id none }

def last_unread_notifications (t : RoomTracker) (room_id : RoomId) : Option (Option Value) :=
  t.joined room_id

end RoomTracker

/-- Parse the content of an `m.room.encryption` event. -/
def room_settings_from_content (content : Value) : Option RoomSettings :=
  ((content.get "algorithm").bind Value.asStr).map fun algorithm =>
    { algorithm := algorithm
      only_allow_trusted_devices := false
      session_rotation_period := (content.get "rotation_period_ms").bind Value.asU64
      session_rotation_period_messages := (content.get "rotation_period_msgs").bind Value.asU64 }

end EmentE2ee
