import EmentE2ee.Concurrent.Program
import EmentE2ee.Crypto.RepairQueue
import EmentE2ee.Crypto.RoomTracker
import EmentE2ee.Crypto.SeenToDevice

/-!
# What the proxy's functions do

Every function of the proxy is a program over the actions below: an access to
a lock-protected structure, a call of the Olm machine, a request to the
homeserver, a file operation. Between two actions nothing is shared. Actions on
the proxy's own structures have the effect given by the functions of those
structures; what the machine, the homeserver and the disk do is left to a
relation over a state of their own.
-/
namespace EmentE2ee

open Concurrent
open Json (Value)

/-- A handle on an open machine; its identity key never changes. -/
structure OlmMachine where
  handle : Nat
  ed25519 : String
  deriving DecidableEq, Repr

/-- What identifies a logged-in device's context. -/
structure AccountContext where
  user_id : UserId
  device_id : DeviceId
  token : String
  olm : OlmMachine
  deriving DecidableEq, Repr

structure SyncStats where
  client_syncs : Nat
  last_client_sync : Option Nat
  to_device_events : Nat
  to_device_duplicates : Nat
  room_keys_received : Nat
  deriving DecidableEq, Repr

/-- The proxy's own mutable data about an account. -/
structure Account where
  rooms : RoomTracker
  repairs : RepairQueue
  seen : SeenToDevice
  stats : SyncStats

def Account.default (hasher : Hasher) : Account where
  rooms := .default
  repairs := .default
  seen := .default hasher
  stats := ⟨0,none,0,0,0⟩

structure KeysUploadRequest where
  device_keys : Option Value
  one_time_keys : Json.Map
  fallback_keys : Json.Map

structure KeysQueryRequest where
  device_keys : Value
  timeout : Option Nat

structure KeysClaimRequest where
  one_time_keys : Value
  timeout : Option Nat

structure ToDeviceRequest where
  event_type : String
  txn_id : String
  messages : Value

/-- A message of an in-room verification; the machine leaves encrypting it to
its user, so it is never an encrypted event itself. -/
structure RoomMessageRequest where
  room_id : RoomId
  txn_id : String
  event_type : String
  content : Value
  clear : event_type ≠ "m.room.encrypted"

inductive AnyOutgoingRequest where
  | keysUpload (r : KeysUploadRequest)
  | keysQuery (r : KeysQueryRequest)
  | keysClaim (r : KeysClaimRequest)
  | toDeviceRequest (r : ToDeviceRequest)
  | signatureUpload (signed_keys : Value)
  | roomMessage (r : RoomMessageRequest)

structure OutgoingRequest where
  request_id : String
  request : AnyOutgoingRequest

structure BackupRequest where
  version : String
  rooms : Value

structure EncryptionSettings where
  algorithm : String
  history_visibility : String
  rotation_period : Option Nat
  rotation_period_msgs : Option Nat
  deriving DecidableEq, Repr

structure EncryptionSyncChanges where
  to_device_events : List Value
  changed_devices : Value
  one_time_keys_counts : List (String × Nat)
  unused_fallback_keys : Option (List String)
  next_batch_token : Option String

inductive RoomEventDecryptionResult where
  | decrypted (event : Value) (encryption_info : Value)
  | unableToDecrypt (reason : String) (session_id : Option String)

structure MediaEntry where
  info : Value
  mimetype : Option String
  filename : Option String

inductive Endpoint where
  | whoami
  | keysQuery
  | keysUpload
  | keysClaim
  | sendToDevice (event_type txn_id : String)
  | signaturesUpload
  | roomKeys (version : String)
  | stateEncryption (room_id : RoomId)
  | stateHistoryVisibility (room_id : RoomId)
  | joinedMembers (room_id : RoomId)
  | sendEvent (room_id : RoomId) (event_type txn_id : String)
  /-- The path and query of the client's own request. -/
  | original (path_and_query : String)
  deriving DecidableEq, Repr

namespace Endpoint

def method : Endpoint → Method
  | whoami | stateEncryption _ | stateHistoryVisibility _ | joinedMembers _ => .get
  | keysQuery | keysUpload | keysClaim | signaturesUpload => .post
  | sendToDevice .. | roomKeys _ | sendEvent .. | original _ => .put

def path : Endpoint → String
  | whoami => "/_matrix/client/v3/account/whoami"
  | keysQuery => "/_matrix/client/v3/keys/query"
  | keysUpload => "/_matrix/client/v3/keys/upload"
  | keysClaim => "/_matrix/client/v3/keys/claim"
  | sendToDevice t x => "/_matrix/client/v3/sendToDevice/" ++ enc t ++ "/" ++ enc x
  | signaturesUpload => "/_matrix/client/v3/keys/signatures/upload"
  | roomKeys v => "/_matrix/client/v3/room_keys/keys?version=" ++ enc v
  | stateEncryption r => "/_matrix/client/v3/rooms/" ++ enc r ++ "/state/m.room.encryption"
  | stateHistoryVisibility r =>
      "/_matrix/client/v3/rooms/" ++ enc r ++ "/state/m.room.history_visibility"
  | joinedMembers r => "/_matrix/client/v3/rooms/" ++ enc r ++ "/joined_members"
  | sendEvent r t x => "/_matrix/client/v3/rooms/" ++ enc r ++ "/send/" ++ enc t ++ "/" ++ enc x
  | original pq => pq

end Endpoint

inductive RoomsAct where
  | historyVisibility (room_id : RoomId)
  | setHistoryVisibility (room_id : RoomId) (visibility : String)
  | cachedMembers (room_id : RoomId) (now : Nat)
  | cacheMembers (room_id : RoomId) (members : List UserId) (now : Nat)
  | invalidateMembers (room_id : RoomId)
  | isKnownUnencrypted (room_id : RoomId)
  | markUnencrypted (room_id : RoomId)
  | markEncrypted (room_id : RoomId)
  | insertRequested (session_id : String)
  | removeRequested (session_id : String)
  | noteJoined (room_id : RoomId) (unread_notifications : Option Value)
  | noteLeft (room_id : RoomId)
  | lastUnreadNotifications (room_id : RoomId)

namespace RoomsAct

abbrev Ans : RoomsAct → Type
  | historyVisibility _ => Option String
  | cachedMembers .. => Option (List UserId)
  | isKnownUnencrypted _ => Bool
  | insertRequested _ => Bool
  | lastUnreadNotifications _ => Option (Option Value)
  | _ => Unit

def run : (a : RoomsAct) → RoomTracker → a.Ans × RoomTracker
  | historyVisibility r,t => (t.history_visibility r,t)
  | setHistoryVisibility r v,t => ((),t.set_history_visibility r v)
  | cachedMembers r now,t => (t.cached_members r now,t)
  | cacheMembers r ms now,t => ((),t.cache_members r ms now)
  | invalidateMembers r,t => ((),t.invalidate_members r)
  | isKnownUnencrypted r,t => (t.is_known_unencrypted r,t)
  | markUnencrypted r,t => ((),t.mark_unencrypted r)
  | markEncrypted r,t => ((),t.mark_encrypted r)
  | insertRequested id,t => ((t.insert_requested id).2,(t.insert_requested id).1)
  | removeRequested id,t => ((),t.remove_requested id)
  | noteJoined r u,t => ((),t.note_joined r u)
  | noteLeft r,t => ((),t.note_left r)
  | lastUnreadNotifications r,t => (t.last_unread_notifications r,t)

end RoomsAct

inductive RepairsAct where
  | track (room_id : RoomId) (event : Value) (session_id : Option String)
  | noteRoomKeys (session_ids : List String)
  | noteBulkImport
  | hasReady
  | takeReady
  | requeue (repair : PendingRepair)

namespace RepairsAct

abbrev Ans : RepairsAct → Type
  | hasReady => Bool
  | takeReady => List PendingRepair
  | _ => Unit

def run : (a : RepairsAct) → RepairQueue → a.Ans × RepairQueue
  | track r e sid,q => ((),q.track r e sid)
  | noteRoomKeys ks,q => ((),q.note_room_keys ks)
  | noteBulkImport,q => ((),q.note_bulk_import)
  | hasReady,q => (q.has_ready,q)
  | takeReady,q => q.take_ready
  | requeue p,q => ((),q.requeue p)

end RepairsAct

inductive SeenAct where
  | mark (incoming : List Value)
  | forgetAll (keys : List UInt64)

namespace SeenAct
variable [Codec]

abbrev Ans : SeenAct → Type
  | mark _ => Except Error SeenToDevice.Batch
  | forgetAll _ => Unit

def run : (a : SeenAct) → SeenToDevice → a.Ans × SeenToDevice
  | mark incoming,s => ((s.mark ⟨[],[],0⟩ incoming).2,(s.mark ⟨[],[],0⟩ incoming).1)
  | forgetAll keys,s => ((),s.forgetAll keys)

end SeenAct

/-- The counters of one processed sync. -/
def SyncStats.add (s : SyncStats) (now new_events duplicates room_keys : Nat) : SyncStats where
  client_syncs := s.client_syncs + 1
  last_client_sync := some now
  to_device_events := s.to_device_events + new_events
  to_device_duplicates := s.to_device_duplicates + duplicates
  room_keys_received := s.room_keys_received + room_keys

inductive OlmAct where
  | roomSettings (room_id : RoomId)
  | setRoomSettings (room_id : RoomId) (settings : RoomSettings)
  | updateTrackedUsers (users : List UserId)
  | getMissingSessions (users : List UserId)
  | shareRoomKey (room_id : RoomId) (users : List UserId) (settings : EncryptionSettings)
  | encryptRoomEventRaw (room_id : RoomId) (event_type : String) (content : Value)
  | outgoingRequests
  | markRequestAsSent (request_id : String) (response : Value)
  | receiveSyncChanges (changes : EncryptionSyncChanges)
  | tryDecryptRoomEvent (raw : Value) (room_id : RoomId)
  | requestRoomKey (raw : Value) (room_id : RoomId)
  | receiveVerificationEvent (event : Value)
  | backupEnabled
  | backup
  | importRoomKeys (session_ids : List String)
  | getDevice

/-- Of received room keys, only the session IDs matter to the proxy. -/
abbrev OlmAct.Ans : OlmAct → Type
  | roomSettings _ => Except String (Option RoomSettings)
  | getMissingSessions _ => Except String (Option (String × KeysClaimRequest))
  | shareRoomKey .. => Except String (List ToDeviceRequest)
  | encryptRoomEventRaw .. => Except String Value
  | outgoingRequests => Except String (List OutgoingRequest)
  | receiveSyncChanges _ => Except String (List String)
  | tryDecryptRoomEvent .. => Except String RoomEventDecryptionResult
  | requestRoomKey .. => Except String (Option OutgoingRequest × OutgoingRequest)
  | backupEnabled => Bool
  | backup => Except String (Option (String × BackupRequest))
  | importRoomKeys _ => Except String (Nat × Nat)
  | getDevice => Except String (Option Value)
  | _ => Except String Unit

inductive SessionsAct where
  | get (token : String)
  | list
  | insert (token : String) (ctx : AccountContext)
  | remove (token : String)
  | refuse (conflict : DeviceConflict)
  /-- The user has a working session: earlier refusals are history. -/
  | settle (user_id : UserId)

abbrev SessionsAct.Ans : SessionsAct → Type
  | get _ => Option AccountContext
  | list => List AccountContext
  | _ => Unit

inductive Lock where
  | sessions
  | pump (ctx : AccountContext)
  | share (ctx : AccountContext)
  | seen (ctx : AccountContext)
  deriving DecidableEq, Repr

inductive Task where
  | pump
  | periodicPump
  | sessionStart (republish : Bool)
  | requestRoomKey (room_id : RoomId) (raw : Value) (session_id : String)

inductive Act where
  | rooms (ctx : AccountContext) (a : RoomsAct)
  | repairs (ctx : AccountContext) (a : RepairsAct)
  | seen (ctx : AccountContext) (a : SeenAct)
  | stats (ctx : AccountContext) (now new_events duplicates room_keys : Nat)
  | sessions (a : SessionsAct)
  | lock (l : Lock)
  | unlock (l : Lock)
  | olm (ctx : AccountContext) (a : OlmAct)
  | mediaGet (ctx : AccountContext) (mxc : String)
  | mediaInsert (ctx : AccountContext) (mxc : String) (entry : MediaEntry)
  | request (token : String) (endpoint : Endpoint) (body : Option Value)
  /-- A GET whose answer is taken as it comes. -/
  | fetch (token : String) (path_and_query : String)
  /-- The same, unless a repair becomes possible first. -/
  | poll (ctx : AccountContext) (path_and_query : String)
  | upload (token : String) (filename : Option String) (content_type : String) (body : Bytes)
  | passthrough (req : Request)
  | encryptAttachment (data : Bytes)
  | hasStore (dir : String)
  | openStore (dir : String)
  | withStore (user_id : UserId) (device_id : DeviceId) (dir : String)
  | openMedia (path : String)
  | spawn (ctx : AccountContext) (task : Task)
  | recordFinished (ctx : AccountContext)
  | now

/-- What an action is answered with. -/
abbrev Act.Ans [Codec] : Act → Type
  | rooms _ a => a.Ans
  | repairs _ a => a.Ans
  | seen _ a => a.Ans
  | sessions a => a.Ans
  | olm _ a => a.Ans
  | mediaGet .. => Option MediaEntry
  | mediaInsert .. => Except String Unit
  | request .. => Except String (Nat × Value)
  | fetch .. => Except String Reply
  | poll .. => Option (Except String Reply)
  | upload .. => Except String Reply
  | passthrough _ => Except String Reply
  | encryptAttachment _ => Except String (Bytes × Value)
  | hasStore _ => Bool
  | openStore _ => Except String Unit
  | withStore .. => Except String OlmMachine
  | openMedia _ => Except String Unit
  | now => Nat
  | _ => Unit

/-- Actions that neither touch a queue, a session or the set of rooms taken for
unencrypted, nor store keys, nor pause syncs, nor forward what a client sent. -/
def Act.quiet : Act → Prop
  | .rooms _ (.markUnencrypted _) | .rooms _ (.markEncrypted _) => False
  | .repairs .. | .seen .. | .sessions _ | .lock (.seen _) | .unlock (.seen _) => False
  | .olm _ (.receiveSyncChanges _) | .olm _ (.importRoomKeys _) => False
  | .passthrough _ | .request _ (.original _) _ => False
  | _ => True

/-- The same, but for a queue and that set. -/
def Act.mild : Act → Prop
  | .seen .. | .sessions _ | .lock (.seen _) | .unlock (.seen _) => False
  | .olm _ (.receiveSyncChanges _) | .olm _ (.importRoomKeys _) => False
  | .passthrough _ | .request _ (.original _) _ => False
  | _ => True

/-- What decrypting an event takes: it is tried, and what comes out is shown to the
verification machine and searched for media keys. -/
def Act.decrypting : Act → Prop
  | .olm _ (.tryDecryptRoomEvent ..) | .olm _ (.receiveVerificationEvent _) | .mediaInsert .. => True
  | _ => False

/-- What serving the machine takes: its requests are sent and their answers fed
back, and a room's history visibility is looked up. -/
def Act.serving : Act → Prop
  | .olm _ (.shareRoomKey ..) | .olm _ (.receiveSyncChanges _) | .olm _ (.importRoomKeys _) => False
  | .request _ (.original _) _ | .lock (.seen _) | .unlock (.seen _) => False
  | .olm .. | .request .. | .lock _ | .unlock _ => True
  | .rooms _ (.historyVisibility _) | .rooms _ (.setHistoryVisibility ..) => True
  | _ => False

/-- Actions that take no step of an encryption themselves: no members are tracked, no
room key is shared, and no event of a client leaves. -/
def Act.preparing : Act → Prop
  | .olm _ (.updateTrackedUsers _) | .olm _ (.getMissingSessions _) => False
  | .olm _ (.shareRoomKey ..) | .olm _ (.encryptRoomEventRaw ..) => False
  | .passthrough _ | .request _ (.original _) _ => False
  | .request _ (.sendEvent _ event_type _) _ => event_type ≠ "m.room.encrypted"
  | _ => True

/-- Actions that send an event on, a client's or the machine's. -/
def Act.sends : Act → Prop
  | .passthrough _ | .request _ (.original _) _ | .request _ (.sendEvent ..) _ => True
  | _ => False

/-- The same as preparing, with no event sent at all. -/
def Act.composing (a : Act) : Prop := a.preparing ∧ ¬ a.sends

/-- Serving the machine's own requests, which sends nobody else's. -/
def Act.tending (a : Act) : Prop := a.serving ∧ a.preparing

theorem Act.serving.quiet {a : Act} (h : a.serving) : a.quiet := by
  unfold Act.quiet
  split <;> first | exact h.elim | trivial

theorem Act.decrypting.quiet {a : Act} (h : a.decrypting) : a.quiet := by
  unfold Act.quiet
  split <;> first | exact h.elim | trivial

theorem Act.quiet.mild {a : Act} (h : a.quiet) : a.mild := by
  unfold Act.mild
  split <;> first | exact h.elim | trivial

/-- The proxy's data, and the state of everything outside. -/
structure State (ω : Type) where
  accounts : AccountContext → Account
  sessions : AList fun _ : String => AccountContext
  refused : List DeviceConflict
  locked : Lock → Bool
  world : ω

namespace State
variable {ω : Type}

def account (s : State ω) (ctx : AccountContext) (acc : Account) : State ω :=
  { s with accounts := Function.update s.accounts ctx acc }

@[simp] theorem account_self (s : State ω) (ctx : AccountContext) (acc : Account) :
    (s.account ctx acc).accounts ctx = acc := Function.update_self ..
theorem account_ne (s : State ω) {ctx c : AccountContext} (h : c ≠ ctx) (acc : Account) :
    (s.account ctx acc).accounts c = s.accounts c := Function.update_of_ne h ..
@[simp] theorem account_world (s : State ω) (ctx : AccountContext) (acc : Account) :
    (s.account ctx acc).world = s.world := rfl
@[simp] theorem account_sessions (s : State ω) (ctx : AccountContext) (acc : Account) :
    (s.account ctx acc).sessions = s.sessions := rfl

end State

def SessionsAct.run {ω : Type} : (a : SessionsAct) → State ω → a.Ans × State ω
  | get token,s => (s.sessions.lookup token,s)
  | list,s => (s.sessions.entries.map Sigma.snd,s)
  | insert token ctx,s => ((),{ s with sessions := s.sessions.insert token ctx })
  | remove token,s => ((),{ s with sessions := s.sessions.erase token })
  | refuse c,s => ((),{ s with
      refused := (s.refused.filter fun other =>
        (other.user_id,other.device_id) ≠ (c.user_id,c.device_id)) ++ [c] })
  | settle user_id,s => ((),{ s with refused := s.refused.filter fun c => c.user_id ≠ user_id })

variable [Codec]

/-- What the machine, the homeserver and the disk may answer, and the state
they are left in. -/
abbrev Outside (ω : Type) := (a : Act) → ω → a.Ans → ω → Prop

variable {ω : Type}

/-- The effect of an action and its possible answers. -/
def sem (O : Outside ω) : Sem Act Act.Ans (State ω)
  | .rooms ctx a,s,r,s' =>
      r = (a.run (s.accounts ctx).rooms).1 ∧
        s' = s.account ctx { s.accounts ctx with rooms := (a.run (s.accounts ctx).rooms).2 }
  | .repairs ctx a,s,r,s' =>
      r = (a.run (s.accounts ctx).repairs).1 ∧
        s' = s.account ctx { s.accounts ctx with repairs := (a.run (s.accounts ctx).repairs).2 }
  | .seen ctx a,s,r,s' =>
      r = (a.run (s.accounts ctx).seen).1 ∧
        s' = s.account ctx { s.accounts ctx with seen := (a.run (s.accounts ctx).seen).2 }
  | .stats ctx now new dups keys,s,_,s' =>
      s' = s.account ctx { s.accounts ctx with stats := (s.accounts ctx).stats.add now new dups keys }
  -- Contexts are listed in no particular order.
  | .sessions .list,s,r,s' => r.Perm (s.sessions.entries.map Sigma.snd) ∧ s' = s
  | .sessions a,s,r,s' => r = (a.run s).1 ∧ s' = (a.run s).2
  | .lock l,s,_,s' => s.locked l = false ∧ s' = { s with locked := Function.update s.locked l true }
  | .unlock l,s,_,s' => s' = { s with locked := Function.update s.locked l false }
  | a,s,r,s' => O a s.world r s'.world ∧ s' = { s with world := s'.world }

/-- What an action does to an account. -/
inductive Touches (ctx : AccountContext) (acc : Account) : Act → Account → Prop
  | rooms (a : RoomsAct) : Touches ctx acc (.rooms ctx a) { acc with rooms := (a.run acc.rooms).2 }
  | repairs (a : RepairsAct) :
      Touches ctx acc (.repairs ctx a) { acc with repairs := (a.run acc.repairs).2 }
  | seen (a : SeenAct) : Touches ctx acc (.seen ctx a) { acc with seen := (a.run acc.seen).2 }
  | stats (now n d k : Nat) :
      Touches ctx acc (.stats ctx now n d k) { acc with stats := acc.stats.add now n d k }

variable {O : Outside ω} {a : Act} {s s' : State ω} {r : a.Ans}

theorem sem_account (h : sem O a s r s') (ctx : AccountContext) :
    s'.accounts ctx = s.accounts ctx ∨ Touches ctx (s.accounts ctx) a (s'.accounts ctx) := by
  have other : ∀ {c acc}, s' = s.account c acc → ctx ≠ c → s'.accounts ctx = s.accounts ctx :=
    fun he hc => he ▸ State.account_ne s hc _
  cases a with
  | rooms c a =>
      by_cases hc : ctx = c
      · subst hc
        rw [h.2,State.account_self]
        exact .inr (.rooms a)
      · exact .inl (other h.2 hc)
  | repairs c a =>
      by_cases hc : ctx = c
      · subst hc
        rw [h.2,State.account_self]
        exact .inr (.repairs a)
      · exact .inl (other h.2 hc)
  | seen c a =>
      by_cases hc : ctx = c
      · subst hc
        rw [h.2,State.account_self]
        exact .inr (.seen a)
      · exact .inl (other h.2 hc)
  | stats c now n d k =>
      by_cases hc : ctx = c
      · subst hc
        rw [h,State.account_self]
        exact .inr (.stats now n d k)
      · exact .inl (other h hc)
  | sessions a => cases a <;> exact .inl (h.2 ▸ rfl)
  | lock l => exact .inl (by rw [h.2])
  | unlock l => exact .inl (by rw [h])
  | _ => exact .inl (by rw [h.2])

/-- The parts of an account change by actions of their own only. -/
theorem rooms_of_sem (h : sem O a s r s') (ctx : AccountContext) :
    (s'.accounts ctx).rooms = (s.accounts ctx).rooms ∨
      ∃ x, a = .rooms ctx x ∧ (s'.accounts ctx).rooms = (x.run (s.accounts ctx).rooms).2 := by
  obtain he | ht := sem_account h ctx
  · exact .inl (by rw [he])
  · generalize s'.accounts ctx = acc at ht ⊢
    cases ht with
    | rooms x => exact .inr ⟨x,rfl,rfl⟩
    | _ => exact .inl rfl

theorem repairs_of_sem (h : sem O a s r s') (ctx : AccountContext) :
    (s'.accounts ctx).repairs = (s.accounts ctx).repairs ∨
      ∃ x, a = .repairs ctx x ∧ (s'.accounts ctx).repairs = (x.run (s.accounts ctx).repairs).2 := by
  obtain he | ht := sem_account h ctx
  · exact .inl (by rw [he])
  · generalize s'.accounts ctx = acc at ht ⊢
    cases ht with
    | repairs x => exact .inr ⟨x,rfl,rfl⟩
    | _ => exact .inl rfl

theorem seen_of_sem (h : sem O a s r s') (ctx : AccountContext) :
    (s'.accounts ctx).seen = (s.accounts ctx).seen ∨
      ∃ x, a = .seen ctx x ∧ (s'.accounts ctx).seen = (x.run (s.accounts ctx).seen).2 := by
  obtain he | ht := sem_account h ctx
  · exact .inl (by rw [he])
  · generalize s'.accounts ctx = acc at ht ⊢
    cases ht with
    | seen x => exact .inr ⟨x,rfl,rfl⟩
    | _ => exact .inl rfl

/-- The world outside changes by its own actions only. -/
theorem sem_world (h : sem O a s r s') : s'.world = s.world ∨ O a s.world r s'.world := by
  cases a with
  | rooms c a => exact .inl (by rw [h.2]; rfl)
  | repairs c a => exact .inl (by rw [h.2]; rfl)
  | seen c a => exact .inl (by rw [h.2]; rfl)
  | stats c now n d k => exact .inl (by rw [h]; rfl)
  | sessions a => cases a <;> exact .inl (h.2 ▸ rfl)
  | lock l => exact .inl (by rw [h.2])
  | unlock l => exact .inl (by rw [h])
  | _ => exact .inr h.1

/-- Actions whose effects are not the proxy's own. -/
def Act.outside : Act → Prop
  | .rooms .. | .repairs .. | .seen .. | .stats .. | .sessions _ | .lock _ | .unlock _ => False
  | _ => True

/-- What an action of the world outside does to it. -/
theorem sem_asked (ha : a.outside) (h : sem O a s r s') : O a s.world r s'.world := by
  cases a <;> first | exact ha.elim | exact h.1

theorem sem_inside (ha : ¬ a.outside) (h : sem O a s r s') : s'.world = s.world := by
  cases a with
  | rooms c a => rw [h.2]; rfl
  | repairs c a => rw [h.2]; rfl
  | seen c a => rw [h.2]; rfl
  | stats c now n d k => rw [h]; rfl
  | sessions a => cases a <;> exact h.2 ▸ rfl
  | lock l => rw [h.2]
  | unlock l => rw [h]
  | _ => exact (ha trivial).elim

theorem sem_outside {w : ω} (ha : a.outside) (h : O a s.world r w) :
    sem O a s r { s with world := w } := by
  cases a <;> first | exact ha.elim | exact ⟨h,rfl⟩

/-- The points at which a future waits, and can be dropped. -/
def Act.waits : Act → Prop
  | .rooms _ (.noteJoined ..) | .rooms _ (.noteLeft _) | .rooms _ (.lastUnreadNotifications _)
  | .repairs .. | .seen .. | .stats .. | .sessions (.refuse _) | .sessions (.settle _) | .unlock _
  | .spawn .. | .now | .hasStore _ | .openMedia _ | .mediaGet .. | .mediaInsert ..
  | .encryptAttachment _ | .recordFinished _ => False
  | _ => True

abbrev M := Prog Act Act.Ans
abbrev Fallible := ExceptT Error M

def act (a : Act) : M a.Ans := Prog.perform a

/-- One action of a fallible program, whose answer is not an error of it. -/
def step (a : Act) : Fallible a.Ans := ExceptT.lift (act a)

/-- A program whose error ends the one it is part of. -/
def attempt {α : Type} (p : M (Except Error α)) : Fallible α := ExceptT.mk p

/-- A call whose failure, with a message of its own, ends the program. -/
def call {α : Type} (p : M (Except String α)) : Fallible α :=
  attempt (p >>= fun r => pure (r.mapError Error.text))

/-- A request with the token's authority, and a JSON answer. -/
def json_request (token : String) (endpoint : Endpoint) (body : Option Value) :
    Fallible (Nat × Value) := call (act (.request token endpoint body))

def withContext {α : Type} (message : String) (p : Fallible α) : Fallible α :=
  p.adapt (Error.context message)

def fail {α : Type} (message : String) : Fallible α := throw (.text message)

/-- Runs a section under a lock, which is released however the section ends. -/
def withLock {α : Type} (l : Lock) (p : M α) : M α := do
  act (.lock l)
  let r ← p
  act (.unlock l)
  pure r

/-- Programs that answer a client's request. -/
abbrev ProxyM := ExceptT Abort M

def internally {α : Type} (p : Fallible α) : ProxyM α :=
  p.adapt fun e => .error (.internal e)

def fromUpstream {α : Type} (p : M (Except String α)) : ProxyM α :=
  ExceptT.mk (p >>= fun r => pure (r.mapError fun m => .error (.upstream m)))

def refuse {α : Type} (e : ProxyError) : ProxyM α := throw (.error e)

/-- A program for which `none` is a panic. -/
def orPanic {α : Type} (p : M (Option α)) : ProxyM α :=
  ExceptT.mk (p >>= fun r => pure (r.elim (.error .panic) .ok))

/-- What a status and a body are reported as. -/
def report (what : String) (status : Nat) (body : Value) : String :=
  what ++ " " ++ Codec.statusText status ++ ": " ++ Codec.display body

section
variable {α β : Type}

-- The type of an answer depends on the action, so it is no key for rewriting.
@[simp] theorem run_step (a : Act) :
    @ExceptT.run Error M (no_index a.Ans) (step a) = .act a fun r => .ret (.ok r) := rfl
@[simp] theorem run_attempt (p : M (Except Error α)) : (attempt p).run = p := rfl
@[simp] theorem act_bind (a : Act) (f : a.Ans → M β) :
    @Bind.bind M _ (no_index a.Ans) β (act a) f = .act a f := rfl
@[simp] theorem run_step_bind (a : Act) (f : a.Ans → Fallible β) :
    ExceptT.run (@Bind.bind Fallible _ (no_index a.Ans) β (step a) f) =
      .act a fun r => (f r).run := rfl
@[simp] theorem run_fail (message : String) :
    (fail message : Fallible α).run = .ret (.error (.text message)) := rfl

theorem run_call_bind (p : M (Except String α)) (f : α → Fallible β) :
    (call p >>= f).run = p >>= fun
      | .ok a => (f a).run
      | .error m => .ret (.error (.text m)) := by
  rw [ExceptT.run_bind]
  change ((p >>= fun r => .ret (r.mapError Error.text)) >>= _) = _
  rw [Prog.bind_assoc]
  congr
  funext r
  cases r <;> rfl

theorem run_lift_bind (p : M α) (f : α → Fallible β) :
    (ExceptT.lift p >>= f).run = p >>= fun a => (f a).run := by
  rw [ExceptT.run_bind,ExceptT.run_lift,← bind_pure_comp,Prog.bind_assoc]
  rfl

theorem run_withContext (message : String) (p : Fallible α) :
    (withContext message p).run = p.run >>= fun r => .ret (r.mapError (.context message)) := by
  change (Except.mapError _ <$> p.run) = _
  rw [← bind_pure_comp]
  rfl

theorem run_call (p : M (Except String α)) :
    (call p).run = p >>= fun r => .ret (r.mapError Error.text) := rfl

theorem run_internally (p : Fallible α) :
    (internally p).run = p.run >>= fun r => .ret (r.mapError fun e => .error (.internal e)) := by
  change (Except.mapError _ <$> p.run) = _
  rw [← bind_pure_comp]
  rfl

theorem run_fromUpstream (p : M (Except String α)) :
    (fromUpstream p).run = p >>= fun r => .ret (r.mapError fun m => .error (.upstream m)) := rfl

theorem run_orPanic (p : M (Option α)) :
    (orPanic p).run = p >>= fun r => .ret (r.elim (.error .panic) .ok) := rfl

@[simp] theorem run_refuse (e : ProxyError) :
    (refuse e : ProxyM α).run = .ret (.error (.error e)) := rfl

theorem withLock_eq (l : Lock) (p : M α) :
    withLock l p = .act (.lock l) fun _ => p >>= fun r => .act (.unlock l) fun _ => .ret r := rfl

end

/-- A request to the homeserver whose failure ends the program. -/
theorem from_upstream_exec {p : M (Except String Reply)} {α : Type} {b : α} {g : Reply → ProxyM α}
    (h : Prog.Exec (sem O) (fromUpstream p >>= g).run s (.ok b) s') :
    ∃ reply s₁, Prog.Exec (sem O) p s (.ok reply) s₁ ∧
      Prog.Exec (sem O) (g reply).run s₁ (.ok b) s' := by
  obtain ⟨reply,s₁,hp,h⟩ | ⟨e,_,he⟩ := Prog.exec_exceptBind.mp h
  · rw [run_fromUpstream] at hp
    obtain ⟨r,s₂,hp,hret⟩ := Prog.exec_bind.mp hp
    cases r with
    | error m => cases hret
    | ok reply =>
        cases hret
        exact ⟨reply,s₁,hp,h⟩
  · cases he

section
variable {α : Type} {P : Act → Prop}

@[simp] theorem act_does (a : Act) :
    @Prog.Does Act Act.Ans (no_index a.Ans) P (act a) ↔ P a := by
  simp [act,Prog.perform]

@[simp] theorem step_does (a : Act) :
    @Prog.Does Act Act.Ans (no_index (Except Error a.Ans)) P (step a).run ↔ P a := by
  simp

@[simp] theorem attempt_does (p : M (Except Error α)) : (attempt p).run.Does P ↔ p.Does P := Iff.rfl

@[simp] theorem call_does (p : M (Except String α)) : (call p).run.Does P ↔ p.Does P := by
  rw [run_call]
  exact Prog.does_bind_ret ..

@[simp] theorem json_request_does (token : String) (e : Endpoint) (body : Option Value) :
    (json_request token e body).run.Does P ↔ P (.request token e body) := by
  rw [json_request,call_does]
  exact act_does _

@[simp] theorem withContext_does (message : String) (p : Fallible α) :
    (withContext message p).run.Does P ↔ p.run.Does P := by
  rw [run_withContext]
  exact Prog.does_bind_ret ..

@[simp] theorem fail_does (message : String) : (fail message : Fallible α).run.Does P := by
  simp

@[simp] theorem pure_does (a : α) : (pure a : Fallible α).run.Does P := trivial
@[simp] theorem proxy_pure_does (a : α) : (pure a : ProxyM α).run.Does P := trivial

@[simp] theorem lift_does (p : M α) : (ExceptT.lift p : Fallible α).run.Does P ↔ p.Does P := by
  rw [ExceptT.run_lift,← bind_pure_comp]
  exact Prog.does_bind_ret ..

@[simp] theorem proxy_lift_does (p : M α) : (ExceptT.lift p : ProxyM α).run.Does P ↔ p.Does P := by
  rw [ExceptT.run_lift,← bind_pure_comp]
  exact Prog.does_bind_ret ..

@[simp] theorem internally_does (p : Fallible α) :
    (internally p).run.Does P ↔ p.run.Does P := by
  rw [run_internally]
  exact Prog.does_bind_ret ..

@[simp] theorem fromUpstream_does (p : M (Except String α)) :
    (fromUpstream p).run.Does P ↔ p.Does P := by
  rw [run_fromUpstream]
  exact Prog.does_bind_ret ..

@[simp] theorem orPanic_does (p : M (Option α)) : (orPanic p).run.Does P ↔ p.Does P := by
  rw [run_orPanic]
  exact Prog.does_bind_ret ..

@[simp] theorem refuse_does (e : ProxyError) : (refuse e : ProxyM α).run.Does P := by
  simp

theorem withLock_does {l : Lock} {p : M α} (hl : P (.lock l)) (hp : p.Does P)
    (hu : P (.unlock l)) : (withLock l p).Does P := by
  rw [withLock_eq]
  exact ⟨hl,fun _ => hp.bind fun _ => ⟨hu,fun _ => trivial⟩⟩

end

section
variable {α : Type} {es : List (Sigma Act.Ans)}

theorem withContext_did {message : String} {p : Fallible α} {x : α}
    (h : (withContext message p).run.Did es (.ret (.ok x))) : p.run.Did es (.ret (.ok x)) := by
  rw [run_withContext] at h
  obtain ⟨r,hr,hp⟩ := Prog.did_map h
  cases r with
  | ok y =>
      cases hr
      exact hp
  | error e => cases hr

theorem withContext_did_act {message : String} {p : Fallible α} {a : Act}
    {k : a.Ans → M (Except Error α)} (h : (withContext message p).run.Did es (.act a k)) :
    ∃ k', p.run.Did es (.act a k') := by
  rw [run_withContext] at h
  exact Prog.did_map_act h

theorem internally_did {p : Fallible α} {x : α}
    (h : (internally p).run.Did es (.ret (.ok x))) : p.run.Did es (.ret (.ok x)) := by
  rw [run_internally] at h
  obtain ⟨r,hr,hp⟩ := Prog.did_map h
  cases r with
  | ok y =>
      cases hr
      exact hp
  | error e => cases hr

theorem internally_did_act {p : Fallible α} {a : Act} {k : a.Ans → M (Except Abort α)}
    (h : (internally p).run.Did es (.act a k)) : ∃ k', p.run.Did es (.act a k') := by
  rw [run_internally] at h
  exact Prog.did_map_act h

/-- A section under a lock has taken it, and released it when it has ended. -/
theorem withLock_did {l : Lock} {p : M α} {x : α} (h : (withLock l p).Did es (.ret x)) :
    ∃ es', es = ⟨.lock l,()⟩ :: (es' ++ [⟨.unlock l,()⟩]) ∧ p.Did es' (.ret x) := by
  rw [withLock_eq] at h
  cases h with
  | cons h =>
      obtain ⟨es₁,es₂,y,rfl,hp,h⟩ := Prog.did_bind h
      cases h with
      | cons h =>
          cases h
          exact ⟨es₁,rfl,hp⟩

theorem withLock_did_act {l : Lock} {p : M α} {a : Act} {k : a.Ans → M α} (hl : a ≠ .lock l)
    (hu : a ≠ .unlock l) (h : (withLock l p).Did es (.act a k)) :
    ∃ es' k', es = ⟨.lock l,()⟩ :: es' ∧ p.Did es' (.act a k') := by
  rw [withLock_eq] at h
  cases h with
  | nil => exact (hl rfl).elim
  | cons h =>
      obtain ⟨k',h⟩ | ⟨es₁,es₂,y,rfl,_,h⟩ := Prog.did_bind_act h
      · exact ⟨_,k',rfl,h⟩
      · cases h with
        | nil => exact (hu rfl).elim
        | cons h => cases h

/-- A call that did not fail was answered. -/
theorem call_did {a : Act} {f : a.Ans → Except String α} {x : α}
    (h : (call (.act a fun r => .ret (f r))).run.Did es (.ret (.ok x))) :
    ∃ r, f r = .ok x ∧ es = [⟨a,r⟩] := by
  cases h with
  | @cons _ _ r _ _ h =>
      cases hr : f r with
      | ok y =>
          simp only [hr] at h
          cases h
          exact ⟨r,hr,rfl⟩
      | error e =>
          simp only [hr] at h
          cases h

end

end EmentE2ee
