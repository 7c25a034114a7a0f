import EmentE2ee.Concurrent.Notes
import EmentE2ee.Crypto.Repair
import EmentE2ee.Json.Update

/-!
# What bodies tell of rooms

The events of a body's state sections, and state events in timelines, tell that a room is
encrypted, who may see its history, and that its members have changed. Passes over a body
note for the rooms exactly what its events tell, in their order, whatever is answered.
-/
namespace EmentE2ee

open Concurrent
open Json (Value)

/-- What a state event tells of its room. -/
inductive Telling where
  | encrypted
  | visibility (visibility : String)
  | membership

variable [Codec]

def telling (event : Value) : Option Telling :=
  if ((event.get "state_key").bind Value.asStr).isNone then none
  else
    match (event.get "type").bind Value.asStr with
    | some "m.room.encryption" => (encryptionEvent event).map fun _ => .encrypted
    | some "m.room.history_visibility" =>
        ((event.pointer ["content","history_visibility"]).bind Value.asStr).map .visibility
    | some "m.room.member" => some .membership
    | _ => none

omit [Codec] in
theorem telling_encrypted {event : Value} (h : (encryptionEvent event).isSome) :
    telling event = some .encrypted := by
  obtain ⟨settings,hset⟩ := Option.isSome_iff_exists.mp h
  have hboth : ¬((event.get "state_key").bind Value.asStr).isNone = true ∧
      (event.get "type").bind Value.asStr = some "m.room.encryption" := by
    unfold encryptionEvent at hset
    split_ifs at hset with hkey htype
    exact ⟨hkey,htype⟩
  rw [telling,if_neg hboth.1,hboth.2,hset]
  rfl

omit [Codec] in
theorem telling_membership {event : Value}
    (hkey : ((event.get "state_key").bind Value.asStr).isSome)
    (htype : (event.get "type").bind Value.asStr = some "m.room.member") :
    telling event = some .membership := by
  have hnot : ¬((event.get "state_key").bind Value.asStr).isNone = true := fun hnone => by
    rw [Option.isNone_iff_eq_none.mp hnone] at hkey
    cases hkey
  rw [telling,if_neg hnot,htype]
  rfl

/-- What the events of a section tell of the section's room. -/
def sectionTells (room_id : RoomId) (events : Option Value) : List (RoomId × Telling) :=
  (((events.bind Value.asArray).getD []).filterMap telling).map (room_id,·)

def roomTells (room : String × Value) : List (RoomId × Telling) :=
  (parseRoomId room.1).elim [] fun room_id =>
    sectionTells room_id (room.2.pointer ["state","events"]) ++
      sectionTells room_id (room.2.pointer ["timeline","events"])

def roomsTell (rooms : Value) (sec : Section) : List (RoomId × Telling) :=
  (((rooms.get sec.name).bind Value.asObject).getD []).flatMap roomTells

/-- What the body of a sync tells. -/
def syncTells (body : Value) : List (RoomId × Telling) :=
  (body.get "rooms").elim [] fun rooms => roomsTell rooms .join ++ roomsTell rooms .leave

/-- What an action notes of an account's rooms. -/
def noted (ctx : AccountContext) : Act → Option (RoomId × Telling)
  | .rooms c (.markEncrypted room_id) => if c = ctx then some (room_id,.encrypted) else none
  | .rooms c (.setHistoryVisibility room_id visibility) =>
      if c = ctx then some (room_id,.visibility visibility) else none
  | .rooms c (.invalidateMembers room_id) => if c = ctx then some (room_id,.membership) else none
  | _ => none

section
variable {ctx : AccountContext}

/-- Programs that note exactly these things. -/
abbrev Notes {α : Type} (ctx : AccountContext) (told : List (RoomId × Telling)) (p : M α)
    (Q : α → Prop) : Prop := p.Writes (noted ctx) Q told

theorem notes_nothing {α : Type} {P : Act → Prop} (hP : ∀ a, P a → noted ctx a = none) {p : M α}
    (h : p.Does P) : Notes ctx [] p fun _ => True := .nothing hP h

theorem scan_state_event_notes (room_id : RoomId) (event : Value) :
    Notes ctx ((telling event).map (room_id,·)).toList (scan_state_event ctx room_id event)
      fun _ => True := by
  have hact : ∀ (a : RoomsAct) (t : Telling), noted ctx (.rooms ctx a) = some (room_id,t) →
      ∀ {p : a.Ans → M Unit}, (∀ r, Notes ctx [] (p r) fun _ => True) →
        Notes ctx [(room_id,t)] (act (.rooms ctx a) >>= p) fun _ => True := by
    intro a t ha p hp
    exact ⟨[],by rw [ha]; rfl,hp⟩
  by_cases hkey : ((event.get "state_key").bind Value.asStr).isNone
  · rw [scan_state_event,telling,if_pos hkey,if_pos hkey]
    exact ⟨rfl,trivial⟩
  rw [scan_state_event,if_neg hkey]
  generalize htype : (event.get "type").bind Value.asStr = type
  split
  · have htells : telling event =
        ((event.get "content").bind room_settings_from_content).map fun _ => .encrypted := by
      rw [telling,if_neg hkey,htype]
      simp only [encryptionEvent,if_neg hkey,if_pos htype]
    rw [htells]
    cases (event.get "content").bind room_settings_from_content with
    | none => exact ⟨rfl,trivial⟩
    | some settings =>
        exact hact (.markEncrypted room_id) .encrypted (if_pos rfl) fun _ => ⟨[],rfl,fun _ => ⟨rfl,trivial⟩⟩
  · have htells : telling event =
        ((event.pointer ["content","history_visibility"]).bind Value.asStr).map .visibility := by
      rw [telling,if_neg hkey,htype]
      rfl
    rw [htells]
    cases (event.pointer ["content","history_visibility"]).bind Value.asStr with
    | none => exact ⟨rfl,trivial⟩
    | some visibility => exact ⟨[],by simp [noted],fun _ => ⟨rfl,trivial⟩⟩
  · have htells : telling event = some .membership := by
      rw [telling,if_neg hkey,htype]
      rfl
    rw [htells]
    exact ⟨[],by simp [noted],fun _ => ⟨rfl,trivial⟩⟩
  · next hencryption hvisibility hmember =>
      have htells : telling event = none := by
        rw [telling,if_neg hkey,htype]
        split
        · exact absurd rfl hencryption
        · exact absurd rfl hvisibility
        · exact absurd rfl hmember
        · rfl
      rw [htells]
      exact ⟨rfl,trivial⟩

/-- A scan notes what its events tell. -/
theorem scan_state_events_notes (room_id : RoomId) (events : List Value) :
    Notes ctx ((events.filterMap telling).map (room_id,·)) (scan_state_events ctx room_id events)
      fun _ => True := by
  induction events with
  | nil => exact ⟨rfl,trivial⟩
  | cons event events ih =>
      have htells : ((event :: events).filterMap telling).map (room_id,·) =
          ((telling event).map (room_id,·)).toList ++ (events.filterMap telling).map (room_id,·) := by
        cases h : telling event <;> simp [h]
      rw [htells]
      exact (scan_state_event_notes room_id event).bind fun _ _ => ih

theorem scanArray_notes (room_id : RoomId) (events : Option Value) :
    Notes ctx (sectionTells room_id events) (scanArray ctx room_id events) fun _ => True := by
  unfold scanArray sectionTells
  cases events.bind Value.asArray with
  | none => exact ⟨rfl,trivial⟩
  | some events => exact scan_state_events_notes room_id events

omit [Codec] in
theorem decrypting_noted {a : Act} (h : a.decrypting) : noted ctx a = none := by
  unfold noted
  split <;> first | exact h.elim | rfl

theorem maybe_request_room_key_notes (room_id : RoomId) (raw : Value) (session_id : Option String) :
    Notes ctx [] (maybe_request_room_key ctx room_id raw session_id) fun _ => True := by
  cases session_id with
  | none => exact ⟨rfl,trivial⟩
  | some session_id =>
      refine ⟨[],rfl,fun fresh => ?_⟩
      cases fresh with
      | false => exact ⟨rfl,trivial⟩
      | true => exact ⟨[],rfl,fun _ => ⟨rfl,trivial⟩⟩

theorem decrypt_event_notes (room_id : RoomId) (placeholder : Placeholder) (event : Value) :
    Notes ctx [] (decrypt_event ctx room_id placeholder event) fun _ => True := by
  refine (notes_nothing (fun _ => decrypting_noted)
    (decrypt_does ctx room_id event)).after fun outcome _ => ?_
  cases outcome with
  | decrypted new_event => exact ⟨rfl,trivial⟩
  | untouched => exact ⟨rfl,trivial⟩
  | undecryptable reason session_id raw =>
      refine (maybe_request_room_key_notes room_id raw session_id).after fun _ _ => ?_
      cases placeholder with
      | repairable => exact ⟨[],rfl,fun _ => ⟨rfl,trivial⟩⟩
      | final => exact ⟨rfl,trivial⟩

theorem decryptArray_notes (room_id : RoomId) (events : Value) :
    Notes ctx [] (decryptArray ctx room_id events) fun _ => True := by
  unfold decryptArray
  split
  · next events =>
      refine Prog.Writes.bind_ret (Q := fun _ => True) ?_ fun _ _ => trivial
      induction events with
      | nil => exact ⟨rfl,trivial⟩
      | cons event events ih =>
          exact (decrypt_event_notes room_id .repairable event).after fun _ _ =>
            ih.bind_ret fun _ _ => trivial
  · exact ⟨rfl,trivial⟩

/-- The rewriting of a timeline, which comes after its events have been scanned. -/
theorem decrypt_timeline_notes (room_id : RoomId) (room : Value) :
    Notes ctx [] (room.updateM "timeline" (Value.updateM "events" (decryptArray ctx room_id)))
      fun _ => True := by
  have hevents : ∀ x, Notes ctx [] (Value.updateM "events" (decryptArray ctx room_id) x) fun _ => True :=
    fun x => (Value.writes_nothing_updateM (decryptArray_notes room_id) x).mono fun _ _ => trivial
  exact (Value.writes_nothing_updateM hevents room).mono fun _ _ => trivial

theorem process_room_notes (sec : Section) (room_id_str : String) (room : Value) :
    Notes ctx (roomTells (room_id_str,room)) (process_room ctx sec room_id_str room) fun _ => True := by
  unfold process_room roomTells
  cases parseRoomId room_id_str with
  | none => exact ⟨rfl,trivial⟩
  | some room_id =>
      have hmembership : Notes ctx [] (noteMembership ctx room_id room sec) fun _ => True := by
        cases sec <;> exact ⟨[],rfl,fun _ => ⟨rfl,trivial⟩⟩
      refine hmembership.after fun _ _ => (scanArray_notes room_id _).bind fun _ _ => ?_
      rw [← List.append_nil (sectionTells room_id (room.pointer ["timeline","events"]))]
      exact (scanArray_notes room_id _).bind fun _ _ => decrypt_timeline_notes room_id room

theorem process_rooms_notes (sec : Section) (rooms : Json.Map) :
    Notes ctx (rooms.flatMap roomTells) (process_rooms ctx sec rooms) fun _ => True := by
  induction rooms with
  | nil => exact ⟨rfl,trivial⟩
  | cons e rooms ih =>
      exact (process_room_notes sec e.1 e.2).bind fun _ _ => ih.bind_ret fun _ _ => trivial

theorem process_section_notes (sec : Section) (rooms : Value) :
    Notes ctx (roomsTell rooms sec) (process_section ctx sec rooms) fun rooms' =>
      ∀ k ≠ sec.name, rooms'.get k = rooms.get k := by
  have htell : roomsTell rooms sec = (rooms.get sec.name).elim [] fun v =>
      (v.asObject.getD []).flatMap roomTells := by
    unfold roomsTell
    cases rooms.get sec.name <;> rfl
  rw [htell]
  refine Value.writes_updateM (fun v => ?_) rooms
  cases v with
  | object m => exact (process_rooms_notes sec m).bind_ret fun _ _ => trivial
  | _ => exact ⟨rfl,trivial⟩

theorem decrypt_sync_body_notes (body : Value) :
    Notes ctx (syncTells body) (decrypt_sync_body ctx body) fun _ => True := by
  refine (Value.writes_updateM (fun rooms => ?_) body).mono fun _ _ => trivial
  refine (process_section_notes .join rooms).bind fun rooms' hrooms => ?_
  -- The rooms that were left are still as they came.
  have hleave : roomsTell rooms' .leave = roomsTell rooms .leave := by
    rw [roomsTell,hrooms Section.leave.name (by decide)]
    rfl
  rw [← hleave]
  exact (process_section_notes .leave rooms').mono fun _ _ => trivial

omit [Codec] in
theorem repairing_noted {delivered : List String} {a : Act} (h : a.repairing delivered) :
    noted ctx a = none := by
  unfold noted
  split <;> first | exact h.elim | rfl

/-- A sync's body is told of in full, in its order. -/
theorem process_sync_body_notes (body : Value) :
    Notes ctx (syncTells body) (process_sync_body ctx body) fun _ => True := by
  rw [← List.append_nil (syncTells body)]
  refine (decrypt_sync_body_notes body).bind fun body _ => Prog.Writes.bind_ret (Q := fun _ => True) ?_
    fun _ _ => trivial
  refine ⟨[],rfl,fun ready => ?_⟩
  dsimp only [Prog.bind]
  split_ifs
  · exact ⟨rfl,trivial⟩
  · exact notes_nothing (fun _ => repairing_noted) (repair_all_does ctx ..)

/-- Of the past, what the state section tells. -/
theorem process_messages_body_notes (room_id : RoomId) (body : Value) :
    Notes ctx (sectionTells room_id (body.get "state")) (process_messages_body ctx room_id body)
      fun _ => True := by
  rw [← List.append_nil (sectionTells room_id (body.get "state"))]
  exact (scanArray_notes room_id _).bind fun _ _ =>
    (Value.writes_nothing_updateM (decryptArray_notes room_id) body).mono fun _ _ => trivial

theorem process_context_body_notes (room_id : RoomId) (body : Value) :
    Notes ctx (sectionTells room_id (body.get "state")) (process_context_body ctx room_id body)
      fun _ => True := by
  rw [← List.append_nil (sectionTells room_id (body.get "state"))]
  have harray : ∀ k v, Notes ctx [] (Value.updateM k (decryptArray ctx room_id) v) fun _ => True :=
    fun k v => (Value.writes_nothing_updateM (decryptArray_notes room_id) v).mono fun _ _ => trivial
  exact (scanArray_notes room_id _).bind fun _ _ => (harray _ _).after fun body _ =>
    (harray _ _).after fun body _ =>
      (Value.writes_nothing_updateM (decrypt_event_notes room_id .repairable) body).mono fun _ _ => trivial

end
end EmentE2ee
