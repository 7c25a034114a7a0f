import EmentE2ee.Crypto.RepairAccounts
import EmentE2ee.Json.Shape
import Mathlib.Data.Fintype.EquivFin

/-!
# Bodies of unexpected shape

What a sync does with a body is looked up and left alone where it is missing or
of another type. Only a repair writes through indexes, and those panic on what
is neither an object nor null. The decryption pass changes no kind of any value,
so the body as it came decides whether a repair gets through.
-/
namespace EmentE2ee.SyncBodies

open Concurrent
open Json (Value)
open SyncRewrite (Marked synthetic_edit_total decrypt_marked)

/-- Whether an event can be appended to a joined room's timeline in a body. -/
def Takes (body : Value) (room_id : RoomId) : Prop :=
  match body.pointer ["rooms","join",room_id] with
  | some room => (room.pointer ["timeline","events"]).any Value.isArray = true ∨
      room.Assignable ["timeline","events"]
  | none => body.Assignable ["rooms","join",room_id]

section
variable [Codec]

/-- Whether that can be done for every room. -/
def Fits (body : Value) : Prop :=
  body.isObject = true → ∀ room_id, (parseRoomId room_id).isSome = true → Takes body room_id

section
variable (ctx : AccountContext)

theorem updateM_alike {k : String} {f : Value → M Value}
    (hf : ∀ v, (f v).Every (fun _ => True) (Value.Alike v)) (v : Value) :
    (v.updateM k f).Every (fun _ => True) (Value.Alike v) := by
  have hkind : (v.updateM k f).Every (fun _ => True) fun w => v.kind = w.kind := by
    cases v with
    | object m => exact .bind (Prog.does_true _) fun _ _ => rfl
    | _ => rfl
  refine (hkind.and (updateM_every hf v)).mono (fun _ h => trivial) ?_
  intro w ⟨hk,hother,hself⟩
  refine Value.alike_of_get hk fun k' => ?_
  by_cases he : k' = k
  · exact he ▸ hself
  · rw [hother k' he]
    cases v.get k' with
    | none => exact .inl ⟨rfl,rfl⟩
    | some x => exact .inr ⟨x,x,rfl,rfl,.refl x⟩

theorem decryptArray_alike (room_id : RoomId) (v : Value) :
    (decryptArray ctx room_id v).Every (fun _ => True) (Value.Alike v) := by
  unfold decryptArray
  split
  · exact .bind (Prog.does_true _) fun events _ => Value.alike_array _ events
  · exact .refl v

theorem process_room_alike (sec : Section) (room_id_str : String) (room : Value) :
    (process_room ctx sec room_id_str room).Every (fun _ => True) (Value.Alike room) := by
  unfold process_room
  split
  · exact .refl room
  · next room_id _ =>
      refine .bind (Prog.does_true _) fun _ _ => .bind (Prog.does_true _) fun _ _ =>
        .bind (Prog.does_true _) fun _ _ => ?_
      exact updateM_alike (updateM_alike (decryptArray_alike ctx room_id)) room

theorem process_section_alike (sec : Section) (rooms : Value) :
    (process_section ctx sec rooms).Every (fun _ => True) (Value.Alike rooms) := by
  refine updateM_alike (fun v => ?_) rooms
  split
  · next m =>
      have hrooms : (process_rooms ctx sec m).Every (fun _ => True) fun m' =>
          Value.Alike (.object m) (.object m') := by
        induction m with
        | nil => exact .refl _
        | cons e m ih =>
            refine (process_room_alike ctx sec e.1 e.2).bind fun room hroom => ?_
            exact ih.bind fun rooms hrooms => hroom.cons e.1 hrooms
      exact hrooms.bind fun _ h => h
  · exact .refl _

theorem decrypt_sync_body_alike (body : Value) :
    (decrypt_sync_body ctx body).Every (fun _ => True) (Value.Alike body) := by
  refine updateM_alike (fun rooms => ?_) body
  refine (process_section_alike ctx .join rooms).bind fun rooms' h => ?_
  exact (process_section_alike ctx .leave rooms').mono (fun _ h => h) fun _ h' => h.trans h'

end

omit [Codec] in
theorem takes_alike {v w : Value} (h : Value.Alike v w) (room_id : RoomId) :
    Takes v room_id ↔ Takes w room_id := by
  unfold Takes
  obtain ⟨hv,hw⟩ | ⟨x,y,hv,hw,hxy⟩ := h.pointer ["rooms","join",room_id]
  · rw [hv,hw]
    exact h.assignable _
  · rw [hv,hw]
    refine or_congr ?_ (hxy.assignable _)
    obtain ⟨hx,hy⟩ | ⟨a,b,hx,hy,hab⟩ := hxy.pointer ["timeline","events"]
    · rw [hx,hy]
    · rw [hx,hy]
      rw [Option.any_some,Option.any_some,Value.isArray_kind,Value.isArray_kind,hab.kind]

theorem fits_alike {v w : Value} (h : Value.Alike v w) : Fits v ↔ Fits w := by
  unfold Fits
  rw [Value.isObject_kind,Value.isObject_kind,h.kind]
  exact forall_congr' fun _ => forall₂_congr fun room_id _ => takes_alike h room_id

omit [Codec] in
theorem pushEvent_modify (room_id : RoomId) (event body : Value) :
    pushEvent room_id event body = Value.modify (appendEvent event) ["rooms","join",room_id] body :=
  rfl

omit [Codec] in
/-- Appending to an array that is there. -/
theorem modify_append {room : Value} {xs : List Value} (event : Value)
    (h : room.pointer ["timeline","events"] = some (.array xs)) :
    ∃ room', (room.indexMut "timeline" (Value.indexMut "events" fun
        | .array events => some (.array (events ++ [event]))
        | _ => none)) = some room' ∧
      room'.pointer ["timeline","events"] = some (.array (xs ++ [event])) := by
  have hsome := (Value.modify_isSome (fun
    | .array events => some (.array (events ++ [event]))
    | _ => none) ["timeline","events"] room).mpr ⟨Value.assignable_of_pointer h,by rw [h]; rfl⟩
  obtain ⟨room',hroom'⟩ := Option.isSome_iff_exists.mp hsome
  obtain ⟨x,hx,hpointer⟩ := Value.modify_pointer hroom'
  rw [h] at hx
  cases hx
  exact ⟨room',hroom',hpointer⟩

omit [Codec] in
/-- Where an event can be appended, the timeline is an array afterwards. -/
theorem appendEvent_some (event : Value) {room : Value}
    (h : (room.pointer ["timeline","events"]).any Value.isArray = true ∨
      room.Assignable ["timeline","events"]) : ∃ room', appendEvent event room = some room' ∧
      (room'.pointer ["timeline","events"]).any Value.isArray = true := by
  have happend : ∀ {room : Value} {xs : List Value},
      room.pointer ["timeline","events"] = some (.array xs) → ∃ room',
        (room.indexMut "timeline" (Value.indexMut "events" fun
          | .array events => some (.array (events ++ [event]))
          | _ => none)) = some room' ∧
        (room'.pointer ["timeline","events"]).any Value.isArray = true := by
    intro room xs hp
    obtain ⟨room',hroom',hp'⟩ := modify_append event hp
    exact ⟨room',hroom',by rw [hp']; rfl⟩
  by_cases harray : (room.pointer ["timeline","events"]).any Value.isArray = true
  · obtain ⟨v,hp,hv⟩ := (Option.any_eq_true ..).mp harray
    obtain ⟨xs,rfl⟩ := Value.isArray_iff.mp hv
    rw [appendEvent,if_pos harray]
    exact happend hp
  · have hsome := (Value.assign_isSome ["timeline","events"] room (.array [])).mpr
      (h.resolve_left harray)
    obtain ⟨room₁,hroom₁⟩ := Option.isSome_iff_exists.mp hsome
    have hmodify := hroom₁
    rw [Value.assign_modify] at hmodify
    obtain ⟨x,hx,hp⟩ := Value.modify_pointer hmodify
    cases hx
    rw [appendEvent,if_neg harray,hroom₁]
    exact happend hp

omit [Codec] in
theorem appendEvent_takes {event room : Value} (h : (appendEvent event room).isSome = true) :
    (room.pointer ["timeline","events"]).any Value.isArray = true ∨
      room.Assignable ["timeline","events"] := by
  by_cases harray : (room.pointer ["timeline","events"]).any Value.isArray = true
  · exact .inl harray
  · rw [appendEvent,if_neg harray] at h
    refine .inr ((Value.assign_isSome _ room (.array [])).mp ?_)
    cases hroom₁ : room.assign ["timeline","events"] (.array []) with
    | none => rw [hroom₁] at h; cases h
    | some room₁ => rfl

omit [Codec] in
/-- A room that takes an event takes another, and so do the other rooms. -/
theorem pushEvent_some {body : Value} {room_id : RoomId} (event : Value)
    (hbody : body.Assignable ["rooms","join",room_id])
    (h : (((body.pointer ["rooms","join",room_id]).getD .null).pointer
        ["timeline","events"]).any Value.isArray = true ∨
      ((body.pointer ["rooms","join",room_id]).getD .null).Assignable ["timeline","events"]) :
    ∃ body', pushEvent room_id event body = some body' ∧ Takes body' room_id ∧
      ∀ r ≠ room_id, Takes body r → Takes body' r := by
  obtain ⟨room',hroom',harray⟩ := appendEvent_some event h
  have hsome := (Value.modify_isSome (appendEvent event) ["rooms","join",room_id] body).mpr
    ⟨hbody,by rw [hroom']; rfl⟩
  obtain ⟨body',hbody'⟩ := Option.isSome_iff_exists.mp hsome
  obtain ⟨x,hx,hp⟩ := Value.modify_pointer hbody'
  rw [hroom'] at hx
  cases hx
  refine ⟨body',hbody',?_,fun r hr hold => ?_⟩
  · rw [Takes,hp]
    exact .inl harray
  · obtain ⟨hsame,hassign⟩ := Value.modify_beside ["rooms","join"] hr hbody'
    simp only [List.cons_append,List.nil_append] at hsame hassign
    rw [Takes] at hold ⊢
    rw [hsame]
    cases hr' : body.pointer ["rooms","join",r] with
    | some room => rw [hr'] at hold; exact hold
    | none => exact hassign

omit [Codec] in
theorem pointer_joined (body : Value) (room_id : RoomId) :
    ((body.pointer ["rooms","join"]).bind Value.asObject).bind (Json.Map.lookup room_id) =
      body.pointer ["rooms","join",room_id] := by
  rw [Value.pointer_cons,Value.pointer_cons]
  cases body.get "rooms" with
  | none => rfl
  | some rooms =>
      rw [Option.bind_some,Option.bind_some,Value.pointer_cons,Value.pointer_cons]
      cases rooms.get "join" with
      | none => rfl
      | some join =>
          exact (Option.bind_fun_some (join.get room_id)).symm

theorem Fits.push {body body' : Value} (h : Fits body) (hbody : body.isObject = true)
    {room_id : RoomId} (hself : Takes body' room_id) (hother : ∀ r ≠ room_id, Takes body r → Takes body' r) :
    Fits body' := by
  intro _ r hr
  by_cases he : r = room_id
  · exact he ▸ hself
  · exact hother r he (h hbody r hr)

section
variable (ctx : AccountContext)

/-- A repair goes into a body that fits, and the body still does. -/
theorem push_into_sync_fits {body : Value} (h : Fits body) {room_id : RoomId}
    (hroom : (parseRoomId room_id).isSome = true) (event : Value) :
    (push_into_sync ctx body room_id event).Every (fun _ => True) fun r =>
      ∃ b body', r = some (b,body') ∧ Fits body' := by
  unfold push_into_sync
  rw [pointer_joined]
  split_ifs with hbody hexists
  · obtain ⟨room,hp⟩ := Option.isSome_iff_exists.mp hexists
    have htakes := h hbody room_id hroom
    rw [Takes,hp] at htakes
    obtain ⟨body',hpush,hself,hother⟩ := pushEvent_some event (Value.assignable_of_pointer hp)
      (by rw [hp]; exact htakes)
    rw [hpush]
    exact ⟨true,body',rfl,h.push hbody hself hother⟩
  · refine ⟨trivial,fun unread => ?_⟩
    cases unread with
    | none => exact ⟨false,body,rfl,h⟩
    | some unread =>
        have hnone : body.pointer ["rooms","join",room_id] = none := by simpa using hexists
        have hassign := h hbody room_id hroom
        rw [Takes,hnone] at hassign
        obtain ⟨body₁,hbody₁⟩ := Option.isSome_iff_exists.mp
          ((Value.assign_isSome _ body (roomEntry unread)).mpr hassign)
        have hmodify := hbody₁
        rw [Value.assign_modify] at hmodify
        obtain ⟨x,hx,hp⟩ := Value.modify_pointer hmodify
        cases hx
        have hentry : ((roomEntry unread).pointer ["timeline","events"]).any Value.isArray = true := by
          cases unread <;> rfl
        obtain ⟨body',hpush,hself,hother⟩ := pushEvent_some event (Value.assignable_of_pointer hp)
          (.inl (by rw [hp]; exact hentry))
        have hbeside : ∀ r ≠ room_id, Takes body r → Takes body₁ r := by
          intro r hr hold
          obtain ⟨hsame,hthere⟩ := Value.modify_beside ["rooms","join"] hr hmodify
          simp only [List.cons_append,List.nil_append] at hsame hthere
          rw [Takes] at hold ⊢
          rw [hsame]
          cases hr' : body.pointer ["rooms","join",r] with
          | some room => rw [hr'] at hold; exact hold
          | none => exact hthere
        refine ⟨true,body',by simp [hbody₁,hpush],?_⟩
        exact h.push hbody hself fun r hr hold => hother r hr (hbeside r hr hold)
  · exact ⟨false,body,rfl,h⟩

/-- The repairs of the queue are in rooms. -/
def InRooms : (a : Act) → a.Ans → Prop
  | .repairs _ .takeReady,taken => ∀ r ∈ taken, (parseRoomId r.room_id).isSome = true
  | _,_ => True

theorem repair_all_fits (delivered : List String) {repairs : List PendingRepair}
    (hrooms : ∀ r ∈ repairs, (parseRoomId r.room_id).isSome = true) (n : Nat) {body : Value}
    (h : Fits body) :
    (repair_all ctx delivered repairs n body).Every (fun _ => True) (· ≠ none) := by
  induction repairs generalizing n body with
  | nil => exact fun he => by cases he
  | cons repair rest ih =>
      have hrest : ∀ r ∈ rest, (parseRoomId r.room_id).isSome = true := fun r hr =>
        hrooms r (List.mem_cons_of_mem _ hr)
      have hroom := hrooms repair List.mem_cons_self
      unfold repair_all
      split_ifs
      · exact ih hrest n h
      refine (decrypt_marked ctx repair.room_id repair.event).bind fun outcome hmarked => ?_
      cases outcome with
      | undecryptable reason session_id raw => exact ⟨trivial,fun _ => ih hrest n h⟩
      | untouched => exact ⟨trivial,fun _ => ih hrest n h⟩
      | decrypted plain =>
          obtain ⟨edit,hedit⟩ := synthetic_edit_total (hmarked plain rfl)
          dsimp only
          rw [hedit]
          cases edit with
          | none => exact ih hrest n h
          | some edit =>
              refine (push_into_sync_fits ctx h hroom edit).bind fun pushed hpushed => ?_
              obtain ⟨b,body',rfl,h'⟩ := hpushed
              cases b with
              | true => exact ih hrest (n + 1) h'
              | false => exact ih hrest n h'

theorem process_sync_body_fits {body : Value} (h : Fits body) :
    (process_sync_body ctx body).EveryWhile InRooms (fun _ => True) (· ≠ none) := by
  have hpass := (decrypt_sync_body_alike ctx body).everyWhile (N := InRooms)
  refine hpass.bind fun body₁ halike => ?_
  have hfits := (fits_alike halike).mp h
  have hinject : (inject ctx body₁).EveryWhile InRooms (fun _ => True) (· ≠ none) := by
    rw [RepairAccounts.inject_eq]
    exact ⟨trivial,fun ready hready => (repair_all_fits ctx _ hready 0 hfits).everyWhile⟩
  refine hinject.bind fun injected hsome => ?_
  intro he
  exact hsome (Option.map_eq_none_iff.mp he)

theorem answered (a : Act) : ∃ r, InRooms a r := by
  cases a with
  | rooms ctx a => cases a <;> exact ⟨default,trivial⟩
  | repairs ctx a =>
      cases a with
      | takeReady => exact ⟨[],nofun⟩
      | _ => exact ⟨default,trivial⟩
  | seen ctx a =>
      cases a with
      | mark incoming => exact ⟨.error (.text ""),trivial⟩
      | forgetAll keys => exact ⟨(),trivial⟩
  | sessions a => cases a <;> exact ⟨default,trivial⟩
  | olm ctx a =>
      cases a with
      | backupEnabled => exact ⟨true,trivial⟩
      | _ => exact ⟨.error "",trivial⟩
  | mediaGet _ _ => exact ⟨none,trivial⟩
  | hasStore _ => exact ⟨true,trivial⟩
  | poll _ _ => exact ⟨none,trivial⟩
  | stats _ _ _ _ _ => exact ⟨(),trivial⟩
  | lock _ => exact ⟨(),trivial⟩
  | unlock _ => exact ⟨(),trivial⟩
  | spawn _ _ => exact ⟨(),trivial⟩
  | recordFinished _ => exact ⟨(),trivial⟩
  | now => exact ⟨0,trivial⟩
  | _ => exact ⟨.error "",trivial⟩

omit [Codec] in
/-- Where an event cannot be appended, trying to panics. -/
theorem pushEvent_none {body : Value} {room_id : RoomId} (event : Value)
    (h : ¬ Takes body room_id) {room : Value} (hp : body.pointer ["rooms","join",room_id] = some room) :
    pushEvent room_id event body = none := by
  rw [pushEvent_modify,← Option.not_isSome_iff_eq_none]
  intro hsome
  have happend := ((Value.modify_isSome (appendEvent event) _ body).mp hsome).2
  rw [hp] at happend
  rw [Takes,hp] at h
  exact h (appendEvent_takes happend)

theorem push_into_sync_panics {body : Value} {room_id : RoomId} {event : Value}
    {Q : Option (Bool × Value) → Prop} (hbody : body.isObject = true) (h : ¬ Takes body room_id)
    (hq : (push_into_sync ctx body room_id event).EveryWhile InRooms (fun _ => True) Q) : Q none := by
  unfold push_into_sync at hq
  rw [pointer_joined,if_pos hbody] at hq
  cases hp : body.pointer ["rooms","join",room_id] with
  | some room =>
      rw [hp,if_pos (by rfl),pushEvent_none event h hp] at hq
      exact hq
  | none =>
      rw [hp,if_neg (by simp)] at hq
      -- The tracker takes the client to be in the room.
      have hjoined := hq.2 (some none) trivial
      have hassign : body.assign ["rooms","join",room_id] (roomEntry none) = none := by
        rw [Takes,hp] at h
        rw [← Option.not_isSome_iff_eq_none,Value.assign_isSome]
        exact h
      change Q _ at hjoined
      rwa [hassign] at hjoined

/-- A message with nothing in it. -/
def message (event_id : String) : Json.Map :=
  [("content",.object []),("event_id",.string event_id),("type",.string "m.room.message")]

def encrypted (event_id : String) : Value :=
  .object [("event_id",.string event_id),("type",.string "m.room.encrypted")]

omit [Codec] in
theorem message_edit (event_id : String) (event info : Value) :
    RepairAccounts.canEdit (mergeUnsigned event info (message event_id)) = true := by
  have hget : ∀ k ≠ "unsigned", (mergeUnsigned event info (message event_id)).get k =
      (message event_id).lookup k := fun k hk => RepairAccounts.mergeUnsigned_get hk
  unfold RepairAccounts.canEdit eventId newContent
  rw [hget _ (by decide),hget _ (by decide),hget _ (by decide)]
  rfl

/-- An event that the machine decrypts to a message gets its edit. -/
theorem decrypt_message (hraw : ∀ m : Json.Map, (Codec.toRaw (.object m)).isSome = true)
    (hread : ∀ m : Json.Map, ∃ v, Codec.fromRaw v = some (.object m)) {room_id : RoomId}
    {event_id : String} {Q : Decryption → Prop}
    (h : (decrypt ctx room_id (encrypted event_id)).EveryWhile InRooms (fun _ => True) Q) :
    ∃ plain edit, synthetic_edit plain = some (some edit) ∧ Q (.decrypted plain) := by
  obtain ⟨raw,hraw⟩ := Option.isSome_iff_exists.mp
    (hraw [("event_id",.string event_id),("type",.string "m.room.encrypted")])
  obtain ⟨v,hread⟩ := hread (message event_id)
  have hdecrypt := h.and (decrypt_marked ctx room_id (encrypted event_id)).everyWhile
  unfold decrypt at hdecrypt
  rw [if_pos (by rfl)] at hdecrypt
  rw [encrypted] at hdecrypt
  simp only [hraw] at hdecrypt
  have hanswer := hdecrypt.2 (.ok (.decrypted v .null)) trivial
  simp only [Prog.bind,hread] at hanswer
  obtain ⟨_,hfed⟩ := hanswer.of_bind.exists_result answered
  have hharvest := hfed.of_bind.and (RepairAccounts.harvest_content ctx _).everyWhile
  obtain ⟨plain,⟨hq,hmarked⟩,_,hcan⟩ := hharvest.exists_result answered
  rw [message_edit] at hcan
  obtain ⟨_,edit,_,hedit,_⟩ := RepairAccounts.synthetic_edit_some (hmarked plain rfl) hcan
  exact ⟨plain,edit,hedit,hq⟩

omit [Codec] in
theorem exists_fresh (ids : List String) : ∃ id, id ∉ ids := by
  obtain ⟨id,hid⟩ := Infinite.exists_notMem_finset ids.toFinset
  exact ⟨id,fun h => hid (List.mem_toFinset.mpr h)⟩

theorem fits_of_process (hraw : ∀ m : Json.Map, (Codec.toRaw (.object m)).isSome = true)
    (hread : ∀ m : Json.Map, ∃ v, Codec.fromRaw v = some (.object m)) {body : Value}
    (h : (process_sync_body ctx body).EveryWhile InRooms (fun _ => True) (· ≠ none)) :
    Fits body := by
  intro hbody room_id hroom
  by_contra hnot
  have hpass := h.of_bind.and (decrypt_sync_body_alike ctx body).everyWhile
  obtain ⟨body₁,hrest,halike⟩ := hpass.exists_result answered
  have hbody₁ : body₁.isObject = true := by
    rwa [Value.isObject_kind,← halike.kind,← Value.isObject_kind]
  have hnot₁ : ¬ Takes body₁ room_id := fun ht => hnot ((takes_alike halike room_id).mpr ht)
  have hinject := hrest.of_bind
  rw [RepairAccounts.inject_eq] at hinject
  -- The machine can now read an event of the room that this body does not deliver.
  obtain ⟨event_id,hfresh⟩ := exists_fresh (delivered_event_ids body₁)
  have htaken := hinject.2 [⟨room_id,event_id,none,encrypted event_id⟩]
    (fun r hr => by rw [List.mem_singleton.mp hr]; exact hroom)
  dsimp only at htaken
  rw [repair_all,if_neg hfresh] at htaken
  obtain ⟨plain,edit,hedit,hq⟩ := decrypt_message ctx hraw hread htaken.of_bind
  dsimp only at hq
  rw [hedit] at hq
  exact push_into_sync_panics ctx hbody₁ hnot₁ hq.of_bind rfl

/-- Processing a body never panics, whatever is queued, tracked and answered, if
and only if its containers take an event wherever a repair could put one. -/
theorem process_sync_body_survives
    (hraw : ∀ m : Json.Map, (Codec.toRaw (.object m)).isSome = true)
    (hread : ∀ m : Json.Map, ∃ v, Codec.fromRaw v = some (.object m)) (body : Value) :
    (process_sync_body ctx body).EveryWhile InRooms (fun _ => True) (· ≠ none) ↔ Fits body :=
  ⟨fits_of_process ctx hraw hread,process_sync_body_fits ctx⟩

end
end

local instance : Codec := .plain (fun _ => none) some fun _ _ => 0

open SyncRewrite (bob)
open Promises (pendingUnread)
open RepairAccounts (keyed joined topic topic_edit decrypt_unread afterTaking inject_eq)

def timelineOf (events : List Value) : Value := .object [("timeline",.object [("events",.array events)])]

/-- A body with one room that the client has joined. -/
def oneRoom (events : List Value) : Value :=
  .object [("rooms",.object [("join",.object [("!r",timelineOf events)])])]

theorem oneRoom_fits (events : List Value) : Fits (oneRoom events) := by
  intro _ room_id _
  by_cases hr : room_id = "!r"
  · subst hr
    exact .inl rfl
  · have hmiss : (Value.object [("!r",timelineOf events)]).get room_id = none := by
      simp [Json.Map.lookup,Ne.symm hr]
    have hnone : (oneRoom events).pointer ["rooms","join",room_id] = none := by
      change (Value.get room_id (.object [("!r",timelineOf events)])).bind _ = none
      rw [hmiss]
      rfl
    unfold Takes
    rw [hnone]
    exact ⟨rfl,rfl,rfl,trivial⟩

/-- The room's placeholder is repaired in its timeline. -/
theorem oneRoom_repaired : ∃ e s,
    Prog.Exec (sem keyed) (process_sync_body bob (oneRoom [])) joined (some (oneRoom [e])) s := by
  obtain ⟨e,he⟩ := topic_edit
  have hnew : pendingUnread.event_id ∉ delivered_event_ids (oneRoom []) := List.not_mem_nil
  have hpass : decrypt_sync_body bob (oneRoom []) =
      .act (.rooms bob (.noteJoined "!r" none)) fun _ => .ret (oneRoom []) := rfl
  have hrepair : ∀ t, Prog.Exec (sem keyed) (repair_all bob (delivered_event_ids (oneRoom []))
      [pendingUnread] 0 (oneRoom [])) t (some (1,oneRoom [e])) t := by
    intro t
    rw [repair_all,if_neg hnew]
    refine Prog.exec_bind.mpr ⟨.decrypted topic,t,decrypt_unread t,?_⟩
    dsimp only
    rw [he]
    exact .ret _ _
  have hinject : ∀ t : State Unit, (t.accounts bob).repairs.take_ready.1 = [pendingUnread] →
      Prog.Exec (sem keyed) (inject bob (oneRoom [])) t (some (1,oneRoom [e])) (afterTaking t) := by
    intro t ht
    rw [inject_eq]
    exact .act (r := [pendingUnread]) ⟨ht.symm,rfl⟩ (hrepair _)
  have hrest : ∀ t : State Unit, (t.accounts bob).repairs.take_ready.1 = [pendingUnread] →
      Prog.Exec (sem keyed) (inject bob (oneRoom []) >>= fun injected => pure (injected.map Prod.snd)) t
        (some (oneRoom [e])) (afterTaking t) := fun t ht =>
    Prog.exec_bind.mpr ⟨some (1,oneRoom [e]),_,hinject t ht,.ret _ _⟩
  rw [process_sync_body,hpass]
  exact ⟨e,_,.act (r := ()) ⟨rfl,rfl⟩ (hrest _ rfl)⟩

/-- A body with a room is safe, also while a placeholder of the room can be repaired. -/
theorem process_sync_body_survives_one :
    (process_sync_body bob (oneRoom [])).EveryWhile InRooms (fun _ => True) (· ≠ none) ∧
    ∃ e s, Prog.Exec (sem keyed) (process_sync_body bob (oneRoom [])) joined (some (oneRoom [e])) s := by
  refine ⟨?_,oneRoom_repaired⟩
  exact (process_sync_body_survives bob (fun m => rfl) (fun m => ⟨.object m,by rfl⟩) _).mpr
    (oneRoom_fits [])

def arrayRooms : Value := .object [("rooms",.array [])]

/-- A repair of a joined room panics on a body whose rooms are an array. -/
theorem array_rooms_panic :
    ∃ s, Prog.Exec (sem keyed) (process_sync_body bob arrayRooms) joined none s := by
  obtain ⟨e,he⟩ := topic_edit
  have hpass : decrypt_sync_body bob arrayRooms = .ret arrayRooms := rfl
  have hnew : pendingUnread.event_id ∉ delivered_event_ids arrayRooms := List.not_mem_nil
  have hpush : ∃ s, Prog.Exec (sem keyed) (push_into_sync bob arrayRooms "!r" e)
      (afterTaking joined) none s := ⟨_,.act (r := some none) ⟨rfl,rfl⟩ (.ret _ _)⟩
  obtain ⟨s,hpush⟩ := hpush
  refine ⟨s,?_⟩
  rw [process_sync_body,hpass,Prog.ret_bind]
  refine Prog.exec_bind.mpr ⟨none,s,?_,.ret _ _⟩
  rw [inject_eq]
  refine .act (r := [pendingUnread]) ⟨rfl,rfl⟩ ?_
  rw [repair_all,if_neg hnew]
  refine Prog.exec_bind.mpr ⟨.decrypted topic,_,decrypt_unread _,?_⟩
  dsimp only
  rw [he]
  exact Prog.exec_bind.mpr ⟨none,s,hpush,.ret _ _⟩

end EmentE2ee.SyncBodies
