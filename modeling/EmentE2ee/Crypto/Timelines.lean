import EmentE2ee.Crypto.SyncRewrite

/-!
# The timelines of joined rooms

Repairs only append to the timelines of a sync body, and an edit that is pushed
is in the timeline of its room, whatever shape the body has.
-/
namespace EmentE2ee.Timelines

open Concurrent
open Json (Value)
open SyncRewrite (entry)

def roomEvents (room : Value) : List Value :=
  ((room.pointer ["timeline","events"]).bind Value.asArray).getD []

/-- The timeline events of a joined room. -/
def events (r : String) (body : Value) : List Value := (entry r body).elim [] roomEvents

theorem entry_eq (r : String) (w : Value) :
    entry r w = ((w.get "rooms").bind (Value.get "join")).bind (Value.get r) := by
  unfold entry
  rw [Value.pointer_cons]
  cases w.get "rooms" with
  | none => rfl
  | some rooms =>
      rw [Option.bind_some,Option.bind_some,Value.pointer_cons]
      cases rooms.get "join" <;> rfl

theorem get_getD_null (k : String) (v : Option Value) :
    (v.getD .null).get k = v.bind (Value.get k) := by
  cases v <;> rfl

/-- Rewriting the entry of one room. -/
theorem entry_indexMut {r : String} {f : Value → Option Value} {w w' : Value}
    (h : w.indexMut "rooms" (Value.indexMut "join" (Value.indexMut r f)) = some w') :
    (∃ x, f ((entry r w).getD .null) = some x ∧ entry r w' = some x) ∧
      ∀ r' ≠ r, entry r' w' = entry r' w := by
  obtain ⟨rooms',hrooms,hrooms'⟩ := Value.get_indexMut_self h
  obtain ⟨join',hjoin,hjoin'⟩ := Value.get_indexMut_self hrooms
  obtain ⟨x,hx,hx'⟩ := Value.get_indexMut_self hjoin
  simp only [get_getD_null] at hjoin hx
  simp only [entry_eq,hrooms',hjoin',Option.bind_some]
  refine ⟨⟨x,hx,hx'⟩,fun r' hr => ?_⟩
  rw [Value.get_indexMut_ne (Ne.symm hr) hjoin,get_getD_null]

theorem pointer_events (v : Value) :
    v.pointer ["timeline","events"] = (v.get "timeline").bind (Value.get "events") := by
  rw [Value.pointer_cons]
  cases v.get "timeline" with
  | none => rfl
  | some tl =>
      rw [Option.bind_some,Option.bind_some,Value.pointer_cons]
      cases tl.get "events" <;> rfl

theorem events_indexMut {g : Value → Option Value} {room room' : Value}
    (h : room.indexMut "timeline" (Value.indexMut "events" g) = some room') :
    ∃ ev, g ((room.pointer ["timeline","events"]).getD .null) = some ev ∧
      room'.pointer ["timeline","events"] = some ev := by
  obtain ⟨tl,htl,htl'⟩ := Value.get_indexMut_self h
  obtain ⟨ev,hev,hev'⟩ := Value.get_indexMut_self htl
  rw [get_getD_null,← pointer_events] at hev
  refine ⟨ev,hev,?_⟩
  rw [pointer_events,htl']
  exact hev'

/-- One more event for a room that has an array of them. -/
theorem appended_events {e : Value} {g : Value → Option Value}
    (hg : ∀ v ev, g v = some ev → ∃ xs, v = .array xs ∧ ev = .array (xs ++ [e])) {room room' : Value}
    (h : room.indexMut "timeline" (Value.indexMut "events" g) = some room') :
    roomEvents room' = roomEvents room ++ [e] := by
  obtain ⟨ev,hev,hev'⟩ := events_indexMut h
  obtain ⟨xs,hxs,rfl⟩ := hg _ _ hev
  cases hp : room.pointer ["timeline","events"] with
  | none => rw [hp] at hxs; cases hxs
  | some v =>
      rw [hp,Option.getD_some] at hxs
      simp [roomEvents,hev',hp,hxs]

theorem appendEvent_events {e room room' : Value} (h : appendEvent e room = some room') :
    roomEvents room' = roomEvents room ++ [e] := by
  rw [appendEvent,Option.bind_eq_bind] at h
  split_ifs at h with harray
  · refine appended_events (fun v ev hv => ?_) h
    cases v with
    | array xs =>
        cases hv
        exact ⟨xs,rfl,rfl⟩
    | _ => cases hv
  · obtain ⟨room₁,h₁,h⟩ := Option.bind_eq_some_iff.mp h
    obtain ⟨ev₁,hev₁,hev₁'⟩ := events_indexMut h₁
    have hnew : roomEvents room₁ = [] := by
      cases hev₁
      rw [roomEvents,hev₁']
      rfl
    have hold : roomEvents room = [] := by
      unfold roomEvents
      cases hp : room.pointer ["timeline","events"] with
      | none => rfl
      | some v =>
          cases v with
          | array xs => exact (harray (by rw [hp]; rfl)).elim
          | _ => rfl
    rw [hold.trans hnew.symm]
    refine appended_events (fun v ev hv => ?_) h
    cases v with
    | array xs =>
        cases hv
        exact ⟨xs,rfl,rfl⟩
    | _ => cases hv

theorem pushEvent_events {r : String} {e w w' : Value} (h : pushEvent r e w = some w') :
    events r w' = events r w ++ [e] ∧ ∀ r' ≠ r, events r' w' = events r' w := by
  obtain ⟨⟨x,hx,hx'⟩,hother⟩ := entry_indexMut h
  constructor
  · rw [events,hx',events]
    rw [Option.elim_some,appendEvent_events hx]
    cases entry r w <;> rfl
  · intro r' hr
    rw [events,hother r' hr,events]

section
variable [Codec] (ctx : AccountContext)

/-- Pushing only appends, and says true only if the event is in. -/
theorem push_into_sync_events (w : Value) (room_id : RoomId) (e : Value) :
    (push_into_sync ctx w room_id e).Every (fun _ => True) fun r => ∀ b w', r = some (b,w') →
      (∀ r, events r w <+: events r w') ∧ (b = true → e ∈ events room_id w') := by
  have hpush : ∀ {w₁ w'}, (∀ r, events r w <+: events r w₁) → pushEvent room_id e w₁ = some w' →
      (∀ r, events r w <+: events r w') ∧ (true = true → e ∈ events room_id w') := by
    intro w₁ w' hw hp
    obtain ⟨hself,hother⟩ := pushEvent_events hp
    refine ⟨fun r => ?_,fun _ => ?_⟩
    · by_cases hr : r = room_id
      · subst hr
        rw [hself]
        exact (hw r).trans (List.prefix_append ..)
      · rw [hother r hr]
        exact hw r
    · rw [hself]
      exact List.mem_append_right _ (List.mem_singleton_self e)
  unfold push_into_sync
  split_ifs with _ hentry
  · rintro b w' h
    obtain ⟨w₁,hp,⟨⟩⟩ := Option.map_eq_some_iff.mp h
    exact hpush (fun _ => List.prefix_rfl) hp
  · refine .perform trivial fun unread => ?_
    cases unread with
    | none =>
        rintro b w' ⟨⟩
        exact ⟨fun _ => List.prefix_rfl,fun h => by cases h⟩
    | some unread =>
        rintro b w' h
        obtain ⟨w₂,h₂,⟨⟩⟩ := Option.map_eq_some_iff.mp h
        obtain ⟨w₁,h₁,hp⟩ := Option.bind_eq_some_iff.mp h₂
        refine hpush (fun r => ?_) hp
        have hassign : w.indexMut "rooms" (Value.indexMut "join" (Value.indexMut room_id fun _ =>
            some (roomEntry unread))) = some w₁ := h₁
        obtain ⟨_,hother⟩ := entry_indexMut hassign
        by_cases hr : r = room_id
        · have hno : entry r w = none := by
            rw [hr]
            simpa [entry] using hentry
          simp [events,hno]
        · rw [events,events,hother r hr]
  · rintro b w' ⟨⟩
    exact ⟨fun _ => List.prefix_rfl,fun h => by cases h⟩

theorem repair_all_events (delivered : List String) (repairs : List PendingRepair) (n : Nat)
    (w : Value) : (repair_all ctx delivered repairs n w).Every (fun _ => True) fun r =>
      ∀ m w', r = some (m,w') → ∀ r, events r w <+: events r w' := by
  induction repairs generalizing n w with
  | nil =>
      rintro m w' ⟨⟩ r
      exact List.prefix_rfl
  | cons repair rest ih =>
      unfold repair_all
      split_ifs
      · exact ih n w
      refine .bind (Prog.does_true _) fun outcome _ => ?_
      cases outcome with
      | undecryptable reason session_id raw => exact ⟨trivial,fun _ => ih n w⟩
      | untouched => exact ⟨trivial,fun _ => ih n w⟩
      | decrypted plain =>
          dsimp only
          split
          · intro m w' h
            cases h
          · exact ih n w
          · refine (push_into_sync_events ctx w ..).bind fun pushed hpushed => ?_
            cases pushed with
            | none =>
                intro m w' h
                cases h
            | some r =>
                obtain ⟨b,w₁⟩ := r
                have hw₁ := (hpushed b w₁ rfl).1
                cases b with
                | true => exact (ih (n + 1) w₁).mono (fun _ h => h) fun r hr m w' he x =>
                    (hw₁ x).trans (hr m w' he x)
                | false => exact (ih n w₁).mono (fun _ h => h) fun r hr m w' he x =>
                    (hw₁ x).trans (hr m w' he x)

theorem inject_events (w : Value) : (inject ctx w).Every (fun _ => True) fun r =>
    ∀ m w', r = some (m,w') → ∀ r, events r w <+: events r w' := by
  refine .perform trivial fun ready => ?_
  split_ifs
  · rintro m w' ⟨⟩ r
    exact List.prefix_rfl
  · exact repair_all_events ctx _ ready 0 w

end

theorem lookup_mem {k : String} {v : Value} {m : Json.Map} (h : m.lookup k = some v) : (k,v) ∈ m := by
  induction m with
  | nil => cases h
  | cons e m ih =>
      obtain ⟨k',v'⟩ := e
      simp only [Json.Map.lookup] at h
      split_ifs at h with hk
      · cases h
        rw [hk]
        exact List.mem_cons_self ..
      · exact List.mem_cons_of_mem _ (ih h)

/-- What a joined room's timeline has, the body delivers. -/
theorem delivered_of_events {r id : String} {e body : Value} (he : e ∈ events r body)
    (hid : eventId e = some id) : id ∈ delivered_event_ids body := by
  unfold events at he
  cases hentry : entry r body with
  | none => rw [hentry] at he; cases he
  | some room =>
      rw [hentry] at he
      obtain ⟨join,hjoin,hroom⟩ := Option.bind_eq_some_iff.mp hentry
      simp only [delivered_event_ids,hjoin,Option.getD_some,List.mem_flatMap,List.mem_filterMap]
      exact ⟨_,lookup_mem hroom,e,he,hid⟩

end EmentE2ee.Timelines
