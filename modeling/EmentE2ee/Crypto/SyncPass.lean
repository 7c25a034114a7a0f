import EmentE2ee.Crypto.Timelines

/-!
# What the decryption pass comes to

The pass over a sync body visits the joined rooms and then the left ones, each
with its membership first and its timeline events one after the other. What it
does to some part of the state is a fold over the body, given what a membership
and an event do to that part.
-/
namespace EmentE2ee.SyncPass

open Concurrent
open Json (Value)
open SyncRewrite (entry)
open Timelines (roomEvents events)

variable [Codec] {ω : Type}

/-- What a membership and an event do to some part of the state. -/
structure Effect (V : Type) where
  member : Section → RoomId → Value → V → V
  event : RoomId → Value → V → V

namespace Effect
variable {V : Type} (F : Effect V)

def timeline (room_id : RoomId) (xs : List Value) (v : V) : V :=
  xs.foldl (fun v x => F.event room_id x v) v

def room (sec : Section) (v : V) (e : String × Value) : V :=
  match parseRoomId e.1 with
  | none => v
  | some room_id => F.timeline room_id (roomEvents e.2) (F.member sec room_id e.2 v)

def rooms (sec : Section) (rooms : Value) (v : V) : V :=
  (((rooms.get sec.name).bind Value.asObject).getD []).foldl (F.room sec) v

/-- What the pass over the body does. -/
def pass (body : Value) (v : V) : V :=
  (body.get "rooms").elim v fun rooms => F.rooms .leave rooms (F.rooms .join rooms v)

variable {F} {I : V → Prop}

/-- What each membership and each event keeps, the pass keeps. -/
theorem pass_invariant (hmember : ∀ sec room_id room v, I v → I (F.member sec room_id room v))
    (hevent : ∀ room_id x v, I v → I (F.event room_id x v)) (body : Value) {v : V} (h : I v) :
    I (F.pass body v) := by
  have htimeline : ∀ room_id xs v, I v → I (F.timeline room_id xs v) := by
    intro room_id xs
    induction xs with
    | nil => exact fun _ h => h
    | cons x xs ih => exact fun v h => ih _ (hevent room_id x v h)
  have hroom : ∀ sec e v, I v → I (F.room sec v e) := by
    intro sec e v h
    unfold room
    split
    · exact h
    · exact htimeline _ _ _ (hmember _ _ _ _ h)
  have hrooms : ∀ sec rooms v, I v → I (F.rooms sec rooms v) := by
    intro sec rooms
    unfold Effect.rooms
    induction ((rooms.get sec.name).bind Value.asObject).getD [] with
    | nil => exact fun _ h => h
    | cons e m ih => exact fun v h => ih _ (hroom sec e v h)
  unfold pass
  cases body.get "rooms" with
  | none => exact h
  | some rooms => exact hrooms .leave rooms _ (hrooms .join rooms v h)

end Effect

/-- A part of the state on which the pass has the effect `F`. `made` relates an
event to what becomes of it. -/
structure Spec (O : Outside ω) (ctx : AccountContext) {V : Type} (F : Effect V) where
  view : State ω → V
  made : RoomId → Value → Value → Prop
  member_exec : ∀ {sec room_id room s r s'},
    Prog.Exec (sem O) (noteMembership ctx room_id room sec) s r s' →
      view s' = F.member sec room_id room (view s)
  scan_exec : ∀ {room_id xs s r s'},
    Prog.Exec (sem O) (scan_state_events ctx room_id xs) s r s' → view s' = view s
  event_exec : ∀ {room_id x s y s'},
    Prog.Exec (sem O) (decrypt_event ctx room_id .repairable x) s y s' →
      view s' = F.event room_id x (view s) ∧ made room_id x y

namespace Spec
variable {O : Outside ω} {ctx : AccountContext} {V : Type} {F : Effect V} {S : Spec O ctx F}

variable {s s' : State ω}

theorem timeline_exec {room_id : RoomId} {xs ys : List Value}
    (h : Prog.Exec (sem O) (decrypt_events ctx room_id xs) s ys s') :
    S.view s' = F.timeline room_id xs (S.view s) ∧ List.Forall₂ (S.made room_id) xs ys := by
  induction xs generalizing ys s with
  | nil =>
      cases h
      exact ⟨rfl,.nil⟩
  | cons x xs ih =>
      obtain ⟨y,s₁,hx,h⟩ := Prog.exec_bind.mp h
      obtain ⟨ys,s₂,hxs,h⟩ := Prog.exec_bind.mp h
      cases h
      obtain ⟨hv₁,hm⟩ := S.event_exec hx
      obtain ⟨hv₂,hms⟩ := ih hxs
      refine ⟨?_,.cons hm hms⟩
      rw [hv₂,hv₁]
      rfl

theorem array_exec {room_id : RoomId} {v w : Value}
    (h : Prog.Exec (sem O) (decryptArray ctx room_id v) s w s') :
    S.view s' = F.timeline room_id (v.asArray.getD []) (S.view s) ∧
      List.Forall₂ (S.made room_id) (v.asArray.getD []) (w.asArray.getD []) := by
  unfold decryptArray at h
  split at h
  · obtain ⟨ys,s₁,hys,h⟩ := Prog.exec_bind.mp h
    cases h
    exact timeline_exec hys
  · next hno =>
      cases h
      have hnil : v.asArray.getD [] = [] := by
        cases v with
        | array xs => exact (hno xs rfl).elim
        | _ => rfl
      rw [hnil]
      exact ⟨rfl,.nil⟩

theorem scan_array_exec {room_id : RoomId} {xs : Option Value} {r : Unit}
    (h : Prog.Exec (sem O) (scanArray ctx room_id xs) s r s') : S.view s' = S.view s := by
  unfold scanArray at h
  split at h
  · exact S.scan_exec h
  · cases h
    rfl

theorem events_exec {room_id : RoomId} {v w : Value} (h : Prog.Exec (sem O)
      (v.updateM "timeline" (Value.updateM "events" (decryptArray ctx room_id))) s w s') :
    S.view s' = F.timeline room_id (roomEvents v) (S.view s) ∧
      List.Forall₂ (S.made room_id) (roomEvents v) (roomEvents w) := by
  have hnothing : ∀ {v w : Value}, v.pointer ["timeline","events"] = none →
      w.pointer ["timeline","events"] = none → S.view s' = S.view s →
      S.view s' = F.timeline room_id (roomEvents v) (S.view s) ∧
        List.Forall₂ (S.made room_id) (roomEvents v) (roomEvents w) := by
    intro v w hv hw hs
    have hrv : roomEvents v = [] := by rw [roomEvents,hv]; rfl
    have hrw : roomEvents w = [] := by rw [roomEvents,hw]; rfl
    rw [hrv,hrw]
    exact ⟨hs,.nil⟩
  have hpointer : ∀ v : Value, v.get "timeline" = none → v.pointer ["timeline","events"] = none := by
    intro v hv
    rw [Timelines.pointer_events,hv]
    rfl
  cases hb : v.isObject with
  | false =>
      obtain ⟨rfl,rfl⟩ := Value.exec_updateM_other hb h
      have hno : w.get "timeline" = none := by
        cases w with
        | object m => cases hb
        | _ => rfl
      exact hnothing (hpointer w hno) (hpointer w hno) rfl
  | true =>
      obtain ⟨m,rfl⟩ := Value.isObject_iff.mp hb
      obtain ⟨m',rfl,_,htl⟩ := Value.exec_updateM h
      obtain ⟨hno,hno',rfl⟩ | ⟨tl,tl',htl,htl',h⟩ := htl
      · exact hnothing (hpointer _ hno) (hpointer _ hno') rfl
      · have hp : ∀ m tl, Json.Map.lookup "timeline" m = some tl →
            (Value.object m).pointer ["timeline","events"] = tl.get "events" := by
          intro m tl hm
          rw [Timelines.pointer_events,Value.get_object,hm]
          rfl
        cases hbtl : tl.isObject with
        | false =>
            obtain ⟨rfl,rfl⟩ := Value.exec_updateM_other hbtl h
            have hno : tl'.get "events" = none := by
              cases tl' with
              | object m => cases hbtl
              | _ => rfl
            exact hnothing ((hp m tl' htl).trans hno) ((hp m' tl' htl').trans hno) rfl
        | true =>
            obtain ⟨t,rfl⟩ := Value.isObject_iff.mp hbtl
            obtain ⟨t',rfl,_,hev⟩ := Value.exec_updateM h
            obtain ⟨hno,hno',rfl⟩ | ⟨ev,ev',hev,hev',h⟩ := hev
            · exact hnothing ((hp m _ htl).trans hno) ((hp m' _ htl').trans hno') rfl
            · have hv : roomEvents (.object m) = ev.asArray.getD [] := by
                rw [roomEvents,hp m _ htl,Value.get_object,hev]
                rfl
              have hw : roomEvents (.object m') = ev'.asArray.getD [] := by
                rw [roomEvents,hp m' _ htl',Value.get_object,hev']
                rfl
              rw [hv,hw]
              exact array_exec h

theorem room_exec {sec : Section} {r : String} {v w : Value}
    (h : Prog.Exec (sem O) (process_room ctx sec r v) s w s') :
    S.view s' = F.room sec (S.view s) (r,v) ∧ ∀ room_id, parseRoomId r = some room_id →
      List.Forall₂ (S.made room_id) (roomEvents v) (roomEvents w) := by
  unfold process_room at h
  unfold Effect.room
  split at h
  · next hr =>
      cases h
      dsimp only
      rw [hr]
      exact ⟨rfl,fun _ h => by cases h⟩
  · next room_id hr =>
      obtain ⟨_,s₁,hmember,h⟩ := Prog.exec_bind.mp h
      obtain ⟨_,s₂,hstate,h⟩ := Prog.exec_bind.mp h
      obtain ⟨_,s₃,htimeline,h⟩ := Prog.exec_bind.mp h
      obtain ⟨hv,hmade⟩ := events_exec (S := S) h
      dsimp only
      rw [hr,hv,scan_array_exec htimeline,scan_array_exec hstate,S.member_exec hmember]
      refine ⟨rfl,fun room_id' he => ?_⟩
      rw [← Option.some.inj he]
      exact hmade

theorem rooms_exec {sec : Section} {m m' : Json.Map}
    (h : Prog.Exec (sem O) (process_rooms ctx sec m) s m' s') :
    S.view s' = m.foldl (F.room sec) (S.view s) ∧ ∀ r room_id, parseRoomId r = some room_id →
      List.Forall₂ (S.made room_id) ((m.lookup r).elim [] roomEvents)
        ((m'.lookup r).elim [] roomEvents) := by
  induction m generalizing m' s with
  | nil =>
      cases h
      exact ⟨rfl,fun _ _ _ => .nil⟩
  | cons e m ih =>
      obtain ⟨r',v⟩ := e
      obtain ⟨w,s₁,hroom,h⟩ := Prog.exec_bind.mp h
      obtain ⟨m₁,s₂,hm,h⟩ := Prog.exec_bind.mp h
      cases h
      obtain ⟨hv₁,hmade⟩ := room_exec (S := S) hroom
      obtain ⟨hv₂,hrest⟩ := ih hm
      rw [hv₂,hv₁]
      refine ⟨rfl,fun r room_id hr => ?_⟩
      by_cases hrr : r' = r
      · subst hrr
        simpa [Json.Map.lookup] using hmade room_id hr
      · simpa [Json.Map.lookup,hrr] using hrest r room_id hr

/-- The events of a room of one section. -/
def sectionEvents (sec : Section) (r : String) (rooms : Value) : List Value :=
  ((rooms.get sec.name).bind (Value.get r)).elim [] roomEvents

theorem section_exec {sec : Section} {v w : Value}
    (h : Prog.Exec (sem O) (process_section ctx sec v) s w s') :
    S.view s' = F.rooms sec v (S.view s) ∧ (∀ k ≠ sec.name, w.get k = v.get k) ∧
      ∀ r room_id, parseRoomId r = some room_id →
        List.Forall₂ (S.made room_id) (sectionEvents sec r v) (sectionEvents sec r w) := by
  have hnothing : ∀ {v w : Value}, ((v.get sec.name).bind Value.asObject) = none →
      w.get sec.name = v.get sec.name →
      S.view s = F.rooms sec v (S.view s) ∧ ∀ r room_id, parseRoomId r = some room_id →
        List.Forall₂ (S.made room_id) (sectionEvents sec r v) (sectionEvents sec r w) := by
    intro v w hv hw
    have hnone : ∀ r, (v.get sec.name).bind (Value.get r) = none := by
      intro r
      cases hs : v.get sec.name with
      | none => rfl
      | some x =>
          have hx : x.asObject = none := by
            rw [hs] at hv
            exact hv
          rw [Option.bind_some,Value.get,hx]
          rfl
    refine ⟨by rw [Effect.rooms,hv]; rfl,fun r room_id _ => ?_⟩
    rw [sectionEvents,sectionEvents,hw,hnone]
    exact .nil
  cases hb : v.isObject with
  | false =>
      obtain ⟨rfl,rfl⟩ := Value.exec_updateM_other hb h
      have hno : w.get sec.name = none := by
        cases w with
        | object m => cases hb
        | _ => rfl
      obtain ⟨hv,hm⟩ := hnothing (v := w) (w := w) (by rw [hno]; rfl) rfl
      exact ⟨hv,fun _ _ => rfl,hm⟩
  | true =>
      obtain ⟨m,rfl⟩ := Value.isObject_iff.mp hb
      obtain ⟨m',rfl,hagree,hsec⟩ := Value.exec_updateM h
      obtain ⟨hno,hno',rfl⟩ | ⟨x,y,hx,hy,h⟩ := hsec
      · have hget : (Value.object m).get sec.name = none := hno
        obtain ⟨hv,hm⟩ := hnothing (v := .object m) (w := .object m') (by rw [hget]; rfl)
          (hno'.trans hno.symm)
        exact ⟨hv,hagree,hm⟩
      · have hgetx : (Value.object m).get sec.name = some x := hx
        have hgety : (Value.object m').get sec.name = some y := hy
        split at h
        · next rooms =>
            obtain ⟨rooms',s₁,hrooms,h⟩ := Prog.exec_bind.mp h
            cases h
            obtain ⟨hv,hmade⟩ := rooms_exec (S := S) hrooms
            refine ⟨?_,hagree,fun r room_id hr => ?_⟩
            · rw [hv,Effect.rooms,hgetx]
              rfl
            · rw [sectionEvents,sectionEvents,hgetx,hgety]
              exact hmade r room_id hr
        · next hnot =>
            cases h
            have hobject : ((Value.object m).get sec.name).bind Value.asObject = none := by
              rw [hgetx]
              cases x with
              | object rooms => exact (hnot rooms rfl).elim
              | _ => rfl
            obtain ⟨hv,hm⟩ := hnothing (w := .object m') hobject (hgety.trans hgetx.symm)
            exact ⟨hv,hagree,hm⟩

omit [Codec] in
theorem events_eq (r : String) (body : Value) :
    events r body = (body.get "rooms").elim [] (sectionEvents .join r) := by
  rw [events,Timelines.entry_eq]
  cases body.get "rooms" <;> rfl

theorem pass_exec {body body' : Value}
    (h : Prog.Exec (sem O) (decrypt_sync_body ctx body) s body' s') :
    S.view s' = F.pass body (S.view s) ∧ ∀ r room_id, parseRoomId r = some room_id →
      List.Forall₂ (S.made room_id) (events r body) (events r body') := by
  cases hb : body.isObject with
  | false =>
      obtain ⟨rfl,rfl⟩ := Value.exec_updateM_other hb h
      have hno : body'.get "rooms" = none := by
        cases body' with
        | object m => cases hb
        | _ => rfl
      refine ⟨by rw [Effect.pass,hno]; rfl,fun r room_id _ => ?_⟩
      rw [events_eq,hno]
      exact .nil
  | true =>
      obtain ⟨m,rfl⟩ := Value.isObject_iff.mp hb
      obtain ⟨m',rfl,_,hrooms⟩ := Value.exec_updateM h
      obtain ⟨hno,hno',rfl⟩ | ⟨x,y,hx,hy,h⟩ := hrooms
      · have hget : (Value.object m).get "rooms" = none := hno
        have hget' : (Value.object m').get "rooms" = none := hno'
        refine ⟨by rw [Effect.pass,hget]; rfl,fun r room_id _ => ?_⟩
        rw [events_eq,events_eq,hget,hget']
        exact .nil
      · obtain ⟨z,s₁,hjoin,hleave⟩ := Prog.exec_bind.mp h
        obtain ⟨hv₁,hkeys₁,hmade₁⟩ := section_exec (S := S) hjoin
        obtain ⟨hv₂,hkeys₂,_⟩ := section_exec (S := S) hleave
        have hget : (Value.object m).get "rooms" = some x := hx
        have hget' : (Value.object m').get "rooms" = some y := hy
        constructor
        · have hleft : F.rooms .leave z = F.rooms .leave x := by
            funext v
            rw [Effect.rooms,Effect.rooms,hkeys₁ Section.leave.name (by decide)]
          rw [Effect.pass,hget,Option.elim_some,hv₂,hleft,hv₁]
        · intro r room_id hr
          have hjoined : sectionEvents .join r y = sectionEvents .join r z := by
            rw [sectionEvents,sectionEvents,hkeys₂ Section.join.name (by decide)]
          rw [events_eq,events_eq,hget,hget',Option.elim_some,Option.elim_some,hjoined]
          exact hmade₁ r room_id hr

end Spec

/-- Actions that leave the repair queue and the joined rooms alone. -/
def bystander : Act → Prop
  | .repairs .. | .rooms _ (.noteJoined ..) | .rooms _ (.noteLeft _) => False
  | _ => True

section
variable {O : Outside ω} {ctx : AccountContext} {s s' : State ω}

theorem bystander_kept {a : Act} {r : a.Ans} (ha : bystander a) (h : sem O a s r s')
    (c : AccountContext) : (s'.accounts c).repairs = (s.accounts c).repairs ∧
      (s'.accounts c).rooms.joined = (s.accounts c).rooms.joined := by
  constructor
  · obtain he | ⟨x,rfl,_⟩ := repairs_of_sem h c
    · exact he
    · exact ha.elim
  · obtain he | ⟨x,rfl,he⟩ := rooms_of_sem h c
    · rw [he]
    · rw [he]
      cases x with
      | noteJoined r u => exact ha.elim
      | noteLeft r => exact ha.elim
      | _ => rfl

theorem bystander_exec {α : Type} {p : M α} {a : α} (hp : p.Does bystander)
    (h : Prog.Exec (sem O) p s a s') (c : AccountContext) :
    (s'.accounts c).repairs = (s.accounts c).repairs ∧
      (s'.accounts c).rooms.joined = (s.accounts c).rooms.joined := by
  induction h with
  | ret a s => exact ⟨rfl,rfl⟩
  | act hs _ ih =>
      obtain ⟨h₁,h₂⟩ := bystander_kept hp.1 hs c
      obtain ⟨h₁',h₂'⟩ := ih (hp.2 _)
      exact ⟨h₁'.trans h₁,h₂'.trans h₂⟩

theorem scan_bystander (room_id : RoomId) (xs : List Value) :
    (scan_state_events ctx room_id xs).Does bystander := by
  induction xs with
  | nil => simp [scan_state_events]
  | cons x xs ih =>
      refine .bind ?_ fun _ => ih
      unfold scan_state_event
      split_ifs
      · simp
      split
      · split
        · simp
        · exact ⟨trivial,fun _ => ⟨trivial,fun _ => trivial⟩⟩
      · split <;> simp [bystander]
      · simp [bystander]
      · simp

omit [Codec] in
theorem decrypting_bystander {a : Act} (h : a.decrypting) : bystander a := by
  unfold bystander
  split <;> first | exact h.elim | trivial

theorem maybe_request_bystander (room_id : RoomId) (raw : Value) (session_id : Option String) :
    (maybe_request_room_key ctx room_id raw session_id).Does bystander := by
  cases session_id with
  | none => simp [maybe_request_room_key]
  | some session_id =>
      refine .bind (by simp [bystander]) fun fresh => ?_
      split_ifs <;> simp [bystander]

end
end EmentE2ee.SyncPass
