import EmentE2ee.Crypto.Repair
import EmentE2ee.Json.Update

/-!
# The rewritten sync body

The body the client gets is that of the homeserver, but for encrypted events of
joined and left rooms, which are replaced in place, and for edits at the end of
the timelines of joined rooms. Containers are made only around an edit.
-/
namespace EmentE2ee.SyncRewrite

open Concurrent
open Json (Value)

/-- Two optional objects whose fields are related by `R`. A missing object is made,
from one of the given kind, unless nothing is put into it. -/
inductive Inside (fresh : Json.Map → Prop) (idle : Prop) (R : Json.Map → Json.Map → Prop) :
    Option Value → Option Value → Prop
  | kept {m m' : Json.Map} : R m m' → Inside fresh idle R (some (.object m)) (some (.object m'))
  | missing : idle → Inside fresh idle R none none
  | created {m m' : Json.Map} : ¬ idle → fresh m → R m m' →
      Inside fresh idle R none (some (.object m'))

/-- The objects agree on all other keys. -/
def Agree (ks : List String) (m m' : Json.Map) : Prop := ∀ k ∉ ks, m'.lookup k = m.lookup k

/-- Events related by `E`, in order, and then the edits. -/
inductive Events (E : Value → Value → Prop) (es : List Value) : Option Value → Option Value → Prop
  | kept {xs ys : List Value} : List.Forall₂ E xs ys →
      Events E es (some (.array xs)) (some (.array (ys ++ es)))
  | missing : es = [] → Events E es none none
  | created : es ≠ [] → Events E es none (some (.array es))

/-- What an entry of the proxy's own is made from. -/
def OwnEntry (m : Json.Map) : Prop := ∃ unread, roomEntry unread = .object m

def Timeline (E : Value → Value → Prop) (es : List Value) : Option Value → Option Value → Prop :=
  Inside (· = []) (es = []) fun m m' =>
    Agree ["events"] m m' ∧ Events E es (m.lookup "events") (m'.lookup "events")

def Room (E : Value → Value → Prop) (es : List Value) : Option Value → Option Value → Prop :=
  Inside OwnEntry (es = []) fun m m' =>
    Agree ["timeline"] m m' ∧ Timeline E es (m.lookup "timeline") (m'.lookup "timeline")

variable (E : String → Value → Value → Prop) (es : String → List Value)

def Entries : Option Value → Option Value → Prop :=
  Inside (· = []) (∀ r, es r = []) fun m m' => ∀ r, Room (E r) (es r) (m.lookup r) (m'.lookup r)

def Sections : Option Value → Option Value → Prop :=
  Inside (· = []) (∀ r, es r = []) fun m m' => Agree ["join","leave"] m m' ∧
    Entries E es (m.lookup "join") (m'.lookup "join") ∧
    Entries E (fun _ => []) (m.lookup "leave") (m'.lookup "leave")

/-- `w` is `v` with each event of a room replaced as `E` says, and with the edits
`es` of each joined room at the end of its timeline. -/
inductive Rewritten : Value → Value → Prop
  | object {m m' : Json.Map} : Agree ["rooms"] m m' →
      Sections E es (m.lookup "rooms") (m'.lookup "rooms") → Rewritten (.object m) (.object m')
  | other {v : Value} : v.isObject = false → (∀ r, es r = []) → Rewritten v v

variable {E es}

/-- A rewriting that keeps `R` at the key keeps it at the object. -/
theorem Inside.push {idle idle' : Prop} {R R' : Json.Map → Json.Map → Prop} {v w : Option Value}
    {k : String} {f : Value → Option Value} (h : Inside (· = []) idle R v w)
    (hnil : idle → R [] []) (hne : ¬ idle')
    (hstep : ∀ m m' : Json.Map, w = none ∧ m' = [] ∨ w = some (.object m') → R m m' →
      ∃ x, f ((m'.lookup k).getD .null) = some x ∧ R' m (m'.insert k x)) :
    ∃ y, (w.getD .null).indexMut k f = some y ∧ Inside (· = []) idle' R' v (some y) := by
  cases h with
  | @kept m m' hR =>
      obtain ⟨x,hx,hR'⟩ := hstep m m' (.inr rfl) hR
      exact ⟨_,by simp [Value.indexMut,hx],.kept hR'⟩
  | missing hidle =>
      obtain ⟨x,hx,hR'⟩ := hstep [] [] (.inl ⟨rfl,rfl⟩) (hnil hidle)
      have hx' : f .null = some x := hx
      exact ⟨_,by simp [Value.indexMut,hx',Json.Map.insert],.created hne rfl hR'⟩
  | @created m m' _ hfresh hR =>
      obtain ⟨x,hx,hR'⟩ := hstep m m' (.inr rfl) hR
      exact ⟨_,by simp [Value.indexMut,hx],.created hne hfresh hR'⟩

theorem Agree.insert {ks : List String} {m m' : Json.Map} {k : String} (h : Agree ks m m')
    (hk : k ∈ ks) (v : Value) : Agree ks m (m'.insert k v) := by
  intro k' hk'
  have hne : k ≠ k' := fun he => hk' (he ▸ hk)
  rw [Json.Map.lookup_insert_ne hne]
  exact h k' hk'

/-- The events of a timeline with one more, or a timeline of that event. -/
def append (e : Value) : Value → Option Value
  | .array events => some (.array (events ++ [e]))
  | _ => some (.array [e])

theorem Events.push {E : Value → Value → Prop} {es : List Value} {v w : Option Value}
    (h : Events E es v w) (e : Value) :
    ∃ y, append e (w.getD .null) = some y ∧ Events E (es ++ [e]) v (some y) := by
  cases h with
  | @kept xs ys hxs =>
      refine ⟨_,rfl,?_⟩
      rw [List.append_assoc]
      exact .kept hxs
  | missing hnil =>
      subst hnil
      exact ⟨_,rfl,.created (by simp)⟩
  | created _ => exact ⟨_,rfl,.created (by simp)⟩

theorem Timeline.shape {E : Value → Value → Prop} {es : List Value} {v w : Option Value}
    (h : Timeline E es v w) : w = none ∨ ∃ m : Json.Map, w = some (.object m) ∧
      (m.lookup "events" = none ∨ ∃ xs, m.lookup "events" = some (.array xs)) := by
  have hevents : ∀ {m m' : Json.Map}, Events E es (m.lookup "events") (m'.lookup "events") →
      m'.lookup "events" = none ∨ ∃ xs, m'.lookup "events" = some (.array xs) := by
    intro m m' hev
    generalize m.lookup "events" = ev, m'.lookup "events" = ev' at hev ⊢
    cases hev with
    | kept _ => exact .inr ⟨_,rfl⟩
    | missing _ => exact .inl rfl
    | created _ => exact .inr ⟨_,rfl⟩
  cases h with
  | kept hR => exact .inr ⟨_,rfl,hevents hR.2⟩
  | missing _ => exact .inl rfl
  | created _ _ hR => exact .inr ⟨_,rfl,hevents hR.2⟩

/-- Where a timeline has no events, or has an array of them, the event is appended
to it, whatever has to be made. -/
theorem appendEvent_eq (e : Value) {m : Json.Map} {E : Value → Value → Prop} {es : List Value}
    {v : Option Value} (h : Timeline E es v (m.lookup "timeline")) : appendEvent e (.object m) =
      (Value.object m).indexMut "timeline" (Value.indexMut "events" (append e)) := by
  have hmade (hno : ((Value.object m).pointer ["timeline","events"]).any Value.isArray ≠ true)
      (hsame : ((m.lookup "timeline").getD .null).indexMut "events" (fun _ => some (.array [e])) =
        ((m.lookup "timeline").getD .null).indexMut "events" (append e)) :
      appendEvent e (.object m) =
        (Value.object m).indexMut "timeline" (Value.indexMut "events" (append e)) := by
    simp only [appendEvent,if_neg hno]
    change ((Value.object m).indexMut "timeline" fun w => w.indexMut "events" fun _ =>
      some (.array [])).bind (Value.indexMut "timeline" (Value.indexMut "events" _)) = _
    rw [Value.indexMut_bind]
    simp only [Value.indexMut_bind]
    simp only [Value.indexMut,Option.bind_some,List.nil_append] at hsame ⊢
    rw [hsame]
  obtain htl | ⟨tl,htl,hev | ⟨xs,hev⟩⟩ := h.shape
  · have hno : ((Value.object m).pointer ["timeline","events"]).any Value.isArray ≠ true := by
      simp [Value.pointer,htl]
    refine hmade hno ?_
    rw [htl]
    rfl
  · have hno : ((Value.object m).pointer ["timeline","events"]).any Value.isArray ≠ true := by
      simp [Value.pointer,htl,hev]
    refine hmade hno ?_
    simp [htl,Value.indexMut,hev,append]
  · have hyes : ((Value.object m).pointer ["timeline","events"]).any Value.isArray = true := by
      simp [Value.pointer,htl,hev,Value.isArray]
    simp only [appendEvent,if_pos hyes]
    change (Value.object m).indexMut "timeline" (Value.indexMut "events" _) = _
    simp [Value.indexMut,htl,hev,append]

section
variable {E : Value → Value → Prop} {es : List Value} {v : Option Value}

theorem Timeline.push {w : Option Value} (h : Timeline E es v w) (e : Value) :
    ∃ y, (w.getD .null).indexMut "events" (append e) = some y ∧
      Timeline E (es ++ [e]) v (some y) := by
  refine Inside.push h ?_ (by simp) fun m m' _ hR => ?_
  · intro hnil
    exact ⟨fun _ _ => rfl,.missing hnil⟩
  · obtain ⟨hagree,hev⟩ := hR
    obtain ⟨x,hx,hev'⟩ := hev.push e
    refine ⟨x,hx,hagree.insert (by simp) x,?_⟩
    rw [Json.Map.lookup_insert_self]
    exact hev'

theorem appendEvent_agrees {m m' : Json.Map} (hagree : Agree ["timeline"] m m')
    (h : Timeline E es (m.lookup "timeline") (m'.lookup "timeline")) (e : Value) :
    ∃ m'' : Json.Map, appendEvent e (.object m') = some (.object m'') ∧ Agree ["timeline"] m m'' ∧
      Timeline E (es ++ [e]) (m.lookup "timeline") (m''.lookup "timeline") := by
  obtain ⟨y,hy,htl⟩ := h.push e
  refine ⟨m'.insert "timeline" y,?_,hagree.insert (by simp) y,?_⟩
  · rw [appendEvent_eq e h]
    exact Option.map_eq_some_iff.mpr ⟨y,hy,rfl⟩
  · rw [Json.Map.lookup_insert_self]
    exact htl

/-- An edit goes into the room's entry. -/
theorem Room.push {room : Value} (h : Room E es v (some room)) (e : Value) :
    ∃ y, appendEvent e room = some y ∧ Room E (es ++ [e]) v (some y) := by
  cases h with
  | kept hR =>
      obtain ⟨m'',hy,hR'⟩ := appendEvent_agrees hR.1 hR.2 e
      exact ⟨_,hy,.kept hR'⟩
  | created _ hfresh hR =>
      obtain ⟨m'',hy,hR'⟩ := appendEvent_agrees hR.1 hR.2 e
      exact ⟨_,hy,.created (by simp) hfresh hR'⟩

/-- An edit for a room without an entry goes into one of the proxy's own. -/
theorem Room.pushNew (h : Room E es v none) (unread : Option Value) (e : Value) :
    ∃ y, appendEvent e (roomEntry unread) = some y ∧ Room E (es ++ [e]) v (some y) := by
  cases h with
  | missing hnil =>
      subst hnil
      obtain ⟨m,hm⟩ : ∃ m : Json.Map, roomEntry unread = .object m := by
        cases unread <;> exact ⟨_,rfl⟩
      have htl : ∃ tl : Json.Map, m.lookup "timeline" = some (.object tl) ∧
          tl.lookup "events" = some (.array []) := by
        cases unread <;> cases hm <;> exact ⟨_,rfl,rfl⟩
      obtain ⟨tl,htl,hev⟩ := htl
      have htimeline : Timeline E [] (m.lookup "timeline") (m.lookup "timeline") := by
        rw [htl]
        refine .kept ⟨fun _ _ => rfl,?_⟩
        rw [hev]
        exact .kept .nil
      obtain ⟨m'',hy,hR⟩ := appendEvent_agrees (fun _ _ => rfl) htimeline e
      rw [hm]
      exact ⟨_,hy,.created (by simp) ⟨unread,hm⟩ hR⟩

end

/-- The entry of a joined room. -/
def entry (r : String) (w : Value) : Option Value :=
  ((w.pointer ["rooms","join"]).bind Value.asObject).bind (Json.Map.lookup r)

section
variable {r : String} {f : Value → Option Value} {e : Value}

theorem not_idle (e : Value) : ¬ ∀ r', Function.update es r (es r ++ [e]) r' = [] := by
  intro h
  have hr := h r
  rw [Function.update_self] at hr
  simp at hr

theorem Entries.push {v w : Option Value} (h : Entries E es v w)
    (hf : ∀ x, Room (E r) (es r) x ((w.bind Value.asObject).bind (Json.Map.lookup r)) →
      ∃ y, f (((w.bind Value.asObject).bind (Json.Map.lookup r)).getD .null) = some y ∧
        Room (E r) (es r ++ [e]) x (some y)) :
    ∃ y, (w.getD .null).indexMut r f = some y ∧
      Entries E (Function.update es r (es r ++ [e])) v (some y) := by
  refine Inside.push h ?_ (not_idle e) fun m m' hw hR => ?_
  · exact fun hidle r => .missing (hidle r)
  have hlookup : (w.bind Value.asObject).bind (Json.Map.lookup r) = m'.lookup r := by
    rcases hw with ⟨rfl,rfl⟩ | rfl <;> rfl
  rw [hlookup] at hf
  obtain ⟨y,hy,hroom⟩ := hf _ (hR r)
  refine ⟨y,hy,fun r' => ?_⟩
  by_cases hr : r' = r
  · subst hr
    rw [Function.update_self,Json.Map.lookup_insert_self]
    exact hroom
  · rw [Function.update_of_ne hr,Json.Map.lookup_insert_ne (Ne.symm hr)]
    exact hR r'

theorem Sections.push {v w : Option Value} (h : Sections E es v w)
    (hf : ∀ x, Room (E r) (es r) x
        (((w.bind (Value.get "join")).bind Value.asObject).bind (Json.Map.lookup r)) →
      ∃ y, f ((((w.bind (Value.get "join")).bind Value.asObject).bind
          (Json.Map.lookup r)).getD .null) = some y ∧ Room (E r) (es r ++ [e]) x (some y)) :
    ∃ y, (w.getD .null).indexMut "join" (Value.indexMut r f) = some y ∧
      Sections E (Function.update es r (es r ++ [e])) v (some y) := by
  refine Inside.push h ?_ (not_idle e) fun m m' hw hR => ?_
  · exact fun hidle => ⟨fun _ _ => rfl,.missing hidle,.missing fun _ => rfl⟩
  have hjoin : w.bind (Value.get "join") = m'.lookup "join" := by
    rcases hw with ⟨rfl,rfl⟩ | rfl <;> rfl
  rw [hjoin] at hf
  obtain ⟨hagree,hj,hl⟩ := hR
  obtain ⟨y,hy,hj'⟩ := hj.push hf
  refine ⟨y,hy,hagree.insert (by simp) y,?_,?_⟩
  · rw [Json.Map.lookup_insert_self]
    exact hj'
  · rw [Json.Map.lookup_insert_ne (by decide)]
    exact hl

theorem Rewritten.push {v w : Value} (h : Rewritten E es v w) (hw : w.isObject = true)
    (hf : ∀ x, Room (E r) (es r) x (entry r w) →
      ∃ y, f ((entry r w).getD .null) = some y ∧ Room (E r) (es r ++ [e]) x (some y)) :
    ∃ w', w.indexMut "rooms" (Value.indexMut "join" (Value.indexMut r f)) = some w' ∧
      Rewritten E (Function.update es r (es r ++ [e])) v w' := by
  cases h with
  | other hv _ => rw [hv] at hw; cases hw
  | @object m m' hagree hrooms =>
      have hentry : entry r (.object m') = ((((m'.lookup "rooms").bind (Value.get "join")).bind
          Value.asObject).bind (Json.Map.lookup r)) := by
        cases hl : m'.lookup "rooms" with
        | none => simp [entry,Value.pointer,hl]
        | some rooms => cases hj : rooms.get "join" <;> simp [entry,Value.pointer,hl,hj]
      rw [hentry] at hf
      obtain ⟨y,hy,hrooms'⟩ := hrooms.push hf
      refine ⟨.object (m'.insert "rooms" y),?_,.object (hagree.insert (by simp) y) ?_⟩
      · simp only [Value.indexMut] at hy ⊢
        rw [hy]
        rfl
      · rw [Json.Map.lookup_insert_self]
        exact hrooms'

end

/-- A synthetic replacement of another event. -/
def IsEdit (e : Value) : Prop :=
  e.pointer ["content","m.relates_to","rel_type"] = some (.string "m.replace")

theorem copyKey_lookup {k key : String} (hk : key ≠ k) (src : Value) (m : Json.Map) :
    (copyKey src m key).lookup k = m.lookup k := by
  unfold copyKey
  split
  · exact Json.Map.lookup_insert_ne hk ..
  · rfl

theorem synthetic_edit_isEdit {plain edit : Value} (h : synthetic_edit plain = some (some edit)) :
    IsEdit edit := by
  unfold synthetic_edit at h
  split at h
  · next event_id event_type _ _ =>
      split at h
      · cases h
      · next m _ =>
          obtain ⟨marker,_,hedit⟩ := Option.map_eq_some_iff.mp h
          rw [Option.some.injEq] at hedit
          subst hedit
          simp only [List.foldl_cons,List.foldl_nil]
          have hcontent : ∀ base : Json.Map,
              (Value.object (copyKey plain (copyKey plain (copyKey plain base "sender")
                "origin_server_ts") "room_id")).get "content" = base.lookup "content" := by
            intro base
            simp [copyKey_lookup]
          rw [IsEdit,Value.pointer_cons,hcontent]
          cases (Json.Map.lookup "m.relates_to" m).bind (Value.get "m.in_reply_to") <;>
            simp [Value.pointer,Json.Map.lookup,relatesTo]
  · cases h

/-- The proxy's own mark is an object, where the event has one. -/
def Marked (plain : Value) : Prop :=
  ∀ v, plain.pointer ["unsigned","ement_e2ee"] = some v → v.isObject = true

theorem synthetic_edit_total {plain : Value} (h : Marked plain) :
    ∃ r, synthetic_edit plain = some r := by
  unfold synthetic_edit
  split
  · split
    · exact ⟨_,rfl⟩
    · have hobject : ((plain.pointer ["unsigned","ement_e2ee"]).getD (.object [])).isObject = true := by
        cases hp : plain.pointer ["unsigned","ement_e2ee"] with
        | none => rfl
        | some v => exact h v hp
      dsimp only
      generalize (plain.pointer ["unsigned","ement_e2ee"]).getD (.object []) = marker at hobject ⊢
      cases marker with
      | object m => exact ⟨_,rfl⟩
      | null => cases hobject
      | bool b => cases hobject
      | number n => cases hobject
      | string s => cases hobject
      | array xs => cases hobject
  · exact ⟨_,rfl⟩

theorem mergeUnsigned_marked (event encryption_info : Value) (m : Json.Map) :
    Marked (mergeUnsigned event encryption_info m) := by
  intro v hv
  simp only [mergeUnsigned] at hv
  split at hv
  · simp only [Value.pointer,Value.get_object,Json.Map.lookup_insert_self,Option.bind_some,
      Option.some.injEq] at hv
    rw [← hv]
    rfl
  · next hnot =>
      cases hu : m.lookup "unsigned" with
      | none => exact (hnot [] (by rw [hu]; rfl)).elim
      | some u =>
          cases u with
          | object u => exact (hnot u (by rw [hu]; rfl)).elim
          | _ => simp [Value.pointer,hu,Value.get,Value.asObject] at hv

section
variable [Codec] (ctx : AccountContext)

theorem decrypt_marked (room_id : RoomId) (event : Value) :
    (decrypt ctx room_id event).Every (fun _ => True) fun o =>
      ∀ plain, o = .decrypted plain → Marked plain := by
  have hother : ∀ o : Decryption, (∀ plain, o ≠ .decrypted plain) →
      (Prog.ret o : M Decryption).Every (fun _ => True) fun o =>
        ∀ plain, o = .decrypted plain → Marked plain :=
    fun o ho plain he => (ho plain he).elim
  unfold decrypt
  split_ifs
  · split
    · exact hother _ fun _ he => by cases he
    · refine .perform trivial fun result => ?_
      split
      · split
        · refine .bind (Prog.does_true _) fun _ _ => ?_
          have hkeys : "content" ≠ "unsigned" := by decide
          refine Prog.Every.bind (updateM_get hkeys _ _) fun new_event hnew => ?_
          rintro plain ⟨⟩ v hv
          rw [Value.pointer_cons,hnew] at hv
          exact mergeUnsigned_marked _ _ _ v hv
        · exact hother _ fun _ he => by cases he
      · exact hother _ fun _ he => by cases he
      · exact hother _ fun _ he => by cases he
  · exact hother _ fun _ he => by cases he

variable {E : String → Value → Value → Prop} {v : Value}

/-- What appending repairs leaves: a rewritten body, with edits at the ends. -/
def Repaired (E : String → Value → Value → Prop) (v w : Value) : Prop :=
  ∃ es : String → List Value, (∀ r, ∀ e ∈ es r, IsEdit e) ∧ Rewritten E es v w

omit [Codec] in
theorem Repaired.push {w : Value} (h : Repaired E v w) (hw : w.isObject = true) {r : String}
    {f : Value → Option Value} {e : Value} (he : IsEdit e)
    (hf : ∀ es x, Room (E r) es x (entry r w) →
      ∃ y, f ((entry r w).getD .null) = some y ∧ Room (E r) (es ++ [e]) x (some y)) :
    ∃ w', w.indexMut "rooms" (Value.indexMut "join" (Value.indexMut r f)) = some w' ∧
      Repaired E v w' := by
  obtain ⟨es,hes,hrewritten⟩ := h
  obtain ⟨w',hw',h'⟩ := hrewritten.push hw fun x => hf (es r) x
  refine ⟨w',hw',_,fun r' e' he' => ?_,h'⟩
  by_cases hr : r' = r
  · subst hr
    rw [Function.update_self] at he'
    obtain hold | hnew := List.mem_append.mp he'
    · exact hes r' e' hold
    · rw [List.mem_singleton.mp hnew]
      exact he
  · rw [Function.update_of_ne hr] at he'
    exact hes r' e' he'

theorem push_into_sync_repaired {w : Value} (h : Repaired E v w) (room_id : RoomId) {e : Value}
    (he : IsEdit e) : (push_into_sync ctx w room_id e).Every (fun _ => True) fun r =>
      ∃ b w', r = some (b,w') ∧ Repaired E v w' := by
  unfold push_into_sync
  split_ifs with hobject hentry
  · obtain ⟨w',hw',h'⟩ := h.push (f := appendEvent e) hobject he fun es x hroom => by
      obtain ⟨room,hroom'⟩ := Option.isSome_iff_exists.mp hentry
      rw [show entry room_id w = some room from hroom'] at hroom ⊢
      exact hroom.push e
    have hpush : pushEvent room_id e w = some w' := hw'
    rw [hpush]
    exact ⟨_,_,rfl,h'⟩
  · refine .perform trivial fun unread => ?_
    cases unread with
    | none => exact ⟨_,_,rfl,h⟩
    | some unread =>
        obtain ⟨w',hw',h'⟩ := h.push (f := fun _ => appendEvent e (roomEntry unread)) hobject he
          fun es x hroom => by
            have hno : entry room_id w = none := by simpa [entry] using hentry
            rw [hno] at hroom
            exact hroom.pushNew unread e
        have hpush : (w.assign ["rooms","join",room_id] (roomEntry unread)).bind
            (pushEvent room_id e) = some w' := by
          change (w.indexMut "rooms" fun w => w.indexMut "join" fun w => w.indexMut room_id fun _ =>
            some (roomEntry unread)).bind (Value.indexMut "rooms" (Value.indexMut "join"
              (Value.indexMut room_id (appendEvent e)))) = _
          simp only [Value.indexMut_bind]
          exact hw'
        dsimp only
        rw [hpush]
        exact ⟨_,_,rfl,h'⟩
  · exact ⟨_,_,rfl,h⟩

theorem repair_all_repaired (delivered : List String) (repairs : List PendingRepair) (n : Nat)
    {w : Value} (h : Repaired E v w) :
    (repair_all ctx delivered repairs n w).Every (fun _ => True) fun r =>
      ∃ n w', r = some (n,w') ∧ Repaired E v w' := by
  induction repairs generalizing n w with
  | nil => exact ⟨_,_,rfl,h⟩
  | cons repair rest ih =>
      unfold repair_all
      split_ifs
      · exact ih n h
      refine (decrypt_marked ctx _ _).bind fun outcome houtcome => ?_
      cases outcome with
      | undecryptable reason session_id raw => exact ⟨trivial,fun _ => ih n h⟩
      | untouched => exact ⟨trivial,fun _ => ih n h⟩
      | decrypted plain =>
          obtain ⟨edit,hedit⟩ := synthetic_edit_total (houtcome plain rfl)
          dsimp only
          rw [hedit]
          cases edit with
          | none => exact ih n h
          | some edit =>
              refine (push_into_sync_repaired ctx h repair.room_id
                (synthetic_edit_isEdit hedit)).bind fun pushed hpushed => ?_
              obtain ⟨b,w',rfl,h'⟩ := hpushed
              cases b with
              | true => exact ih (n + 1) h'
              | false => exact ih n h'

theorem inject_repaired {w : Value} (h : Repaired E v w) :
    (inject ctx w).Every (fun _ => True) fun r => ∃ n w', r = some (n,w') ∧ Repaired E v w' := by
  refine .perform trivial fun ready => ?_
  split_ifs
  · exact ⟨_,_,rfl,h⟩
  · exact repair_all_repaired ctx _ ready 0 h

/-- Where `rooms`, its sections, their entries and timelines are there they are
objects, and events are arrays. -/
def Shaped (body : Value) : Prop :=
  ∀ rooms, body.get "rooms" = some rooms → rooms.isObject = true ∧
  ∀ (sec : Section) (entries : Value), rooms.get sec.name = some entries → entries.isObject = true ∧
  ∀ r room, entries.get r = some room → room.isObject = true ∧
  ∀ timeline, room.get "timeline" = some timeline → timeline.isObject = true ∧
  ∀ events, timeline.get "events" = some events → events.isArray = true

omit [Codec] in
theorem Room.refl {E : Value → Value → Prop} (hE : ∀ x, E x x) {room : Value}
    (hobject : room.isObject = true)
    (hshape : ∀ timeline, room.get "timeline" = some timeline → timeline.isObject = true ∧
      ∀ events, timeline.get "events" = some events → events.isArray = true) :
    Room E [] (some room) (some room) := by
  have hsame : ∀ xs : List Value, List.Forall₂ E xs xs := fun xs =>
    List.forall₂_same.mpr fun x _ => hE x
  obtain ⟨m,rfl⟩ := Value.isObject_iff.mp hobject
  refine .kept ⟨fun _ _ => rfl,?_⟩
  cases htl : m.lookup "timeline" with
  | none => exact .missing rfl
  | some timeline =>
      obtain ⟨htlobject,hevents⟩ := hshape timeline htl
      obtain ⟨tl,rfl⟩ := Value.isObject_iff.mp htlobject
      refine .kept ⟨fun _ _ => rfl,?_⟩
      cases hev : tl.lookup "events" with
      | none => exact .missing rfl
      | some events =>
          obtain ⟨xs,rfl⟩ := Value.isArray_iff.mp (hevents events hev)
          have hkept : Events E [] (some (.array xs)) (some (.array (xs ++ []))) := .kept (hsame xs)
          rwa [List.append_nil] at hkept

omit [Codec] in
/-- A body of the expected shape is a rewriting of itself. -/
theorem Shaped.rewritten {body : Value} (h : Shaped body) :
    Rewritten (fun _ => Eq) (fun _ => []) body body := by
  cases hb : body.isObject with
  | false => exact .other hb fun _ => rfl
  | true =>
      obtain ⟨m,rfl⟩ := Value.isObject_iff.mp hb
      refine .object (fun _ _ => rfl) ?_
      cases hrooms : m.lookup "rooms" with
      | none => exact .missing fun _ => rfl
      | some v =>
          obtain ⟨hobject,hsections⟩ := h v hrooms
          obtain ⟨rooms,rfl⟩ := Value.isObject_iff.mp hobject
          have hsection : ∀ sec : Section, Entries (fun _ => Eq) (fun _ => [])
              (rooms.lookup sec.name) (rooms.lookup sec.name) := by
            intro sec
            cases hsec : rooms.lookup sec.name with
            | none => exact .missing fun _ => rfl
            | some entries =>
                obtain ⟨hentries,hrooms⟩ := hsections sec entries hsec
                obtain ⟨es,rfl⟩ := Value.isObject_iff.mp hentries
                refine .kept fun r => ?_
                cases hr : es.lookup r with
                | none => exact .missing rfl
                | some room => exact Room.refl (fun _ => rfl) (hrooms r room hr).1 (hrooms r room hr).2
          exact .kept ⟨fun _ _ => rfl,hsection .join,hsection .leave⟩

section
variable {ω : Type} (O : Outside ω)

/-- Encrypted events of a room with a parsable ID become what `decrypt_event`
makes of them, others stay. -/
def Replaced (r : String) (event event' : Value) : Prop :=
  match parseRoomId r with
  | some room_id =>
      if isEncrypted event then
        ∃ s s', Prog.Exec (sem O) (decrypt_event ctx room_id .repairable event) s event' s'
      else event' = event
  | none => event' = event

variable {O ctx} {s s' : State ω}

theorem decrypt_event_exec {r : String} {room_id : RoomId} (hr : parseRoomId r = some room_id)
    {event event' : Value}
    (h : Prog.Exec (sem O) (decrypt_event ctx room_id .repairable event) s event' s') :
    Replaced ctx O r event event' := by
  simp only [Replaced,hr]
  split_ifs with he
  · exact ⟨s,s',h⟩
  · have hun : decrypt ctx room_id event = pure .untouched := by
      unfold decrypt
      rw [if_neg he]
    unfold decrypt_event at h
    rw [hun] at h
    cases h
    rfl

theorem decrypt_events_exec {r : String} {room_id : RoomId} (hr : parseRoomId r = some room_id)
    {xs ys : List Value} (h : Prog.Exec (sem O) (decrypt_events ctx room_id xs) s ys s') :
    List.Forall₂ (Replaced ctx O r) xs ys := by
  induction xs generalizing ys s with
  | nil =>
      cases h
      exact .nil
  | cons x xs ih =>
      obtain ⟨y,s₁,hx,h⟩ := Prog.exec_bind.mp h
      obtain ⟨ys,s₂,hxs,h⟩ := Prog.exec_bind.mp h
      cases h
      exact .cons (decrypt_event_exec hr hx) (ih hxs)

theorem timeline_exec {r : String} {room_id : RoomId} (hr : parseRoomId r = some room_id)
    {timeline timeline' : Value} (hobject : timeline.isObject = true)
    (hshape : ∀ events, timeline.get "events" = some events → events.isArray = true)
    (h : Prog.Exec (sem O) (timeline.updateM "events" (decryptArray ctx room_id)) s timeline' s') :
    Timeline (Replaced ctx O r) [] (some timeline) (some timeline') := by
  obtain ⟨m,rfl⟩ := Value.isObject_iff.mp hobject
  obtain ⟨m',rfl,hagree,hevents⟩ := Value.exec_updateM h
  refine .kept ⟨fun k hk => hagree k (by simpa using hk),?_⟩
  obtain ⟨hnone,hnone',_⟩ | ⟨v,w,hv,hw,hexec⟩ := hevents
  · rw [hnone,hnone']
    exact .missing rfl
  · rw [hv,hw]
    obtain ⟨xs,rfl⟩ := Value.isArray_iff.mp (hshape v hv)
    obtain ⟨ys,s₁,hxs,hret⟩ := Prog.exec_bind.mp hexec
    cases hret
    have hkept : Events (Replaced ctx O r) [] (some (.array xs)) (some (.array (ys ++ []))) :=
      .kept (decrypt_events_exec hr hxs)
    rwa [List.append_nil] at hkept

theorem room_exec {sec : Section} {r : String} {room room' : Value} (hobject : room.isObject = true)
    (hshape : ∀ timeline, room.get "timeline" = some timeline → timeline.isObject = true ∧
      ∀ events, timeline.get "events" = some events → events.isArray = true)
    (h : Prog.Exec (sem O) (process_room ctx sec r room) s room' s') :
    Room (Replaced ctx O r) [] (some room) (some room') := by
  unfold process_room at h
  split at h
  · next hr =>
      cases h
      exact Room.refl (fun x => by simp only [Replaced,hr]) hobject hshape
  · next room_id hr =>
      obtain ⟨_,s₁,_,h⟩ := Prog.exec_bind.mp h
      obtain ⟨_,s₂,_,h⟩ := Prog.exec_bind.mp h
      obtain ⟨_,s₃,_,h⟩ := Prog.exec_bind.mp h
      obtain ⟨m,rfl⟩ := Value.isObject_iff.mp hobject
      obtain ⟨m',rfl,hagree,htimeline⟩ := Value.exec_updateM h
      refine .kept ⟨fun k hk => hagree k (by simpa using hk),?_⟩
      obtain ⟨hnone,hnone',_⟩ | ⟨v,w,hv,hw,hexec⟩ := htimeline
      · rw [hnone,hnone']
        exact .missing rfl
      · rw [hv,hw]
        obtain ⟨hv₁,hv₂⟩ := hshape v hv
        exact timeline_exec hr hv₁ hv₂ hexec

theorem process_rooms_lookup {sec : Section} {m m' : Json.Map}
    (h : Prog.Exec (sem O) (process_rooms ctx sec m) s m' s') (r : String) :
    (m.lookup r = none ∧ m'.lookup r = none) ∨ ∃ room room' s₁ s₂, m.lookup r = some room ∧
      m'.lookup r = some room' ∧ Prog.Exec (sem O) (process_room ctx sec r room) s₁ room' s₂ := by
  induction m generalizing m' s with
  | nil =>
      cases h
      exact .inl ⟨rfl,rfl⟩
  | cons e m ih =>
      obtain ⟨r',room⟩ := e
      obtain ⟨room',s₁,hroom,h⟩ := Prog.exec_bind.mp h
      obtain ⟨m₁,s₂,hm,h⟩ := Prog.exec_bind.mp h
      cases h
      by_cases hr : r' = r
      · subst hr
        exact .inr ⟨room,room',s,s₁,by simp [Json.Map.lookup],by simp [Json.Map.lookup],hroom⟩
      · simpa [Json.Map.lookup,hr] using ih hm

theorem section_exec {sec : Section} {rooms rooms' : Json.Map}
    (hshape : ∀ entries, rooms.lookup sec.name = some entries → entries.isObject = true ∧
      ∀ r room, entries.get r = some room → room.isObject = true ∧
      ∀ timeline, room.get "timeline" = some timeline → timeline.isObject = true ∧
      ∀ events, timeline.get "events" = some events → events.isArray = true) {v : Value}
    (h : Prog.Exec (sem O) (process_section ctx sec (.object rooms)) s v s')
    (hv : v = .object rooms') : Agree [sec.name] rooms rooms' ∧
      Entries (Replaced ctx O) (fun _ => []) (rooms.lookup sec.name) (rooms'.lookup sec.name) := by
  subst hv
  obtain ⟨m',hm',hagree,hentries⟩ := Value.exec_updateM h
  cases hm'
  refine ⟨fun k hk => hagree k (by simpa using hk),?_⟩
  obtain ⟨hnone,hnone',_⟩ | ⟨v,w,hv,hw,hexec⟩ := hentries
  · rw [hnone,hnone']
    exact .missing fun _ => rfl
  · rw [hv,hw]
    obtain ⟨hobject,hrooms⟩ := hshape v hv
    obtain ⟨m,rfl⟩ := Value.isObject_iff.mp hobject
    obtain ⟨m',s₁,hm,hret⟩ := Prog.exec_bind.mp hexec
    cases hret
    refine .kept fun r => ?_
    obtain ⟨hr,hr'⟩ | ⟨room,room',s₁,s₂,hr,hr',hroom⟩ := process_rooms_lookup hm r
    · rw [hr,hr']
      exact .missing rfl
    · rw [hr,hr']
      obtain ⟨hobject,htimeline⟩ := hrooms r room hr
      exact room_exec hobject htimeline hroom

theorem decrypt_sync_body_exec {body body' : Value} (hshape : Shaped body)
    (h : Prog.Exec (sem O) (decrypt_sync_body ctx body) s body' s') :
    Rewritten (Replaced ctx O) (fun _ => []) body body' := by
  cases hb : body.isObject with
  | false =>
      obtain ⟨rfl,_⟩ := Value.exec_updateM_other hb h
      exact .other hb fun _ => rfl
  | true =>
      obtain ⟨m,rfl⟩ := Value.isObject_iff.mp hb
      obtain ⟨m',rfl,hagree,hrooms⟩ := Value.exec_updateM h
      refine .object (fun k hk => hagree k (by simpa using hk)) ?_
      obtain ⟨hnone,hnone',_⟩ | ⟨v,w,hv,hw,hexec⟩ := hrooms
      · rw [hnone,hnone']
        exact .missing fun _ => rfl
      · rw [hv,hw]
        obtain ⟨hobject,hsections⟩ := hshape v hv
        obtain ⟨rooms,rfl⟩ := Value.isObject_iff.mp hobject
        obtain ⟨joined,s₁,hjoin,hleave⟩ := Prog.exec_bind.mp hexec
        obtain ⟨rooms₁,rfl,_⟩ := Value.exec_updateM hjoin
        obtain ⟨rooms₂,rfl,_⟩ := Value.exec_updateM hleave
        obtain ⟨hagree₁,hentries₁⟩ := section_exec (hsections .join) hjoin rfl
        have hleft : rooms₁.lookup "leave" = rooms.lookup "leave" := hagree₁ "leave" (by decide)
        have hsections₁ := fun entries (he : rooms₁.lookup Section.leave.name = some entries) =>
          hsections .leave entries (hleft.symm.trans he)
        obtain ⟨hagree₂,hentries₂⟩ := section_exec hsections₁ hleave rfl
        refine .kept ⟨fun k hk => ?_,?_,?_⟩
        · have hk₁ : k ∉ [Section.join.name] := fun hm => hk (by simp_all [Section.name])
          have hk₂ : k ∉ [Section.leave.name] := fun hm => hk (by simp_all [Section.name])
          rw [hagree₂ k hk₂,hagree₁ k hk₁]
        · have hjoined : rooms₂.lookup "join" = rooms₁.lookup "join" := hagree₂ "join" (by decide)
          rw [hjoined]
          exact hentries₁
        · rw [← hleft]
          exact hentries₂

/-- The rewritten body of a sync is the homeserver's, with encrypted events of
rooms with parsable IDs replaced in place by what `decrypt_event` makes of them and
with edits at the ends of timelines of joined rooms. -/
theorem sync_body_rewritten {body : Value} {r : Option Value} (hshape : Shaped body)
    (h : Prog.Exec (sem O) (process_sync_body ctx body) s r s') : ∃ body' es, r = some body' ∧
      (∀ room, ∀ e ∈ es room, IsEdit e) ∧ Rewritten (Replaced ctx O) es body body' := by
  obtain ⟨body₁,s₁,hdecrypt,h⟩ := Prog.exec_bind.mp h
  obtain ⟨injected,s₂,hinject,h⟩ := Prog.exec_bind.mp h
  cases h
  have hstart : Repaired (Replaced ctx O) body body₁ :=
    ⟨_,fun _ _ he => (List.not_mem_nil he).elim,decrypt_sync_body_exec hshape hdecrypt⟩
  have hresult := hinject.wp (Prog.wp_of_every (I := fun _ => True) (fun _ _ _ => trivial)
    (inject_repaired ctx hstart) trivial)
  obtain ⟨⟨n,body',rfl,es,hes,hrewritten⟩,_⟩ := hresult
  exact ⟨body',es,rfl,hes,hrewritten⟩

end

def bodyOf (event : Value) : Value := .object [("rooms",.object [("join",.object [("!r",
  .object [("timeline",.object [("events",.array [event])])])])])]

omit [Codec] in
theorem bodyOf_shaped (event : Value) : Shaped (bodyOf event) := by
  rintro rooms ⟨⟩
  refine ⟨rfl,fun sec entries hentries => ?_⟩
  cases sec with
  | leave => cases hentries
  | join =>
      cases hentries
      refine ⟨rfl,fun r room hroom => ?_⟩
      simp only [Value.get_object,Json.Map.lookup] at hroom
      split_ifs at hroom
      cases hroom
      refine ⟨rfl,?_⟩
      rintro timeline ⟨⟩
      refine ⟨rfl,?_⟩
      rintro events ⟨⟩
      rfl

theorem process_bodyOf (ctx : AccountContext) (event : Value) (hr : parseRoomId "!r" = some "!r") :
    process_sync_body ctx (bodyOf event) = (do
      act (.rooms ctx (.noteJoined "!r" none))
      scan_state_events ctx "!r" [event]
      let event ← decrypt_event ctx "!r" .repairable event
      let injected ← inject ctx (bodyOf event)
      pure (injected.map Prod.snd)) := by
  simp [process_sync_body,decrypt_sync_body,process_section,process_rooms,process_room,hr,bodyOf,
    Value.updateM,Json.Map.updateM,Section.name,noteMembership,scanArray,decryptArray,decrypt_events,
    Value.pointer,Json.Map.lookup]

end

local instance : Codec := .plain (fun _ => none) some fun _ _ => 0

/-- A machine without any keys. -/
def keyless : Outside Unit
  | .olm _ (.tryDecryptRoomEvent ..),_,r,_ => r = .ok (.unableToDecrypt "no key" none)
  | _,_,_,_ => False

def bob : AccountContext := ⟨"@bob:hs","D","t",⟨0,"k"⟩⟩

def unread : Value := .object [("event_id",.string "$e"),("type",.string "m.room.encrypted")]

def fresh : State Unit where
  accounts := fun _ => .default 0
  sessions := ∅
  refused := []
  locked _ := false
  world := ()

theorem process_unread : ∃ s', Prog.Exec (sem keyless) (process_sync_body bob (bodyOf unread)) fresh
    (some (bodyOf (utd_placeholder unread "no key" none true))) s' := by
  rw [process_bodyOf bob unread rfl]
  have hunread : keyless (.olm bob (.tryDecryptRoomEvent unread "!r")) ()
      (.ok (.unableToDecrypt "no key" none)) () := rfl
  exact ⟨_,.act (r := ()) ⟨rfl,rfl⟩ (.act (sem_outside trivial hunread)
    (.act (r := ()) ⟨rfl,rfl⟩ (.act (r := []) ⟨rfl,rfl⟩ (.ret _ _))))⟩

/-- An encrypted event that cannot be read. -/
theorem sync_body_rewritten_placeholder : ∃ body' es,
    body' = bodyOf (utd_placeholder unread "no key" none true) ∧
      (∀ room, ∀ e ∈ es room, IsEdit e) ∧
      Rewritten (Replaced bob keyless) es (bodyOf unread) body' := by
  obtain ⟨s',hexec⟩ := process_unread
  obtain ⟨body',es,hbody,h⟩ := sync_body_rewritten (bodyOf_shaped unread) hexec
  exact ⟨body',es,(Option.some.inj hbody).symm,h⟩

end EmentE2ee.SyncRewrite
