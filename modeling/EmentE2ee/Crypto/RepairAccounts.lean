import EmentE2ee.Crypto.Promises

/-!
# What becomes of taken repairs

The repairs of a response are taken out of the queue before any of them is
decrypted. One whose event cannot be decrypted goes back, and the edit of one
that can goes into the response if its room is known as joined there or from
before. The others, and everything in hand when the response is dropped, are lost
unless the response delivers the event, and readable.
-/
namespace EmentE2ee.RepairAccounts

open Concurrent
open Json (Value)
open SyncRewrite (entry Marked)
open Timelines (events)
open Promises (Oracle Decides)

/-- Whether an edit can be built from a decrypted event. -/
def canEdit (plain : Value) : Bool :=
  match eventId plain,(plain.get "type").bind Value.asStr with
  | some _,some event_type => ((newContent plain event_type).bind Value.asObject).isSome
  | _,_ => false

/-- The event an edit of the proxy's repairs. -/
def repairs (edit : Value) : Option String :=
  (edit.pointer ["unsigned","ement_e2ee","repairs"]).bind Value.asStr

theorem synthetic_edit_none {plain : Value} (h : canEdit plain = false) :
    synthetic_edit plain = some none := by
  unfold canEdit at h
  unfold synthetic_edit
  cases hid : eventId plain with
  | none => rfl
  | some id =>
      cases htype : (plain.get "type").bind Value.asStr with
      | none => rfl
      | some event_type =>
          rw [hid,htype] at h
          cases hnew : (newContent plain event_type).bind Value.asObject with
          | none => simp only [hnew]
          | some m =>
              have hsome : ((newContent plain event_type).bind Value.asObject).isSome = false := h
              rw [hnew] at hsome
              cases hsome

theorem synthetic_edit_some {plain : Value} (hmarked : Marked plain) (h : canEdit plain = true) :
    ∃ id edit, eventId plain = some id ∧ synthetic_edit plain = some (some edit) ∧
      repairs edit = some id := by
  obtain ⟨id,event_type,m,hid,htype,hm⟩ : ∃ id event_type m, eventId plain = some id ∧
      (plain.get "type").bind Value.asStr = some event_type ∧
      (newContent plain event_type).bind Value.asObject = some m := by
    unfold canEdit at h
    cases hid : eventId plain with
    | none => rw [hid] at h; cases h
    | some id =>
        cases htype : (plain.get "type").bind Value.asStr with
        | none => rw [hid,htype] at h; cases h
        | some event_type =>
            rw [hid,htype] at h
            obtain ⟨m,hm⟩ := Option.isSome_iff_exists.mp h
            exact ⟨id,event_type,m,rfl,rfl,hm⟩
  have hobject : ((plain.pointer ["unsigned","ement_e2ee"]).getD (.object [])).isObject = true := by
    cases hp : plain.pointer ["unsigned","ement_e2ee"] with
    | none => rfl
    | some v => exact hmarked v hp
  obtain ⟨marker,hmarker⟩ := Value.isObject_iff.mp hobject
  unfold synthetic_edit
  rw [hid,htype]
  dsimp only
  rw [hm]
  dsimp only
  rw [hmarker]
  refine ⟨id,_,rfl,rfl,?_⟩
  simp [repairs,Value.pointer,SyncRewrite.copyKey_lookup,Json.Map.lookup]

/-- Contents that differ in attachments only. -/
structure SameContent (c c' : Value) : Prop where
  object : c'.isObject = c.isObject
  get : ∀ k ∉ ["file","url","info"], c'.get k = c.get k

theorem newContent_same {plain plain' : Value} {event_type : String}
    (h : (plain.get "content" = none ∧ plain'.get "content" = none) ∨
      ∃ c c', plain.get "content" = some c ∧ plain'.get "content" = some c' ∧ SameContent c c') :
    ((newContent plain' event_type).bind Value.asObject).isSome =
      ((newContent plain event_type).bind Value.asObject).isSome := by
  unfold newContent
  split_ifs with hmessage hreaction
  · obtain ⟨hc,hc'⟩ | ⟨c,c',hc,hc',hsame⟩ := h
    · rw [hc,hc']
    · have hnew := hsame.get "m.new_content" (by decide)
      have hrel : c'.pointer ["m.relates_to","rel_type"] = c.pointer ["m.relates_to","rel_type"] := by
        rw [Value.pointer_cons,Value.pointer_cons,hsame.get "m.relates_to" (by decide)]
      have hobject : c'.asObject.isSome = c.asObject.isSome := hsame.object
      rw [hc,hc',Option.map_some,Option.map_some,Option.bind_some,Option.bind_some,hnew,hrel]
      cases c.get "m.new_content" with
      | none => exact hobject
      | some inner =>
          dsimp only
          split_ifs
          · rfl
          · exact hobject
  · rfl
  · rfl

section
variable [Codec] (ctx : AccountContext)

theorem exposeUrl_lookup (key url_key : String) (mimetype filename : Option String) (m : Json.Map) :
    (exposeUrl ctx key url_key mimetype filename m).Every (fun _ => True) fun m' =>
      ∀ k, k ≠ key → k ≠ url_key → m'.lookup k = m.lookup k := by
  unfold exposeUrl
  split
  · exact fun _ _ _ => rfl
  · refine .bind (Prog.does_true _) fun url _ => ?_
    cases url with
    | none => exact fun _ _ _ => rfl
    | some url =>
        intro k hkey hurl
        rw [Json.Map.lookup_insert_ne (Ne.symm hurl),Json.Map.lookup_remove_ne hkey]

theorem harvest_content (event : Value) :
    (harvest_and_rewrite_decrypted ctx event).Every (fun _ => True) fun event' =>
      (∀ k ≠ "content", event'.get k = event.get k) ∧ canEdit event' = canEdit event := by
  refine (updateM_every (Q := SameContent) (fun content => ?_) event).mono (fun _ h => h) ?_
  · split
    · next content =>
        refine (exposeUrl_lookup ctx "file" "url" _ _ content).bind fun m hm => ?_
        refine (map_updateM_every (Q := fun _ _ => True) (fun _ => Prog.does_true _) m).bind
          fun m' hm' => ⟨rfl,fun k hk => ?_⟩
        have hfile : k ≠ "file" := fun he => hk (by simp [he])
        have hurl : k ≠ "url" := fun he => hk (by simp [he])
        have hinfo : k ≠ "info" := fun he => hk (by simp [he])
        exact (hm'.1 k hinfo).trans (hm k hfile hurl)
    · exact ⟨rfl,fun _ _ => rfl⟩
  · rintro event' ⟨hother,hcontent⟩
    refine ⟨hother,?_⟩
    have hid : eventId event' = eventId event := by
      rw [eventId,eventId,hother "event_id" (by decide)]
    unfold canEdit
    rw [hid,hother "type" (by decide)]
    cases eventId event with
    | none => rfl
    | some id =>
        cases (event.get "type").bind Value.asStr with
        | none => rfl
        | some event_type => exact newContent_same hcontent

def plaintext (event : Value) : Except String RoomEventDecryptionResult → Option Value
  | .ok (.decrypted new_event info) =>
      ((Codec.fromRaw new_event).bind Value.asObject).map (mergeUnsigned event info)
  | _ => none

/-- What the machine makes of an event it can decrypt, with the envelope's data. -/
def decrypted (dec : Oracle) (room_id : RoomId) (event : Value) : Option Value :=
  if isEncrypted event then
    (Codec.toRaw event).bind fun raw => plaintext event (dec raw room_id)
  else none

/-- The same as far as edits are concerned. -/
structure SameEdit (p plain : Value) : Prop where
  canEdit : canEdit plain = canEdit p
  event_id : eventId plain = eventId p
  marked : Marked plain

/-- An attempt decrypts the event or does not, as the machine can. -/
def Fits (p : Option Value) : Decryption → Prop
  | .decrypted plain => ∃ q, p = some q ∧ SameEdit q plain
  | _ => p = none

variable {ctx} {ω : Type} {O : Outside ω} {dec : Oracle} {s s' : State ω}

theorem decrypt_fits (hO : Decides O ctx dec) {room_id : RoomId} {event : Value} {o : Decryption}
    (h : Prog.Exec (sem O) (decrypt ctx room_id event) s o s') :
    Fits (decrypted dec room_id event) o := by
  refine h.wp (Q := fun o _ => Fits (decrypted dec room_id event) o) ?_
  unfold decrypt
  split_ifs with he
  · split
    · next hraw => simp [Fits,decrypted,he,hraw]
    · next raw hraw =>
        rw [act_bind]
        intro r s₁ hs
        have hr : r = dec raw room_id := hO _ _ _ _ _ hs.1
        simp only [decrypted,if_pos he,hraw,Option.bind_some]
        rw [← hr]
        clear hr hs
        cases r with
        | error m => exact rfl
        | ok result =>
            cases result with
            | unableToDecrypt reason session_id => exact rfl
            | decrypted new_event info =>
                have hother : ∀ v : Option Value, v.bind Value.asObject = none →
                    Fits ((v.bind Value.asObject).map (mergeUnsigned event info)) .untouched := by
                  intro v hv
                  rw [hv]
                  rfl
                simp only [plaintext]
                split
                · next m hm =>
                    rw [hm,Prog.wp_bind]
                    refine Prog.wp_of_forall (fun _ s₂ => ?_) _ _
                    rw [Prog.wp_bind]
                    refine Prog.wp_mono ?_ (Prog.wp_of_every (I := fun _ => True)
                      (fun _ _ _ => trivial) (harvest_content ctx _) trivial)
                    rintro plain s₃ ⟨⟨hkeys,hcan⟩,_⟩
                    refine ⟨_,rfl,hcan,?_,fun v hv => ?_⟩
                    · rw [eventId,eventId,hkeys "event_id" (by decide)]
                    · rw [Value.pointer_cons,hkeys "unsigned" (by decide)] at hv
                      exact SyncRewrite.mergeUnsigned_marked _ _ _ v hv
                · next hnot =>
                    refine hother _ ?_
                    cases hv : Codec.fromRaw new_event with
                    | none => rfl
                    | some v =>
                        cases v with
                        | object m => exact (hnot m hv).elim
                        | _ => rfl
  · simp [Fits,decrypted,he]

/-- The room has an entry in the response, or is known as joined. -/
def Known (joined : RoomId → Option (Option Value)) (w : Value) (room_id : RoomId) : Prop :=
  (entry room_id w).isSome ∨ (joined room_id).isSome

/-- The response has an edit for the event in the room's timeline. -/
def Edited (w : Value) (room_id : RoomId) (id : String) : Prop :=
  ∃ e ∈ events room_id w, repairs e = some id

/-- Actions of the repairs that change neither the queue nor the joined rooms. -/
theorem push_bystander (w : Value) (room_id : RoomId) (e : Value) :
    (push_into_sync ctx w room_id e).Does SyncPass.bystander := by
  unfold push_into_sync
  split_ifs
  · simp
  · refine .bind (by simp [SyncPass.bystander]) fun unread => ?_
    cases unread <;> simp
  · simp

/-- What pushing an edit makes of a body. -/
structure Pushed (joined : RoomId → Option (Option Value)) (w w' : Value) (room_id : RoomId)
    (e : Value) : Prop where
  object : w'.isObject = true
  known : ∀ r, Known joined w' r ↔ Known joined w r
  edited : ∀ r id, Edited w' r id ↔
    Edited w r id ∨ (r = room_id ∧ repairs e = some id ∧ Known joined w room_id)

omit [Codec] in
theorem pushed_of_event {joined : RoomId → Option (Option Value)} {w w₁ w' : Value}
    {room_id : RoomId} {e : Value} (hknown : Known joined w room_id)
    (hentries : ∀ r ≠ room_id, entry r w₁ = entry r w)
    (hevents : events room_id w₁ = events room_id w) (h : pushEvent room_id e w₁ = some w') :
    Pushed joined w w' room_id e := by
  obtain ⟨⟨x,_,hx⟩,hother⟩ := Timelines.entry_indexMut h
  obtain ⟨hself,_⟩ := Timelines.pushEvent_events h
  refine ⟨?_,fun r => ?_,fun r id => ?_⟩
  · cases w' with
    | object m => rfl
    | _ => cases hx
  · by_cases hr : r = room_id
    · rw [hr]
      exact ⟨fun _ => hknown,fun _ => .inl (by rw [hx]; rfl)⟩
    · rw [Known,Known,hother r hr,hentries r hr]
  · by_cases hr : r = room_id
    · subst hr
      simp only [Edited,hself,hevents,List.mem_append,List.mem_singleton,true_and]
      constructor
      · rintro ⟨e',hold | rfl,he'⟩
        · exact .inl ⟨e',hold,he'⟩
        · exact .inr ⟨he',hknown⟩
      · rintro (⟨e',hold,he'⟩ | ⟨he,_⟩)
        · exact ⟨e',.inl hold,he'⟩
        · exact ⟨e,.inr rfl,he⟩
    · simp only [Edited,events,hother r hr,hentries r hr]
      constructor
      · exact .inl
      · rintro (hold | ⟨he,_⟩)
        · exact hold
        · exact (hr he).elim

omit [Codec] in
theorem not_pushed {joined : RoomId → Option (Option Value)} {w : Value} {room_id : RoomId}
    (hw : w.isObject = true) (hunknown : ¬ Known joined w room_id) (e : Value) :
    Pushed joined w w room_id e := by
  refine ⟨hw,fun _ => Iff.rfl,fun r id => ?_⟩
  constructor
  · exact .inl
  · rintro (hold | ⟨_,_,hknown⟩)
    · exact hold
    · exact (hunknown hknown).elim

theorem push_exec {w : Value} (hw : w.isObject = true) {room_id : RoomId} {e : Value}
    {r : Option (Bool × Value)} (h : Prog.Exec (sem O) (push_into_sync ctx w room_id e) s r s')
    {b : Bool} {w' : Value} (hr : r = some (b,w')) :
    Pushed (s.accounts ctx).rooms.joined w w' room_id e := by
  unfold push_into_sync at h
  rw [if_pos hw] at h
  split_ifs at h with hentry
  · cases h
    obtain ⟨w₁,hp,⟨⟩⟩ := Option.map_eq_some_iff.mp hr
    exact pushed_of_event (.inl hentry) (fun _ _ => rfl) rfl hp
  · have hnone : entry room_id w = none := by simpa [entry] using hentry
    cases h with
    | @act _ _ _ s₁ _ unread _ hs h =>
        obtain ⟨hunread,_⟩ := hs
        change unread = (s.accounts ctx).rooms.joined room_id at hunread
        cases unread with
        | none =>
            cases h
            cases hr
            refine not_pushed hw (fun hknown => ?_) e
            rcases hknown with hknown | hknown
            · exact hentry hknown
            · rw [← hunread] at hknown
              cases hknown
        | some unread =>
            have h' : Prog.Exec (sem O) (.ret (((w.assign ["rooms","join",room_id]
              (roomEntry unread)).bind (pushEvent room_id e)).map fun b => (true,b))) s₁ r s' := h
            cases h'
            obtain ⟨w₂,h₂,⟨⟩⟩ := Option.map_eq_some_iff.mp hr
            obtain ⟨w₁,h₁,hp⟩ := Option.bind_eq_some_iff.mp h₂
            have hassign : w.indexMut "rooms" (Value.indexMut "join" (Value.indexMut room_id fun _ =>
              some (roomEntry unread))) = some w₁ := h₁
            obtain ⟨⟨x,hx,hx'⟩,hother⟩ := Timelines.entry_indexMut hassign
            refine pushed_of_event (.inr (by rw [← hunread]; rfl)) hother ?_ hp
            have hempty : Timelines.roomEvents (roomEntry unread) = [] := by
              cases unread <;> rfl
            rw [events,events,hx',hnone,← Option.some.inj hx]
            exact hempty

/-- The machine leaves an event its ID. -/
def KeepsId (dec : Oracle) : Prop :=
  ∀ room_id event p, decrypted dec room_id event = some p → eventId p = eventId event

def Unreadable (dec : Oracle) (r : PendingRepair) : Prop :=
  decrypted dec r.room_id r.event = none

def Editable (dec : Oracle) (r : PendingRepair) : Prop :=
  ∃ p, decrypted dec r.room_id r.event = some p ∧ canEdit p = true

/-- What repairing a list of entries makes of the response and of what is pending. -/
structure Repaired (dec : Oracle) (delivered : List String) (rs : List PendingRepair) (w w' : Value)
    (acc acc' : Account) : Prop where
  object : w'.isObject = true
  joined : acc'.rooms.joined = acc.rooms.joined
  known : ∀ r, Known acc.rooms.joined w' r ↔ Known acc.rooms.joined w r
  edited : ∀ room_id id, Edited w' room_id id ↔ Edited w room_id id ∨ ∃ r ∈ rs,
    r.room_id = room_id ∧ r.event_id = id ∧ id ∉ delivered ∧ Editable dec r ∧
      Known acc.rooms.joined w room_id
  pending : ∀ id, id ∈ acc'.repairs.pending ↔ id ∈ acc.repairs.pending ∨ ∃ r ∈ rs,
    r.event_id = id ∧ id ∉ delivered ∧ Unreadable dec r

variable {delivered : List String} {acc acc₁ acc' : Account} {w w₁ w' : Value} {r : PendingRepair}
  {rs : List PendingRepair}

theorem Repaired.nil (hw : w.isObject = true) : Repaired dec delivered [] w w acc acc where
  object := hw
  joined := rfl
  known _ := Iff.rfl
  edited _ _ := by simp
  pending _ := by simp

theorem Repaired.cons (h₁ : Repaired dec delivered [r] w w₁ acc acc₁)
    (h₂ : Repaired dec delivered rs w₁ w' acc₁ acc') :
    Repaired dec delivered (r :: rs) w w' acc acc' where
  object := h₂.object
  joined := h₂.joined.trans h₁.joined
  known x := by
    have hk := h₂.known x
    rw [h₁.joined] at hk
    exact hk.trans (h₁.known x)
  edited room_id id := by
    rw [h₂.edited,h₁.edited,h₁.joined,h₁.known]
    simp only [List.mem_cons,List.not_mem_nil,or_false,exists_eq_or_imp,exists_eq_left,or_assoc]
  pending id := by
    rw [h₂.pending,h₁.pending]
    simp only [List.mem_cons,List.not_mem_nil,or_false,exists_eq_or_imp,exists_eq_left,or_assoc]

/-- An entry that changes neither the response nor the queue. -/
theorem Repaired.idle (hw : w.isObject = true) (hjoined : acc'.rooms.joined = acc.rooms.joined)
    (hpending : acc'.repairs = acc.repairs)
    (h : r.event_id ∈ delivered ∨ (¬ Editable dec r ∧ ¬ Unreadable dec r)) :
    Repaired dec delivered [r] w w acc acc' where
  object := hw
  joined := hjoined
  known _ := Iff.rfl
  edited room_id id := by
    refine ⟨.inl,fun he => he.resolve_right ?_⟩
    rintro ⟨x,hx,_,rfl,hd,hedit,_⟩
    cases List.mem_singleton.mp hx
    rcases h with h | h
    · exact hd h
    · exact h.1 hedit
  pending id := by
    rw [hpending]
    refine ⟨.inl,fun he => he.resolve_right ?_⟩
    rintro ⟨x,hx,rfl,hd,hun⟩
    cases List.mem_singleton.mp hx
    rcases h with h | h
    · exact hd h
    · exact h.2 hun

/-- An entry that is put back. -/
theorem Repaired.requeued (hw : w.isObject = true) (hjoined : acc'.rooms.joined = acc.rooms.joined)
    (hpending : acc'.repairs = acc.repairs.requeue r) (hd : r.event_id ∉ delivered)
    (hun : Unreadable dec r) : Repaired dec delivered [r] w w acc acc' where
  object := hw
  joined := hjoined
  known _ := Iff.rfl
  edited room_id id := by
    refine ⟨.inl,fun he => he.resolve_right ?_⟩
    rintro ⟨x,hx,_,_,_,⟨p,hp,_⟩,_⟩
    cases List.mem_singleton.mp hx
    rw [show decrypted dec r.room_id r.event = none from hun] at hp
    cases hp
  pending id := by
    rw [hpending]
    have hmem : id ∈ (acc.repairs.requeue r).pending ↔ id = r.event_id ∨ id ∈ acc.repairs.pending :=
      AList.mem_insert ..
    rw [hmem,or_comm]
    refine or_congr_right ⟨?_,?_⟩
    · rintro rfl
      exact ⟨r,List.mem_singleton_self r,rfl,hd,hun⟩
    · rintro ⟨x,hx,rfl,_⟩
      rw [List.mem_singleton.mp hx]

/-- An entry whose edit is pushed, or would be if its room were known. -/
theorem Repaired.pushed {e : Value} (hjoined : acc'.rooms.joined = acc.rooms.joined)
    (hpending : acc'.repairs = acc.repairs) (hd : r.event_id ∉ delivered) (hedit : Editable dec r)
    (he : repairs e = some r.event_id) (h : Pushed acc.rooms.joined w w' r.room_id e) :
    Repaired dec delivered [r] w w' acc acc' where
  object := h.object
  joined := hjoined
  known := h.known
  edited room_id id := by
    rw [h.edited]
    refine or_congr_right ⟨?_,?_⟩
    · rintro ⟨rfl,hid,hknown⟩
      rw [he] at hid
      cases hid
      exact ⟨r,List.mem_singleton_self r,rfl,rfl,hd,hedit,hknown⟩
    · rintro ⟨x,hx,rfl,rfl,_,_,hknown⟩
      cases List.mem_singleton.mp hx
      exact ⟨rfl,he,hknown⟩
  pending id := by
    rw [hpending]
    refine ⟨.inl,fun h => h.resolve_right ?_⟩
    rintro ⟨x,hx,_,_,hun⟩
    cases List.mem_singleton.mp hx
    obtain ⟨p,hp,_⟩ := hedit
    rw [show decrypted dec r.room_id r.event = none from hun] at hp
    cases hp

variable {E : String → Value → Value → Prop} {v : Value}

theorem repair_all_exec (hO : Decides O ctx dec) (hkeeps : KeepsId dec)
    (hown : ∀ r ∈ rs, eventId r.event = some r.event_id) {n : Nat}
    (hw : w.isObject = true) (hshape : SyncRewrite.Repaired E v w) {res : Option (Nat × Value)}
    (h : Prog.Exec (sem O) (repair_all ctx delivered rs n w) s res s') :
    ∃ m w', res = some (m,w') ∧ SyncRewrite.Repaired E v w' ∧
      Repaired dec delivered rs w w' (s.accounts ctx) (s'.accounts ctx) := by
  induction rs generalizing n w s with
  | nil =>
      cases h
      exact ⟨n,w,rfl,hshape,.nil hw⟩
  | cons r rs ih =>
      have hrest : ∀ r ∈ rs, eventId r.event = some r.event_id :=
        fun x hx => hown x (List.mem_cons_of_mem _ hx)
      have hid := hown r (List.mem_cons_self ..)
      unfold repair_all at h
      split_ifs at h with hd
      · obtain ⟨m,w',hres,hshape',hrep⟩ := ih hrest hw hshape h
        exact ⟨m,w',hres,hshape',.cons (.idle hw rfl rfl (.inl hd)) hrep⟩
      obtain ⟨o,s₁,ho,h⟩ := Prog.exec_bind.mp h
      have hfits := decrypt_fits hO ho
      obtain ⟨hqueue,hjoined⟩ := SyncPass.bystander_exec ((decrypt_does ctx r.room_id r.event).mono
        fun _ h => SyncPass.decrypting_bystander h) ho ctx
      have hback : ∀ {k : Act.Ans (.repairs ctx (.requeue r)) → M (Option (Nat × Value))},
          Unreadable dec r → (∀ x, k x = repair_all ctx delivered rs n w) →
          Prog.Exec (sem O) (.act (.repairs ctx (.requeue r)) k) s₁ res s' →
          ∃ m w', res = some (m,w') ∧ SyncRewrite.Repaired E v w' ∧
            Repaired dec delivered (r :: rs) w w' (s.accounts ctx) (s'.accounts ctx) := by
        intro k hun hk h
        cases h with
        | @act _ _ _ s₂ _ x _ hs h =>
            obtain ⟨_,hs₂⟩ := hs
            rw [hk] at h
            obtain ⟨m,w',hres,hshape',hrep⟩ := ih hrest hw hshape h
            refine ⟨m,w',hres,hshape',.cons (.requeued hw ?_ ?_ hd hun) hrep⟩
            · rw [hs₂,State.account_self]
              exact hjoined
            · rw [hs₂,State.account_self,← hqueue]
              rfl
      cases o with
      | undecryptable reason session_id raw => exact hback hfits (fun _ => rfl) h
      | untouched => exact hback hfits (fun _ => rfl) h
      | decrypted plain =>
          obtain ⟨p,hp,hsame⟩ := hfits
          dsimp only at h
          cases hcan : canEdit plain with
          | false =>
              rw [synthetic_edit_none hcan] at h
              obtain ⟨m,w',hres,hshape',hrep⟩ := ih hrest hw hshape h
              refine ⟨m,w',hres,hshape',.cons (.idle hw hjoined hqueue (.inr ⟨?_,?_⟩)) hrep⟩
              · rintro ⟨p',hp',hcan'⟩
                rw [hp,Option.some.injEq] at hp'
                rw [← hp',← hsame.canEdit,hcan] at hcan'
                cases hcan'
              · intro hun
                rw [show decrypted dec r.room_id r.event = none from hun] at hp
                cases hp
          | true =>
              obtain ⟨id,edit,hplain,hedit,hmark⟩ := synthetic_edit_some hsame.marked hcan
              have hedit_id : repairs edit = some r.event_id := by
                have hkept := hkeeps _ _ _ hp
                rw [hsame.event_id,hkept,hid] at hplain
                rw [hmark,hplain]
              rw [hedit] at h
              obtain ⟨pushed,s₂,hpush,h⟩ := Prog.exec_bind.mp h
              obtain ⟨⟨b,w₁,hpushed,hshape₁⟩,_⟩ := hpush.wp (Prog.wp_of_every (I := fun _ => True)
                (fun _ _ _ => trivial) (SyncRewrite.push_into_sync_repaired ctx hshape r.room_id
                  (SyncRewrite.synthetic_edit_isEdit hedit)) trivial)
              have hpush' := push_exec hw hpush hpushed
              rw [hjoined] at hpush'
              obtain ⟨hqueue₂,hjoined₂⟩ := SyncPass.bystander_exec (push_bystander ..) hpush ctx
              have hone : Repaired dec delivered [r] w w₁ (s.accounts ctx) (s₂.accounts ctx) :=
                .pushed (hjoined₂.trans hjoined) (hqueue₂.trans hqueue) hd
                  ⟨p,hp,hsame.canEdit.symm.trans hcan⟩ hedit_id hpush'
              subst hpushed
              cases b with
              | true =>
                  obtain ⟨m,w',hres,hshape',hrep⟩ := ih hrest hone.object hshape₁ h
                  exact ⟨m,w',hres,hshape',.cons hone hrep⟩
              | false =>
                  obtain ⟨m,w',hres,hshape',hrep⟩ := ih hrest hone.object hshape₁ h
                  exact ⟨m,w',hres,hshape',.cons hone hrep⟩

/-- What goes on after the first part of the entries. -/
def goOn (ctx : AccountContext) (delivered : List String) (rs : List PendingRepair) :
    Option (Nat × Value) → M (Option (Nat × Value))
  | none => pure none
  | some (n,w) => repair_all ctx delivered rs n w

theorem repair_all_append (xs ys : List PendingRepair) (n : Nat) (w : Value) :
    repair_all ctx delivered (xs ++ ys) n w =
      repair_all ctx delivered xs n w >>= goOn ctx delivered ys := by
  induction xs generalizing n w with
  | nil => rfl
  | cons r xs ih =>
      rw [List.cons_append,repair_all,repair_all]
      split_ifs
      · exact ih n w
      rw [Prog.bind_assoc]
      congr
      funext outcome
      cases outcome with
      | undecryptable reason session_id raw => simp only [ih,Prog.bind_assoc]
      | untouched => simp only [ih,Prog.bind_assoc]
      | decrypted plain =>
          dsimp only
          cases synthetic_edit plain with
          | none => rfl
          | some edit =>
              cases edit with
              | none => exact ih n w
              | some edit =>
                  dsimp only
                  rw [Prog.bind_assoc]
                  congr
                  funext pushed
                  cases pushed with
                  | none => rfl
                  | some p =>
                      obtain ⟨b,w₁⟩ := p
                      cases b with
                      | true => exact ih (n + 1) w₁
                      | false => exact ih n w₁

/-- A dropped entry is being decrypted, and is not one that is delivered. -/
theorem repair_one_cut {n : Nat} {a : Act}
    (h : Prog.Cut (sem O) Act.waits (repair_all ctx delivered [r] n w) s a s') :
    r.event_id ∉ delivered ∧ Prog.Cut (sem O) Act.waits (decrypt ctx r.room_id r.event) s a s' := by
  unfold repair_all at h
  split_ifs at h with hd
  · cases h
  refine ⟨hd,?_⟩
  obtain hcut | ⟨o,s₁,_,h⟩ := Prog.cut_bind h
  · exact hcut
  refine (Prog.Does.not_cut ?_ h).elim
  cases o with
  | undecryptable reason session_id raw => exact ⟨id,fun _ => trivial⟩
  | untouched => exact ⟨id,fun _ => trivial⟩
  | decrypted plain =>
      dsimp only
      split
      · simp
      · trivial
      · refine .bind ?_ fun pushed => ?_
        · unfold push_into_sync
          split_ifs
          · simp
          · refine .bind (by simp [Act.waits]) fun unread => ?_
            cases unread <;> simp
          · simp
        · split <;> trivial

/-- Where the repairs are dropped, one entry is being decrypted, those before it are
done with, and those after it have not been looked at. -/
theorem repair_all_cut {n : Nat} {a : Act}
    (h : Prog.Cut (sem O) Act.waits (repair_all ctx delivered rs n w) s a s') :
    ∃ done k rest res s₁, rs = done ++ k :: rest ∧ k.event_id ∉ delivered ∧
      Prog.Exec (sem O) (repair_all ctx delivered done n w) s res s₁ ∧
      Prog.Cut (sem O) Act.waits (decrypt ctx k.room_id k.event) s₁ a s' := by
  induction rs generalizing n w s with
  | nil => cases h
  | cons r rs ih =>
      rw [show r :: rs = [r] ++ rs from rfl,repair_all_append] at h
      obtain hcut | ⟨x,s₁,hone,h⟩ := Prog.cut_bind h
      · obtain ⟨hd,hdecrypt⟩ := repair_one_cut hcut
        exact ⟨[],r,rs,_,s,rfl,hd,.ret _ _,hdecrypt⟩
      · cases x with
        | none => cases h
        | some x =>
            obtain ⟨m,w₁⟩ := x
            obtain ⟨done,k,rest,res,s₂,rfl,hd,hdone,hdecrypt⟩ := ih h
            refine ⟨r :: done,k,rest,res,s₂,rfl,hd,?_,hdecrypt⟩
            rw [show r :: done = [r] ++ done from rfl,repair_all_append]
            exact Prog.exec_bind.mpr ⟨_,s₁,hone,hdone⟩

/-- A joined room's timeline has the event, and as something else than a placeholder. -/
def Readable (body : Value) (id : String) : Prop :=
  ∃ room_id, ∃ e ∈ events room_id body, eventId e = some id ∧ isEncrypted e = false ∧
    e.pointer ["unsigned","ement_e2ee","utd"] ≠ some (.bool true)

/-- The client's sync stream has reported the room as left, and not as joined since. -/
def Left (reports : List (Section × RoomId)) (room_id : RoomId) : Prop :=
  ∃ before after, reports = before ++ (.leave,room_id) :: after ∧ (.join,room_id) ∉ after

/-- The event can be decrypted, but no edit can be built from it. -/
def NoEdit (dec : Oracle) (r : PendingRepair) : Prop :=
  ∃ p, decrypted dec r.room_id r.event = some p ∧ canEdit p = false

/-- What becomes of an entry that was taken, given the body that came in, the one
that is returned if there is one, and the queue that is left. -/
inductive Accounted (dec : Oracle) (reports : List (Section × RoomId)) (body : Value)
    (returned : Option Value) (q : RepairQueue) (r : PendingRepair) : Prop
  | edited (w : Value) : returned = some w → Edited w r.room_id r.event_id →
      Accounted dec reports body returned q r
  | delivered : Readable body r.event_id → Accounted dec reports body returned q r
  | pending : r.event_id ∈ q.pending → Accounted dec reports body returned q r
  | noEdit : NoEdit dec r → Accounted dec reports body returned q r
  | left : Left reports r.room_id → Accounted dec reports body returned q r

/-- Reasons for which nothing has to be done about an entry. -/
def Excused (dec : Oracle) (reports : List (Section × RoomId)) (body : Value) (r : PendingRepair) :
    Prop := Left reports r.room_id ∨ NoEdit dec r ∨ Readable body r.event_id

variable {reports : List (Section × RoomId)} {body : Value} {q : RepairQueue}

omit [Codec] in
theorem taken_not_pending (h : r ∈ q.take_ready.1) : r.event_id ∉ q.take_ready.2.pending := by
  intro hmem
  obtain ⟨x,hx⟩ := Option.isSome_iff_exists.mp (AList.lookup_isSome.mpr hmem)
  obtain ⟨hl,hready⟩ := RepairQueue.take_ready_lookup.mp hx
  obtain ⟨hl',hready'⟩ := RepairQueue.take_ready_taken h
  rw [hl,Option.some.injEq] at hl'
  rw [hl',hready'] at hready
  cases hready

omit [Codec] in
theorem taken_unique (h : r ∈ q.take_ready.1) {r' : PendingRepair} (h' : r' ∈ q.take_ready.1)
    (hid : r'.event_id = r.event_id) : r' = r := by
  have hl := (RepairQueue.take_ready_taken h).1
  rw [← hid,(RepairQueue.take_ready_taken h').1] at hl
  exact Option.some.inj hl

/-- An entry is accounted for if its edit can be pushed, or if it can be put back. -/
theorem Repaired.accounted (h : Repaired dec delivered q.take_ready.1 body w acc acc')
    (hacc : acc.repairs = q.take_ready.2) (hr : r ∈ q.take_ready.1) :
    Accounted dec reports body (some w) acc'.repairs r ↔ Excused dec reports body r ∨
      Edited body r.room_id r.event_id ∨
      (r.event_id ∉ delivered ∧ (Unreadable dec r ∨ Known acc.rooms.joined body r.room_id)) := by
  have hgone : r.event_id ∉ acc.repairs.pending := by
    rw [hacc]
    exact taken_not_pending hr
  constructor
  · intro hacc
    cases hacc with
    | edited x hx hedited =>
        cases hx
        obtain hold | ⟨_,_,_,_,hd,_,hknown⟩ := (h.edited _ _).mp hedited
        · exact .inr (.inl hold)
        · exact .inr (.inr ⟨hd,.inr hknown⟩)
    | delivered hreadable => exact .inl (.inr (.inr hreadable))
    | pending hpending =>
        obtain hold | ⟨r',hr',hid,hd,hun⟩ := (h.pending _).mp hpending
        · exact (hgone hold).elim
        · rw [taken_unique hr hr' hid] at hun
          exact .inr (.inr ⟨hd,.inl hun⟩)
    | noEdit hno => exact .inl (.inr (.inl hno))
    | left hleft => exact .inl (.inl hleft)
  · rintro ((hleft | hno | hreadable) | hold | ⟨hd,hun | hknown⟩)
    · exact .left hleft
    · exact .noEdit hno
    · exact .delivered hreadable
    · exact .edited w rfl ((h.edited _ _).mpr (.inl hold))
    · exact .pending ((h.pending _).mpr (.inr ⟨r,hr,rfl,hd,hun⟩))
    · cases hp : decrypted dec r.room_id r.event with
      | none => exact .pending ((h.pending _).mpr (.inr ⟨r,hr,rfl,hd,hp⟩))
      | some p =>
          cases hcan : canEdit p with
          | false => exact .noEdit ⟨p,hp,hcan⟩
          | true =>
              have hedit : Editable dec r := ⟨p,hp,hcan⟩
              exact .edited w rfl ((h.edited _ _).mpr (.inr ⟨r,hr,rfl,rfl,hd,hedit,hknown⟩))

/-- With the response dropped, only what was put back so far is not lost. -/
theorem Repaired.dropped {done rest : List PendingRepair}
    (htaken : q.take_ready.1 = done ++ rest) (h : Repaired dec delivered done body w acc acc')
    (hacc : acc.repairs = q.take_ready.2) (hr : r ∈ q.take_ready.1) :
    Accounted dec reports body none acc'.repairs r ↔ Excused dec reports body r ∨
      (r ∈ done ∧ r.event_id ∉ delivered ∧ Unreadable dec r) := by
  constructor
  · intro hacc'
    cases hacc' with
    | edited x hx _ => cases hx
    | delivered hreadable => exact .inl (.inr (.inr hreadable))
    | pending hpending =>
        obtain hold | ⟨r',hr',hid,hd,hun⟩ := (h.pending _).mp hpending
        · rw [hacc] at hold
          exact (taken_not_pending hr hold).elim
        · have hmem : r' ∈ q.take_ready.1 := htaken ▸ List.mem_append_left rest hr'
          rw [taken_unique hr hmem hid] at hr' hun
          exact .inr ⟨hr',hd,hun⟩
    | noEdit hno => exact .inl (.inr (.inl hno))
    | left hleft => exact .inl (.inl hleft)
  · rintro ((hleft | hno | hreadable) | ⟨hdone,hd,hun⟩)
    · exact .left hleft
    · exact .noEdit hno
    · exact .delivered hreadable
    · exact .pending ((h.pending _).mpr (.inr ⟨r,hdone,rfl,hd,hun⟩))

/-- What is in hand while an entry is decrypted does not touch the queue. -/
theorem decrypt_cut {room_id : RoomId} {event : Value} {a : Act}
    (h : Prog.Cut (sem O) Act.waits (decrypt ctx room_id event) s a s') :
    (s'.accounts ctx).repairs = (s.accounts ctx).repairs :=
  h.wc (Prog.wc_of_does (I := fun t => (t.accounts ctx).repairs = (s.accounts ctx).repairs)
    (fun ha hs ht => ((SyncPass.bystander_kept (SyncPass.decrypting_bystander ha) hs ctx).1).trans ht)
    (decrypt_does ctx room_id event) rfl)

/-- With nothing to repair, there is nothing to do. -/
theorem inject_eq (body : Value) : inject ctx body = .act (.repairs ctx .takeReady) fun ready =>
    repair_all ctx (delivered_event_ids body) ready 0 body := by
  unfold inject
  rw [act_bind]
  congr
  funext ready
  by_cases he : List.isEmpty ready = true
  · rw [if_pos he,List.isEmpty_iff.mp he]
    rfl
  · rw [if_neg he]

theorem inject_exec {res : Option (Nat × Value)}
    (h : Prog.Exec (sem O) (inject ctx body) s res s') : ∃ s₁,
      (s₁.accounts ctx).repairs = (s.accounts ctx).repairs.take_ready.2 ∧
      (s₁.accounts ctx).rooms.joined = (s.accounts ctx).rooms.joined ∧
      Prog.Exec (sem O) (repair_all ctx (delivered_event_ids body)
        (s.accounts ctx).repairs.take_ready.1 0 body) s₁ res s' := by
  rw [inject_eq] at h
  cases h with
  | @act _ _ _ s₁ _ ready _ hs h =>
      obtain ⟨hready,hs₁⟩ := hs
      change ready = (s.accounts ctx).repairs.take_ready.1 at hready
      refine ⟨s₁,by rw [hs₁,State.account_self]; rfl,by rw [hs₁,State.account_self],?_⟩
      rwa [← hready]

theorem inject_cut {a : Act} (h : Prog.Cut (sem O) Act.waits (inject ctx body) s a s') : ∃ s₁,
      (s₁.accounts ctx).repairs = (s.accounts ctx).repairs.take_ready.2 ∧
      Prog.Cut (sem O) Act.waits (repair_all ctx (delivered_event_ids body)
        (s.accounts ctx).repairs.take_ready.1 0 body) s₁ a s' := by
  rw [inject_eq] at h
  cases h with
  | before hw => exact hw.elim
  | after hw _ => exact hw.elim
  | @act _ _ _ _ s₁ _ ready hs h =>
      obtain ⟨hready,hs₁⟩ := hs
      change ready = (s.accounts ctx).repairs.take_ready.1 at hready
      refine ⟨s₁,by rw [hs₁,State.account_self]; rfl,?_⟩
      rwa [← hready]

/-- A completed call accounts for exactly those entries that are excused, that the
response does not deliver and that are put back or have a room to go to, or whose edit
was there before. A call that is dropped while an entry is decrypted accounts for
exactly those that are excused or have been put back. -/
theorem repairs_accounted (hO : Decides O ctx dec) (hkeeps : KeepsId dec)
    (hown : (s.accounts ctx).repairs.OwnEvents) (hbody : body.isObject = true)
    (hshape : SyncRewrite.Shaped body) (reports : List (Section × RoomId)) :
    (∀ res s', Prog.Exec (sem O) (inject ctx body) s res s' → ∃ n body', res = some (n,body') ∧
      ∀ r ∈ (s.accounts ctx).repairs.take_ready.1,
        Accounted dec reports body (some body') (s'.accounts ctx).repairs r ↔
          Excused dec reports body r ∨ Edited body r.room_id r.event_id ∨
          (r.event_id ∉ delivered_event_ids body ∧
            (Unreadable dec r ∨ Known (s.accounts ctx).rooms.joined body r.room_id))) ∧
    (∀ a s', Prog.Cut (sem O) Act.waits (inject ctx body) s a s' → ∃ done k rest s₁,
      (s.accounts ctx).repairs.take_ready.1 = done ++ k :: rest ∧
      k.event_id ∉ delivered_event_ids body ∧
      Prog.Cut (sem O) Act.waits (decrypt ctx k.room_id k.event) s₁ a s' ∧
        ∀ r ∈ (s.accounts ctx).repairs.take_ready.1,
        Accounted dec reports body none (s'.accounts ctx).repairs r ↔
          Excused dec reports body r ∨
          (r ∈ done ∧ r.event_id ∉ delivered_event_ids body ∧ Unreadable dec r)) := by
  have hids : ∀ r ∈ (s.accounts ctx).repairs.take_ready.1, eventId r.event = some r.event_id :=
    fun r hr => hown _ r (RepairQueue.take_ready_taken hr).1
  have hstart : SyncRewrite.Repaired (fun _ => Eq) body body :=
    ⟨_,fun _ _ he => (List.not_mem_nil he).elim,hshape.rewritten⟩
  constructor
  · intro res s' h
    obtain ⟨s₁,hqueue,hjoined,h⟩ := inject_exec h
    obtain ⟨n,body',hres,_,hrep⟩ := repair_all_exec hO hkeeps hids hbody hstart h
    refine ⟨n,body',hres,fun r hr => ?_⟩
    rw [← hjoined]
    exact hrep.accounted hqueue hr
  · intro a s' h
    obtain ⟨s₁,hqueue,h⟩ := inject_cut h
    obtain ⟨done,k,rest,res,s₂,htaken,hk,hdone,hcut⟩ := repair_all_cut h
    have hids' : ∀ r ∈ done, eventId r.event = some r.event_id :=
      fun r hr => hids r (htaken ▸ List.mem_append_left _ hr)
    obtain ⟨n,w,_,_,hrep⟩ := repair_all_exec hO hkeeps hids' hbody hstart hdone
    refine ⟨done,k,rest,s₂,htaken,hk,hcut,fun r hr => ?_⟩
    rw [decrypt_cut hcut]
    exact hrep.dropped htaken hqueue hr

end

local instance : Codec := .plain (fun _ => none) some fun _ _ => 0

open SyncRewrite (bob fresh unread)
open Promises (imported pendingUnread)

/-- A machine that decrypts every event to one without content. -/
def topics : Oracle := fun raw _ =>
  .ok (.decrypted (.object (Json.Map.insert "type" (.string "m.room.topic") (raw.asObject.getD []))) .null)

def keyed : Outside Unit
  | .olm _ (.tryDecryptRoomEvent raw room_id),_,r,_ => r = topics raw room_id
  | _,_,_,_ => False

theorem keyed_decides : Decides keyed bob topics := by
  intro raw room_id w r w' h
  exact h

theorem mergeUnsigned_get {event info : Value} {m : Json.Map} {k : String} (hk : k ≠ "unsigned") :
    (mergeUnsigned event info m).get k = m.lookup k := by
  unfold mergeUnsigned
  split
  · rw [Value.get_object,Json.Map.lookup_insert_ne (Ne.symm hk)]
  · rfl

theorem topics_keepsId : KeepsId topics := by
  intro room_id event p h
  unfold decrypted at h
  split_ifs at h
  have hp : mergeUnsigned event .null (Json.Map.insert "type" (.string "m.room.topic")
      (event.asObject.getD [])) = p := Option.some.inj h
  rw [← hp,eventId,eventId,mergeUnsigned_get (by decide),Json.Map.lookup_insert_ne (by decide)]
  cases event <;> rfl

/-- What the placeholder's event decrypts to. -/
def topic : Value := mergeUnsigned unread .null
  [("event_id",.string "$e"),("type",.string "m.room.topic")]

theorem decrypt_unread (t : State Unit) :
    Prog.Exec (sem keyed) (decrypt bob "!r" unread) t (.decrypted topic) t := by
  have hread : keyed (.olm bob (.tryDecryptRoomEvent unread "!r")) t.world (topics unread "!r") () :=
    rfl
  unfold decrypt
  rw [if_pos (show isEncrypted unread = true from rfl)]
  exact .act (sem_outside trivial hread) (.ret _ _)

theorem topic_edit : ∃ e, synthetic_edit topic = some (some e) := by
  have hmarked : Marked topic := SyncRewrite.mergeUnsigned_marked unread .null _
  obtain ⟨_,e,_,he,_⟩ := synthetic_edit_some hmarked (by decide)
  exact ⟨e,he⟩

theorem repair_unread {t t' : State Unit} {e w : Value} {b : Bool}
    (he : synthetic_edit topic = some (some e))
    (h : Prog.Exec (sem keyed) (push_into_sync bob (.object []) "!r" e) t (some (b,w)) t') :
    Prog.Exec (sem keyed) (repair_all bob (delivered_event_ids (.object [])) [pendingUnread] 0
      (.object [])) t (some (b.toNat,w)) t' := by
  have hnew : pendingUnread.event_id ∉ delivered_event_ids (.object []) := by
    intro h
    cases h
  rw [repair_all,if_neg hnew]
  refine Prog.exec_bind.mpr ⟨.decrypted topic,t,decrypt_unread t,?_⟩
  dsimp only
  rw [he]
  refine Prog.exec_bind.mpr ⟨_,t',h,?_⟩
  cases b <;> exact .ret _ _

theorem push_unknown {t : State Unit} (ht : (t.accounts bob).rooms.joined "!r" = none) (e : Value) :
    ∃ t', Prog.Exec (sem keyed) (push_into_sync bob (.object []) "!r" e) t (some (false,.object []))
      t' ∧ (t'.accounts bob).repairs = (t.accounts bob).repairs := by
  refine ⟨_,.act (r := none) ⟨ht.symm,rfl⟩ (.ret _ _),?_⟩
  rw [State.account_self]

theorem push_joined {t : State Unit} (ht : (t.accounts bob).rooms.joined "!r" = some none) (e : Value) :
    ∃ w t', Prog.Exec (sem keyed) (push_into_sync bob (.object []) "!r" e) t (some (true,w)) t' :=
  ⟨_,_,.act (r := some none) ⟨ht.symm,rfl⟩ (.ret _ _)⟩

/-- The client is known to have joined the room of the placeholder. -/
def joined : State Unit := imported.account bob { imported.accounts bob with
  rooms := (imported.accounts bob).rooms.note_joined "!r" none }

theorem imported_own : (imported.accounts bob).repairs.OwnEvents := by
  intro id r h
  have htracked : (RepairQueue.default.track "!r" unread none).pending.lookup id = some r := h
  obtain hold | ⟨_,hid,rfl⟩ := RepairQueue.track_lookup htracked
  · cases hold
  · exact hid

/-- The state in which the repairs are tried. -/
def afterTaking (t : State Unit) : State Unit :=
  t.account bob { t.accounts bob with repairs := (t.accounts bob).repairs.take_ready.2 }

theorem inject_pending {t t' : State Unit} (ht : (t.accounts bob).repairs.take_ready.1 = [pendingUnread])
    {e w : Value} {b : Bool} (he : synthetic_edit topic = some (some e))
    (h : Prog.Exec (sem keyed) (push_into_sync bob (.object []) "!r" e) (afterTaking t)
      (some (b,w)) t') :
    Prog.Exec (sem keyed) (inject bob (.object [])) t (some (b.toNat,w)) t' := by
  rw [inject_eq]
  exact .act (r := [pendingUnread]) ⟨ht.symm,rfl⟩ (repair_unread he h)

theorem empty_shaped : SyncRewrite.Shaped (.object []) := by
  intro rooms h
  cases h

/-- The edit of a joined room's event is returned. -/
theorem repairs_accounted_joined : ∃ w t',
    Prog.Exec (sem keyed) (inject bob (.object [])) joined (some (1,w)) t' ∧
    Accounted topics [(.join,"!r")] (.object []) (some w) (t'.accounts bob).repairs pendingUnread := by
  obtain ⟨e,he⟩ := topic_edit
  obtain ⟨w,t',hpush⟩ := push_joined (t := afterTaking joined) rfl e
  have hrun := inject_pending (t := joined) rfl he hpush
  refine ⟨w,t',hrun,?_⟩
  obtain ⟨hdone,_⟩ := repairs_accounted keyed_decides topics_keepsId (s := joined) imported_own rfl
    empty_shaped [(.join,"!r")]
  obtain ⟨n,w',hres,hall⟩ := hdone _ _ hrun
  cases hres
  refine (hall pendingUnread (List.mem_singleton_self _)).mpr (.inr (.inr ⟨?_,.inr (.inr rfl)⟩))
  intro h
  cases h

/-- In a room of which the tracker has not heard, a repair is lost. -/
theorem unknown_room_loses_repair : ∃ s', Decides keyed bob topics ∧ KeepsId topics ∧
    (imported.accounts bob).repairs.OwnEvents ∧ SyncRewrite.Shaped (.object []) ∧
    Prog.Exec (sem keyed) (inject bob (.object [])) imported (some (0,.object [])) s' ∧
    pendingUnread ∈ (imported.accounts bob).repairs.take_ready.1 ∧
    ¬ Accounted topics [] (.object []) (some (.object [])) (s'.accounts bob).repairs pendingUnread := by
  obtain ⟨e,he⟩ := topic_edit
  obtain ⟨t',hpush,hqueue⟩ := push_unknown (t := afterTaking imported) rfl e
  refine ⟨t',keyed_decides,topics_keepsId,imported_own,empty_shaped,inject_pending rfl he hpush,
    List.mem_singleton_self _,fun h => ?_⟩
  cases h with
  | edited w hw hedited =>
      cases hw
      obtain ⟨e,hmem,_⟩ := hedited
      cases hmem
  | delivered hreadable =>
      obtain ⟨room_id,e,hmem,_⟩ := hreadable
      cases hmem
  | pending hpending =>
      rw [hqueue] at hpending
      revert hpending
      decide
  | noEdit hno =>
      obtain ⟨p,hp,hcan⟩ := hno
      have htopic : p = topic := (Option.some.inj hp).symm
      rw [htopic] at hcan
      revert hcan
      decide
  | left hleft =>
      obtain ⟨before,after,hreports,_⟩ := hleft
      simp at hreports

end EmentE2ee.RepairAccounts
