import EmentE2ee.Crypto.RepairAccounts
import EmentE2ee.Crypto.SyncCalls

/-!
# The rooms a client is joined to

The tracker adds the rooms that a sync lists as joined to those it has, and takes
out those listed as left. A client that starts over is told a set of its own: the
two agree as long as no initial sync is silent about a room that is tracked.
-/
namespace EmentE2ee.JoinedRooms

open Concurrent
open Json (Value)
open SyncRewrite (entry)
open RepairAccounts (Known)

section
variable [Codec]

/-- The rooms with parsable IDs among the entries. -/
def named (m : Json.Map) : Set RoomId := {room_id | ∃ e ∈ m, parseRoomId e.1 = some room_id}

/-- The rooms that a section of a sync body lists. -/
def listed (sec : Section) (body : Value) : Set RoomId :=
  named (((((body.get "rooms").bind (Value.get sec.name)).bind Value.asObject)).getD [])

/-- The rooms the client was told it is joined to, after one more sync. -/
def told (initial : Bool) (body : Value) (before : Set RoomId) : Set RoomId :=
  if initial then listed .join body else (before ∪ listed .join body) \ listed .leave body

/-- The rooms for which there are unread counts, if only unknown ones. -/
def tracked (ctx : AccountContext) {ω : Type} (s : State ω) : Set RoomId :=
  {room_id | ((s.accounts ctx).rooms.last_unread_notifications room_id).isSome}

def known (joined : RoomId → Option (Option Value)) : Set RoomId :=
  {room_id | (joined room_id).isSome}

/-- What a membership does to the joined rooms; an event does nothing. -/
def membership : SyncPass.Effect (RoomId → Option (Option Value)) where
  member sec room_id room joined := match sec with
    | .join => Function.update joined room_id
        (some ((room.get "unread_notifications").or ((joined room_id).getD none)))
    | .leave => Function.update joined room_id none
  event _ _ joined := joined

omit [Codec] in
theorem membership_timeline (room_id : RoomId) (xs : List Value)
    (joined : RoomId → Option (Option Value)) :
    membership.timeline room_id xs joined = joined := by
  induction xs with
  | nil => rfl
  | cons x xs ih => exact ih

/-- A section adds rooms or takes them out. -/
def change : Section → Set RoomId → Set RoomId → Set RoomId
  | .join,A,B => A ∪ B
  | .leave,A,B => A \ B

omit [Codec] in
theorem change_change (sec : Section) (A B C : Set RoomId) :
    change sec (change sec A B) C = change sec A (B ∪ C) := by
  cases sec with
  | join => exact Set.union_assoc ..
  | leave => exact Set.sdiff_sdiff ..

omit [Codec] in
theorem change_empty (sec : Section) (A : Set RoomId) : change sec A ∅ = A := by
  cases sec with
  | join => exact Set.union_empty A
  | leave => exact Set.sdiff_empty

omit [Codec] in
theorem known_member (sec : Section) (room_id : RoomId) (room : Value)
    (joined : RoomId → Option (Option Value)) :
    known (membership.member sec room_id room joined) = change sec (known joined) {room_id} := by
  ext r
  by_cases hr : r = room_id
  · cases sec <;> simp [known,membership,change,hr]
  · cases sec <;> simp [known,membership,change,hr]

theorem named_cons (e : String × Value) (m : Json.Map) :
    named (e :: m) = {room_id | parseRoomId e.1 = some room_id} ∪ named m := by
  ext r
  simp [named]

theorem known_rooms (sec : Section) (m : Json.Map) (joined : RoomId → Option (Option Value)) :
    known (m.foldl (membership.room sec) joined) = change sec (known joined) (named m) := by
  induction m generalizing joined with
  | nil =>
      have hnone : named [] = ∅ := by simp [named]
      rw [List.foldl_nil,hnone,change_empty]
  | cons e m ih =>
      have hone : known (membership.room sec joined e) =
          change sec (known joined) {room_id | parseRoomId e.1 = some room_id} := by
        unfold SyncPass.Effect.room
        cases he : parseRoomId e.1 with
        | none =>
            have hempty : {room_id | (none : Option RoomId) = some room_id} = ∅ := by simp
            rw [hempty,change_empty]
        | some room_id =>
            have hself : {r | some room_id = some r} = {room_id} := by
              ext r
              simp [eq_comm]
            dsimp only
            rw [membership_timeline,known_member,hself]
      rw [List.foldl_cons,ih,hone,change_change,named_cons]

/-- The pass adds the rooms listed as joined, and then takes out those listed as left. -/
theorem known_pass (body : Value) (joined : RoomId → Option (Option Value)) :
    known (membership.pass body joined) =
      (known joined ∪ listed .join body) \ listed .leave body := by
  unfold SyncPass.Effect.pass listed
  cases body.get "rooms" with
  | none => simp [named]
  | some rooms =>
      refine (known_rooms ..).trans ?_
      rw [SyncPass.Effect.rooms,known_rooms]
      rfl

/-- Actions that leave the joined rooms alone. -/
def unmoved : Act → Prop
  | .rooms _ (.noteJoined ..) | .rooms _ (.noteLeft _) => False
  | _ => True

variable {ω : Type} {O : Outside ω} {ctx : AccountContext} {s s' : State ω}

theorem unmoved_exec {α : Type} {p : M α} {a : α} (hp : p.Does unmoved)
    (h : Prog.Exec (sem O) p s a s') (c : AccountContext) :
    (s'.accounts c).rooms.joined = (s.accounts c).rooms.joined := by
  induction h with
  | ret a s => rfl
  | @act a _ _ s₁ _ r _ hs _ ih =>
      rw [ih (hp.2 _)]
      have ha := hp.1
      obtain he | ⟨x,rfl,he⟩ := rooms_of_sem hs c
      · rw [he]
      · rw [he]
        cases x with
        | noteJoined r u => exact ha.elim
        | noteLeft r => exact ha.elim
        | _ => rfl

omit [Codec] in
theorem unmoved_of_bystander {a : Act} (h : SyncPass.bystander a) : unmoved a := by
  unfold unmoved
  split <;> first | exact h.elim | trivial

omit [Codec] in
theorem unmoved_of_repairing {delivered : List String} {a : Act} (h : a.repairing delivered) :
    unmoved a := by
  unfold Act.repairing at h
  split at h
  · trivial
  · trivial
  · exact unmoved_of_bystander (SyncPass.decrypting_bystander h)

omit [Codec] in
theorem unmoved_of_receiving {a : Act} (h : SyncCalls.receiving ctx a) : unmoved a := by
  unfold unmoved
  split <;> first | exact h.elim | trivial

/-- The pass over a body, as far as the joined rooms go. -/
def membership_spec (O : Outside ω) (ctx : AccountContext) : SyncPass.Spec O ctx membership where
  view s := (s.accounts ctx).rooms.joined
  made _ _ _ := True
  member_exec {sec room_id room s r s'} h := by
    cases sec with
    | join =>
        cases h with
        | act hs h =>
            cases h
            obtain ⟨_,hs'⟩ := hs
            rw [hs',State.account_self]
            rfl
    | leave =>
        cases h with
        | act hs h =>
            cases h
            obtain ⟨_,hs'⟩ := hs
            rw [hs',State.account_self]
            rfl
  scan_exec h := (SyncPass.bystander_exec (SyncPass.scan_bystander _ _) h ctx).2
  event_exec {room_id x s y s'} h := by
    refine ⟨unmoved_exec ?_ h ctx,trivial⟩
    refine .bind ((decrypt_does ctx room_id x).mono fun _ h =>
      unmoved_of_bystander (SyncPass.decrypting_bystander h)) fun o => ?_
    cases o with
    | decrypted event => simp
    | untouched => simp
    | undecryptable reason session_id raw =>
        refine .bind ((SyncPass.maybe_request_bystander ..).mono fun _ h =>
          unmoved_of_bystander h) fun _ => ?_
        exact ⟨trivial,fun _ => trivial⟩

theorem section_entries {sec : Section} {v w : Value}
    (h : Prog.Exec (sem O) (process_section ctx sec v) s w s') :
    (∀ k ≠ sec.name, w.get k = v.get k) ∧ ∀ r, ((w.get sec.name).bind (Value.get r)).isSome =
      ((v.get sec.name).bind (Value.get r)).isSome := by
  obtain ⟨hother,⟨hv,hw,_⟩ | ⟨x,y,hx,hy,h⟩⟩ := Value.exec_updateM_get h
  · refine ⟨hother,fun r => ?_⟩
    rw [hv,hw]
  · refine ⟨hother,fun r => ?_⟩
    rw [hx,hy,Option.bind_some,Option.bind_some]
    split at h
    · next m =>
        obtain ⟨m',s₁,hm,h⟩ := Prog.exec_bind.mp h
        cases h
        obtain ⟨hr,hr'⟩ | ⟨room,room',_,_,hr,hr',_⟩ := SyncRewrite.process_rooms_lookup hm r
        · rw [Value.get_object,Value.get_object,hr,hr']
        · rw [Value.get_object,Value.get_object,hr,hr']
          rfl
    · cases h
      rfl

/-- The pass neither adds entries nor takes them out. -/
theorem decrypt_entries {body body' : Value}
    (h : Prog.Exec (sem O) (decrypt_sync_body ctx body) s body' s') (r : String) :
    (entry r body').isSome = (entry r body).isSome := by
  rw [Timelines.entry_eq,Timelines.entry_eq]
  obtain ⟨_,⟨hv,hw,_⟩ | ⟨x,y,hx,hy,h⟩⟩ := Value.exec_updateM_get h
  · rw [hv,hw]
  · obtain ⟨z,s₁,hjoin,hleave⟩ := Prog.exec_bind.mp h
    obtain ⟨hother,_⟩ := section_entries hleave
    obtain ⟨_,hentries⟩ := section_entries hjoin
    have hjoined : y.get "join" = z.get "join" := hother "join" (by decide)
    rw [hx,hy,Option.bind_some,Option.bind_some,hjoined]
    exact hentries r

/-- An edit goes into a room that is listed or known. -/
theorem push_known {w w' : Value} {room_id : RoomId} {e : Value} {p : Option (Bool × Value)}
    (h : Prog.Exec (sem O) (push_into_sync ctx w room_id e) s p s') {b : Bool}
    (hp : p = some (b,w')) (r : RoomId) :
    Known (s.accounts ctx).rooms.joined w' r ↔ Known (s.accounts ctx).rooms.joined w r := by
  cases hw : w.isObject with
  | true => exact (RepairAccounts.push_exec hw h hp).known r
  | false =>
      unfold push_into_sync at h
      rw [if_neg (by rw [hw]; decide)] at h
      cases h
      cases hp
      rfl

theorem repair_all_known {delivered : List String} {rs : List PendingRepair} {n : Nat} {w : Value}
    {res : Option (Nat × Value)} (h : Prog.Exec (sem O) (repair_all ctx delivered rs n w) s res s')
    {m : Nat} {w' : Value} (hres : res = some (m,w')) (r : RoomId) :
    Known (s.accounts ctx).rooms.joined w' r ↔ Known (s.accounts ctx).rooms.joined w r := by
  induction rs generalizing n w s with
  | nil =>
      cases h
      cases hres
      rfl
  | cons repair rest ih =>
      unfold repair_all at h
      split_ifs at h with hd
      · exact ih h
      obtain ⟨o,s₁,ho,h⟩ := Prog.exec_bind.mp h
      have hjoined := unmoved_exec ((decrypt_does ctx repair.room_id repair.event).mono fun _ h =>
        unmoved_of_bystander (SyncPass.decrypting_bystander h)) ho ctx
      have hback : ∀ {k : Act.Ans (.repairs ctx (.requeue repair)) → M (Option (Nat × Value))},
          (∀ x, k x = repair_all ctx delivered rest n w) →
          Prog.Exec (sem O) (.act (.repairs ctx (.requeue repair)) k) s₁ res s' →
          (Known (s.accounts ctx).rooms.joined w' r ↔ Known (s.accounts ctx).rooms.joined w r) := by
        intro k hk h
        cases h with
        | @act _ _ _ s₂ _ x _ hs h =>
            obtain ⟨_,hs₂⟩ := hs
            rw [hk] at h
            have hkept := ih h
            rwa [hs₂,State.account_self,hjoined] at hkept
      cases o with
      | undecryptable reason session_id raw => exact hback (fun _ => rfl) h
      | untouched => exact hback (fun _ => rfl) h
      | decrypted plain =>
          dsimp only at h
          split at h
          · cases h
            cases hres
          · rw [← hjoined]
            exact ih h
          · next edit _ =>
              obtain ⟨pushed,s₂,hpush,h⟩ := Prog.exec_bind.mp h
              have hjoined₂ := (unmoved_exec ((RepairAccounts.push_bystander ..).mono fun _ h =>
                unmoved_of_bystander h) hpush ctx).trans hjoined
              split at h
              · cases h
                cases hres
              · have hkept := push_known hpush rfl r
                rw [hjoined] at hkept
                rw [← hkept,← hjoined₂]
                exact ih h
              · have hkept := push_known hpush rfl r
                rw [hjoined] at hkept
                rw [← hkept,← hjoined₂]
                exact ih h

theorem inject_known {w : Value} {res : Option (Nat × Value)}
    (h : Prog.Exec (sem O) (inject ctx w) s res s') {m : Nat} {w' : Value}
    (hres : res = some (m,w')) : tracked ctx s' = tracked ctx s ∧
      ∀ r, (entry r w').isSome → (entry r w).isSome ∨ r ∈ tracked ctx s := by
  have hunmoved := unmoved_exec ?_ h ctx
  · obtain ⟨s₁,_,hjoined,h⟩ := RepairAccounts.inject_exec h
    refine ⟨?_,fun r hr => ?_⟩
    · unfold tracked RoomTracker.last_unread_notifications
      rw [hunmoved]
    · have hkept := (repair_all_known h hres r).mp (.inl hr)
      rw [hjoined] at hkept
      exact hkept
  · rw [RepairAccounts.inject_eq]
    exact ⟨trivial,fun ready => (repair_all_does ctx ..).mono fun _ h => unmoved_of_repairing h⟩

/-- The pass moves the tracked rooms, and the repairs stay within them. -/
theorem process_rooms_exec {body body' : Value}
    (h : Prog.Exec (sem O) (process_sync_body ctx body) s (some body') s') :
    tracked ctx s' = (tracked ctx s ∪ listed .join body) \ listed .leave body ∧
      ∀ r, (entry r body').isSome → (entry r body).isSome ∨ r ∈ tracked ctx s' := by
  obtain ⟨body₁,s₁,hdecrypt,h⟩ := Prog.exec_bind.mp h
  obtain ⟨injected,s₂,hinject,h⟩ := Prog.exec_bind.mp h
  obtain ⟨hview,_⟩ := SyncPass.Spec.pass_exec (S := membership_spec O ctx) hdecrypt
  have hpass : tracked ctx s₁ = (tracked ctx s ∪ listed .join body) \ listed .leave body := by
    refine Eq.trans ?_ (known_pass body (s.accounts ctx).rooms.joined)
    exact congrArg known hview
  obtain ⟨n,rfl,rfl⟩ : ∃ n, injected = some (n,body') ∧ s' = s₂ := by
    cases hi : injected with
    | none => rw [hi] at h; cases h
    | some p =>
        rw [hi] at h
        cases h
        exact ⟨_,rfl,rfl⟩
  obtain ⟨hkept,hentries⟩ := inject_known hinject rfl
  refine ⟨hkept.trans hpass,fun r hr => ?_⟩
  rw [hkept,← decrypt_entries hdecrypt r]
  exact hentries r hr

/-- A sync answered to the client: one that the homeserver answered, from the start
or not, or one of repairs only. `other` stands for all that happens in between. -/
inductive Delivery where
  | synced (initial : Bool) (body returned : Value)
  | repaired (returned : Value)
  | other

/-- What the homeserver's answer is made into. -/
inductive Finished (O : Outside ω) (ctx : AccountContext) (initial : Bool) (reply : Reply)
    (s : State ω) : Delivery → Response → State ω → Prop
  | synced {body returned : Value} {resp : Response} {s' : State ω} :
      isSuccess reply.status = true → Codec.fromSlice reply.bytes = some body →
      Prog.Exec (sem O) (finish_sync ctx reply).run s (.ok resp) s' →
      resp.body = .json returned →
      Finished O ctx initial reply s (.synced initial body returned) resp s'
  | refused {resp : Response} {s' : State ω} : isSuccess reply.status = false →
      Prog.Exec (sem O) (finish_sync ctx reply).run s (.ok resp) s' →
      Finished O ctx initial reply s .other resp s'

/-- How a sync goes that is answered. -/
inductive Answered (O : Outside ω) (ctx : AccountContext) (req : Request) (s : State ω) :
    Delivery → Response → State ω → Prop
  | initial {reply : Reply} {d : Delivery} {resp : Response} {s₁ s' : State ω} :
      query_param (req.query.getD "") "since" = none →
      sem O (.fetch ctx.token req.path_and_query) s (.ok reply) s₁ →
      Finished O ctx true reply s₁ d resp s' → Answered O ctx req s d resp s'
  | incremental {since : String} {reply : Reply} {d : Delivery} {resp : Response}
      {s₁ s₂ s' : State ω} : query_param (req.query.getD "") "since" = some since →
      sem O (.repairs ctx .hasReady) s false s₁ →
      sem O (.poll ctx req.path_and_query) s₁ (some (.ok reply)) s₂ →
      Finished O ctx false reply s₂ d resp s' → Answered O ctx req s d resp s'
  | ready {since : String} {returned : Value} {resp : Response} {s₁ s' : State ω} :
      query_param (req.query.getD "") "since" = some since →
      sem O (.repairs ctx .hasReady) s true s₁ →
      Prog.Exec (sem O) (repair_only_response ctx since).run s₁ (.ok resp) s' →
      resp.body = .json returned → Answered O ctx req s (.repaired returned) resp s'
  | woken {since : String} {returned : Value} {resp : Response} {s₁ s₂ s' : State ω} :
      query_param (req.query.getD "") "since" = some since →
      sem O (.repairs ctx .hasReady) s false s₁ →
      sem O (.poll ctx req.path_and_query) s₁ none s₂ →
      Prog.Exec (sem O) (repair_only_response ctx since).run s₂ (.ok resp) s' →
      resp.body = .json returned → Answered O ctx req s (.repaired returned) resp s'

theorem repair_only_exec {since : String} {resp : Response}
    (h : Prog.Exec (sem O) (repair_only_response ctx since).run s (.ok resp) s') :
    ∃ returned, resp.body = .json returned ∧ tracked ctx s' = tracked ctx s ∧
      ∀ r, (entry r returned).isSome → r ∈ tracked ctx s := by
  obtain ⟨⟨n,w⟩,s₁,hinject,h⟩ | ⟨e,_,he⟩ := Prog.exec_exceptBind.mp h
  · cases h
    rw [run_orPanic] at hinject
    obtain ⟨res,s₂,hinject,h⟩ := Prog.exec_bind.mp hinject
    cases res with
    | none => cases h
    | some p =>
        cases h
        obtain ⟨hkept,hentries⟩ := inject_known hinject rfl
        refine ⟨w,rfl,hkept,fun r hr => (hentries r hr).resolve_left ?_⟩
        rw [show entry r (.object [("next_batch",.string since)]) = none from rfl]
        decide
  · cases he

theorem receive_unmoved (body : Value) :
    (internally (attempt (receive_sync_changes ctx body))).run.Does unmoved := by
  rw [internally_does,attempt_does]
  exact (SyncCalls.receive_does ctx body).mono fun _ h => unmoved_of_receiving h

/-- A successful answer is processed once. -/
theorem finish_sync_exec {reply : Reply} {resp : Response} (hsuccess : isSuccess reply.status = true)
    (h : Prog.Exec (sem O) (finish_sync ctx reply).run s (.ok resp) s') :
    ∃ body returned, Codec.fromSlice reply.bytes = some body ∧ resp.body = .json returned ∧
      tracked ctx s' = (tracked ctx s ∪ listed .join body) \ listed .leave body ∧
      ∀ r, (entry r returned).isSome → (entry r body).isSome ∨ r ∈ tracked ctx s' := by
  unfold finish_sync at h
  rw [if_pos hsuccess] at h
  split at h
  · cases h
  · next body hbody =>
      obtain ⟨_,s₁,hreceive,h⟩ | ⟨e,_,he⟩ := Prog.exec_exceptBind.mp h
      swap
      · cases he
      have hjoined := unmoved_exec (receive_unmoved body) hreceive ctx
      obtain ⟨returned,s₂,hprocess,h⟩ | ⟨e,_,he⟩ := Prog.exec_exceptBind.mp h
      swap
      · cases he
      rw [run_orPanic] at hprocess
      obtain ⟨res,s₃,hprocess,hret⟩ := Prog.exec_bind.mp hprocess
      cases res with
      | none => cases hret
      | some returned' =>
          cases hret
          obtain ⟨htracked,hentries⟩ := process_rooms_exec hprocess
          have hstart : tracked ctx s₁ = tracked ctx s := by
            unfold tracked RoomTracker.last_unread_notifications
            rw [hjoined]
          obtain ⟨_,s₄,hspawn,h⟩ | ⟨e,_,he⟩ := Prog.exec_exceptBind.mp h
          swap
          · cases he
          obtain ⟨_,_,hspawn⟩ := Prog.exec_lift.mp hspawn
          have hkept := unmoved_exec (by simp [unmoved]) hspawn ctx
          cases h
          have hend : tracked ctx s' = tracked ctx s₂ := by
            unfold tracked RoomTracker.last_unread_notifications
            rw [hkept]
          refine ⟨body,returned,hbody,rfl,?_,?_⟩
          · rw [hend,htracked,hstart]
          · rw [hend]
            exact hentries

/-- An unsuccessful answer is passed on. -/
theorem relayed_exec {reply : Reply} {resp : Response} (hsuccess : isSuccess reply.status = false)
    (h : Prog.Exec (sem O) (finish_sync ctx reply).run s (.ok resp) s') :
    tracked ctx s' = tracked ctx s := by
  have hunmoved : (finish_sync ctx reply).run.Does unmoved := by
    unfold finish_sync
    rw [if_neg (by rw [hsuccess]; decide)]
    refine .exceptBind ?_ fun _ => by simp
    split_ifs <;> simp [unmoved]
  unfold tracked RoomTracker.last_unread_notifications
  rw [unmoved_exec hunmoved h ctx]

theorem finished {reply : Reply} {resp : Response} (initial : Bool)
    (h : Prog.Exec (sem O) (finish_sync ctx reply).run s (.ok resp) s') :
    ∃ d, Finished O ctx initial reply s d resp s' := by
  cases hsuccess : isSuccess reply.status with
  | false => exact ⟨_,.refused hsuccess h⟩
  | true =>
      obtain ⟨body,returned,hbody,hresp,_⟩ := finish_sync_exec hsuccess h
      exact ⟨_,.synced hsuccess hbody h hresp⟩

variable {req : Request} {d : Delivery} {resp : Response}

/-- These are the ways of a sync that is answered. -/
theorem handle_sync_exec (h : Prog.Exec (sem O) (handle_sync ctx req).run s (.ok resp) s') :
    ∃ d, Answered O ctx req s d resp s' := by
  unfold handle_sync at h
  split at h
  · next hsince =>
      obtain ⟨reply,s₁,hfetch,h⟩ := from_upstream_exec h
      obtain ⟨d,hd⟩ := finished true h
      cases hfetch with
      | act hs hret =>
          cases hret
          exact ⟨d,.initial hsince hs hd⟩
  · next since hsince =>
      obtain ⟨ready,s₁,hready,h⟩ | ⟨e,_,he⟩ := Prog.exec_exceptBind.mp h
      swap
      · cases he
      obtain ⟨_,hr,hready⟩ := Prog.exec_lift.mp hready
      cases hr
      cases hready with
      | act hs hret =>
          cases hret
          cases ready with
          | true =>
              obtain ⟨returned,hreturned,_⟩ := repair_only_exec h
              exact ⟨_,.ready hsince hs h hreturned⟩
          | false =>
              obtain ⟨answer,s₂,hpoll,h⟩ | ⟨e,_,he⟩ := Prog.exec_exceptBind.mp h
              swap
              · cases he
              obtain ⟨_,hr,hpoll⟩ := Prog.exec_lift.mp hpoll
              cases hr
              cases hpoll with
              | act hs' hret =>
                  cases hret
                  cases answer with
                  | none =>
                      obtain ⟨returned,hreturned,_⟩ := repair_only_exec h
                      exact ⟨_,.woken hsince hs hs' h hreturned⟩
                  | some reply =>
                      obtain ⟨reply,s₃,hp,h⟩ := from_upstream_exec h
                      cases hp
                      obtain ⟨d,hd⟩ := finished false h
                      exact ⟨d,.incremental hsince hs hs' hd⟩

/-- Rooms a delivery has entries for, beyond those of the homeserver's body. -/
def within (rooms : Set RoomId) : Delivery → Prop
  | .synced _ body returned => ∀ r, (entry r returned).isSome → (entry r body).isSome ∨ r ∈ rooms
  | .repaired returned => ∀ r, (entry r returned).isSome → r ∈ rooms
  | .other => True

/-- What the client was told by some deliveries. -/
def toldBy (ds : List Delivery) : Set RoomId :=
  ds.foldl (fun rooms d => match d with
    | .synced initial body _ => told initial body rooms
    | _ => rooms) ∅

/-- An initial sync is not silent about a tracked room, and lists none as both. -/
def Covers (rooms : Set RoomId) : Delivery → Prop
  | .synced true body _ => rooms ⊆ listed .join body ∪ listed .leave body ∧
      ∀ r ∈ listed .join body, r ∉ listed .leave body
  | _ => True

/-- The client's syncs one after the other, with other requests in between. -/
inductive Step (O : Outside ω) (ctx : AccountContext) : State ω → Delivery → State ω → Prop
  | answered {req : Request} {s s' : State ω} {d : Delivery} {resp : Response} :
      Answered O ctx req s d resp s' → Step O ctx s d s'
  | other {s s' : State ω} : (s'.accounts ctx).rooms.joined = (s.accounts ctx).rooms.joined →
      Step O ctx s .other s'

/-- What a delivery leaves tracked. -/
def moved (rooms : Set RoomId) : Delivery → Set RoomId
  | .synced _ body _ => (rooms ∪ listed .join body) \ listed .leave body
  | _ => rooms

theorem Finished.moves {initial : Bool} {reply : Reply}
    (h : Finished O ctx initial reply s d resp s') :
    tracked ctx s' = moved (tracked ctx s) d ∧ within (tracked ctx s') d := by
  cases h with
  | synced hsuccess hbody hexec hreturned =>
      obtain ⟨body,returned,hbody',hreturned',htracked,hentries⟩ := finish_sync_exec hsuccess hexec
      rw [hbody] at hbody'
      cases hbody'
      rw [hreturned] at hreturned'
      cases hreturned'
      exact ⟨htracked,hentries⟩
  | refused hsuccess hexec => exact ⟨relayed_exec hsuccess hexec,trivial⟩

theorem tracked_kept {a : Act} {r : a.Ans} (h : sem O a s r s') (ha : unmoved a) :
    tracked ctx s' = tracked ctx s := by
  have hkept := unmoved_exec (p := act a) (by simpa using ha) (.act h (.ret r s')) ctx
  unfold tracked RoomTracker.last_unread_notifications
  rw [hkept]

theorem Answered.moves (h : Answered O ctx req s d resp s') :
    tracked ctx s' = moved (tracked ctx s) d ∧ within (tracked ctx s') d := by
  cases h with
  | initial _ hfetch hd =>
      rw [← tracked_kept hfetch trivial]
      exact hd.moves
  | incremental _ hready hpoll hd =>
      rw [← tracked_kept hready trivial,← tracked_kept hpoll trivial]
      exact hd.moves
  | ready _ hready hexec hreturned =>
      obtain ⟨returned,hreturned',htracked,hentries⟩ := repair_only_exec hexec
      rw [hreturned] at hreturned'
      cases hreturned'
      rw [← tracked_kept hready trivial]
      refine ⟨htracked,?_⟩
      rw [htracked]
      exact hentries
  | woken _ hready hpoll hexec hreturned =>
      obtain ⟨returned,hreturned',htracked,hentries⟩ := repair_only_exec hexec
      rw [hreturned] at hreturned'
      cases hreturned'
      rw [← tracked_kept hready trivial,← tracked_kept hpoll trivial]
      refine ⟨htracked,?_⟩
      rw [htracked]
      exact hentries

theorem Step.moves (h : Step O ctx s d s') :
    tracked ctx s' = moved (tracked ctx s) d ∧ within (tracked ctx s') d := by
  cases h with
  | answered h => exact h.moves
  | other h =>
      refine ⟨?_,trivial⟩
      unfold tracked RoomTracker.last_unread_notifications
      rw [h]
      rfl

theorem toldBy_snoc (ds : List Delivery) (d : Delivery) : toldBy (ds ++ [d]) =
    match d with
      | .synced initial body _ => told initial body (toldBy ds)
      | _ => toldBy ds := by
  simp only [toldBy,List.foldl_append,List.foldl_cons,List.foldl_nil]

/-- The tracker follows what is told exactly through the syncs that cover it. -/
theorem moved_eq_told (ds : List Delivery) (d : Delivery) :
    moved (toldBy ds) d = toldBy (ds ++ [d]) ↔ Covers (toldBy ds) d := by
  rw [toldBy_snoc]
  cases d with
  | repaired returned => exact iff_of_true rfl trivial
  | other => exact iff_of_true rfl trivial
  | synced initial body returned =>
      cases initial with
      | false => exact iff_of_true rfl trivial
      | true =>
          change (toldBy ds ∪ listed .join body) \ listed .leave body = listed .join body ↔ _
          constructor
          · intro h
            constructor
            · intro r hr
              by_cases hleft : r ∈ listed .leave body
              · exact .inr hleft
              · have hmem : r ∈ (toldBy ds ∪ listed .join body) \ listed .leave body :=
                  ⟨.inl hr,hleft⟩
                rw [h] at hmem
                exact .inl hmem
            · intro r hr
              rw [← h] at hr
              exact hr.2
          · rintro ⟨hcover,hdisjoint⟩
            ext r
            constructor
            · rintro ⟨hr | hr,hleft⟩
              · exact (hcover hr).resolve_right hleft
              · exact hr
            · exact fun hr => ⟨.inr hr,hdisjoint r hr⟩

/-- After syncs each of which covers what was tracked, the tracked rooms are those the
client was told of, and no room was made up. Of any further one this holds if and only
if it covers them too; every sync that is answered is one. -/
theorem tracked_is_told {s₀ : State ω} {ds : List Delivery} (h₀ : tracked ctx s₀ = ∅)
    (hrun : Run (fun s d s' => Step O ctx s d s' ∧ Covers (tracked ctx s) d) s₀ ds s) :
    tracked ctx s = toldBy ds ∧ (∀ d s', Step O ctx s d s' →
      (tracked ctx s' = toldBy (ds ++ [d]) ∧ within (toldBy (ds ++ [d])) d ↔
        Covers (tracked ctx s) d)) ∧
      ∀ req resp s', Prog.Exec (sem O) (handle_sync ctx req).run s (.ok resp) s' →
        ∃ d, Step O ctx s d s' := by
  have htold : tracked ctx s = toldBy ds := by
    refine hrun.history (I := fun ds s => tracked ctx s = toldBy ds) h₀ ?_
    rintro ds s d s' h ⟨hstep,hcover⟩
    rw [h] at hcover
    rw [hstep.moves.1,h]
    exact (moved_eq_told ds d).mpr hcover
  refine ⟨htold,fun d s' hstep => ?_,fun req resp s' h => ?_⟩
  rotate_left
  · obtain ⟨d,hd⟩ := handle_sync_exec h
    exact ⟨d,.answered hd⟩
  obtain ⟨hmoved,hwithin⟩ := hstep.moves
  rw [htold] at hmoved ⊢
  constructor
  · rintro ⟨h,_⟩
    rw [hmoved] at h
    exact (moved_eq_told ds d).mp h
  · intro hcover
    have h := hmoved.trans ((moved_eq_told ds d).mpr hcover)
    exact ⟨h,h ▸ hwithin⟩

end

/-- A sync that lists one joined room. -/
def listing : Value := .object [("rooms",.object [("join",.object [("!a",.object [])])])]

@[reducible] def listingCodec : Codec :=
  .plain (fun bytes => some (if bytes = [] then .object [] else listing)) some fun _ _ => 0

local instance : Codec := listingCodec

/-- A homeserver that answers syncs, and a machine that takes what it is told. -/
def serving : Outside Unit
  | .fetch _ _,_,r,_ => ∃ bytes, r = .ok ⟨200,[],bytes⟩
  | .olm _ (.receiveSyncChanges _),_,r,_ => r = .ok []
  | .recordFinished _,_,_,_ | .now,_,_,_ | .spawn ..,_,_,_ => True
  | _,_,_,_ => False

def first : Request := ⟨.get,"/_matrix/client/v3/sync",none,[],[]⟩

open SyncCalls (alice blank)

/-- Nobody is at work and nothing is pending. -/
structure Idle (s : State Unit) : Prop where
  unlocked : s.locked (.seen alice) = false
  pending : (s.accounts alice).repairs = .default

theorem reach_act {ω α : Type} {O : Outside ω} {a : Act} {k : a.Ans → M α} {s s₁ : State ω}
    {r : a.Ans} {b : α} {Q : State ω → Prop} (h : sem O a s r s₁)
    (hk : ∃ s', Prog.Exec (sem O) (k r) s₁ b s' ∧ Q s') :
    ∃ s', Prog.Exec (sem O) (.act a k) s b s' ∧ Q s' := by
  obtain ⟨s',hexec,hQ⟩ := hk
  exact ⟨s',.act h hexec,hQ⟩

theorem taken_none {q : RepairQueue} (hq : q = .default) :
    [] = q.take_ready.1 ∧ q.take_ready.2 = .default := by
  rw [hq]
  exact ⟨rfl,rfl⟩

/-- The machine is told of nothing. -/
theorem receive_idle {s : State Unit} (hs : Idle s) {body : Value} (hbody : incoming body = [])
    (hchanges : (sync_changes body []).run = .ret (.ok ⟨[],.null,[],none,none⟩)) : ∃ s',
    Prog.Exec (sem serving) (receive_sync_changes alice body) s (.ok ()) s' ∧ Idle s' := by
  have hnone : (s.accounts alice).repairs.note_room_keys [] = .default := by
    rw [hs.pending]
    rfl
  rw [SyncCalls.receive_eq,hbody]
  refine reach_act (r := ()) ⟨hs.unlocked,rfl⟩ ?_
  refine reach_act (a := .seen alice (.mark [])) (r := .ok ⟨[],[],0⟩) ⟨rfl,rfl⟩ ?_
  change ∃ s', Prog.Exec _ (((process_sync_changes alice body []).run >>= _) >>= _) _ _ s' ∧ _
  rw [process_sync_changes,ExceptT.run_bind,hchanges]
  refine reach_act (a := .olm alice (.receiveSyncChanges ⟨[],.null,[],none,none⟩)) (r := .ok [])
    (sem_outside (w := ()) trivial rfl) ?_
  refine reach_act (r := ()) ⟨rfl,rfl⟩ ?_
  refine reach_act (r := ()) (sem_outside (w := ()) trivial trivial) ?_
  refine reach_act (r := (0 : Nat)) (sem_outside (w := ()) trivial trivial) ?_
  refine reach_act (r := ()) rfl ?_
  refine reach_act (r := ()) rfl ?_
  exact ⟨_,.ret _ _,rfl,hnone⟩

theorem process_empty {t : State Unit} (ht : Idle t) : ∃ t',
    Prog.Exec (sem serving) (process_sync_body alice (.object [])) t (some (.object [])) t' ∧
      Idle t' := by
  obtain ⟨htaken,hrest⟩ := taken_none ht.pending
  refine reach_act (r := []) ⟨htaken,rfl⟩ ?_
  exact ⟨_,.ret _ _,ht.unlocked,hrest⟩

theorem process_listing {t : State Unit} (ht : Idle t) : ∃ t',
    Prog.Exec (sem serving) (process_sync_body alice listing) t (some listing) t' ∧ Idle t' := by
  obtain ⟨htaken,hrest⟩ := taken_none ht.pending
  refine reach_act (a := .rooms alice (.noteJoined "!a" none)) (r := ()) ⟨rfl,rfl⟩ ?_
  refine reach_act (a := .repairs alice .takeReady) (r := []) ⟨htaken,rfl⟩ ?_
  exact ⟨_,.ret _ _,ht.unlocked,hrest⟩

theorem fetched {s : State Unit} (hs : Idle s) (bytes : Bytes) (body : Value)
    (hbody : Codec.fromSlice bytes = some body) (hincoming : incoming body = [])
    (hchanges : (sync_changes body []).run = .ret (.ok ⟨[],.null,[],none,none⟩))
    (hprocess : ∀ {t}, Idle t → ∃ t',
      Prog.Exec (sem serving) (process_sync_body alice body) t (some body) t' ∧ Idle t') :
    ∃ s', Step serving alice s (.synced true body body) s' ∧ Idle s' := by
  have hfetch : sem serving (.fetch alice.token first.path_and_query) s (.ok ⟨200,[],bytes⟩) s :=
    ⟨⟨bytes,rfl⟩,rfl⟩
  obtain ⟨s₁,hreceive,hs₁⟩ := receive_idle hs hincoming hchanges
  obtain ⟨s₂,hprocess,hs₂⟩ := hprocess hs₁
  have hfinish : Prog.Exec (sem serving) (finish_sync alice ⟨200,[],bytes⟩).run s
      (.ok (raw_response 200 none (.json body))) s₂ := by
    unfold finish_sync
    have hsuccess : isSuccess (Reply.mk 200 [] bytes).status = true := rfl
    rw [if_pos hsuccess]
    simp only [hbody]
    refine Prog.exec_exceptBind.mpr (.inl ⟨(),s₁,?_,?_⟩)
    · rw [run_internally,run_attempt]
      exact Prog.exec_bind.mpr ⟨_,_,hreceive,.ret _ _⟩
    refine Prog.exec_exceptBind.mpr (.inl ⟨body,s₂,?_,?_⟩)
    · rw [run_orPanic]
      exact Prog.exec_bind.mpr ⟨_,_,hprocess,.ret _ _⟩
    · have hspawn : sem serving (.spawn alice .pump) s₂ () s₂ := ⟨trivial,rfl⟩
      exact .act hspawn (.ret _ _)
  exact ⟨s₂,.answered (.initial rfl hfetch (.synced rfl hbody hfinish rfl)),hs₂⟩

theorem blank_idle : Idle blank := ⟨rfl,rfl⟩

theorem blank_untracked : tracked alice blank = ∅ := by
  ext r
  exact iff_of_false (by simp [tracked,blank,Account.default,RoomTracker.default,
    RoomTracker.last_unread_notifications]) id

theorem listed_join : listed .join listing = {"!a"} := by
  ext r
  constructor
  · rintro ⟨e,he,hr⟩
    cases List.mem_singleton.mp he
    exact (Option.some.inj hr).symm
  · rintro rfl
    exact ⟨_,List.mem_singleton_self _,rfl⟩

theorem listed_leave : listed .leave listing = ∅ := by
  ext r
  constructor
  · rintro ⟨e,he,_⟩
    cases he
  · exact False.elim

/-- After one sync the tracked room is the listed one. -/
theorem tracked_is_told_first : ∃ s' : State Unit,
    Step serving alice blank (.synced true listing listing) s' ∧ tracked alice s' = {"!a"} ∧
      tracked alice s' = toldBy [.synced true listing listing] := by
  obtain ⟨s₁,hstep,_⟩ := fetched blank_idle [0] listing rfl rfl rfl process_listing
  have hcovers : Covers (tracked alice blank) (.synced true listing listing) := by
    rw [blank_untracked]
    refine ⟨Set.empty_subset _,?_⟩
    rw [listed_leave]
    exact fun _ _ => id
  have htold := (tracked_is_told blank_untracked (.snoc .nil ⟨hstep,hcovers⟩)).1
  refine ⟨s₁,hstep,?_,htold⟩
  rw [htold]
  exact listed_join

/-- A room that a second initial sync no longer lists stays tracked. -/
theorem left_room_stays_tracked : ∃ ds s', tracked alice blank = ∅ ∧
    Run (Step serving alice) blank ds s' ∧ tracked alice s' ≠ toldBy ds := by
  obtain ⟨s₁,hfirst,hs₁⟩ := fetched blank_idle [0] listing rfl rfl rfl process_listing
  obtain ⟨s₂,hsecond,_⟩ := fetched hs₁ [] (.object []) rfl rfl rfl process_empty
  refine ⟨_,s₂,blank_untracked,.snoc (.snoc .nil hfirst) hsecond,fun h => ?_⟩
  have hmem : "!a" ∈ tracked alice s₂ := by
    rw [hsecond.moves.1,hfirst.moves.1]
    refine ⟨.inl ⟨.inr ?_,?_⟩,?_⟩
    · rw [listed_join]
      rfl
    · rw [listed_leave]
      exact id
    · simp [listed,named,Value.get,Value.asObject,Json.Map.lookup]
  rw [h] at hmem
  simp [toldBy,told,listed,named,Value.get,Value.asObject,Json.Map.lookup] at hmem

end EmentE2ee.JoinedRooms
