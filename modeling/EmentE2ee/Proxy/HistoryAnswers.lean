import EmentE2ee.Json.Update
import EmentE2ee.Proxy.Handle

/-!
# What history answers show

The answer to a request for events is that of the homeserver, but for encrypted events,
which are shown decrypted or as placeholders. Whatever runs at the same time, a
placeholder answers that it will update exactly if it was kept for repair on the way.
-/
namespace EmentE2ee.HistoryAnswers

open Concurrent
open Json (Value)

section
variable [Codec]

/-- A message that is to update in place: its room, the event and its session. -/
abbrev Promise := RoomId × Value × Option String

/-- What an action keeps for repair. -/
def promised (ctx : AccountContext) : Sigma Act.Ans → List Promise
  | ⟨.repairs c (.track room_id event session_id),_⟩ =>
      if c = ctx then [(room_id,event,session_id)] else []
  | _ => []

/-- What the account's machine answers attempts to decrypt. -/
abbrev Sayings := Value → RoomId → Except String RoomEventDecryptionResult → Prop

/-- What the machine said in the course of a trace. -/
def said (ctx : AccountContext) (es : List (Sigma Act.Ans)) : Sayings := fun raw room_id result =>
  (⟨.olm ctx (.tryDecryptRoomEvent raw room_id),result⟩ : Sigma Act.Ans) ∈ es

/-- A result that leaves an event as it came: it is not about keys, or no object. -/
def Useless : Except String RoomEventDecryptionResult → Prop
  | .error _ => True
  | .ok (.decrypted event _) => ∀ m, Codec.fromRaw event ≠ some (.object m)
  | .ok (.unableToDecrypt ..) => False

variable (ctx : AccountContext) (answers : Sayings)

/-- What is shown for an event, and what that promises. -/
inductive Shown (room_id : RoomId) (placeholder : Placeholder) (event : Value) :
    List Promise → Value → Prop
  | unasked : (isEncrypted event = true → Codec.toRaw event = none) →
      Shown room_id placeholder event [] event
  | useless {raw : Value} {result : Except String RoomEventDecryptionResult} :
      isEncrypted event = true → Codec.toRaw event = some raw → answers raw room_id result →
      Useless result → Shown room_id placeholder event [] event
  /-- The envelope's unsigned data are merged in, and media keys are taken out. -/
  | decrypted {raw plain encryption_info shown : Value} {m : Json.Map} {es : List (Sigma Act.Ans)} :
      isEncrypted event = true → Codec.toRaw event = some raw →
      answers raw room_id (.ok (.decrypted plain encryption_info)) →
      Codec.fromRaw plain = some (.object m) →
      (harvest_and_rewrite_decrypted ctx (mergeUnsigned event encryption_info m)).Did es (.ret shown) →
      Shown room_id placeholder event [] shown
  | repairable {raw : Value} {reason : String} {session_id : Option String} :
      placeholder = .repairable → isEncrypted event = true → Codec.toRaw event = some raw →
      answers raw room_id (.ok (.unableToDecrypt reason session_id)) →
      Shown room_id placeholder event [(room_id,event,session_id)]
        (utd_placeholder event reason session_id true)
  | final {raw : Value} {reason : String} {session_id : Option String} :
      placeholder = .final → isEncrypted event = true → Codec.toRaw event = some raw →
      answers raw room_id (.ok (.unableToDecrypt reason session_id)) →
      Shown room_id placeholder event [] (utd_placeholder event reason session_id false)

/-- How part of a body is shown, and what that promises. -/
abbrev Rewriting := Value → List Promise → Value → Prop

inductive Listed (R : Rewriting) : List Value → List Promise → List Value → Prop
  | nil : Listed R [] [] []
  | cons {x y : Value} {xs ys : List Value} {ps qs : List Promise} :
      R x ps y → Listed R xs qs ys → Listed R (x :: xs) (ps ++ qs) (y :: ys)

inductive Array (R : Rewriting) : Rewriting
  | other {v : Value} : v.isArray = false → Array R v [] v
  | array {xs ys : List Value} {ps : List Promise} : Listed R xs ps ys →
      Array R (.array xs) ps (.array ys)

/-- Only the value under the key is rewritten, where there is one. -/
inductive Under (k : String) (R : Rewriting) : Rewriting
  | absent {v : Value} : v.get k = none → Under k R v [] v
  | present {v w x y : Value} {ps : List Promise} : v.get k = some x → w.get k = some y → R x ps y →
      (∀ k' ≠ k, w.get k' = v.get k') → Under k R v ps w

inductive Then (R S : Rewriting) : Rewriting
  | intro {u v w : Value} {ps qs : List Promise} : R u ps v → S v qs w → Then R S u (ps ++ qs) w

def Unchanged : Rewriting := fun v ps w => ps = [] ∧ w = v

/-- Bodies about rooms whose ID does not parse stay as they are. -/
inductive InRoom (name : Option String) (R : RoomId → Rewriting) : Rewriting
  | unparsed {v : Value} : name.bind parseRoomId = none → InRoom name R v [] v
  | parsed {room_id : RoomId} {v w : Value} {ps : List Promise} :
      name.bind parseRoomId = some room_id → R room_id v ps w → InRoom name R v ps w

/-- Each notification names its own room. -/
def Notified : Rewriting := fun notification =>
  InRoom ((notification.get "room_id").bind Value.asStr)
    (fun room_id => Under "event" (Shown ctx answers room_id .final)) notification

/-- The answer's body, for a route. -/
def Answered : Route → Rewriting
  | .notifications => Under "notifications" (Array (Notified ctx answers))
  | .messages room_id => InRoom (some room_id) fun room_id =>
      Under "chunk" (Array (Shown ctx answers room_id .repairable))
  | .context room_id => InRoom (some room_id) fun room_id =>
      Then (Under "events_before" (Array (Shown ctx answers room_id .repairable)))
        (Then (Under "events_after" (Array (Shown ctx answers room_id .repairable)))
          (Under "event" (Shown ctx answers room_id .repairable)))
  | .roomEvent room_id => InRoom (some room_id) fun room_id => Shown ctx answers room_id .repairable
  | _ => Unchanged

variable {ctx answers}

omit [Codec] in
theorem Listed.promises_nothing {R : Rewriting} (hR : ∀ x ps y, R x ps y → ps = [])
    {xs ys : List Value} {ps : List Promise} (h : Listed R xs ps ys) : ps = [] := by
  induction h with
  | nil => rfl
  | cons hx _ ih => rw [hR _ _ _ hx,ih,List.append_nil]

omit [Codec] in
theorem Under.promises_nothing {k : String} {R : Rewriting} (hR : ∀ x ps y, R x ps y → ps = [])
    {v w : Value} {ps : List Promise} (h : Under k R v ps w) : ps = [] := by
  cases h with
  | absent _ => rfl
  | present _ _ h _ => exact hR _ _ _ h

theorem Shown.final_promises_nothing {room_id : RoomId} {event shown : Value} {ps : List Promise}
    (h : Shown ctx answers room_id .final event ps shown) : ps = [] := by
  cases h with
  | repairable hp => cases hp
  | _ => rfl

/-- An entry of the notifications is found by no later edit, so it promises none. -/
theorem notifications_promise_nothing {v w : Value} {ps : List Promise}
    (h : Answered ctx answers .notifications v ps w) : ps = [] := by
  refine Under.promises_nothing (fun x ps y hx => ?_) h
  cases hx with
  | other _ => rfl
  | array hlisted =>
      refine hlisted.promises_nothing fun n ps m hn => ?_
      cases hn with
      | unparsed _ => rfl
      | parsed _ hn => exact hn.promises_nothing fun _ _ _ => Shown.final_promises_nothing

/-- However the program is answered, its result is shown for `v` as `R` answers, and just what
that promises is kept. -/
abbrev Shows (ctx : AccountContext) (T : Sigma Act.Ans → Prop) (R : Rewriting) (v : Value)
    (p : M Value) : Prop := p.Emits T (promised ctx) (R v)

theorem silent_of_decrypting {α : Type} {T : Sigma Act.Ans → Prop} {p : M α}
    (h : p.Does Act.decrypting) : p.Emits T (promised ctx) fun os _ => os = [] := by
  refine .silent (fun a ha r => ?_) h
  cases a <;> first | exact ha.elim | rfl

/-- Actions that keep nothing for repair. -/
def Keepless : Act → Prop
  | .repairs .. => False
  | _ => True

theorem silent_of_keepless {α : Type} {T : Sigma Act.Ans → Prop} {p : M α}
    (h : p.Does Keepless) : p.Emits T (promised ctx) fun os _ => os = [] := by
  refine .silent (fun a ha r => ?_) h
  cases a <;> first | exact ha.elim | rfl

theorem maybe_request_room_key_keepless (room_id : RoomId) (raw : Value)
    (session_id : Option String) :
    (maybe_request_room_key ctx room_id raw session_id).Does Keepless := by
  cases session_id with
  | none => simp [maybe_request_room_key]
  | some session_id =>
      refine .bind (by simp [Keepless]) fun fresh => ?_
      split_ifs <;> simp [Keepless]

theorem scanArray_keepless (room_id : RoomId) (events : Option Value) :
    (scanArray ctx room_id events).Does Keepless := by
  unfold scanArray
  split
  · next events hevents =>
      clear hevents
      induction events with
      | nil => simp [scan_state_events]
      | cons event events ih =>
          refine .bind ?_ fun _ => ih
          unfold scan_state_event
          split_ifs
          · simp
          split
          · split
            · simp
            · exact ⟨trivial,fun _ => ⟨trivial,fun _ => trivial⟩⟩
          · split <;> simp [Keepless]
          · simp [Keepless]
          · simp
  · simp

variable {T : Sigma Act.Ans → Prop}

/-- What an attempt to decrypt an event has come to. -/
def Outcome (ctx : AccountContext) (answers : Sayings) (room_id : RoomId)
    (placeholder : Placeholder) (event : Value) : Decryption → Prop
  | .decrypted shown => Shown ctx answers room_id placeholder event [] shown
  | .untouched => Shown ctx answers room_id placeholder event [] event
  | .undecryptable reason session_id raw => isEncrypted event = true ∧
      Codec.toRaw event = some raw ∧ answers raw room_id (.ok (.unableToDecrypt reason session_id))

theorem decrypt_outcome (hT : ∀ raw room_id result,
      T ⟨.olm ctx (.tryDecryptRoomEvent raw room_id),result⟩ → answers raw room_id result)
    (room_id : RoomId) (placeholder : Placeholder) (event : Value) :
    (decrypt ctx room_id event).Emits T (promised ctx) fun os outcome =>
      os = [] ∧ Outcome ctx answers room_id placeholder event outcome := by
  unfold decrypt
  split_ifs with hencrypted
  · split
    · next hraw => exact .ret ⟨rfl,.unasked fun _ => hraw⟩
    · next raw hraw =>
        refine .perform fun result hresult => ?_
        have hanswer := hT raw room_id result hresult
        split
        · next plain encryption_info =>
            split
            · next m hm =>
                refine (silent_of_decrypting (maybe_feed_verification_does ctx _)).after fun _ => ?_
                refine Prog.Emits.bind (Q := fun os shown => os = [] ∧
                  Shown ctx answers room_id placeholder event [] shown) ?_ fun os shown h => ?_
                · intro es shown hes hT
                  have hnone : es.flatMap (promised ctx) = [] :=
                    silent_of_decrypting (harvest_does ctx _) es shown hes hT
                  exact ⟨hnone,.decrypted hencrypted hraw hanswer hm hes⟩
                · obtain ⟨rfl,hshown⟩ := h
                  exact .ret ⟨rfl,hshown⟩
            · next hm =>
                exact .ret ⟨rfl,.useless hencrypted hraw hanswer fun m he => hm m he⟩
        · exact .ret ⟨rfl,hencrypted,hraw,hanswer⟩
        · exact .ret ⟨rfl,.useless hencrypted hraw hanswer trivial⟩
  · exact .ret ⟨rfl,.unasked fun he => absurd he hencrypted⟩

theorem decrypt_event_shows (hT : ∀ raw room_id result,
      T ⟨.olm ctx (.tryDecryptRoomEvent raw room_id),result⟩ → answers raw room_id result)
    (room_id : RoomId) (placeholder : Placeholder) (event : Value) :
    Shows ctx T (Shown ctx answers room_id placeholder) event
      (decrypt_event ctx room_id placeholder event) := by
  refine (decrypt_outcome hT room_id placeholder event).bind fun os outcome houtcome => ?_
  obtain ⟨rfl,houtcome⟩ := houtcome
  cases outcome with
  | decrypted shown => exact .ret houtcome
  | untouched => exact .ret houtcome
  | undecryptable reason session_id raw =>
      obtain ⟨hencrypted,hraw,hanswer⟩ := houtcome
      refine (silent_of_keepless (maybe_request_room_key_keepless room_id raw session_id)).after
        fun _ => ?_
      cases placeholder with
      | final => exact .ret (.final rfl hencrypted hraw hanswer)
      | repairable =>
          refine .perform fun _ _ => .ret ?_
          have hkept : promised ctx ⟨.repairs ctx (.track room_id event session_id),()⟩ =
              [(room_id,event,session_id)] := if_pos rfl
          rw [hkept]
          exact .repairable rfl hencrypted hraw hanswer

theorem mapM_shows {R : Rewriting} {f : Value → M Value} (hf : ∀ v, Shows ctx T R v (f v))
    (xs : List Value) : (xs.mapM f).Emits T (promised ctx) fun ps ys => Listed R xs ps ys := by
  induction xs with
  | nil => exact .ret .nil
  | cons x xs ih =>
      rw [List.mapM_cons]
      refine (hf x).bind fun ps y hx => ih.bind fun qs ys hxs => .ret ?_
      rw [List.append_nil]
      exact .cons hx hxs

theorem decrypt_events_eq (room_id : RoomId) (events : List Value) :
    decrypt_events ctx room_id events = events.mapM (decrypt_event ctx room_id .repairable) := by
  induction events with
  | nil => rfl
  | cons event events ih => rw [List.mapM_cons,decrypt_events,ih]

theorem updateM_shows {R : Rewriting} {k : String} {f : Value → M Value}
    (hf : ∀ v, Shows ctx T R v (f v)) (v : Value) : Shows ctx T (Under k R) v (v.updateM k f) := by
  refine (Value.emits_updateM hf v).mono fun ps w h => ?_
  obtain ⟨hnone,rfl,rfl⟩ | ⟨x,y,hx,hy,hR,hother⟩ := h
  · exact .absent hnone
  · exact .present hx hy hR hother

section
variable (hT : ∀ raw room_id result,
    T ⟨.olm ctx (.tryDecryptRoomEvent raw room_id),result⟩ → answers raw room_id result)

include hT

theorem decryptArray_shows (room_id : RoomId) (v : Value) :
    Shows ctx T (Array (Shown ctx answers room_id .repairable)) v (decryptArray ctx room_id v) := by
  cases v with
  | array events =>
      have hevents := mapM_shows (decrypt_event_shows hT room_id .repairable) events
      rw [← decrypt_events_eq] at hevents
      refine hevents.bind fun ps ys h => .ret ?_
      rw [List.append_nil]
      exact .array h
  | _ => exact .ret (.other rfl)

theorem process_messages_body_shows (room_id : RoomId) (body : Value) :
    Shows ctx T (Under "chunk" (Array (Shown ctx answers room_id .repairable))) body
      (process_messages_body ctx room_id body) :=
  (silent_of_keepless (scanArray_keepless room_id _)).after fun _ =>
    updateM_shows (decryptArray_shows hT room_id) body

theorem process_context_body_shows (room_id : RoomId) (body : Value) :
    Shows ctx T (Then (Under "events_before" (Array (Shown ctx answers room_id .repairable)))
      (Then (Under "events_after" (Array (Shown ctx answers room_id .repairable)))
        (Under "event" (Shown ctx answers room_id .repairable)))) body
      (process_context_body ctx room_id body) := by
  refine (silent_of_keepless (scanArray_keepless room_id _)).after fun _ => ?_
  refine (updateM_shows (decryptArray_shows hT room_id) body).bind fun ps before hbefore => ?_
  refine (updateM_shows (decryptArray_shows hT room_id) before).bind fun qs after hafter => ?_
  refine (updateM_shows (decrypt_event_shows hT room_id .repairable) after).mono fun rs w hevent => ?_
  exact .intro hbefore (.intro hafter hevent)

theorem process_notification_shows (n : Value) :
    Shows ctx T (Notified ctx answers) n (process_notification ctx n) := by
  unfold process_notification
  split
  · next hnone => exact .ret (.unparsed hnone)
  · next room_id hroom =>
      exact (updateM_shows (decrypt_event_shows hT room_id .final) n).mono fun ps m h => .parsed hroom h

theorem process_notifications_body_shows (body : Value) :
    Shows ctx T (Answered ctx answers .notifications) body (process_notifications_body ctx body) := by
  refine updateM_shows (fun v => ?_) body
  cases v with
  | array ns =>
      refine (mapM_shows (process_notification_shows hT) ns).bind fun ps ms h => .ret ?_
      rw [List.append_nil]
      exact .array h
  | _ => exact .ret (.other rfl)

omit hT in
theorem elim_shows {R : RoomId → Rewriting} {f : RoomId → M Value} {body : Value}
    (hf : ∀ room_id, Shows ctx T (R room_id) body (f room_id)) (name : String) :
    Shows ctx T (InRoom (some name) R) body ((parseRoomId name).elim (pure body) f) := by
  cases hname : parseRoomId name with
  | none => exact .ret (.unparsed hname)
  | some room_id => exact (hf room_id).mono fun ps w h => .parsed hname h

end

/-- A body that was rewritten is the answer's. -/
theorem Shows.answered {R : Rewriting} {body : Value} {p : M Value} (hp : Shows ctx T R body p)
    {f : Value → Response} {es : List (Sigma Act.Ans)} {response : Response}
    (h : (ExceptT.lift p >>= fun body => pure (f body) : ProxyM Response).run.Did es
      (.ret (.ok response))) (hT : ∀ e ∈ es, T e) :
    ∃ body', response = f body' ∧ R body (es.flatMap (promised ctx)) body' := by
  obtain ⟨es₁,es₂,body',rfl,hbody,hret⟩ | ⟨e,_,he⟩ := Prog.did_exceptBind h
  · cases hret
    obtain ⟨x,hx,hdid⟩ := Prog.did_lift hbody
    cases hx
    rw [List.append_nil] at hT ⊢
    exact ⟨body',rfl,hp es₁ body' hdid hT⟩
  · cases he

/-- **History.** Whatever else happens in the meantime, a history request that is answered
has the homeserver's answer: one that is no success as it is, and of one that is the body
with its events shown as the machine decrypts them. What is kept for repair on the way is
what the shown placeholders promise, which is nothing in notifications. -/
theorem history_shown (ctx : AccountContext) (req : Request) (route : Route)
    {es : List (Sigma Act.Ans)} {response : Response}
    (h : (handle_history_get ctx req route).run.Did es (.ret (.ok response))) :
    ∃ reply es', es = ⟨.fetch ctx.token req.path_and_query,.ok reply⟩ :: es' ∧
      (isSuccess reply.status = false → es' = [] ∧ response =
        raw_response reply.status (contentType reply.headers) (.raw reply.bytes)) ∧
      (isSuccess reply.status = true → ∃ body body', Codec.fromSlice reply.bytes = some body ∧
        response = raw_response 200 (contentType reply.headers) (.json body') ∧
        Answered ctx (said ctx es') route body (es'.flatMap (promised ctx)) body' ∧
        (route = .notifications → es'.flatMap (promised ctx) = [])) := by
  obtain ⟨es₁,es',reply,rfl,hfetch,hrest⟩ | ⟨e,_,he⟩ := Prog.did_exceptBind h
  · have hfirst : es₁ = [⟨.fetch ctx.token req.path_and_query,.ok reply⟩] := by
      rw [run_fromUpstream] at hfetch
      obtain ⟨r,hr,hdid⟩ := Prog.did_map hfetch
      cases hdid with
      | cons hdid =>
          cases hdid
          cases r with
          | error e => cases hr
          | ok answer =>
              cases hr
              rfl
    refine ⟨reply,es',by rw [hfirst]; rfl,fun hstatus => ?_,fun hstatus => ?_⟩
    · rw [if_neg (by simp [hstatus])] at hrest
      cases hrest
      exact ⟨rfl,rfl⟩
    · rw [if_pos hstatus] at hrest
      cases hbody : Codec.fromSlice reply.bytes with
      | none =>
          rw [hbody] at hrest
          cases hrest
      | some body =>
          rw [hbody] at hrest
          have hT : ∀ e ∈ es', e ∈ es' := fun _ he => he
          have hsaid : ∀ raw room_id result,
              (⟨.olm ctx (.tryDecryptRoomEvent raw room_id),result⟩ : Sigma Act.Ans) ∈ es' →
                said ctx es' raw room_id result := fun _ _ _ he => he
          have hshown : ∃ body', response = raw_response 200 (contentType reply.headers) (.json body') ∧
              Answered ctx (said ctx es') route body (es'.flatMap (promised ctx)) body' := by
            cases route with
            | notifications => exact (process_notifications_body_shows hsaid body).answered hrest hT
            | messages name =>
                exact (elim_shows (fun r => process_messages_body_shows hsaid r body) name).answered hrest hT
            | context name =>
                exact (elim_shows (fun r => process_context_body_shows hsaid r body) name).answered hrest hT
            | roomEvent name =>
                exact (elim_shows (fun r => decrypt_event_shows hsaid r .repairable body) name).answered
                  hrest hT
            | _ =>
                have hsame : Shows ctx (· ∈ es') Unchanged body (pure body) := .ret ⟨rfl,rfl⟩
                exact hsame.answered hrest hT
          obtain ⟨body',hresponse,hanswered⟩ := hshown
          refine ⟨body,body',rfl,hresponse,hanswered,fun hroute => ?_⟩
          subst hroute
          exact notifications_promise_nothing hanswered
  · cases he

end

section
def unread : Value := .object [("event_id",.string "$e"),("type",.string "m.room.encrypted")]

/-- Every body is that event. -/
local instance : Codec := .plain (fun _ => some unread) some fun _ _ => 0

def bob : AccountContext := ⟨"@bob:hs","D","t",⟨0,"k"⟩⟩

def asking : Request := ⟨.get,"/_matrix/client/v3/rooms/!r/event/$e",none,[],[]⟩

def found : Reply := ⟨200,[],[]⟩

/-- The machine has no key for it. -/
def keyless : List (Sigma Act.Ans) :=
  [⟨.olm bob (.tryDecryptRoomEvent unread "!r"),.ok (.unableToDecrypt "no key" none)⟩,
    ⟨.repairs bob (.track "!r" unread none),()⟩]

def shownUnread : Value := utd_placeholder unread "no key" none true

theorem handle_keyless : (handle_history_get bob asking (.roomEvent "!r")).run.Did
    (⟨.fetch bob.token asking.path_and_query,.ok found⟩ :: keyless)
    (.ret (.ok (raw_response 200 none (.json shownUnread)))) :=
  .cons (.cons (.cons (.nil _)))

theorem history_shown_keyless : (handle_history_get bob asking (.roomEvent "!r")).run.Did
      (⟨.fetch bob.token asking.path_and_query,.ok found⟩ :: keyless)
      (.ret (.ok (raw_response 200 none (.json shownUnread)))) ∧
    keyless.flatMap (promised bob) = [("!r",unread,none)] ∧
    Answered bob (said bob keyless) (.roomEvent "!r") unread [("!r",unread,none)] shownUnread := by
  obtain ⟨reply,es',hes,_,hsuccess⟩ := history_shown bob asking (.roomEvent "!r") handle_keyless
  obtain ⟨hfetch,rfl⟩ := List.cons.inj hes
  injection hfetch with _ hreply
  injection hreply with hreply
  subst hreply
  obtain ⟨body,body',hbody,hresponse,hanswered,_⟩ := hsuccess rfl
  cases hbody
  injection hresponse with _ _ hjson
  injection hjson with hjson
  subst hjson
  exact ⟨handle_keyless,rfl,hanswered⟩

end
end EmentE2ee.HistoryAnswers
