import EmentE2ee.Admin
import EmentE2ee.Concurrent.Pool
import EmentE2ee.Crypto.SyncCalls

/-!
# Late keys, under interleaving

Attempts at decryption fail while keys arrive. A key that is stored is noted
afterwards, and a placeholder is tracked after the attempt that failed. A note
that finds the placeholder makes it ready; so none is missed unless the key
arrives, and is noted, between a failed attempt and the tracking of its event.
-/
namespace EmentE2ee.RepairInterleaving

open Concurrent
open Json (Value)

inductive Call where
  | decryptEvent (room_id : RoomId) (placeholder : Placeholder) (event : Value)
  | inject (body : Value)
  | syncChanges (body : Value) (to_device_events : List Value)
  | keysImport (session_ids : List String)
  | bootstrap (session_ids : List String)
  /-- Any other part of the proxy at work, which stores no keys. -/
  | other

abbrev Res : Call → Type
  | .decryptEvent .. => Value
  | .inject _ => Option (Nat × Value)
  | .syncChanges .. => Except Error Nat
  | .keysImport _ => Except Abort Response
  | .bootstrap _ => Except Error (Nat × Nat)
  | .other => Unit

/-- Actions that store no room keys. -/
def keyless : Act → Prop
  | .olm _ (.receiveSyncChanges _) | .olm _ (.importRoomKeys _) => False
  | _ => True

theorem keyless_of_mild {a : Act} (h : a.mild) : keyless a := by
  unfold keyless
  split <;> first | exact h.elim | trivial

section
variable [Codec] {ω : Type}

/-- Which actions store room keys of which sessions. -/
structure StoresKeys (O : Outside ω) (ctx : AccountContext) (keys : ω → Set String) : Prop where
  keyless : ∀ {a w r w'}, keyless a → O a w r w' → keys w' = keys w
  received : ∀ {changes w session_ids w'},
    O (.olm ctx (.receiveSyncChanges changes)) w (.ok session_ids) w' →
      keys w' ⊆ keys w ∪ {id | id ∈ session_ids}
  not_received : ∀ {changes w m w'},
    O (.olm ctx (.receiveSyncChanges changes)) w (.error m) w' → keys w' ⊆ keys w
  not_imported : ∀ {session_ids w m w'},
    O (.olm ctx (.importRoomKeys session_ids)) w (.error m) w' → keys w' ⊆ keys w

/-- The proxy's state, with the sessions whose keys were there when an event was
last tried in vain. -/
structure Tried (ω : Type) where
  state : State ω
  failed : Value → Set String

def Tried.queue (s : Tried ω) (ctx : AccountContext) : RepairQueue := (s.state.accounts ctx).repairs

variable (O : Outside ω) (keys : ω → Set String) (ctx : AccountContext) (fuel : Nat)

def record (s : Tried ω) : (a : Act) → a.Ans → Value → Set String
  | .olm _ (.tryDecryptRoomEvent _ _),.ok (.decrypted _ _) => s.failed
  | .olm c (.tryDecryptRoomEvent raw _),_ => fun v =>
      {id | (c = ctx ∧ v = raw ∧ id ∈ keys s.state.world) ∨ (¬ (c = ctx ∧ v = raw) ∧ id ∈ s.failed v)}
  | _,_ => s.failed

/-- The key of the session entered the store after the last failed attempt. -/
structure Entered (s : Tried ω) (r : PendingRepair) (id : String) : Prop where
  session : r.session_id = some id
  stored : id ∈ keys s.state.world
  after : ∀ raw, Codec.toRaw r.event = some raw → id ∉ s.failed raw

inductive Starts : (l : Call) → Prog Act Act.Ans (Res l) → Prop
  | decryptEvent (room_id : RoomId) (placeholder : Placeholder) (event : Value) :
      Starts (.decryptEvent room_id placeholder event) (decrypt_event ctx room_id placeholder event)
  | inject (body : Value) : Starts (.inject body) (EmentE2ee.inject ctx body)
  | syncChanges (body : Value) (events : List Value) :
      Starts (.syncChanges body events) (process_sync_changes ctx body events).run
  | keysImport (session_ids : List String) :
      Starts (.keysImport session_ids) (keys_import ctx session_ids).run
  | bootstrap (session_ids : List String) :
      Starts (.bootstrap session_ids) (bootstrap_end fuel ctx session_ids).run
  | other (p : M Unit) : p.Does keyless → Starts .other p

/-- Any number of calls for one account, interleaved at every action. -/
def system : System Call Act Act.Ans Res (Tried ω) where
  sem _ a s r s' := sem O a s.state r s'.state ∧ s'.failed = record keys ctx s a r
  env _ s s' := ∃ w, keys w = keys s.state.world ∧
    s' = { s with state := { s.state with world := w } }
  start _ s l p s' := Starts ctx fuel l p ∧ s' = s
  restart _ _ := False

/-- What an action makes ready. -/
def due : Act → Set String
  | .repairs c (.noteRoomKeys session_ids) => {id | c = ctx ∧ id ∈ session_ids}
  | .repairs c .noteBulkImport => {_id | c = ctx}
  | _ => ∅

/-- The record an action puts into the queue. -/
def puts (q : RepairQueue) : RepairsAct → Option PendingRepair
  | .track room_id event session_id => (eventId event).bind fun id =>
      if id ∈ q.pending then none else some ⟨room_id,id,session_id,event⟩
  | .requeue repair => some repair
  | _ => none

/-- No event is tracked or put back after the key of its session entered the
store, unless it counts as ready or the note of that key is still to come. -/
def timely (s : Tried ω) (C : Set String) (a : Act) : Prop :=
  ∀ x r id, a = .repairs ctx x → puts (s.queue ctx) x = some r → Entered keys s r id →
    (s.queue ctx).is_ready r = true ∨ id ∈ C

/-- Every pending event whose key has entered is ready, or will be. -/
def Inv (s : Tried ω) (C : Set String) : Prop :=
  ∀ x r id, (s.queue ctx).pending.lookup x = some r → Entered keys s r id →
    (s.queue ctx).is_ready r = true ∨ id ∈ C

def discipline : Discipline (system O keys ctx fuel) String where
  due := due ctx
  guard := timely keys ctx
  inv := Inv keys ctx
  may _ _ := True
  post _ _ := True
  guard_mono hC h x r id ha hp he := (h x r id ha hp he).imp_right (@hC id)
  inv_mono hC h x r id hl he := (h x r id hl he).imp_right (@hC id)
  inv_env := by
    rintro b s s' C ⟨w,hw,rfl⟩ h x r id hl he
    exact h x r id hl ⟨he.session,hw ▸ he.stored,he.after⟩
  inv_restart := False.elim

variable {O keys ctx fuel} {s s' : Tried ω} {C : Set String}

theorem sem_queue {a : Act} {r : a.Ans} (ha : ∀ x, a ≠ .repairs ctx x)
    (h : sem O a s.state r s'.state) : s'.queue ctx = s.queue ctx := by
  unfold Tried.queue
  obtain he | ⟨x,hx,_⟩ := repairs_of_sem h ctx
  · exact he
  · exact (ha x hx).elim

/-- A failed attempt does not add to what has entered since. -/
theorem Entered.before {a : Act} {r : a.Ans} {p : PendingRepair} {id : String}
    (hkeys : id ∈ keys s'.state.world → id ∈ keys s.state.world)
    (hf : s'.failed = record keys ctx s a r) (h : Entered keys s' p id) : Entered keys s p id := by
  refine ⟨h.session,hkeys h.stored,fun raw hraw hmem => h.after raw hraw ?_⟩
  rw [hf]
  unfold record
  split
  · exact hmem
  · next c raw' _ _ _ =>
    by_cases hc : c = ctx ∧ raw = raw'
    · exact .inl ⟨hc.1,hc.2,hkeys h.stored⟩
    · exact .inr ⟨hc,hmem⟩
  · exact hmem

omit [Codec] in
/-- What an access to the queue leaves there, and in which state of readiness. -/
theorem run_ready {q : RepairQueue} {x : RepairsAct} {id sid : String} {p : PendingRepair}
    (hl : (x.run q).2.pending.lookup id = some p) (hsid : p.session_id = some sid)
    (hold : q.pending.lookup id = some p → q.is_ready p = true ∨ sid ∈ C ∪ due ctx (.repairs ctx x))
    (hnew : puts q x = some p → q.is_ready p = true ∨ sid ∈ C ∪ due ctx (.repairs ctx x)) :
    (x.run q).2.is_ready p = true ∨ sid ∈ C := by
  cases x with
  | track room_id event session_id =>
      have h : q.is_ready p = true ∨ sid ∈ C := by
        obtain h | ⟨hid,he,hp⟩ := RepairQueue.track_lookup hl
        · simpa [due] using hold h
        · simpa [due] using hnew (by simp [puts,he,hid,hp])
      exact h.imp_left fun h => by rwa [RepairsAct.run,RepairQueue.track_is_ready]
  | requeue repair =>
      have h : q.is_ready p = true ∨ sid ∈ C := by
        obtain h | rfl := RepairQueue.requeue_lookup hl
        · simpa [due] using hold h
        · simpa [due] using hnew rfl
      exact h.imp_left fun h => by rwa [RepairsAct.run,RepairQueue.requeue_is_ready]
  | noteRoomKeys session_ids =>
      change (q.note_room_keys session_ids).pending.lookup id = some p at hl
      rw [(q.note_room_keys_pending session_ids).1] at hl
      obtain h | h | ⟨_,h⟩ := hold hl
      · exact .inl (RepairQueue.note_room_keys_ready hl (.inl h))
      · exact .inr h
      · exact .inl (RepairQueue.note_room_keys_ready hl (.inr ⟨sid,h,hsid⟩))
  | noteBulkImport =>
      change q.note_bulk_import.pending.lookup id = some p at hl
      rw [q.note_bulk_import_pending.1] at hl
      exact .inl (RepairQueue.note_bulk_import_ready hl)
  | hasReady =>
      have h : q.is_ready p = true ∨ sid ∈ C := by simpa [due] using hold hl
      exact h
  | takeReady =>
      obtain ⟨hl,hr⟩ := RepairQueue.take_ready_lookup.mp hl
      have h : q.is_ready p = true ∨ sid ∈ C := by simpa [due] using hold hl
      exact .inr (h.resolve_left (by simp [hr]))

omit [Codec] in
theorem due_elsewhere {a : Act} (ha : ∀ x, a ≠ .repairs ctx x) : due ctx a = ∅ := by
  refine Set.eq_empty_of_forall_notMem fun id hid => ?_
  unfold due at hid
  split at hid
  · next session_ids => exact ha (.noteRoomKeys session_ids) (hid.1 ▸ rfl)
  · exact ha .noteBulkImport (hid ▸ rfl)
  · exact hid

theorem repairs_neutral {l : Call} {F : Tried ω → Prop} (x : RepairsAct) :
    (discipline O keys ctx fuel).Neutral l F (.repairs ctx x) := by
  intro s r s' C _ h hg ⟨hs,hf⟩ id p sid hl he
  have hq : s'.queue ctx = (x.run (s.queue ctx)).2 := by
    rw [Tried.queue,hs.2,State.account_self]
    rfl
  have he₀ : Entered keys s p sid := he.before (fun hk => by rwa [hs.2] at hk) hf
  rw [hq] at hl ⊢
  exact run_ready hl he.session (fun hl => h id p sid hl he₀) fun hp => hg x p sid rfl hp he₀

variable (hO : StoresKeys O ctx keys)
include hO

theorem sem_keys {a : Act} {r : a.Ans} (ha : keyless a) (h : sem O a s.state r s'.state) :
    keys s'.state.world = keys s.state.world := by
  obtain he | ho := sem_world h
  · rw [he]
  · exact hO.keyless ha ho

theorem keyless_neutral {l : Call} {F : Tried ω → Prop} {a : Act} (ha : keyless a) :
    (discipline O keys ctx fuel).Neutral l F a := by
  by_cases hx : ∃ x, a = .repairs ctx x
  · obtain ⟨x,rfl⟩ := hx
    exact repairs_neutral x
  intro s r s' C _ h _ ⟨hs,hf⟩ id p sid hl he
  have hq := sem_queue (fun x hx' => hx ⟨x,hx'⟩) hs
  have hdue : (discipline O keys ctx fuel).due a = ∅ := due_elsewhere fun x hx' => hx ⟨x,hx'⟩
  rw [hdue,Set.union_empty] at h
  rw [hq] at hl ⊢
  exact h id p sid hl (he.before (fun hk => sem_keys hO ha hs ▸ hk) hf)

theorem keyless_keeps {α : Type} {l : Call} {p : M α} (hp : p.Does keyless) :
    (discipline O keys ctx fuel).Keeps l (fun _ _ => True) (fun _ => True) p :=
  (Discipline.Keeps.of_every (.const _ l True) (fun _ ha => ⟨trivial,keyless_neutral hO ha⟩) hp).mono
    fun _ _ _ => trivial

/-- The key of a session that an action stores is noted by what follows it. -/
theorem store_keeps {α : Type} {l : Call} {a : OlmAct} {k : a.Ans → M α}
    (hnew : ∀ {s s' : Tried ω} {r : a.Ans}, O (.olm ctx a) s.state.world r s'.state.world →
      ∀ id ∈ keys s'.state.world, id ∈ keys s.state.world ∨ id ∈ (k r).owed (due ctx))
    (hk : ∀ r, (k r).Does keyless) :
    (discipline O keys ctx fuel).Keeps l (fun _ _ => True) (fun _ => True)
      (.act (.olm ctx a) k) := by
  refine ⟨fun _ _ => trivial,fun s r s' C _ h _ ⟨hs,hf⟩ =>
    ⟨?_,fun _ => True,.const _ l True,trivial,keyless_keeps hO (hk r)⟩⟩
  intro id p sid hl he
  have hq : s'.queue ctx = s.queue ctx := sem_queue (a := .olm ctx a) (fun _ h => nomatch h) hs
  rw [hq] at hl ⊢
  by_cases hin : sid ∈ (k r).owed (due ctx)
  · exact .inr (.inr hin)
  have hstored : sid ∈ keys s.state.world := (hnew hs.1 sid he.stored).resolve_right hin
  obtain hr | hc | hd | ha := h id p sid hl (he.before (fun _ => hstored) hf)
  · exact .inl hr
  · exact .inr (.inl hc)
  · exact hd.elim
  · exact .inr (.inr (ha r))

theorem process_sync_changes_keeps {l : Call} (body : Value) (events : List Value) :
    (discipline O keys ctx fuel).Keeps l (fun _ _ => True) (fun _ => True)
      (process_sync_changes ctx body events).run := by
  obtain ⟨e,he⟩ | ⟨changes,_,he⟩ := SyncCalls.process_run ctx body events
  · rw [he]
    exact fun _ _ => trivial
  rw [he]
  refine store_keeps hO (fun {s s' r} h id hid => ?_) fun r => ?_
  · cases r with
    | error m => exact .inl (hO.not_received h hid)
    | ok session_ids => exact (hO.received h hid).imp_right fun h => .inl ⟨rfl,h⟩
  · cases r with
    | error m => trivial
    | ok session_ids => exact ⟨trivial,fun _ => ⟨trivial,fun _ => trivial⟩⟩

theorem keys_import_keeps {l : Call} (session_ids : List String) :
    (discipline O keys ctx fuel).Keeps l (fun _ _ => True) (fun _ => True)
      (keys_import ctx session_ids).run := by
  refine store_keeps hO (a := .importRoomKeys session_ids) (fun {s s' r} h id hid => ?_) fun r => ?_
  · cases r with
    | error m => exact .inl (hO.not_imported h hid)
    | ok result => exact .inr (.inl rfl)
  · cases r with
    | error m => trivial
    | ok result => exact ⟨trivial,fun _ => trivial⟩

theorem bootstrap_end_keeps {l : Call} (session_ids : List String) :
    (discipline O keys ctx fuel).Keeps l (fun _ _ => True) (fun _ => True)
      (bootstrap_end fuel ctx session_ids).run := by
  have hrun : (bootstrap_end fuel ctx session_ids).run =
      .act (.olm ctx (.importRoomKeys session_ids)) fun
        | .error m => .ret (.error (.context "importing room keys failed" (.text m)))
        | .ok result => pump fuel ctx >>= fun _ =>
            .act (.repairs ctx .noteBulkImport) fun _ => .ret (.ok result) := by
    rw [bootstrap_end,ExceptT.run_bind,run_withContext,run_call,Prog.bind_assoc,Prog.bind_assoc]
    refine congrArg (Prog.act _) (funext fun r => ?_)
    cases r with
    | error m => rfl
    | ok result => exact run_lift_bind (pump fuel ctx) _
  rw [hrun]
  refine store_keeps hO (fun {s s' r} h id hid => ?_) fun r => ?_
  · cases r with
    | error m => exact .inl (hO.not_imported h hid)
    | ok result =>
        refine .inr ?_
        apply Prog.Owes.after
        exact fun _ => .inl rfl
  · cases r with
    | error m => trivial
    | ok result =>
        refine ((pump_quiet ctx fuel).mono fun _ h => keyless_of_mild h.mild).bind fun _ => ?_
        exact ⟨trivial,fun _ => trivial⟩

theorem starts : (discipline O keys ctx fuel).Starts := by
  rintro _ s l p s' C h ⟨hp,rfl⟩
  refine ⟨h,fun _ => True,.const _ l True,trivial,?_⟩
  cases hp with
  | decryptEvent room_id placeholder event =>
      exact keyless_keeps hO ((decrypt_event_mild ctx ..).mono fun _ h => keyless_of_mild h)
  | inject body => exact keyless_keeps hO ((inject_mild ctx body).mono fun _ h => keyless_of_mild h)
  | syncChanges body events => exact process_sync_changes_keeps hO body events
  | keysImport session_ids => exact keys_import_keeps hO session_ids
  | bootstrap session_ids => exact bootstrap_end_keeps hO session_ids
  | other p hp => exact keyless_keeps hO hp

omit hO

/-- Each pending event whose key entered the store after the last failed attempt
is ready. -/
def NoneMissed (keys : ω → Set String) (ctx : AccountContext) (s : Tried ω) : Prop :=
  ∀ x r id, (s.queue ctx).pending.lookup x = some r → Entered keys s r id →
    (s.queue ctx).is_ready r = true

/-- No late key is missed in a run that tracks and puts back events in time:
once every call has ended, what has become decryptable is ready. -/
theorem late_keys_make_ready (hO : StoresKeys O ctx keys) {s₀ : Tried ω}
    {c : Config Call Act Act.Ans Res (Tried ω)} (h₀ : (s₀.queue ctx).pending = ∅)
    (h : Reachable (system O keys ctx fuel) (due ctx) (timely keys ctx) s₀ c)
    (hq : ∀ l, ¬ busy c.threads l) : NoneMissed keys ctx c.state := by
  have hinit : (discipline O keys ctx fuel).inv s₀ ∅ := fun x r id hl _ => by
    rw [h₀,AList.lookup_empty] at hl
    cases hl
  have hc := Discipline.Holds.reachable (D := discipline O keys ctx fuel) (starts hO) hinit h
  exact fun x r id hl he => (hc.quiescent hq x r id hl he).resolve_right nofun

end

local instance : Codec := .plain (fun _ => none) some fun _ _ => 0

/-- An attempt succeeds exactly if the key of the event's session is stored. -/
structure DecryptsByKey {ω : Type} (O : Outside ω) (keys : ω → Set String)
    (sessionOf : Value → Option String) : Prop where
  attempt : ∀ {ctx raw room_id w r w'}, O (.olm ctx (.tryDecryptRoomEvent raw room_id)) w r w' →
    ((∃ event info, r = .ok (.decrypted event info)) ↔ ∃ id ∈ sessionOf raw, id ∈ keys w)
  reported : ∀ {ctx raw room_id w reason session_id w'},
    O (.olm ctx (.tryDecryptRoomEvent raw room_id)) w (.ok (.unableToDecrypt reason session_id)) w' →
      session_id = sessionOf raw

/-- A machine that knows one session, and whether its key is stored. -/
def oneSession : Outside Bool
  | .olm _ (.tryDecryptRoomEvent raw _),w,r,w' =>
      r = .ok (if w then .decrypted raw .null else .unableToDecrypt "no key" (some "S")) ∧ w' = w
  | .olm _ (.receiveSyncChanges _),_,r,w' => r = .ok ["S"] ∧ w' = true
  | .recordFinished _,w,_,w' | .spawn ..,w,_,w' => w' = w
  | _,_,_,_ => False

def oneKey (w : Bool) : Set String := {id | w = true ∧ id = "S"}

theorem oneSession_stores (ctx : AccountContext) : StoresKeys oneSession ctx oneKey where
  keyless := by
    intro a w r w' ha h
    unfold oneSession at h
    split at h
    · rw [h.2]
    · exact ha.elim
    · rw [h]
    · rw [h]
    · exact h.elim
  received := by
    rintro changes w ids w' ⟨⟨⟩,rfl⟩ id ⟨_,rfl⟩
    exact .inr (List.mem_singleton_self _)
  not_received := fun h => nomatch h.1
  not_imported := False.elim

theorem oneSession_decrypts : DecryptsByKey oneSession oneKey fun _ => some "S" where
  attempt := by
    rintro ctx raw room_id w r w' ⟨rfl,_⟩
    cases w <;> simp [oneKey]
  reported := by
    rintro ctx raw room_id w reason session_id w' ⟨h,_⟩
    cases w
    · cases h
      rfl
    · cases h

def alice : AccountContext := ⟨"@alice:x","DEV","token",⟨0,"key"⟩⟩

/-- Alice's account, with nothing else of note. -/
def holding (acc : Account) (w : Bool) : State Bool where
  accounts := Function.update (fun _ => .default 0) alice acc
  sessions := ∅
  refused := []
  locked _ := false
  world := w

theorem holding_rooms (a : RoomsAct) (acc : Account) (w : Bool) :
    sem oneSession (.rooms alice a) (holding acc w) (a.run acc.rooms).1
      (holding { acc with rooms := (a.run acc.rooms).2 } w) := by
  simp [sem,holding,State.account]

theorem holding_repairs (a : RepairsAct) (acc : Account) (w : Bool) :
    sem oneSession (.repairs alice a) (holding acc w) (a.run acc.repairs).1
      (holding { acc with repairs := (a.run acc.repairs).2 } w) := by
  simp [sem,holding,State.account]

def encrypted : Value := .object [("event_id",.string "$e"),("type",.string "m.room.encrypted")]

def untried : Tried Bool := ⟨holding (.default 0) false,fun _ => ∅⟩

section
variable {ok : Tried Bool → Set String → Act → Prop} {acc : Account} {w w' : Bool}
  {f : Value → Set String} {vs : List (Thread Call Act Act.Ans Res)}

abbrev Reached (ok : Tried Bool → Set String → Act → Prop) (acc : Account) (w : Bool)
    (f : Value → Set String) (ts : List (Thread Call Act Act.Ans Res)) : Prop :=
  Reachable (system oneSession oneKey alice 0) (due alice) ok untried ⟨⟨holding acc w,f⟩,ts⟩

theorem Reached.rooms (us : List (Thread Call Act Act.Ans Res)) {l : Call} {p : M (Res l)}
    {a : RoomsAct} {k : a.Ans → M (Res l)} (h : Reached ok acc w f (us ++ ⟨l,p⟩ :: vs))
    (hp : p = .act (.rooms alice a) k) (hok : ∀ C, ok ⟨holding acc w,f⟩ C (.rooms alice a)) :
    Reached ok { acc with rooms := (a.run acc.rooms).2 } w f
      (us ++ ⟨l,k (a.run acc.rooms).1⟩ :: vs) :=
  h.act us hp (hok _) ⟨holding_rooms a acc w,rfl⟩

theorem Reached.repairs (us : List (Thread Call Act Act.Ans Res)) {l : Call} {p : M (Res l)}
    {a : RepairsAct} {k : a.Ans → M (Res l)} (h : Reached ok acc w f (us ++ ⟨l,p⟩ :: vs))
    (hp : p = .act (.repairs alice a) k) (hok : ∀ C, ok ⟨holding acc w,f⟩ C (.repairs alice a)) :
    Reached ok { acc with repairs := (a.run acc.repairs).2 } w f
      (us ++ ⟨l,k (a.run acc.repairs).1⟩ :: vs) :=
  h.act us hp (hok _) ⟨holding_repairs a acc w,rfl⟩

theorem Reached.outside (us : List (Thread Call Act Act.Ans Res)) {l : Call} {p : M (Res l)}
    {a : Act} {k : a.Ans → M (Res l)} {r : a.Ans} (h : Reached ok acc w f (us ++ ⟨l,p⟩ :: vs))
    (hp : p = .act a k) (hok : ∀ C, ok ⟨holding acc w,f⟩ C a) (ha : a.outside)
    (ho : oneSession a w r w') :
    Reached ok acc w' (record oneKey alice ⟨holding acc w,f⟩ a r) (us ++ ⟨l,k r⟩ :: vs) :=
  h.act us hp (hok _) ⟨sem_outside (s := holding acc w) ha ho,rfl⟩

end

/-- A key that arrives after its event was tracked. -/
theorem late_keys_make_ready_one : ∃ c : Config Call Act Act.Ans Res (Tried Bool),
    Reachable (system oneSession oneKey alice 0) (due alice) (timely oneKey alice) untried c ∧
      (∀ l, ¬ busy c.threads l) ∧ "$e" ∈ (c.state.queue alice).pending ∧
      NoneMissed oneKey alice c.state := by
  have h₀ : Reached (timely oneKey alice) (.default 0) false (fun _ => ∅) [] := .refl
  have other : ∀ {s : Tried Bool} {a : Act}, (∀ x, a ≠ .repairs alice x) → ∀ C,
      timely oneKey alice s C a := fun ha _ x _ _ he => (ha x he).elim
  have h₁ := Reachable.start h₀ (l := .decryptEvent "!r" .repairable encrypted)
    ⟨.decryptEvent "!r" .repairable encrypted,rfl⟩
  have h₂ := Reached.outside [] h₁ rfl (other nofun) trivial ⟨rfl,rfl⟩
  have h₃ := Reached.rooms [] h₂ rfl (other nofun)
  have h₄ := Reached.outside [] (r := ()) h₃ rfl (other nofun) trivial rfl
  have h₅ := Reached.repairs [] h₄ rfl fun _ _ _ _ _ _ he => nomatch he.stored.1
  have h₆ := Reachable.start h₅ (l := .syncChanges (.object []) []) ⟨.syncChanges (.object []) [],rfl⟩
  have h₇ := Reached.outside [_] h₆ rfl (other nofun) trivial ⟨rfl,rfl⟩
  have h₈ := Reached.repairs [_] h₇ rfl fun _ x _ _ he hp _ => by
    cases he
    cases hp
  have h₉ := Reached.outside [_] (r := ()) h₈ rfl (other nofun) trivial rfl
  refine ⟨_,h₉,?idle,?_,late_keys_make_ready (oneSession_stores alice) rfl h₉ ?idle⟩
  case idle =>
    rintro l ⟨a,k,hmem⟩
    rcases List.mem_cons.mp hmem with h | hmem
    · cases h
    · cases List.mem_singleton.mp hmem
  · exact AList.lookup_isSome.mp rfl

/-- A key that arrives between the failed attempt and the tracking of its event:
nobody waits for it yet, so it is forgotten. -/
theorem late_key_is_missed : StoresKeys oneSession alice oneKey ∧
    DecryptsByKey oneSession oneKey (fun _ => some "S") ∧
    ∃ c, Reachable (system oneSession oneKey alice 0) (due alice) anyAction untried c ∧
      (∀ l, ¬ busy c.threads l) ∧ ¬ NoneMissed oneKey alice c.state := by
  refine ⟨oneSession_stores alice,oneSession_decrypts,?_⟩
  have h₀ : Reached anyAction (.default 0) false (fun _ => ∅) [] := .refl
  have ok : ∀ s a C, (anyAction : Tried Bool → Set String → Act → Prop) s C a := fun _ _ _ => trivial
  have h₁ := Reachable.start h₀ (l := .decryptEvent "!r" .repairable encrypted)
    ⟨.decryptEvent "!r" .repairable encrypted,rfl⟩
  have h₂ := Reached.outside [] h₁ rfl (ok _ _) trivial ⟨rfl,rfl⟩
  have h₃ := Reached.rooms [] h₂ rfl (ok _ _)
  have h₄ := Reached.outside [] (r := ()) h₃ rfl (ok _ _) trivial rfl
  have h₅ := Reachable.start h₄ (l := .syncChanges (.object []) []) ⟨.syncChanges (.object []) [],rfl⟩
  have h₆ := Reached.outside [_] h₅ rfl (ok _ _) trivial ⟨rfl,rfl⟩
  have h₇ := Reached.repairs [_] h₆ rfl (ok _ _)
  have h₈ := Reached.outside [_] (r := ()) h₇ rfl (ok _ _) trivial rfl
  have h₉ := Reached.repairs [] h₈ rfl (ok _ _)
  refine ⟨_,h₉,?_,fun hall => ?_⟩
  · rintro l ⟨a,k,hmem⟩
    rcases List.mem_cons.mp hmem with h | hmem
    · cases h
    · cases List.mem_singleton.mp hmem
  · have h := hall "$e" ⟨"!r","$e",some "S",encrypted⟩ "S" rfl ⟨rfl,⟨rfl,rfl⟩,fun raw hraw hf => ?_⟩
    · cases h
    · cases hraw
      rcases hf with ⟨_,_,h,_⟩ | ⟨h,_⟩
      · cases h
      · exact h ⟨rfl,rfl⟩

end EmentE2ee.RepairInterleaving
