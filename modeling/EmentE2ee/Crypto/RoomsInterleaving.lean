import EmentE2ee.Concurrent.Pool
import EmentE2ee.Crypto.Encrypt
import EmentE2ee.Crypto.Scans

/-!
# A room once seen encrypted, under interleaving

Sends ask whether a room is encrypted while syncs and history responses announce
that it is. The negative cache is consulted first, so it must never hold a room
after its announcement. It does not as long as no answer that the homeserver
gave before the announcement is written to it afterwards.
-/
namespace EmentE2ee.RoomsInterleaving

open Concurrent
open Json (Value)

/-- A call, and whether its room had been announced when it started. -/
inductive Call where
  | isRoomEncrypted (room_id : RoomId) (late : Bool)
  | send (req : Request) (room_id event_type txn_id : String) (late : Bool)
  | scan (room_id : RoomId) (events : List Value)
  /-- Any other part of the proxy at work for the account. -/
  | other

abbrev Res : Call → Type
  | .isRoomEncrypted .. => Except Error Bool
  | .send .. => Except Abort Response
  | .scan .. => Unit
  | .other => Unit

/-- Forwards what the client sent, unencrypted. -/
def forwardsPlaintext : Act → Prop
  | .passthrough _ | .request _ (.original _) _ => True
  | _ => False

/-- Actions that leave the negative cache alone. -/
def sparesCache : Act → Prop
  | .rooms _ (.markUnencrypted _) | .rooms _ (.markEncrypted _) => False
  | _ => True

theorem quiet_forwards {a : Act} (h : a.quiet) : ¬ forwardsPlaintext a := by
  unfold forwardsPlaintext
  split <;> first | exact h.elim | exact not_false

theorem quiet_spares {a : Act} (h : a.quiet) : sparesCache a := by
  unfold sparesCache
  split <;> first | exact h.elim | trivial

/-- A scan has processed the announcement of its room. -/
def announce : Call → Act → Set RoomId → Set RoomId
  | .scan .., .rooms _ (.markEncrypted room_id),announced => insert room_id announced
  | _,_,announced => announced

theorem announce_spares {l : Call} {a : Act} (ha : sparesCache a) (A : Set RoomId) :
    announce l a A = A := by
  unfold announce
  split
  · exact ha.elim
  · rfl

theorem announced_grows (l : Call) (a : Act) (A : Set RoomId) : A ⊆ announce l a A := by
  unfold announce
  split
  · exact Set.subset_insert _ _
  · exact Set.Subset.rfl

/-- What a call promises: a late question is not answered with no. -/
def promise : (l : Call) → Res l → Prop
  | .isRoomEncrypted _ late,r => late = true → r ≠ .ok false
  | .send ..,_ | .scan ..,_ | .other,_ => True

/-- What a call may do: a late send forwards no plaintext. -/
def may : Call → Act → Prop
  | .send _ _ _ _ late,a => late = true → ¬ forwardsPlaintext a
  | _,_ => True

section
variable [Codec] {ω : Type}

/-- Once the homeserver has a room's encryption state it keeps it, and it only
answers that there is none while it has none. -/
structure KeepsEncryption (O : Outside ω) (encrypted : ω → Set RoomId) : Prop where
  grows : ∀ {a w r w'}, O a w r w' → encrypted w ⊆ encrypted w'
  missing : ∀ {token room_id w body w'},
    O (.request token (.stateEncryption room_id) none) w (.ok (404,body)) w' → room_id ∉ encrypted w

/-- The proxy's state with the rooms whose announcement a scan has processed. -/
structure Seen (ω : Type) where
  state : State ω
  announced : Set RoomId

variable (O : Outside ω) (encrypted : ω → Set RoomId) (ctx : AccountContext) (fuel : Nat)

/-- Responses announce only what the homeserver has. -/
inductive Starts (s : Seen ω) : (l : Call) → Prog Act Act.Ans (Res l) → Prop
  | isRoomEncrypted (room_id : RoomId) (late : Bool) : (late = true ↔ room_id ∈ s.announced) →
      Starts s (.isRoomEncrypted room_id late) (is_room_encrypted ctx room_id).run
  | send (req : Request) (room_id event_type txn_id : String) (late : Bool) :
      (late = true ↔ event_type ≠ "m.room.encrypted" ∧
        ∃ r, parseRoomId room_id = some r ∧ r ∈ s.announced) →
      Starts s (.send req room_id event_type txn_id late)
        (handle_send fuel ctx req room_id event_type txn_id).run
  | scan (room_id : RoomId) (events : List Value) :
      ((∃ e ∈ events, (encryptionEvent e).isSome) → room_id ∈ encrypted s.state.world) →
      Starts s (.scan room_id events) (scan_state_events ctx room_id events)
  | other (p : M Unit) : p.Does sparesCache → Starts s .other p

/-- Any number of calls for one account, interleaved at every action. -/
def system : System Call Act Act.Ans Res (Seen ω) where
  sem l a s r s' := sem O a s.state r s'.state ∧ s'.announced = announce l a s.announced
  env _ s s' := ∃ w, encrypted s.state.world ⊆ encrypted w ∧
    s' = { s with state := { s.state with world := w } }
  start _ s l p s' := Starts encrypted ctx fuel s l p ∧ s' = s
  restart _ _ := False

/-- No late answer is written to the negative cache. -/
def noLateMiss (s : Seen ω) (_ : Set Empty) (a : Act) : Prop :=
  ∀ room_id, a = .rooms ctx (.markUnencrypted room_id) → room_id ∉ s.announced

/-- An announced room is not taken for unencrypted. -/
def Inv (s : Seen ω) : Prop :=
  ∀ room_id ∈ s.announced, room_id ∉ (s.state.accounts ctx).rooms.unencrypted ∧
    room_id ∈ encrypted s.state.world

def discipline : Discipline (system O encrypted ctx fuel) Empty where
  due _ := ∅
  guard := noLateMiss ctx
  inv s _ := Inv encrypted ctx s
  may := may
  post := promise
  guard_mono _ h := h
  inv_mono _ h := h
  inv_env := by
    rintro b s s' C ⟨w,hw,rfl⟩ h room_id hr
    exact (h room_id hr).imp id (@hw room_id)
  inv_restart := False.elim

variable {O encrypted ctx fuel}

theorem sem_unencrypted {a : Act} {s s' : State ω} {r : a.Ans} (ha : sparesCache a)
    (h : sem O a s r s') :
    (s'.accounts ctx).rooms.unencrypted = (s.accounts ctx).rooms.unencrypted := by
  obtain he | ⟨x,rfl,he⟩ := rooms_of_sem h ctx
  · rw [he]
  · rw [he]
    cases x <;> first | rfl | exact ha.elim

theorem stable_announced (l : Call) (room_id : RoomId) (P : Prop) :
    (discipline O encrypted ctx fuel).Stable l fun s => P → room_id ∈ s.announced where
  act := fun _ _ hs h hP => hs.2 ▸ announced_grows _ _ _ (h hP)
  start := fun _ hs h => hs.2 ▸ h
  env := by
    rintro b s s' C _ _ ⟨w,_,rfl⟩ h
    exact h

/-- Marking a room adds to the cache only what has not been announced. -/
theorem markUnencrypted_neutral {l : Call} {F : Seen ω → Prop} {room_id : RoomId} :
    (discipline O encrypted ctx fuel).Neutral l F (.rooms ctx (.markUnencrypted room_id)) := by
  intro s r s' C _ h hg hs x hx
  have hann : s'.announced = s.announced := by
    rw [hs.2]
    cases l <;> rfl
  rw [hann] at hx
  have hne : x ≠ room_id := fun he => hg room_id rfl (he ▸ hx)
  rw [hs.1.2]
  simpa [RoomsAct.run,RoomTracker.mark_unencrypted,hne] using h x hx

/-- The scan that announces a room does so before anyone can take it for
unencrypted again. -/
theorem announce_neutral {room_id : RoomId} {events : List Value} {F : Seen ω → Prop}
    (hF : ∀ s, F s → room_id ∈ encrypted s.state.world) :
    (discipline O encrypted ctx fuel).Neutral (.scan room_id events) F
      (.rooms ctx (.markEncrypted room_id)) := by
  intro s r s' C hs h _ hsem x hx
  have he : s'.announced = insert room_id s.announced := hsem.2
  rw [he] at hx
  rw [hsem.1.2]
  rcases hx with rfl | hx
  · simpa [RoomsAct.run,RoomTracker.mark_encrypted] using hF s hs
  · simpa [RoomsAct.run,RoomTracker.mark_encrypted] using ⟨fun _ => (h x hx).1,(h x hx).2⟩

variable (hO : KeepsEncryption O encrypted)
include hO

theorem sem_encrypted {a : Act} {s s' : State ω} {r : a.Ans} (h : sem O a s r s') :
    encrypted s.world ⊆ encrypted s'.world := by
  obtain he | ho := sem_world h
  · rw [he]
  · exact hO.grows ho

theorem stable_encrypted (l : Call) (room_id : RoomId) (P : Prop) :
    (discipline O encrypted ctx fuel).Stable l fun s => P → room_id ∈ encrypted s.state.world where
  act := fun _ _ hs h hP => sem_encrypted hO hs.1 (h hP)
  start := fun _ hs h => hs.2 ▸ h
  env := by
    rintro b s s' C _ _ ⟨w,hw,rfl⟩ h hP
    exact hw (h hP)

theorem spares_neutral {l : Call} {F : Seen ω → Prop} {a : Act} (ha : sparesCache a) :
    (discipline O encrypted ctx fuel).Neutral l F a := by
  intro s r s' C _ h _ hs room_id hr
  rw [hs.2,announce_spares ha] at hr
  rw [sem_unencrypted ha hs.1]
  exact (h room_id hr).imp id (@sem_encrypted _ _ _ _ hO _ _ _ _ hs.1 room_id)

/-- The answer to the question, when it was asked after the announcement. -/
def answered (room_id : RoomId) (late : Bool) (r : Except Error Bool) (s : Seen ω) : Prop :=
  (late = true → room_id ∈ s.announced) ∧ (late = true → r ≠ .ok false)

theorem markEncrypted_neutral {l : Call} (hl : ∀ a A, announce l a A = A) {F : Seen ω → Prop}
    {room_id : RoomId} :
    (discipline O encrypted ctx fuel).Neutral l F (.rooms ctx (.markEncrypted room_id)) := by
  intro s r s' C _ h _ hs x hx
  rw [hs.2,hl] at hx
  obtain ⟨hc,he⟩ := h x hx
  refine ⟨?_,sem_encrypted hO hs.1 he⟩
  rw [hs.1.2]
  simpa [RoomsAct.run,RoomTracker.mark_encrypted] using fun _ => hc

omit [Codec] hO in
theorem error_not_no (e : Error) : (.error e : Except Error Bool) ≠ .ok false := by
  simp

omit [Codec] hO in
theorem yes_not_no : (.ok true : Except Error Bool) ≠ .ok false := by
  simp

theorem is_room_encrypted_keeps {l : Call} (hm : ∀ a, ¬ forwardsPlaintext a → may l a)
    (hl : ∀ a A, announce l a A = A) (room_id : RoomId) (late : Bool) :
    (discipline O encrypted ctx fuel).Keeps l (answered room_id late)
      (fun s => late = true → room_id ∈ s.announced) (is_room_encrypted ctx room_id).run := by
  have hst : (discipline O encrypted ctx fuel).Stable l fun s => late = true → room_id ∈ s.announced :=
    stable_announced ..
  unfold is_room_encrypted
  rw [run_step_bind]
  refine .neutral (hm _ not_false) hst (spares_neutral hO trivial) fun s known s' C hF hJ _ hs => ?_
  by_cases hk : known = true
  · -- The cache only knows what has not been announced.
    have hlate : ¬ late = true := fun h => (hJ room_id (hF h)).1 (by
      rw [hs.1.1] at hk
      simpa [RoomsAct.run,RoomTracker.is_known_unencrypted] using hk)
    rw [if_pos hk]
    exact fun s h => ⟨h,fun hp => (hlate hp).elim⟩
  · rw [if_neg hk]
    refine .exceptBind (P := fun _ s => late = true → room_id ∈ s.announced)
      (.bind_ret (.perform (hm _ not_false) hst (spares_neutral hO trivial)) fun _ _ h => h)
      (fun settings => ?_) fun e s h => ⟨h,fun _ => error_not_no e⟩
    split_ifs
    · exact fun s h => ⟨h,fun _ => yes_not_no⟩
    rw [json_request,run_call_bind,act_bind]
    refine .neutral (hm _ not_false) hst (spares_neutral hO trivial) fun s answer s' C hF hJ _ hs => ?_
    cases answer with
    | error m => exact fun s h => ⟨h,fun _ => error_not_no _⟩
    | ok answer =>
        obtain ⟨status,body⟩ := answer
        dsimp only
        split_ifs with hmiss hok
        · -- There is no such room at the homeserver once it has been announced.
          subst hmiss
          have hlate : ¬ late = true := fun h => hO.missing hs.1.1 (hJ room_id (hF h)).2
          rw [run_step_bind]
          exact .neutral (hm _ not_false) hst markUnencrypted_neutral fun _ _ _ _ _ _ _ _ s h =>
            ⟨h,fun hp => (hlate hp).elim⟩
        · split
          · exact fun s h => ⟨h,fun _ => error_not_no _⟩
          · rw [run_step_bind]
            refine .neutral (hm _ not_false) hst (markEncrypted_neutral hO hl)
              fun _ _ _ _ _ _ _ _ => ?_
            rw [run_step_bind]
            exact .neutral (hm _ not_false) hst (spares_neutral hO trivial) fun _ _ _ _ _ _ _ _ s h =>
              ⟨h,fun _ => yes_not_no⟩
        · exact fun s h => ⟨h,fun _ => error_not_no _⟩

theorem spares_keeps {α : Type} {l : Call} {F : Seen ω → Prop} {P : Act → Prop}
    (hF : (discipline O encrypted ctx fuel).Stable l F)
    (hP : ∀ a, P a → may l a ∧ sparesCache a) {p : M α} (hp : p.Does P) :
    (discipline O encrypted ctx fuel).Keeps l (fun _ s => F s) F p :=
  (Discipline.Keeps.of_every hF (fun a ha => ⟨(hP a ha).1,spares_neutral hO (hP a ha).2⟩) hp).mono
    fun _ _ h => h.2

theorem scan_state_event_keeps {room_id : RoomId} {events : List Value} {P : Prop} {event : Value}
    (hP : (encryptionEvent event).isSome → P) :
    (discipline O encrypted ctx fuel).Keeps (.scan room_id events)
      (fun _ s => P → room_id ∈ encrypted s.state.world)
      (fun s => P → room_id ∈ encrypted s.state.world) (scan_state_event ctx room_id event) := by
  have hst : (discipline O encrypted ctx fuel).Stable (.scan room_id events)
      fun s => P → room_id ∈ encrypted s.state.world := stable_encrypted hO ..
  unfold scan_state_event
  split_ifs with hkey
  · exact fun _ h => h
  split
  case h_1 htype =>
    split
    · exact fun _ h => h
    case h_2 settings hset =>
      have hsome : P := hP (by simp [encryptionEvent,hkey,htype,hset])
      refine .neutral trivial hst (announce_neutral fun s h => h hsome) fun _ _ _ _ _ _ _ _ => ?_
      exact .neutral trivial hst (spares_neutral hO trivial) fun _ _ _ _ _ _ _ _ _ h => h
  case h_2 =>
    split
    · exact .perform trivial hst (spares_neutral hO trivial)
    · exact fun _ h => h
  case h_3 => exact .perform trivial hst (spares_neutral hO trivial)
  case h_4 => exact fun _ h => h

theorem scan_state_events_keeps {room_id : RoomId} {all : List Value} {P : Prop}
    {events : List Value} (hP : ∀ e ∈ events, (encryptionEvent e).isSome → P) :
    (discipline O encrypted ctx fuel).Keeps (.scan room_id all)
      (fun _ s => P → room_id ∈ encrypted s.state.world)
      (fun s => P → room_id ∈ encrypted s.state.world) (scan_state_events ctx room_id events) := by
  induction events with
  | nil => exact fun _ h => h
  | cons event events ih =>
      refine (scan_state_event_keeps hO (hP event (by simp))).bind fun _ => ?_
      exact ih fun e he => hP e (by simp [he])

/-- Once the question was answered with yes, or asked too early to matter, a
send does what any send may. -/
theorem send_rest_keeps {l : Call} {α : Type} {F : Seen ω → Prop}
    (hF : (discipline O encrypted ctx fuel).Stable l F) {p : M α}
    (hm : p.Does fun a => may l a ∧ sparesCache a) :
    (discipline O encrypted ctx fuel).Keeps l (fun _ _ => True) F p :=
  (spares_keeps hO hF (fun _ h => h) hm).mono fun _ _ _ => trivial

theorem handle_send_keeps {req : Request} {room_id event_type txn_id : String} {late : Bool}
    {r : RoomId} (hr : late = true → parseRoomId room_id = some r ∧ event_type ≠ "m.room.encrypted") :
    (discipline O encrypted ctx fuel).Keeps (.send req room_id event_type txn_id late)
      (fun _ _ => True) (fun s => late = true → r ∈ s.announced)
      (handle_send fuel ctx req room_id event_type txn_id).run := by
  have hst : ∀ x, (discipline O encrypted ctx fuel).Stable (.send req room_id event_type txn_id late)
      fun s => late = true → x ∈ s.announced := fun x => stable_announced ..
  have hm : ∀ a, ¬ forwardsPlaintext a → may (.send req room_id event_type txn_id late) a :=
    fun _ ha _ => ha
  have hquiet : ∀ a, Act.quiet a →
      may (.send req room_id event_type txn_id late) a ∧ sparesCache a :=
    fun a ha => ⟨hm a (quiet_forwards ha),quiet_spares ha⟩
  have hpass : ¬ late = true → (passthrough req).run.Does fun a =>
      may (.send req room_id event_type txn_id late) a ∧ sparesCache a := fun hl =>
    passthrough_does.mpr ⟨fun h => (hl h).elim,trivial⟩
  unfold handle_send
  split
  case h_1 hnone =>
    refine send_rest_keeps hO (hst r) (hpass fun hl => ?_)
    cases hnone.symm.trans (hr hl).1
  case h_2 x hsome =>
    split_ifs with ht
    · exact send_rest_keeps hO (hst r) (hpass fun hl => (hr hl).2 ht)
    have hask : (discipline O encrypted ctx fuel).Keeps (.send req room_id event_type txn_id late)
        (answered x late) (fun s => late = true → x ∈ s.announced) (is_room_encrypted ctx x).run :=
      is_room_encrypted_keeps hO hm (fun _ _ => rfl) x late
    refine .exceptBind (P := fun e s => (late = true → x ∈ s.announced) ∧ (late = true → e ≠ .ok false))
      (.strengthen (F := fun s => late = true → x ∈ s.announced) ?_ ?_) (fun encrypted => ?_)
      fun _ _ _ => trivial
    · intro s h hl
      cases hsome.symm.trans (hr hl).1
      exact h hl
    · rw [run_internally,run_withContext,Prog.bind_assoc]
      refine hask.bind fun e s h => ⟨h.1,fun hl he => h.2 hl ?_⟩
      cases e <;> simp_all [Except.mapError]
    refine .assuming (P := late = true → encrypted = true) (fun s h hl => ?_) fun hlate => ?_
    · simpa using h.2 hl
    refine .strengthen (fun s h => h.1) (send_rest_keeps hO (hst x) ?_)
    refine .exceptBind (readBody_does ..) fun body => ?_
    split
    · exact refuse_does _
    split_ifs with he
    · refine .exceptBind ((proxy_lift_does _).mpr ((rewrite_content_quiet ctx _).mono hquiet)) fun content => ?_
      refine .exceptBind ?_ fun encrypted_content => ?_
      · rw [internally_does,withContext_does]
        exact (encrypt_content_quiet ctx ..).mono hquiet
      · rw [pure_bind]
        refine .exceptBind ?_ fun answer => proxy_pure_does _
        rw [internally_does,withContext_does,json_request_does]
        exact ⟨fun _ => not_false,trivial⟩
    · have hl : ¬ late = true := fun hl => he (hlate hl)
      refine .exceptBind ?_ fun content => ?_
      · rw [internally_does,withContext_does]
        exact (reupload_quiet ctx _).mono hquiet
      · rw [pure_bind]
        refine .exceptBind ?_ fun answer => proxy_pure_does _
        rw [internally_does,withContext_does,json_request_does]
        exact ⟨fun h => (hl h).elim,trivial⟩

theorem starts : (discipline O encrypted ctx fuel).Starts := by
  intro _ s l p s' C hJ hs
  obtain ⟨hp,rfl⟩ := hs
  refine ⟨hJ,?_⟩
  cases hp with
  | isRoomEncrypted room_id late hlate =>
      have hm : ∀ a, ¬ forwardsPlaintext a → may (.isRoomEncrypted room_id late) a :=
        fun _ _ => trivial
      refine ⟨_,stable_announced _ room_id (late = true),hlate.mp,?_⟩
      exact (is_room_encrypted_keeps hO hm (fun _ _ => rfl) room_id late).mono fun _ _ h => h.2
  | send req room_id event_type txn_id late hlate =>
      by_cases h : late = true
      · obtain ⟨ht,r,hr,hr'⟩ := hlate.mp h
        exact ⟨_,stable_announced _ r (late = true),fun _ => hr',
          handle_send_keeps hO fun _ => ⟨hr,ht⟩⟩
      · exact ⟨_,stable_announced _ room_id (late = true),fun hl => (h hl).elim,
          handle_send_keeps hO fun hl => (h hl).elim⟩
  | scan room_id events hscan =>
      refine ⟨_,stable_encrypted hO _ room_id (∃ e ∈ events, (encryptionEvent e).isSome),hscan,?_⟩
      exact (scan_state_events_keeps hO fun e he h => ⟨e,he,h⟩).mono fun _ _ _ => trivial
  | other p hp =>
      have hm : ∀ a, sparesCache a → may .other a ∧ sparesCache a := fun _ h => ⟨trivial,h⟩
      refine ⟨_,.const _ _ True,trivial,?_⟩
      exact (spares_keeps hO (.const _ _ True) hm hp).mono fun _ _ _ => trivial

omit hO

/-- What a scan tells of rooms being encrypted. -/
def announcement : RoomId × Telling → Option RoomId
  | (room_id,.encrypted) => some room_id
  | _ => none

/-- The rooms that the events of a scan announce. -/
def announcements : Call → List RoomId
  | .scan room_id events => ((events.filterMap telling).map (room_id,·)).filterMap announcement
  | _ => []

def announces (ctx : AccountContext) : Call → Act → Option RoomId
  | .scan ..,a => (noted ctx a).bind announcement
  | _,_ => none

omit [Codec] in
theorem announces_announce {l : Call} {a : Act} {room_id : RoomId} (A : Set RoomId)
    (h : announces ctx l a = some room_id) : room_id ∈ announce l a A := by
  cases l with
  | scan _ _ =>
      obtain ⟨⟨r,t⟩,hnoted,ht⟩ := Option.bind_eq_some_iff.mp h
      unfold noted at hnoted
      split at hnoted
      · split_ifs at hnoted
        cases hnoted
        cases ht
        exact .inl rfl
      · split_ifs at hnoted
        cases hnoted
        cases ht
      · split_ifs at hnoted
        cases hnoted
        cases ht
      · cases hnoted
  | _ => cases h

theorem scans_record : Records (system O encrypted ctx fuel) (announces ctx) announcements
    Seen.announced where
  start := by
    rintro b s l p s' ⟨hp,rfl⟩
    refine ⟨?_,subset_rfl⟩
    cases hp with
    | scan room_id events _ =>
        exact (scan_state_events_notes room_id events).filterMap fun _ => rfl
    | isRoomEncrypted room_id late _ => exact .uncounted _
    | send req room_id event_type txn_id late _ => exact .uncounted _
    | other p _ => exact .uncounted _
  act hs := by
    rw [hs.2]
    exact ⟨announced_grows _ _ _,fun _ => announces_announce _⟩
  env := by
    rintro b s s' ⟨w,_,rfl⟩
    exact subset_rfl

omit [Codec] in
theorem mem_announcements {room_id : RoomId} {events : List Value}
    (h : ∃ e ∈ events, (encryptionEvent e).isSome) :
    room_id ∈ announcements (.scan room_id events) := by
  obtain ⟨e,hmem,hsome⟩ := h
  simp only [announcements,List.mem_filterMap,List.mem_map]
  exact ⟨_,⟨_,⟨e,hmem,telling_encrypted hsome⟩,rfl⟩,rfl⟩

/-- Late questions are not answered with no, and late sends forward no plaintext. -/
structure TreatedAsEncrypted (c : Config Call Act Act.Ans Res (Seen ω)) : Prop where
  answer : ∀ room_id r, ⟨.isRoomEncrypted room_id true,.ret r⟩ ∈ c.threads → r ≠ .ok false
  forward : ∀ req room_id event_type txn_id a k,
    ⟨.send req room_id event_type txn_id true,.act a k⟩ ∈ c.threads → ¬ forwardsPlaintext a

/-- A room once seen encrypted stays so in every run that writes no late answer
to the negative cache; at the end of a scan its room has been seen if one of its events
says so. -/
theorem seen_encrypted_stays (hO : KeepsEncryption O encrypted) {s₀ : State ω}
    {c : Config Call Act Act.Ans Res (Seen ω)}
    (h : Reachable (system O encrypted ctx fuel) (fun _ => ∅) (noLateMiss ctx) ⟨s₀,∅⟩ c) :
    TreatedAsEncrypted c ∧ ∀ room_id events, ⟨.scan room_id events,.ret ()⟩ ∈ c.threads →
      (∃ e ∈ events, (encryptionEvent e).isSome) → room_id ∈ c.state.announced := by
  have hinit : (discipline O encrypted ctx fuel).inv ⟨s₀,∅⟩ ∅ := fun _ hr => hr.elim
  have hc := Discipline.Holds.reachable (D := discipline O encrypted ctx fuel) (starts hO) hinit h
  refine ⟨⟨fun _ _ ht => hc.result ht rfl,fun _ _ _ _ _ _ ht => hc.next ht rfl⟩,?_⟩
  exact fun _ _ ht he => h.recorded scans_record ht _ (mem_announcements he)

end

local instance : Codec := .plain (fun _ => none) some fun _ _ => 0

structure OneRoom where
  encrypted : Bool
  settings : Option RoomSettings

def encryptionContent : Value := .object [("algorithm",.string "m.megolm.v1.aes-sha2")]

def encryptionAnnounced : Value := .object [("type",.string "m.room.encryption"),
  ("state_key",.string ""),("content",encryptionContent)]

def oneRoom : Outside OneRoom
  | .olm _ (.roomSettings _),w,r,w' => r = .ok w.settings ∧ w' = w
  | .olm _ (.setRoomSettings _ settings),w,r,w' => r = .ok () ∧ w' = { w with settings := some settings }
  | .request _ (.stateEncryption _) none,w,r,w' =>
      r = .ok (if w.encrypted then (200,encryptionContent)
        else (404,.object [("errcode",.string "M_NOT_FOUND")])) ∧ w' = w
  | _,_,_,_ => False

def hasEncryption (w : OneRoom) : Set RoomId := {_r | w.encrypted = true}

theorem oneRoom_keeps : KeepsEncryption oneRoom hasEncryption where
  grows := by
    intro a w r w' h
    unfold oneRoom at h
    split at h
    · exact h.2 ▸ Set.Subset.rfl
    · exact h.2 ▸ Set.Subset.rfl
    · exact h.2 ▸ Set.Subset.rfl
    · exact h.elim
  missing := by
    intro token room_id w body w' h hr
    have he : w.encrypted = true := hr
    simp [oneRoom,he] at h

def alice : AccountContext := ⟨"@alice:x","DEV","token",⟨0,"key"⟩⟩

/-- What Alice's account knows of rooms, with nothing else of note. -/
def holding (t : RoomTracker) (w : OneRoom) : State OneRoom where
  accounts := Function.update (fun _ => .default 0) alice { Account.default 0 with rooms := t }
  sessions := ∅
  refused := []
  locked _ := false
  world := w

theorem holding_rooms (a : RoomsAct) (t : RoomTracker) (w : OneRoom) :
    sem oneRoom (.rooms alice a) (holding t w) (a.run t).1 (holding (a.run t).2 w) := by
  simp [sem,holding,State.account]

theorem oneRoom_outside {a : Act} {w w' : OneRoom} {r : a.Ans} (h : oneRoom a w r w') :
    a.outside := by
  unfold oneRoom at h
  split at h <;> trivial

section
variable {ok : Seen OneRoom → Set Empty → Act → Prop} {w₀ w w' : OneRoom} {t : RoomTracker}
  {A : Set RoomId} {vs : List (Thread Call Act Act.Ans Res)}

abbrev Reached (ok : Seen OneRoom → Set Empty → Act → Prop) (w₀ : OneRoom) (t : RoomTracker)
    (w : OneRoom) (A : Set RoomId) (ts : List (Thread Call Act Act.Ans Res)) : Prop :=
  Reachable (system oneRoom hasEncryption alice 0) (fun _ => ∅) ok
    ⟨holding .default w₀,∅⟩ ⟨⟨holding t w,A⟩,ts⟩

theorem Reached.rooms (us : List (Thread Call Act Act.Ans Res)) {l : Call} {p : M (Res l)}
    {a : RoomsAct} {k : a.Ans → M (Res l)} (h : Reached ok w₀ t w A (us ++ ⟨l,p⟩ :: vs))
    (hp : p = .act (.rooms alice a) k) (hok : ∀ s C, ok s C (.rooms alice a)) :
    Reached ok w₀ (a.run t).2 w (announce l (.rooms alice a) A) (us ++ ⟨l,k (a.run t).1⟩ :: vs) :=
  h.act us hp (hok _ _) ⟨holding_rooms a t w,rfl⟩

theorem Reached.outside (us : List (Thread Call Act Act.Ans Res)) {l : Call} {p : M (Res l)}
    {a : Act} {k : a.Ans → M (Res l)} {r : a.Ans} (h : Reached ok w₀ t w A (us ++ ⟨l,p⟩ :: vs))
    (hp : p = .act a k) (hok : ∀ s C, ok s C a) (ho : oneRoom a w r w') :
    Reached ok w₀ t w' (announce l a A) (us ++ ⟨l,k r⟩ :: vs) :=
  h.act us hp (hok _ _) ⟨sem_outside (s := holding t w) (oneRoom_outside ho) ho,rfl⟩

end

/-- A question asked after the announcement. -/
theorem seen_encrypted_stays_one_room : ∃ c : Config Call Act Act.Ans Res (Seen OneRoom),
    Reachable (system oneRoom hasEncryption alice 0) (fun _ => ∅) (noLateMiss alice)
      ⟨holding .default ⟨true,none⟩,∅⟩ c ∧ "!r" ∈ c.state.announced ∧
      ⟨.isRoomEncrypted "!r" true,.ret (.ok true)⟩ ∈ c.threads ∧ TreatedAsEncrypted c := by
  have h₀ : Reached (noLateMiss alice) ⟨true,none⟩ .default ⟨true,none⟩ ∅ [] := .refl
  have h₁ := Reachable.start h₀ (l := .scan "!r" [encryptionAnnounced])
    ⟨.scan "!r" [encryptionAnnounced] fun _ => rfl,rfl⟩
  have h₂ := Reached.rooms [] h₁ rfl nofun
  have h₃ := Reached.outside [] h₂ rfl nofun ⟨rfl,rfl⟩
  have h₄ := Reachable.start h₃ (l := .isRoomEncrypted "!r" true)
    ⟨.isRoomEncrypted "!r" true (by simp [announce]),rfl⟩
  have h₅ := Reached.rooms [_] h₄ rfl nofun
  have h₆ := Reached.outside [_] h₅ rfl nofun ⟨rfl,rfl⟩
  obtain ⟨htreated,hscanned⟩ := seen_encrypted_stays oneRoom_keeps h₆
  refine ⟨_,h₆,hscanned "!r" [encryptionAnnounced] List.mem_cons_self ?_,
    List.mem_append_right _ (List.mem_singleton_self _),htreated⟩
  exact ⟨encryptionAnnounced,List.mem_cons_self,rfl⟩

/-- A question asked before the announcement, and answered before it, but
heard of after it: the next one finds the room in the negative cache. -/
theorem late_miss_is_remembered : KeepsEncryption oneRoom hasEncryption ∧
    ¬ ∀ c, Reachable (system oneRoom hasEncryption alice 0) (fun _ => (∅ : Set Empty)) anyAction
      ⟨holding .default ⟨false,none⟩,∅⟩ c → TreatedAsEncrypted c := by
  refine ⟨oneRoom_keeps,fun hall => ?_⟩
  have h₀ : Reached anyAction ⟨false,none⟩ .default ⟨false,none⟩ ∅ [] := .refl
  have ok : ∀ a s C, (anyAction : Seen OneRoom → Set Empty → Act → Prop) s C a := fun _ _ _ => trivial
  have h₁ := Reachable.start h₀ (l := .isRoomEncrypted "!r" false)
    ⟨.isRoomEncrypted "!r" false (by simp),rfl⟩
  have h₂ := Reached.rooms [] h₁ rfl (ok _)
  have h₃ := Reached.outside [] h₂ rfl (ok _) ⟨rfl,rfl⟩
  have h₄ := Reached.outside [] h₃ rfl (ok _) ⟨rfl,rfl⟩
  have h₅ : Reached anyAction ⟨false,none⟩ _ ⟨true,none⟩ _ _ :=
    Reachable.env h₄ ⟨⟨true,none⟩,fun _ _ => rfl,rfl⟩
  have h₆ := Reachable.start h₅ (l := .scan "!r" [encryptionAnnounced])
    ⟨.scan "!r" [encryptionAnnounced] fun _ => rfl,rfl⟩
  have h₇ := Reached.rooms [_] h₆ rfl (ok _)
  have h₈ := Reached.outside [_] h₇ rfl (ok _) ⟨rfl,rfl⟩
  have h₉ := Reached.rooms [] h₈ rfl (ok _)
  have h₁₀ := Reachable.start h₉ (l := .isRoomEncrypted "!r" true)
    ⟨.isRoomEncrypted "!r" true (by simp [announce]),rfl⟩
  have h₁₁ := Reached.rooms [_,_] h₁₀ rfl (ok _)
  exact (hall _ h₁₁).answer "!r" (.ok false) (List.mem_append_right _ (List.mem_singleton_self _)) rfl

end EmentE2ee.RoomsInterleaving
