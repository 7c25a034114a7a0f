import EmentE2ee.Concurrent.Pool
import EmentE2ee.Crypto.Encrypt
import EmentE2ee.Crypto.Scans

/-!
# Recipients, under interleaving

Member lists are cached until a membership event of their room is scanned. A list
that was fetched before the event may be cached after it; every later list reflects
the event as long as none is.
-/
namespace EmentE2ee.MemberLists

open Concurrent
open Json (Value)

/-- A call, with the number of its room's membership events that had been processed
when it started, or delivered when its scan did. -/
inductive Call where
  | joinedMembers (room_id : RoomId) (since : Nat)
  | encrypt (room_id : RoomId) (event_type : String) (content : Value) (since : Nat)
  | scan (room_id : RoomId) (events : List Value) (delivery : Nat)
  /-- Any other part of the proxy at work for the account. -/
  | other

abbrev Res : Call → Type
  | .joinedMembers .. => Except Error (List UserId)
  | .encrypt .. => Except Error Value
  | .scan .. | .other => Unit

/-- Actions that leave the cached lists alone. -/
def sparesLists : Act → Prop
  | .rooms _ (.cacheMembers ..) | .rooms _ (.invalidateMembers _) => False
  | _ => True

/-- A scan has processed a membership event of its delivery. -/
def note : Call → Act → (RoomId → Nat) → RoomId → Nat
  | .scan _ _ delivery,.rooms _ (.invalidateMembers room_id),processed =>
      Function.update processed room_id (max (processed room_id) delivery)
  | _,_,processed => processed

theorem note_spares {l : Call} {a : Act} (ha : sparesLists a) (processed : RoomId → Nat) :
    note l a processed = processed := by
  unfold note
  split
  · exact ha.elim
  · rfl

theorem le_note (l : Call) (a : Act) (processed : RoomId → Nat) (room_id : RoomId) :
    processed room_id ≤ note l a processed room_id := by
  unfold note
  split
  · by_cases h : room_id = ‹RoomId›
    · subst h
      simp
    · rw [Function.update_of_ne h]
  · exact le_rfl

theorem serving_spares {a : Act} (h : a.serving) : sparesLists a := by
  unfold sparesLists
  split <;> first | exact h.elim | trivial

section
variable [Codec] {ω : Type}

/-- `reflects r n` are the lists of room `r` that take its first `n` membership events
into account: a request is answered with a list that takes all that were delivered. -/
structure Reflects (O : Outside ω) (delivered : ω → RoomId → Nat)
    (reflects : RoomId → Nat → List UserId → Prop) : Prop where
  nothing : ∀ room_id members, reflects room_id 0 members
  mono : ∀ {room_id m n members}, m ≤ n → reflects room_id n members → reflects room_id m members
  grows : ∀ {a w r w'}, O a w r w' → ∀ room_id, delivered w room_id ≤ delivered w' room_id
  fetched : ∀ {token room_id w status body w'}, isSuccess status = true →
    O (.request token (.joinedMembers room_id) none) w (.ok (status,body)) w' →
      reflects room_id (delivered w room_id) (memberIds body)

/-- The proxy's state with the membership events that scans have processed. -/
structure Seen (ω : Type) where
  state : State ω
  processed : RoomId → Nat

variable (O : Outside ω) (delivered : ω → RoomId → Nat)
  (reflects : RoomId → Nat → List UserId → Prop) (ctx : AccountContext) (fuel : Nat)

/-- What a call promises: the list it returns reflects what had been processed. -/
def promise : (l : Call) → Res l → Prop
  | .joinedMembers room_id since,r => ∀ members, r = .ok members → reflects room_id since members
  | .encrypt .. ,_ | .scan ..,_ | .other,_ => True

/-- What a call may do: it shares a key with nobody on an older list. -/
def may : Call → Act → Prop
  | .encrypt _ _ _ since,.olm _ (.shareRoomKey room_id members _) => reflects room_id since members
  | _,_ => True

inductive Starts (s : Seen ω) : (l : Call) → Prog Act Act.Ans (Res l) → Prop
  | joinedMembers (room_id : RoomId) (since : Nat) : since ≤ s.processed room_id →
      Starts s (.joinedMembers room_id since) (joined_members ctx room_id).run
  | encrypt (room_id : RoomId) (event_type : String) (content : Value) (since : Nat) :
      since ≤ s.processed room_id → Starts s (.encrypt room_id event_type content since)
        (encrypt_content fuel ctx room_id event_type content).run
  | scan (room_id : RoomId) (events : List Value) (delivery : Nat) :
      delivery ≤ delivered s.state.world room_id →
      Starts s (.scan room_id events delivery) (scan_state_events ctx room_id events)
  | other (p : M Unit) : p.Does sparesLists → Starts s .other p

/-- Any number of calls for one account, interleaved at every action. -/
def system : System Call Act Act.Ans Res (Seen ω) where
  sem l a s r s' := sem O a s.state r s'.state ∧ s'.processed = note l a s.processed
  env _ s s' := ∃ w, (∀ room_id, delivered s.state.world room_id ≤ delivered w room_id) ∧
    s' = { s with state := { s.state with world := w } }
  start _ s l p s' := Starts delivered ctx fuel s l p ∧ s' = s
  restart _ _ := False

/-- No list is cached that does not reflect what has been processed by then. -/
def noStaleList (s : Seen ω) (_ : Set Empty) (a : Act) : Prop :=
  ∀ room_id members now, a = .rooms ctx (.cacheMembers room_id members now) →
    reflects room_id (s.processed room_id) members

/-- The cached lists reflect what has been processed, all of which was delivered. -/
structure Inv (s : Seen ω) : Prop where
  cached : ∀ room_id cache, (s.state.accounts ctx).rooms.members room_id = some cache →
    reflects room_id (s.processed room_id) cache.members
  delivered : ∀ room_id, s.processed room_id ≤ delivered s.state.world room_id

def discipline : Discipline (system O delivered ctx fuel) Empty where
  due _ := ∅
  guard := noStaleList reflects ctx
  inv s _ := Inv delivered reflects ctx s
  may := may reflects
  post := promise reflects
  guard_mono _ h := h
  inv_mono _ h := h
  inv_env := by
    rintro b s s' C ⟨w,hw,rfl⟩ h
    exact ⟨h.cached,fun room_id => (h.delivered room_id).trans (hw room_id)⟩
  inv_restart := False.elim

variable {O delivered reflects ctx fuel}

theorem sem_lists {a : Act} {s s' : State ω} {r : a.Ans} (ha : sparesLists a)
    (h : sem O a s r s') : (s'.accounts ctx).rooms.members = (s.accounts ctx).rooms.members := by
  obtain he | ⟨x,rfl,he⟩ := rooms_of_sem h ctx
  · rw [he]
  · rw [he]
    cases x <;> first | rfl | exact ha.elim

theorem stable_processed (l : Call) (room_id : RoomId) (n : Nat) :
    (discipline O delivered reflects ctx fuel).Stable l fun s => n ≤ s.processed room_id where
  act := fun _ _ hs h => hs.2 ▸ h.trans (le_note ..)
  start := fun _ hs h => hs.2 ▸ h
  env := by
    rintro b s s' C _ _ ⟨w,_,rfl⟩ h
    exact h

variable (hO : Reflects O delivered reflects)
include hO

theorem sem_delivered {a : Act} {s s' : State ω} {r : a.Ans} (h : sem O a s r s')
    (room_id : RoomId) : delivered s.world room_id ≤ delivered s'.world room_id := by
  obtain he | ho := sem_world h
  · rw [he]
  · exact hO.grows ho room_id

theorem stable_delivered (l : Call) (room_id : RoomId) (n : Nat) :
    (discipline O delivered reflects ctx fuel).Stable l fun s =>
      n ≤ delivered s.state.world room_id where
  act := fun _ _ hs h => h.trans (sem_delivered hO hs.1 room_id)
  start := fun _ hs h => hs.2 ▸ h
  env := by
    rintro b s s' C _ _ ⟨w,hw,rfl⟩ h
    exact h.trans (hw room_id)

theorem spares_neutral {l : Call} {F : Seen ω → Prop} {a : Act} (ha : sparesLists a) :
    (discipline O delivered reflects ctx fuel).Neutral l F a := by
  intro s r s' C _ h _ hs
  have hprocessed : s'.processed = s.processed := hs.2.trans (note_spares ha _)
  constructor
  · intro room_id cache hcache
    rw [sem_lists ha hs.1] at hcache
    rw [hprocessed]
    exact h.cached room_id cache hcache
  · intro room_id
    rw [hprocessed]
    exact (h.delivered room_id).trans (sem_delivered hO hs.1 room_id)

/-- Caching a list keeps the invariant under the guard. -/
theorem cacheMembers_neutral {l : Call} {F : Seen ω → Prop} {room_id : RoomId}
    {members : List UserId} {now : Nat} :
    (discipline O delivered reflects ctx fuel).Neutral l F
      (.rooms ctx (.cacheMembers room_id members now)) := by
  intro s r s' C _ h hguard hs
  have hprocessed : s'.processed = s.processed := by
    rw [hs.2]
    cases l <;> rfl
  have hlists : (s'.state.accounts ctx).rooms.members =
      Function.update (s.state.accounts ctx).rooms.members room_id (some ⟨now,members⟩) := by
    rw [hs.1.2,State.account_self]
    rfl
  constructor
  · intro room_id' cache hcache
    rw [hlists] at hcache
    rw [hprocessed]
    by_cases hroom : room_id' = room_id
    · subst hroom
      rw [Function.update_self] at hcache
      cases hcache
      exact hguard room_id' members now rfl
    · rw [Function.update_of_ne hroom] at hcache
      exact h.cached room_id' cache hcache
  · intro room_id'
    rw [hprocessed]
    exact (h.delivered room_id').trans (sem_delivered hO hs.1 room_id')

/-- A scan forgets the list that its membership event outdates. -/
theorem invalidateMembers_neutral {room_id : RoomId} {events : List Value} {delivery : Nat} :
    (discipline O delivered reflects ctx fuel).Neutral (.scan room_id events delivery)
      (fun s => delivery ≤ delivered s.state.world room_id)
      (.rooms ctx (.invalidateMembers room_id)) := by
  intro s r s' C hdelivery h _ hs
  have hprocessed : s'.processed =
      Function.update s.processed room_id (max (s.processed room_id) delivery) := hs.2
  have hlists : (s'.state.accounts ctx).rooms.members =
      Function.update (s.state.accounts ctx).rooms.members room_id none := by
    rw [hs.1.2,State.account_self]
    rfl
  constructor
  · intro room_id' cache hcache
    rw [hlists] at hcache
    by_cases hroom : room_id' = room_id
    · subst hroom
      rw [Function.update_self] at hcache
      cases hcache
    · rw [Function.update_of_ne hroom] at hcache
      rw [hprocessed,Function.update_of_ne hroom]
      exact h.cached room_id' cache hcache
  · intro room_id'
    refine le_trans ?_ (sem_delivered hO hs.1 room_id')
    rw [hprocessed]
    by_cases hroom : room_id' = room_id
    · subst hroom
      rw [Function.update_self]
      exact max_le (h.delivered room_id') hdelivery
    · rw [Function.update_of_ne hroom]
      exact h.delivered room_id'

/-- The list reflects what had been processed when it was asked for. -/
def fresh (reflects : RoomId → Nat → List UserId → Prop) (room_id : RoomId) (since : Nat)
    (r : Except Error (List UserId)) : Prop :=
  ∀ members, r = .ok members → reflects room_id since members

theorem joined_members_keeps {l : Call}
    (hm : ∀ a, (∀ c room_id members settings, a ≠ .olm c (.shareRoomKey room_id members settings)) →
      may reflects l a) (room_id : RoomId) (since : Nat) :
    (discipline O delivered reflects ctx fuel).Keeps l (fun r _ => fresh reflects room_id since r)
      (fun s => since ≤ s.processed room_id) (joined_members ctx room_id).run := by
  have hst : (discipline O delivered reflects ctx fuel).Stable l fun s => since ≤ s.processed room_id :=
    stable_processed ..
  have herror : ∀ e, fresh reflects room_id since (.error e) := fun e members h => by cases h
  unfold joined_members
  rw [run_step_bind]
  refine .neutral (hm _ (by simp)) hst (spares_neutral hO trivial) fun _ t _ _ _ _ _ _ => ?_
  rw [run_step_bind]
  refine .neutral (hm _ (by simp)) hst (spares_neutral hO trivial) fun s cached s' C hF hJ _ hs => ?_
  cases cached with
  | some members =>
      -- A cached list reflects all that has been processed.
      have hmembers : reflects room_id since members := by
        have hcached : (s.state.accounts ctx).rooms.cached_members room_id t = some members :=
          hs.1.1.symm
        obtain ⟨cache,hcache,hfound⟩ := Option.bind_eq_some_iff.mp hcached
        split_ifs at hfound
        cases hfound
        exact hO.mono hF (hJ.cached room_id cache hcache)
      exact fun _ _ _ h => by cases h; exact hmembers
  | none =>
      rw [json_request,run_call_bind,act_bind]
      refine .neutral (hm _ (by simp)) hst (spares_neutral hO trivial) fun s answer s' C hF hJ _ hs => ?_
      cases answer with
      | error m => exact fun _ _ => herror _
      | ok answer =>
          obtain ⟨status,body⟩ := answer
          dsimp only
          split_ifs with hsuccess hempty
          · exact fun _ _ => herror _
          · -- So does a list that was fetched since.
            have hmembers : reflects room_id since (memberIds body) :=
              hO.mono (hF.trans (hJ.delivered room_id)) (hO.fetched hsuccess hs.1.1)
            rw [run_step_bind]
            refine .neutral (hm _ (by simp)) hst (spares_neutral hO trivial) fun _ _ _ _ _ _ _ _ => ?_
            rw [run_step_bind]
            refine .neutral (hm _ (by simp)) hst (cacheMembers_neutral hO) fun _ _ _ _ _ _ _ _ => ?_
            exact fun _ _ _ h => by cases h; exact hmembers
          · exact fun _ _ => herror _

theorem spares_keeps {α : Type} {l : Call} {P : Act → Prop} (hP : ∀ a, P a → may reflects l a ∧ sparesLists a)
    {p : M α} (hp : p.Does P) :
    (discipline O delivered reflects ctx fuel).Keeps l (fun _ _ => True) (fun _ => True) p :=
  (Discipline.Keeps.of_every (.const _ _ True)
    (fun a ha => ⟨(hP a ha).1,spares_neutral hO (hP a ha).2⟩) hp).mono fun _ _ _ => trivial

theorem encrypt_content_keeps (room_id : RoomId) (event_type : String) (content : Value)
    (since : Nat) : (discipline O delivered reflects ctx fuel).Keeps
      (.encrypt room_id event_type content since) (fun _ _ => True)
      (fun s => since ≤ s.processed room_id)
      (encrypt_content fuel ctx room_id event_type content).run := by
  have hm : ∀ a, (∀ c r users settings, a ≠ .olm c (.shareRoomKey r users settings)) →
      may reflects (.encrypt room_id event_type content since) a := by
    intro a ha
    unfold may
    split
    · next c r users settings heq => exact (ha _ _ _ _ rfl).elim
    · trivial
  refine .exceptBind (joined_members_keeps hO hm room_id since) (fun members => ?_)
    fun _ _ _ => trivial
  refine .assuming (P := reflects room_id since members) (fun _ h => h members rfl) fun hmembers => ?_
  refine .strengthen (fun _ _ => trivial) (spares_keeps hO (P := Act.sharing room_id members) ?_ ?_)
  · intro a ha
    unfold Act.sharing at ha
    split at ha
    · obtain ⟨rfl,rfl⟩ := ha
      exact ⟨hmembers,trivial⟩
    · exact ⟨hm a (by assumption),serving_spares ha⟩
  · rw [attempt_does]
    exact withLock_does trivial (claim_share_encrypt_does ctx ..) trivial

theorem scan_state_events_keeps {room_id : RoomId} {all : List Value} {delivery : Nat}
    (events : List Value) : (discipline O delivered reflects ctx fuel).Keeps (.scan room_id all delivery)
      (fun _ s => delivery ≤ delivered s.state.world room_id)
      (fun s => delivery ≤ delivered s.state.world room_id) (scan_state_events ctx room_id events) := by
  have hst : (discipline O delivered reflects ctx fuel).Stable (.scan room_id all delivery)
      fun s => delivery ≤ delivered s.state.world room_id := stable_delivered hO ..
  induction events with
  | nil => exact fun _ h => h
  | cons event events ih =>
      refine .bind ?_ fun _ => ih
      unfold scan_state_event
      split_ifs
      · exact fun _ h => h
      split
      · split
        · exact fun _ h => h
        · refine .neutral trivial hst (spares_neutral hO trivial) fun _ _ _ _ _ _ _ _ => ?_
          exact .neutral trivial hst (spares_neutral hO trivial) fun _ _ _ _ _ _ _ _ _ h => h
      · split
        · exact .perform trivial hst (spares_neutral hO trivial)
        · exact fun _ h => h
      · exact .perform trivial hst (invalidateMembers_neutral hO)
      · exact fun _ h => h

theorem starts : (discipline O delivered reflects ctx fuel).Starts := by
  intro _ s l p s' C hJ hs
  obtain ⟨hp,rfl⟩ := hs
  refine ⟨hJ,?_⟩
  cases hp with
  | joinedMembers room_id since hsince =>
      have hm : ∀ a, may reflects (.joinedMembers room_id since) a := fun _ => trivial
      exact ⟨_,stable_processed _ room_id since,hsince,
        joined_members_keeps hO (fun a _ => hm a) room_id since⟩
  | encrypt room_id event_type content since hsince =>
      exact ⟨_,stable_processed _ room_id since,hsince,
        encrypt_content_keeps hO room_id event_type content since⟩
  | scan room_id events delivery hdelivery =>
      refine ⟨_,stable_delivered hO _ room_id delivery,hdelivery,?_⟩
      exact (scan_state_events_keeps hO events).mono fun _ _ _ => trivial
  | other p hp =>
      have hm : ∀ a, sparesLists a → may reflects .other a ∧ sparesLists a := fun _ h => ⟨trivial,h⟩
      exact ⟨_,.const _ _ True,trivial,spares_keeps hO hm hp⟩

omit hO

/-- The event says that the members of its room have changed. -/
def memberEvent (event : Value) : Prop :=
  ((event.get "state_key").bind Value.asStr).isSome ∧
    (event.get "type").bind Value.asStr = some "m.room.member"

/-- What a scan tells of members having changed. -/
def change (delivery : Nat) : RoomId × Telling → Option (RoomId × Nat)
  | (room_id,.membership) => some (room_id,delivery)
  | _ => none

/-- The deliveries that the membership events of a scan stand for. -/
def changes : Call → List (RoomId × Nat)
  | .scan room_id events delivery =>
      ((events.filterMap telling).map (room_id,·)).filterMap (change delivery)
  | _ => []

def processes (ctx : AccountContext) : Call → Act → Option (RoomId × Nat)
  | .scan _ _ delivery,a => (noted ctx a).bind (change delivery)
  | _,_ => none

omit [Codec] in
theorem processes_note {l : Call} {a : Act} {v : RoomId × Nat} (processed : RoomId → Nat)
    (h : processes ctx l a = some v) : v.2 ≤ note l a processed v.1 := by
  cases l with
  | scan _ _ delivery =>
      obtain ⟨⟨r,t⟩,hnoted,ht⟩ := Option.bind_eq_some_iff.mp h
      unfold noted at hnoted
      split at hnoted
      · split_ifs at hnoted
        cases hnoted
        cases ht
      · split_ifs at hnoted
        cases hnoted
        cases ht
      · split_ifs at hnoted
        cases hnoted
        cases ht
        simp [note]
      · cases hnoted
  | _ => cases h

theorem scans_record : Records (system O delivered ctx fuel) (processes ctx) changes
    fun s => {v | v.2 ≤ s.processed v.1} where
  start := by
    rintro b s l p s' ⟨hp,rfl⟩
    refine ⟨?_,subset_rfl⟩
    cases hp with
    | scan room_id events delivery _ =>
        exact (scan_state_events_notes room_id events).filterMap fun _ => rfl
    | joinedMembers room_id since _ => exact .uncounted _
    | encrypt room_id event_type content since _ => exact .uncounted _
    | other p _ => exact .uncounted _
  act {l a s r s'} hs := by
    have hgrow : ∀ room_id, s.processed room_id ≤ s'.processed room_id := fun room_id => by
      rw [hs.2]
      exact le_note l a _ room_id
    refine ⟨fun v hv => hv.trans (hgrow v.1),fun v hv => ?_⟩
    change v.2 ≤ s'.processed v.1
    rw [hs.2]
    exact processes_note _ hv
  env := by
    rintro b s s' ⟨w,_,rfl⟩
    exact subset_rfl

omit [Codec] in
theorem mem_changes {room_id : RoomId} {events : List Value} {delivery : Nat}
    (h : ∃ e ∈ events, memberEvent e) :
    (room_id,delivery) ∈ changes (.scan room_id events delivery) := by
  obtain ⟨e,hmem,hkey,htype⟩ := h
  simp only [changes,List.mem_filterMap,List.mem_map]
  exact ⟨_,⟨_,⟨e,hmem,telling_membership hkey htype⟩,rfl⟩,rfl⟩

/-- Lists are as recent as what had been processed when they were asked for, and so
are the recipients of room keys. -/
structure UpToDate (reflects : RoomId → Nat → List UserId → Prop)
    (c : Config Call Act Act.Ans Res (Seen ω)) : Prop where
  answer : ∀ room_id since members,
    ⟨.joinedMembers room_id since,.ret (.ok members)⟩ ∈ c.threads → reflects room_id since members
  recipients : ∀ room_id event_type content since account members settings k,
    ⟨.encrypt room_id event_type content since,
      .act (.olm account (.shareRoomKey room_id members settings)) k⟩ ∈ c.threads →
        reflects room_id since members

/-- No list is older than a membership event already processed, in every run that
caches no list that is; at the end of a scan its membership events have been. -/
theorem recipients_up_to_date (hO : Reflects O delivered reflects) {s₀ : State ω}
    {c : Config Call Act Act.Ans Res (Seen ω)}
    (h : Reachable (system O delivered ctx fuel) (fun _ => ∅) (noStaleList reflects ctx)
      ⟨s₀,fun _ => 0⟩ c) :
    UpToDate reflects c ∧ ∀ room_id events delivery,
      ⟨.scan room_id events delivery,.ret ()⟩ ∈ c.threads → (∃ e ∈ events, memberEvent e) →
        delivery ≤ c.state.processed room_id := by
  have hinit : (discipline O delivered reflects ctx fuel).inv ⟨s₀,fun _ => 0⟩ ∅ :=
    ⟨fun room_id cache _ => hO.nothing room_id cache.members,fun _ => Nat.zero_le _⟩
  have hc := Discipline.Holds.reachable (D := discipline O delivered reflects ctx fuel)
    (starts hO) hinit h
  refine ⟨⟨?_,?_⟩,?_⟩
  · intro room_id since members ht
    exact hc.result ht members rfl
  · intro room_id event_type content since account members settings k ht
    exact hc.next ht
  · intro room_id events delivery ht he
    exact h.recorded scans_record ht _ (mem_changes he)

end

local instance : Codec := .plain (fun _ => none) some fun _ _ => 0

def listOf (members : List UserId) : Value :=
  .object [("joined",.object (members.map fun user => (user,.object [])))]

def departure : Value := .object [("type",.string "m.room.member"),("state_key",.string "@bob:x"),
  ("content",.object [("membership",.string "leave")])]

/-- Bob is listed until the homeserver has delivered that he left. -/
def homeserver : Outside Nat
  | .request _ (.joinedMembers _) none,n,r,n' =>
      r = .ok (200,listOf (if n = 0 then ["@alice:x","@bob:x"] else ["@alice:x"])) ∧ n' = n
  | .now,n,r,n' => r = (0 : Nat) ∧ n' = n
  | _,_,_,_ => False

def reflecting (_ : RoomId) (n : Nat) (members : List UserId) : Prop :=
  n = 0 ∨ members = ["@alice:x"]

theorem homeserver_reflects : Reflects homeserver (fun n _ => n) reflecting where
  nothing _ _ := .inl rfl
  mono hmn h := h.imp (fun hn => by omega) id
  grows := by
    intro a n r n' h _
    unfold homeserver at h
    split at h
    · exact h.2.ge
    · exact h.2.ge
    · exact h.elim
  fetched := by
    rintro token room_id n status body n' - ⟨h,_⟩
    cases h
    by_cases hn : n = 0
    · exact .inl hn
    · right
      rw [if_neg hn]
      rfl

def alice : AccountContext := ⟨"@alice:x","DEV","token",⟨0,"key"⟩⟩

/-- What Alice's account knows of rooms, with nothing else of note. -/
def holding (t : RoomTracker) (n : Nat) : State Nat where
  accounts := Function.update (fun _ => .default 0) alice { Account.default 0 with rooms := t }
  sessions := ∅
  refused := []
  locked _ := false
  world := n

theorem holding_rooms (a : RoomsAct) (t : RoomTracker) (n : Nat) :
    sem homeserver (.rooms alice a) (holding t n) (a.run t).1 (holding (a.run t).2 n) := by
  simp [sem,holding,State.account]

theorem homeserver_outside {a : Act} {n n' : Nat} {r : a.Ans} (h : homeserver a n r n') :
    a.outside := by
  unfold homeserver at h
  split at h <;> trivial

section
variable {ok : Seen Nat → Set Empty → Act → Prop} {n n' : Nat} {t : RoomTracker}
  {p : RoomId → Nat} {vs : List (Thread Call Act Act.Ans Res)}

abbrev Reached (ok : Seen Nat → Set Empty → Act → Prop) (t : RoomTracker) (n : Nat)
    (processed : RoomId → Nat) (ts : List (Thread Call Act Act.Ans Res)) : Prop :=
  Reachable (system homeserver (fun n _ => n) alice 0) (fun _ => ∅) ok
    ⟨holding .default 0,fun _ => 0⟩ ⟨⟨holding t n,processed⟩,ts⟩

theorem Reached.rooms (us : List (Thread Call Act Act.Ans Res)) {l : Call} {q : M (Res l)}
    {a : RoomsAct} {k : a.Ans → M (Res l)} (h : Reached ok t n p (us ++ ⟨l,q⟩ :: vs))
    (hq : q = .act (.rooms alice a) k) (hok : ok ⟨holding t n,p⟩
      (owedBy (fun _ => ∅) (us ++ ⟨l,.act (.rooms alice a) k⟩ :: vs)) (.rooms alice a)) :
    Reached ok (a.run t).2 n (note l (.rooms alice a) p) (us ++ ⟨l,k (a.run t).1⟩ :: vs) :=
  h.act us hq hok ⟨holding_rooms a t n,rfl⟩

theorem Reached.outside (us : List (Thread Call Act Act.Ans Res)) {l : Call} {q : M (Res l)}
    {a : Act} {k : a.Ans → M (Res l)} {r : a.Ans} (h : Reached ok t n p (us ++ ⟨l,q⟩ :: vs))
    (hq : q = .act a k) (hok : ∀ s C, ok s C a) (ho : homeserver a n r n') :
    Reached ok t n' (note l a p) (us ++ ⟨l,k r⟩ :: vs) :=
  h.act us hq (hok _ _) ⟨sem_outside (s := holding t n) (homeserver_outside ho) ho,rfl⟩

end

/-- A list that is asked for after the departure. -/
theorem recipients_up_to_date_one : ∃ c : Config Call Act Act.Ans Res (Seen Nat),
    Reachable (system homeserver (fun n _ => n) alice 0) (fun _ => ∅) (noStaleList reflecting alice)
      ⟨holding .default 0,fun _ => 0⟩ c ∧ 1 ≤ c.state.processed "!r" ∧
      ⟨.joinedMembers "!r" 1,.ret (.ok ["@alice:x"])⟩ ∈ c.threads ∧ UpToDate reflecting c := by
  have h₀ : Reached (noStaleList reflecting alice) .default 0 (fun _ => 0) [] := .refl
  have h₁ : Reached (noStaleList reflecting alice) .default 1 (fun _ => 0) [] :=
    Reachable.env h₀ ⟨1,fun _ => by simp [holding],rfl⟩
  have h₂ := Reachable.start h₁ (l := .scan "!r" [departure] 1)
    ⟨.scan "!r" [departure] 1 (by simp [holding]),rfl⟩
  have h₃ := Reached.rooms [] h₂ rfl nofun
  have h₄ := Reachable.start h₃ (l := .joinedMembers "!r" 1)
    ⟨.joinedMembers "!r" 1 (by simp [note]),rfl⟩
  have h₅ := Reached.outside [_] h₄ rfl nofun ⟨rfl,rfl⟩
  have h₆ := Reached.rooms [_] h₅ rfl nofun
  have h₇ := Reached.outside [_] h₆ rfl nofun ⟨rfl,rfl⟩
  have h₈ := Reached.outside [_] h₇ rfl nofun ⟨rfl,rfl⟩
  have h₉ := Reached.rooms [_] h₈ rfl (by
    rintro room_id members now ⟨⟩
    exact .inr rfl)
  obtain ⟨hlists,hscanned⟩ := recipients_up_to_date homeserver_reflects h₉
  refine ⟨_,h₉,hscanned "!r" [departure] 1 List.mem_cons_self ?_,
    List.mem_append_right _ (List.mem_singleton_self _),hlists⟩
  exact ⟨departure,List.mem_cons_self,rfl,rfl⟩

/-- A list fetched while Bob was in the room is cached after the scan of his departure,
and answers the next call. -/
theorem fetched_list_outlives_departure : Reflects homeserver (fun n _ => n) reflecting ∧
    ¬ ∀ c, Reachable (system homeserver (fun n _ => n) alice 0) (fun _ => (∅ : Set Empty)) anyAction
      ⟨holding .default 0,fun _ => 0⟩ c → UpToDate reflecting c := by
  refine ⟨homeserver_reflects,fun hall => ?_⟩
  have h₀ : Reached anyAction .default 0 (fun _ => 0) [] := .refl
  have ok : ∀ a s C, (anyAction : Seen Nat → Set Empty → Act → Prop) s C a := fun _ _ _ => trivial
  have h₁ := Reachable.start h₀ (l := .joinedMembers "!r" 0)
    ⟨.joinedMembers "!r" 0 le_rfl,rfl⟩
  have h₂ := Reached.outside [] h₁ rfl (ok _) ⟨rfl,rfl⟩
  have h₃ := Reached.rooms [] h₂ rfl (ok _ _ _)
  have h₄ := Reached.outside [] h₃ rfl (ok _) ⟨rfl,rfl⟩
  have h₅ : Reached anyAction _ 1 _ _ := Reachable.env h₄ ⟨1,fun _ => by simp [holding],rfl⟩
  have h₆ := Reachable.start h₅ (l := .scan "!r" [departure] 1)
    ⟨.scan "!r" [departure] 1 (by simp [holding]),rfl⟩
  have h₇ := Reached.rooms [_] h₆ rfl (ok _ _ _)
  have h₈ := Reached.outside [] h₇ rfl (ok _) ⟨rfl,rfl⟩
  have h₉ := Reached.rooms [] h₈ rfl (ok _ _ _)
  have h₁₀ := Reachable.start h₉ (l := .joinedMembers "!r" 1)
    ⟨.joinedMembers "!r" 1 (by simp [note]),rfl⟩
  have h₁₁ := Reached.outside [_,_] h₁₀ rfl (ok _) ⟨rfl,rfl⟩
  have h₁₂ := Reached.rooms [_,_] h₁₁ rfl (ok _ _ _)
  have hanswer := (hall _ h₁₂).answer "!r" 1 ["@alice:x","@bob:x"]
    (List.mem_append_right _ (List.mem_singleton_self _))
  simp [reflecting] at hanswer

end EmentE2ee.MemberLists
