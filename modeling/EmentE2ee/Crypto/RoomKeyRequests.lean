import EmentE2ee.Concurrent.Trace
import EmentE2ee.Crypto.Decrypt

/-!
# Room keys asked for once

Calls that decrypt events mark a session as asked for and spawn the task that asks;
a task that fails takes the mark back. Calls and tasks interleave at their awaits.
-/
namespace EmentE2ee.RoomKeys

open Concurrent
open Json (Value)

section
variable [Codec]

/-- A task that asks for a room key: what it was spawned with, what it has been
answered so far, and what it has left to do. -/
structure Asking where
  room_id : RoomId
  raw : Value
  session_id : String
  did : List (Sigma Act.Ans)
  rest : M Unit

/-- Spawning is not awaited: a program stops behind it, with these tasks spawned. -/
def spawnAll {α : Type} : M α → List EmentE2ee.Task × M α
  | .act (.spawn _ task) k => (task :: (spawnAll (k ())).1,(spawnAll (k ())).2)
  | p => ([],p)

/-- The calls and the tasks of one account, over the state of the proxy. -/
structure Net (ω : Type) where
  state : State ω
  calls : List (M Value)
  tasks : List Asking

variable (ctx : AccountContext)

/-- What is asked for and sent, under the pump lock. -/
def asking (room_id : RoomId) (raw : Value) : M (Except Error Unit) :=
  withLock (.pump ctx) (do
    let (cancellation,request) ← call (act (.olm ctx (.requestRoomKey raw room_id)))
    cancellation.elim (pure ()) (send_and_mark ctx)
    send_and_mark ctx request : Fallible Unit).run

theorem request_room_key_eq (room_id : RoomId) (raw : Value) (session_id : String) :
    request_room_key ctx room_id raw session_id = asking ctx room_id raw >>= fun
      | .ok () => .ret ()
      | .error _ => act (.rooms ctx (.removeRequested session_id)) := rfl

namespace Asking
variable (t : Asking)

def Running : Prop := ∃ a k, t.rest = .act a k

/-- The request went out and was marked as sent. -/
def Succeeded : Prop := (asking ctx t.room_id t.raw).Did t.did (.ret (.ok ())) ∧ t.rest = .ret ()

/-- Asking failed, and the mark was taken back. -/
def Failed : Prop := ∃ es e r, (asking ctx t.room_id t.raw).Did es (.ret (.error e)) ∧
  t.did = es ++ [⟨.rooms ctx (.removeRequested t.session_id),r⟩] ∧ t.rest = .ret ()

end Asking

/-- The tasks among those spawned that ask for a room key, as they start. -/
def starting : EmentE2ee.Task → Option Asking
  | .requestRoomKey room_id raw session_id =>
      some ⟨room_id,raw,session_id,[],request_room_key ctx room_id raw session_id⟩
  | _ => none

/-- Neither marks a session nor takes a mark back nor spawns. -/
def Aside : Act → Prop
  | .rooms c (.insertRequested _) | .rooms c (.removeRequested _) => c ≠ ctx
  | .spawn .. => False
  | _ => True

variable {ω : Type} (O : Outside ω)

/-- One step: a call arrives, or is dropped, a call or a task is answered and runs on to
its next await, or anything else in the proxy acts. -/
inductive Step : Net ω → Net ω → Prop
  | arrive (s : State ω) (cs : List (M Value)) (ts : List Asking) (room_id : RoomId)
      (placeholder : Placeholder) (event : Value) :
      Step ⟨s,cs,ts⟩ ⟨s,cs ++ [decrypt_event ctx room_id placeholder event],ts⟩
  | drop (s : State ω) (us vs : List (M Value)) (p : M Value) (ts : List Asking) :
      Step ⟨s,us ++ p :: vs,ts⟩ ⟨s,us ++ vs,ts⟩
  | call {s s' : State ω} (us vs : List (M Value)) {a : Act} {k : a.Ans → M Value} {r : a.Ans}
      (ts : List Asking) : sem O a s r s' →
      Step ⟨s,us ++ .act a k :: vs,ts⟩ ⟨s',us ++ (spawnAll (k r)).2 :: vs,
        ts ++ (spawnAll (k r)).1.filterMap (starting ctx)⟩
  | task {s s' : State ω} (cs : List (M Value)) (us vs : List Asking) {t : Asking} {a : Act}
      {k : a.Ans → M Unit} {r : a.Ans} : t.rest = .act a k → sem O a s r s' →
      Step ⟨s,cs,us ++ t :: vs⟩
        ⟨s',cs,us ++ { t with did := t.did ++ [⟨a,r⟩], rest := k r } :: vs⟩
  | other {s s' : State ω} (cs : List (M Value)) (ts : List Asking) {a : Act} {r : a.Ans} :
      Aside ctx a → sem O a s r s' → Step ⟨s,cs,ts⟩ ⟨s',cs,ts⟩

/-- Reached from a state with no session marked, no call and no task. -/
def Reachable (c : Net ω) : Prop :=
  ∃ s, (s.accounts ctx).rooms.requested_sessions = ∅ ∧
    Relation.ReflTransGen (Step ctx O) ⟨s,[],[]⟩ c

/-- For each session, every task but the last has failed before the next was started,
and it is marked exactly if a task for it is running or has succeeded. -/
structure AskedOnce (c : Net ω) : Prop where
  single : c.tasks.Pairwise fun t u => t.session_id = u.session_id → t.Failed ctx
  marked : ∀ id, id ∈ (c.state.accounts ctx).rooms.requested_sessions ↔
    ∃ t ∈ c.tasks, t.session_id = id ∧ (t.Running ∨ t.Succeeded ctx)

/-- A call that spawns the task for each session that it marks, and nothing else. -/
inductive Marks {α : Type} : M α → Prop
  | ret (x : α) : Marks (.ret x)
  | mark {id : String} {room_id : RoomId} {raw : Value} {k : Bool → M α} {j : Unit → M α} :
      k true = .act (.spawn ctx (.requestRoomKey room_id raw id)) j → Marks (j ()) →
      Marks (k false) → Marks (.act (.rooms ctx (.insertRequested id)) k)
  | aside {a : Act} {k : a.Ans → M α} : Aside ctx a → (∀ r, Marks (k r)) → Marks (.act a k)

variable {ctx} {O} {α β : Type}

theorem Marks.bind {p : M α} {g : α → M β} (hp : Marks ctx p) (hg : ∀ x, Marks ctx (g x)) :
    Marks ctx (p >>= g) := by
  induction hp with
  | ret x => exact hg x
  | @mark id room_id raw k j hk _ _ ih ih' =>
      have hspawn : (k true >>= g) =
          .act (.spawn ctx (.requestRoomKey room_id raw id)) fun u => j u >>= g := by
        rw [hk]
        rfl
      exact .mark hspawn ih ih'
  | aside ha _ ih => exact .aside ha ih

theorem Marks.of_does {p : M α} (hp : p.Does (Aside ctx)) : Marks ctx p := by
  induction p with
  | ret x => exact .ret x
  | act a k ih => exact .aside hp.1 fun r => ih r (hp.2 r)

omit [Codec] in
theorem decrypting_aside {a : Act} (h : a.decrypting) : Aside ctx a := by
  unfold Act.decrypting at h
  split at h
  · trivial
  · trivial
  · trivial
  · exact h.elim

theorem maybe_request_room_key_marks (room_id : RoomId) (raw : Value)
    (session_id : Option String) : Marks ctx (maybe_request_room_key ctx room_id raw session_id) := by
  cases session_id with
  | none => exact .ret ()
  | some id => exact .mark (j := .ret) rfl (.ret ()) (.ret ())

theorem decrypt_event_marks (room_id : RoomId) (placeholder : Placeholder) (event : Value) :
    Marks ctx (decrypt_event ctx room_id placeholder event) := by
  have hdecrypt : Marks ctx (decrypt ctx room_id event) :=
    .of_does ((decrypt_does ctx room_id event).mono fun _ h => decrypting_aside h)
  refine hdecrypt.bind fun outcome => ?_
  cases outcome with
  | decrypted new_event => exact .ret new_event
  | untouched => exact .ret event
  | undecryptable reason session_id raw =>
      refine (maybe_request_room_key_marks room_id raw session_id).bind fun _ => ?_
      cases placeholder with
      | repairable => exact .aside trivial fun _ => .ret _
      | final => exact .ret _

/-- A call is never left in front of a spawn. -/
theorem Marks.spawnAll {p : M α} (hp : Marks ctx p) : spawnAll p = ([],p) := by
  cases hp with
  | ret x => rfl
  | mark _ _ _ => rfl
  | @aside a k ha _ =>
      cases a with
      | spawn c task => exact ha.elim
      | _ => rfl

/-- A call that has marked a session stops with the task for it spawned. -/
theorem Marks.marked {id : String} {k : Bool → M α}
    (hp : Marks ctx (.act (.rooms ctx (.insertRequested id)) k)) : Marks ctx (k false) ∧
      ∃ room_id raw q, RoomKeys.spawnAll (k true) = ([.requestRoomKey room_id raw id],q) ∧
        Marks ctx q := by
  cases hp with
  | @mark _ room_id raw _ j hk hj hfalse =>
      refine ⟨hfalse,room_id,raw,j (),?_,hj⟩
      rw [hk,RoomKeys.spawnAll,hj.spawnAll]
  | aside ha _ => exact (ha rfl).elim

theorem requested_of_aside {a : Act} (ha : Aside ctx a) {s s' : State ω} {r : a.Ans}
    (hs : sem O a s r s') : (s'.accounts ctx).rooms.requested_sessions =
      (s.accounts ctx).rooms.requested_sessions := by
  obtain hsame | ⟨x,rfl,hrooms⟩ := rooms_of_sem hs ctx
  · rw [hsame]
  · rw [hrooms]
    cases x with
    | insertRequested id => exact (ha rfl).elim
    | removeRequested id => exact (ha rfl).elim
    | _ => rfl

/-- What an answer to a call does: it marks a new session and has one task spawned for
it, or leaves both as they are. -/
theorem Marks.step {a : Act} {k : a.Ans → M α} (hp : Marks ctx (.act a k)) {s s' : State ω}
    {r : a.Ans} (hs : sem O a s r s') : Marks ctx (RoomKeys.spawnAll (k r)).2 ∧
      ((∃ id room_id raw, id ∉ (s.accounts ctx).rooms.requested_sessions ∧
        (s'.accounts ctx).rooms.requested_sessions =
          insert id (s.accounts ctx).rooms.requested_sessions ∧
        (RoomKeys.spawnAll (k r)).1 = [.requestRoomKey room_id raw id]) ∨
      (s'.accounts ctx).rooms.requested_sessions = (s.accounts ctx).rooms.requested_sessions ∧
        (RoomKeys.spawnAll (k r)).1 = []) := by
  have hmarks := hp
  cases hp with
  | @mark id _ _ k _ _ _ hfalse =>
      obtain ⟨_,room_id,raw,q,hspawn,hq⟩ := hmarks.marked
      obtain ⟨hr,rfl⟩ := hs
      have hrequested : ((s.account ctx { s.accounts ctx with
          rooms := ((RoomsAct.insertRequested id).run (s.accounts ctx).rooms).2 }).accounts
          ctx).rooms.requested_sessions =
            insert id (s.accounts ctx).rooms.requested_sessions := by
        rw [State.account_self]
        rfl
      by_cases hmem : id ∈ (s.accounts ctx).rooms.requested_sessions
      · have hr' : r = false := hr.trans (decide_eq_false fun h => h hmem)
        subst hr'
        rw [hfalse.spawnAll]
        exact ⟨hfalse,.inr ⟨hrequested.trans (Finset.insert_eq_of_mem hmem),rfl⟩⟩
      · have hr' : r = true := hr.trans (decide_eq_true hmem)
        subst hr'
        rw [hspawn]
        exact ⟨hq,.inl ⟨id,room_id,raw,hmem,hrequested,rfl⟩⟩
  | aside ha hk =>
      rw [(hk r).spawnAll]
      exact ⟨hk r,.inr ⟨requested_of_aside ha hs,rfl⟩⟩

omit [Codec] in
theorem serving_aside {a : Act} (h : a.serving) : Aside ctx a := by
  unfold Aside
  split
  · exact h.elim
  · exact h.elim
  · exact h.elim
  · trivial

theorem asking_does (room_id : RoomId) (raw : Value) :
    (asking ctx room_id raw).Does (Aside ctx) := by
  have hsend : ∀ request, (send_and_mark ctx request).run.Does (Aside ctx) := fun request =>
    (send_and_mark_does ctx request).mono fun _ h => serving_aside h.1
  refine withLock_does trivial ?_ trivial
  refine .exceptBind (by simp [Aside]) fun requests => ?_
  refine .exceptBind ?_ fun _ => hsend _
  cases requests.1 with
  | none => simp
  | some cancellation => exact hsend cancellation

namespace Asking

/-- The task is on its way. -/
def Kept (ctx : AccountContext) (t : Asking) : Prop :=
  (request_room_key ctx t.room_id t.raw t.session_id).Did t.did t.rest

/-- A task is running, or has ended in one of two ways. -/
theorem Kept.phase {t : Asking} (h : t.Kept ctx) : t.Running ∨ t.Succeeded ctx ∨ t.Failed ctx := by
  unfold Kept at h
  cases hrest : t.rest with
  | act a k => exact .inl ⟨a,k,hrest⟩
  | ret x =>
      rw [hrest,request_room_key_eq] at h
      obtain ⟨es,es',r,hdid,hasking,hend⟩ := Prog.did_bind h
      cases r with
      | ok u =>
          cases hend
          rw [List.append_nil] at hdid
          exact .inr (.inl ⟨hdid ▸ hasking,hrest⟩)
      | error e =>
          cases hend with
          | cons hend =>
              cases hend
              exact .inr (.inr ⟨es,e,_,hasking,hdid,hrest⟩)

theorem Failed.not_running {t : Asking} (h : t.Failed ctx) : ¬ t.Running := by
  rintro ⟨a,k,hrest⟩
  obtain ⟨_,_,_,_,_,hret⟩ := h
  rw [hret] at hrest
  cases hrest

theorem Failed.not_succeeded {t : Asking} (h : t.Failed ctx) : ¬ t.Succeeded ctx := by
  rintro ⟨hasking,_⟩
  obtain ⟨es,e,r,_,hdid,_⟩ := h
  rw [hdid] at hasking
  have hmem := (asking_does t.room_id t.raw).did_mem hasking _
    (List.mem_append_right es List.mem_cons_self)
  exact hmem rfl

theorem Kept.live_iff {t : Asking} (h : t.Kept ctx) :
    t.Running ∨ t.Succeeded ctx ↔ ¬ t.Failed ctx := by
  constructor
  · rintro (hr | hs) hf
    · exact hf.not_running hr
    · exact hf.not_succeeded hs
  · intro hf
    obtain hr | hs | hf' := h.phase
    · exact .inl hr
    · exact .inr hs
    · exact (hf hf').elim

/-- The task once it has been answered. -/
def answered (t : Asking) (a : Act) (r : a.Ans) (rest : M Unit) : Asking :=
  { t with did := t.did ++ [⟨a,r⟩], rest := rest }

/-- What an answer to a task does: it goes on with its session marked, or it has failed
and takes the mark back. -/
theorem Kept.step {t : Asking} (h : t.Kept ctx) {a : Act} {k : a.Ans → M Unit}
    (hrest : t.rest = .act a k) {s s' : State ω} {r : a.Ans} (hs : sem O a s r s') :
    (t.answered a r (k r)).Kept ctx ∧
      ((¬ (t.answered a r (k r)).Failed ctx ∧ (s'.accounts ctx).rooms.requested_sessions =
          (s.accounts ctx).rooms.requested_sessions) ∨
        ((t.answered a r (k r)).Failed ctx ∧ (s'.accounts ctx).rooms.requested_sessions =
          (s.accounts ctx).rooms.requested_sessions.erase t.session_id)) := by
  unfold Kept at h
  rw [hrest] at h
  refine ⟨h.snoc r,?_⟩
  rw [request_room_key_eq] at h
  obtain ⟨k',hact⟩ | ⟨es,es',x,hdid,hasking,hend⟩ := Prog.did_bind_act h
  · have haside := (asking_does t.room_id t.raw).did hact
    refine .inl ⟨?_,requested_of_aside haside hs⟩
    rintro ⟨es,e,r',_,hdid,_⟩
    obtain ⟨_,hlast⟩ := List.append_inj' hdid rfl
    have ha : a = .rooms ctx (.removeRequested t.session_id) :=
      congrArg Sigma.fst (List.cons.inj hlast).1
    rw [ha] at haside
    exact haside rfl
  · cases x with
    | ok u => cases hend
    | error e =>
        cases hend with
        | cons hend => cases hend
        | nil =>
            rw [List.append_nil] at hdid
            obtain ⟨_,rfl⟩ := hs
            refine .inr ⟨⟨es,e,r,hasking,by rw [← hdid]; rfl,rfl⟩,?_⟩
            rw [State.account_self]
            rfl

end Asking

/-- What holds between any two steps. -/
structure Sane (ctx : AccountContext) (c : Net ω) : Prop where
  calls : ∀ p ∈ c.calls, Marks ctx p
  tasks : ∀ t ∈ c.tasks, t.Kept ctx
  once : AskedOnce ctx c

theorem pairwise_mid {R : Asking → Asking → Prop} {us vs : List Asking} {t : Asking}
    (h : (us ++ t :: vs).Pairwise R) : (∀ u ∈ us, R u t) ∧ (∀ v ∈ vs, R t v) := by
  obtain ⟨_,htail,hcross⟩ := List.pairwise_append.mp h
  exact ⟨fun u hu => hcross u hu t List.mem_cons_self,(List.pairwise_cons.mp htail).1⟩

theorem pairwise_replace {R : Asking → Asking → Prop} {us vs : List Asking} {t t' : Asking}
    (h : (us ++ t :: vs).Pairwise R) (hbefore : ∀ u ∈ us, R u t → R u t')
    (hafter : ∀ v ∈ vs, R t v → R t' v) : (us ++ t' :: vs).Pairwise R := by
  obtain ⟨hus,htail,hcross⟩ := List.pairwise_append.mp h
  obtain ⟨htvs,hvs⟩ := List.pairwise_cons.mp htail
  refine List.pairwise_append.mpr ⟨hus,List.pairwise_cons.mpr ⟨fun v hv => hafter v hv (htvs v hv),
    hvs⟩,?_⟩
  intro u hu v hv
  rcases List.mem_cons.mp hv with rfl | hv
  · exact hbefore u hu (hcross u hu t List.mem_cons_self)
  · exact hcross u hu v (List.mem_cons_of_mem t hv)

omit [Codec] in
theorem mem_mid {α : Type} {us vs : List α} {t x : α} :
    x ∈ us ++ t :: vs ↔ x = t ∨ x ∈ us ++ vs := by
  simp only [List.mem_append,List.mem_cons]
  tauto

/-- The marks in terms of the tasks that have failed. -/
theorem Sane.marked_iff {c : Net ω} (h : Sane ctx c) (id : String) :
    id ∈ (c.state.accounts ctx).rooms.requested_sessions ↔
      ∃ t ∈ c.tasks, t.session_id = id ∧ ¬ t.Failed ctx := by
  rw [h.once.marked id]
  constructor
  · rintro ⟨t,ht,hid,hlive⟩
    exact ⟨t,ht,hid,(h.tasks t ht).live_iff.mp hlive⟩
  · rintro ⟨t,ht,hid,hf⟩
    exact ⟨t,ht,hid,(h.tasks t ht).live_iff.mpr hf⟩

/-- A state from its marks in these terms. -/
theorem Sane.of_failed {c : Net ω} (hcalls : ∀ p ∈ c.calls, Marks ctx p)
    (htasks : ∀ t ∈ c.tasks, t.Kept ctx)
    (hsingle : c.tasks.Pairwise fun t u => t.session_id = u.session_id → t.Failed ctx)
    (hmarked : ∀ id, id ∈ (c.state.accounts ctx).rooms.requested_sessions ↔
      ∃ t ∈ c.tasks, t.session_id = id ∧ ¬ t.Failed ctx) : Sane ctx c := by
  refine ⟨hcalls,htasks,hsingle,fun id => ?_⟩
  rw [hmarked id]
  constructor
  · rintro ⟨t,ht,hid,hf⟩
    exact ⟨t,ht,hid,(htasks t ht).live_iff.mpr hf⟩
  · rintro ⟨t,ht,hid,hlive⟩
    exact ⟨t,ht,hid,(htasks t ht).live_iff.mp hlive⟩

/-- A new task, for a session that was not marked. -/
theorem Sane.start {s s' : State ω} {cs cs' : List (M Value)} {ts : List Asking}
    (h : Sane ctx ⟨s,cs,ts⟩) (hcalls : ∀ p ∈ cs', Marks ctx p) {id : String} {room_id : RoomId}
    {raw : Value} (hnew : id ∉ (s.accounts ctx).rooms.requested_sessions)
    (hrequested : (s'.accounts ctx).rooms.requested_sessions =
      insert id (s.accounts ctx).rooms.requested_sessions) :
    Sane ctx ⟨s',cs',ts ++ [⟨room_id,raw,id,[],request_room_key ctx room_id raw id⟩]⟩ := by
  have hfailed : ∀ t ∈ ts, t.session_id = id → t.Failed ctx := by
    intro t ht hid
    by_contra hf
    exact hnew ((h.marked_iff id).mpr ⟨t,ht,hid,hf⟩)
  have hlive : ¬ Asking.Failed ctx ⟨room_id,raw,id,[],request_room_key ctx room_id raw id⟩ := by
    rintro ⟨es,e,r,_,hdid,_⟩
    simp at hdid
  refine .of_failed hcalls ?_ ?_ ?_
  · intro t ht
    rcases List.mem_append.mp ht with ht | ht
    · exact h.tasks t ht
    · rw [List.mem_singleton.mp ht]
      exact .nil _
  · refine List.pairwise_append.mpr ⟨h.once.single,List.pairwise_singleton _ _,?_⟩
    intro t ht u hu hid
    rw [List.mem_singleton.mp hu] at hid
    exact hfailed t ht hid
  · intro id'
    rw [hrequested,Finset.mem_insert,h.marked_iff id']
    constructor
    · rintro (rfl | ⟨t,ht,hid,hf⟩)
      · exact ⟨_,List.mem_append_right ts List.mem_cons_self,rfl,hlive⟩
      · exact ⟨t,List.mem_append_left _ ht,hid,hf⟩
    · rintro ⟨t,ht,hid,hf⟩
      rcases List.mem_append.mp ht with ht | ht
      · exact .inr ⟨t,ht,hid,hf⟩
      · rw [List.mem_singleton.mp ht] at hid
        exact .inl hid.symm

/-- A task is answered: it lives on, or its session loses the mark. -/
theorem Sane.answer {s s' : State ω} {cs : List (M Value)} {us vs : List Asking} {t : Asking}
    (h : Sane ctx ⟨s,cs,us ++ t :: vs⟩) {a : Act} {k : a.Ans → M Unit} {r : a.Ans}
    (hrest : t.rest = .act a k) (hs : sem O a s r s') :
    Sane ctx ⟨s',cs,us ++ t.answered a r (k r) :: vs⟩ := by
  have hlive : ¬ t.Failed ctx := fun hf => hf.not_running ⟨a,k,hrest⟩
  obtain ⟨hkept,hdone⟩ := (h.tasks t (mem_mid.mpr (.inl rfl))).step hrest hs
  obtain ⟨hbefore,hafter⟩ := pairwise_mid h.once.single
  refine .of_failed h.calls ?_ ?_ ?_
  · intro u hu
    rcases mem_mid.mp hu with rfl | hu
    · exact hkept
    · exact h.tasks u (mem_mid.mpr (.inr hu))
  · refine pairwise_replace h.once.single (fun u _ hr => hr) fun v hv hr hid => ?_
    exact (hlive (hr hid)).elim
  · intro id
    have hold := h.marked_iff id
    rcases hdone with ⟨hlive',hrequested⟩ | ⟨hfailed,hrequested⟩
    · rw [hrequested,hold]
      constructor
      · rintro ⟨u,hu,hid,hf⟩
        rcases mem_mid.mp hu with rfl | hu
        · exact ⟨_,mem_mid.mpr (.inl rfl),hid,hlive'⟩
        · exact ⟨u,mem_mid.mpr (.inr hu),hid,hf⟩
      · rintro ⟨u,hu,hid,hf⟩
        rcases mem_mid.mp hu with rfl | hu
        · exact ⟨t,mem_mid.mpr (.inl rfl),hid,hlive⟩
        · exact ⟨u,mem_mid.mpr (.inr hu),hid,hf⟩
    · rw [hrequested,Finset.mem_erase,hold]
      constructor
      · rintro ⟨hne,u,hu,hid,hf⟩
        rcases mem_mid.mp hu with rfl | hu
        · exact (hne hid.symm).elim
        · exact ⟨u,mem_mid.mpr (.inr hu),hid,hf⟩
      · rintro ⟨u,hu,hid,hf⟩
        rcases mem_mid.mp hu with rfl | hu'
        · exact (hf hfailed).elim
        · refine ⟨?_,u,mem_mid.mpr (.inr hu'),hid,hf⟩
          rintro rfl
          rcases List.mem_append.mp hu' with hu' | hu'
          · exact hf (hbefore u hu' hid)
          · exact hlive (hafter u hu' hid.symm)

theorem Sane.step {c c' : Net ω} (h : Sane ctx c) (hs : Step ctx O c c') : Sane ctx c' := by
  cases hs with
  | arrive s cs ts room_id placeholder event =>
      refine .of_failed ?_ h.tasks h.once.single h.marked_iff
      intro p hp
      rcases List.mem_append.mp hp with hp | hp
      · exact h.calls p hp
      · rw [List.mem_singleton.mp hp]
        exact decrypt_event_marks room_id placeholder event
  | drop s us vs p ts =>
      refine .of_failed ?_ h.tasks h.once.single h.marked_iff
      intro q hq
      exact h.calls q (mem_mid.mpr (.inr hq))
  | @call s s' us vs a k r ts hsem =>
      obtain ⟨hrest,hdone⟩ := (h.calls _ (mem_mid.mpr (.inl rfl))).step hsem
      have hcalls : ∀ p ∈ us ++ (spawnAll (k r)).2 :: vs, Marks ctx p := by
        intro p hp
        rcases mem_mid.mp hp with rfl | hp
        · exact hrest
        · exact h.calls p (mem_mid.mpr (.inr hp))
      rcases hdone with ⟨id,room_id,raw,hnew,hrequested,hspawned⟩ | ⟨hrequested,hspawned⟩
      · rw [hspawned]
        exact h.start hcalls hnew hrequested
      · rw [hspawned,List.filterMap_nil,List.append_nil]
        refine .of_failed hcalls h.tasks h.once.single ?_
        intro id
        rw [hrequested]
        exact h.marked_iff id
  | @task s s' cs us vs t a k r hrest hsem => exact h.answer hrest hsem
  | @other s s' cs ts a r ha hsem =>
      refine .of_failed h.calls h.tasks h.once.single ?_
      intro id
      rw [requested_of_aside ha hsem]
      exact h.marked_iff id

theorem Reachable.sane {c : Net ω} (h : Reachable ctx O c) : Sane ctx c := by
  obtain ⟨s,hs,hsteps⟩ := h
  induction hsteps with
  | refl =>
      refine .of_failed (by simp) (by simp) .nil ?_
      intro id
      simp [hs]
  | tail _ hstep ih => exact ih.step hstep

/-- In every state of every interleaving sessions are asked for once; where no task for a
session runs or has succeeded, a call that marks it starts one; and every event that
cannot be decrypted has its call mark its session. -/
theorem asked_once (ctx : AccountContext) (O : Outside ω) :
    (∀ c, Reachable ctx O c → AskedOnce ctx c) ∧
    (∀ s s' us vs (k : Bool → M Value) r ts id,
      Reachable ctx O ⟨s,us ++ .act (.rooms ctx (.insertRequested id)) k :: vs,ts⟩ →
      (∀ t ∈ ts, t.session_id = id → ¬ t.Running ∧ ¬ t.Succeeded ctx) →
      sem O (.rooms ctx (.insertRequested id)) s r s' →
      ∃ t, (spawnAll (k r)).1.filterMap (starting ctx) = [t] ∧ t.session_id = id ∧ t.Running) ∧
    ∀ room_id placeholder event es reason id raw,
      (decrypt ctx room_id event).Did es (.ret (.undecryptable reason (some id) raw)) →
      ∃ k, (decrypt_event ctx room_id placeholder event).Did es
        (.act (.rooms ctx (.insertRequested id)) k) := by
  refine ⟨fun c h => h.sane.once,?_,?_⟩
  · intro s s' us vs k r ts id h hnone hs
    have hnew : id ∉ (s.accounts ctx).rooms.requested_sessions := by
      rw [h.sane.once.marked id]
      rintro ⟨t,ht,hid,hr | hs⟩
      · exact (hnone t ht hid).1 hr
      · exact (hnone t ht hid).2 hs
    have hr : r = true := hs.1.trans (decide_eq_true hnew)
    subst hr
    obtain ⟨_,room_id,raw,q,hspawn,_⟩ := (h.sane.calls _ (mem_mid.mpr (.inl rfl))).marked
    rw [hspawn]
    exact ⟨_,rfl,rfl,_,_,rfl⟩
  · intro room_id placeholder event es reason id raw hdid
    unfold decrypt_event
    exact ⟨_,hdid.next rfl⟩

end

local instance : Codec := .plain (fun _ => none) some fun _ _ => 0

def alice : AccountContext := ⟨"@alice:x","DEV","token",⟨0,"key"⟩⟩

/-- A machine that lacks the key of a session, and cannot ask for it. -/
def keyless : Outside Unit
  | .olm _ (.tryDecryptRoomEvent ..),_,r,_ => r = .ok (.unableToDecrypt "no key" (some "S"))
  | .olm _ (.requestRoomKey ..),_,r,_ => r = .error "no store"
  | _,_,_,_ => False

def encrypted : Value := .object [("event_id",.string "$e"),("type",.string "m.room.encrypted")]

/-- Alice's account, with these sessions marked. -/
def marking (sessions : Finset String) : State Unit where
  accounts := Function.update (fun _ => .default 0) alice
    { Account.default 0 with rooms := { RoomTracker.default with requested_sessions := sessions } }
  sessions := ∅
  refused := []
  locked _ := false
  world := ()

def task : Asking := ⟨"!r",encrypted,"S",[],request_room_key alice "!r" encrypted "S"⟩

/-- The call up to the start of the task. -/
theorem decrypt_encrypted : ∃ (k : Except String RoomEventDecryptionResult → M Value) (k' : Bool → M Value)
    (j : Unit → M Value), decrypt_event alice "!r" .repairable encrypted =
        .act (.olm alice (.tryDecryptRoomEvent encrypted "!r")) k ∧
      k (.ok (.unableToDecrypt "no key" (some "S"))) = .act (.rooms alice (.insertRequested "S")) k' ∧
      k' true = .act (.spawn alice (.requestRoomKey "!r" encrypted "S")) j ∧ (spawnAll (j ())).1 = [] :=
  ⟨_,_,_,rfl,rfl,rfl,rfl⟩

/-- A call that finds the session of its event unmarked starts a task. -/
theorem call_steps (cs : List (M Value)) (ts : List Asking) : ∃ cs',
    Relation.ReflTransGen (Step alice keyless) ⟨marking ∅,cs,ts⟩ ⟨marking {"S"},cs',ts ++ [task]⟩ := by
  obtain ⟨k,k',j,hcall,hread,hspawn,hrest⟩ := decrypt_encrypted
  have hfails : sem keyless (.olm alice (.tryDecryptRoomEvent encrypted "!r")) (marking ∅)
      (.ok (.unableToDecrypt "no key" (some "S"))) (marking ∅) := ⟨rfl,rfl⟩
  have hmark : sem keyless (.rooms alice (.insertRequested "S")) (marking ∅) true (marking {"S"}) := by
    simp [sem,marking,State.account,RoomsAct.run,RoomTracker.insert_requested]
  have harrive : Step alice keyless ⟨marking ∅,cs,ts⟩
      ⟨marking ∅,cs ++ [decrypt_event alice "!r" .repairable encrypted],ts⟩ := .arrive ..
  rw [hcall] at harrive
  have hreads : Step alice keyless _ _ := .call cs [] (k := k) ts hfails
  have hnone : spawnAll (.act (.rooms alice (.insertRequested "S")) k') =
      ([],.act (.rooms alice (.insertRequested "S")) k') := rfl
  rw [hread,hnone,List.filterMap_nil,List.append_nil] at hreads
  have hmarks : Step alice keyless _ _ := .call cs [] (k := k') ts hmark
  have htask : (spawnAll (k' true)).1.filterMap (starting alice) = [task] := by
    rw [hspawn,spawnAll,hrest]
    rfl
  rw [htask] at hmarks
  exact ⟨_,((Relation.ReflTransGen.single harrive).tail hreads).tail hmarks⟩

/-- A task that cannot ask takes the mark back. -/
theorem task_steps (cs : List (M Value)) : ∃ t : Asking, t.session_id = "S" ∧
    Relation.ReflTransGen (Step alice keyless) ⟨marking {"S"},cs,[task]⟩ ⟨marking ∅,cs,[t]⟩ := by
  have hlock : sem keyless (.lock (.pump alice)) (marking {"S"}) ()
      { marking {"S"} with locked := Function.update (fun _ => false) (.pump alice) true } := ⟨rfl,rfl⟩
  have hask : ∀ s, sem keyless (.olm alice (.requestRoomKey encrypted "!r")) s (.error "no store") s :=
    fun s => ⟨rfl,rfl⟩
  have hunlock : sem keyless (.unlock (.pump alice))
      { marking {"S"} with locked := Function.update (fun _ => false) (.pump alice) true } ()
      (marking {"S"}) := by
    simp [sem,marking]
  have hunmark : sem keyless (.rooms alice (.removeRequested "S")) (marking {"S"}) () (marking ∅) := by
    simp [sem,marking,State.account,RoomsAct.run,RoomTracker.remove_requested]
  have hlocked : Step alice keyless ⟨marking {"S"},cs,[] ++ [task]⟩ _ := .task cs [] [] rfl hlock
  have hasked := (Relation.ReflTransGen.single hlocked).tail (.task cs [] [] rfl (hask _))
  have hunlocked := hasked.tail (.task cs [] [] rfl hunlock)
  exact ⟨_,rfl,hunlocked.tail (.task cs [] [] rfl hunmark)⟩

/-- A session that is asked for again, as the first task could not ask. -/
theorem asked_once_twice : ∃ c t u, Reachable alice keyless c ∧ c.tasks = [t,u] ∧
    t.session_id = u.session_id ∧ t.Failed alice ∧ u.Running ∧ AskedOnce alice c := by
  obtain ⟨cs,hfirst⟩ := call_steps [] []
  obtain ⟨t,hid,hfailed⟩ := task_steps cs
  obtain ⟨cs',hsecond⟩ := call_steps cs [t]
  have h : Reachable alice keyless ⟨marking {"S"},cs',[t,task]⟩ :=
    ⟨marking ∅,by simp [marking],(hfirst.trans hfailed).trans hsecond⟩
  have honce := (asked_once alice keyless).1 _ h
  have hpair := (List.pairwise_cons.mp honce.single).1 task List.mem_cons_self
  exact ⟨_,t,task,h,rfl,hid,hpair hid,⟨_,_,rfl⟩,honce⟩

end EmentE2ee.RoomKeys
