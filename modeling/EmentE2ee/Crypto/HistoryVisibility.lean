import EmentE2ee.Crypto.Encrypt
import EmentE2ee.Crypto.Scans

/-!
# History visibility, under interleaving

A room's history visibility is set by syncs, by responses about the past, and by
fetches. It is the current one as long as the past tells nothing else, no fetch
fails, and what a fetch was answered is not written over what a sync has told since.
-/
namespace EmentE2ee.HistoryVisibility

open Concurrent
open Json (Value)

inductive Call where
  /-- A sync, with the place of its answer in the client's stream. -/
  | sync (position : Nat) (body : Value)
  | messages (room_id : RoomId) (body : Value)
  | context (room_id : RoomId) (body : Value)
  | settings (room_id : RoomId)
  /-- Any other part of the proxy at work for the account. -/
  | other

abbrev Res : Call → Type
  | .sync .. => Option Value
  | .messages .. | .context .. => Value
  | .settings _ => Except Error EncryptionSettings
  | .other => Unit

/-- The visibilities among what is told of rooms. -/
def visibilities (told : List (RoomId × Telling)) : List (RoomId × String) :=
  told.filterMap fun e =>
    match e.2 with
    | .visibility visibility => some (e.1,visibility)
    | _ => none

/-- What an action sets the visibility of which room to. -/
def assigned (ctx : AccountContext) : Act → Option (RoomId × String)
  | .rooms c (.setHistoryVisibility room_id visibility) =>
      if c = ctx then some (room_id,visibility) else none
  | _ => none

section
variable [Codec] {ω : Type}

/-- The visibilities that the body given to a call tells of rooms, in their order. -/
def Call.tells : Call → List (RoomId × String)
  | sync _ body => visibilities (syncTells body)
  | messages room_id body | context room_id body =>
      visibilities (sectionTells room_id (body.get "state"))
  | settings _ | other => []

/-- An action of a call and its answer, and what of the call's body it is for. -/
structure Moment where
  call : Call
  action : Option (Sigma Act.Ans)
  tells : Option (RoomId × String)

/-- A fetch, and what its answer tells if it did not fail. -/
def fetched : Sigma Act.Ans → Option (RoomId × Option String)
  | ⟨.request _ (.stateHistoryVisibility room_id) _,.ok (status,body)⟩ =>
      some (room_id,if isSuccess status then
        some (((body.get "history_visibility").bind Value.asStr).getD "shared") else none)
  | ⟨.request _ (.stateHistoryVisibility room_id) _,.error _⟩ => some (room_id,none)
  | _ => none

/-- The visibility of the room that the event provides the settings with. -/
def decided (ctx : AccountContext) (room_id : RoomId) : Sigma Act.Ans → Option String
  | ⟨.rooms c (.historyVisibility r),some visibility⟩ =>
      if c = ctx ∧ r = room_id then some visibility else none
  | ⟨.rooms c (.setHistoryVisibility r visibility),_⟩ =>
      if c = ctx ∧ r = room_id then some visibility else none
  | _ => none

/-- The latest value of the client's sync stream, and its place there, after the
moments, the last one first. -/
def told : List Moment → RoomId → Option (Nat × String)
  | [],_ => none
  | m :: before,room_id =>
      match m.call,m.tells with
      | .sync position _,some (r,visibility) =>
          if r = room_id ∧ (told before room_id).elim 0 Prod.fst ≤ position then
            some (position,visibility)
          else told before room_id
      | _,_ => told before room_id

/-- What fetches of the proxy's own were answered. -/
def answers (ms : List Moment) (room_id : RoomId) : Set (Option String) :=
  {answer | ∃ m ∈ ms, ∃ r, m.call = .settings r ∧ m.action.bind fetched = some (room_id,answer)}

/-- What the sync stream told last, and otherwise what the homeserver answered. -/
def Current (ms : List Moment) (room_id : RoomId) (visibility : String) : Prop :=
  match told ms room_id with
  | some (_,latest) => visibility = latest
  | none => some visibility ∈ answers ms room_id

/-- The proxy's state and what has happened, the last moment first. -/
structure Seen (ω : Type) where
  state : State ω
  moments : List Moment

def Seen.tracked (s : Seen ω) (ctx : AccountContext) (room_id : RoomId) : Option String :=
  (s.state.accounts ctx).rooms.history_visibility room_id

/-- Only what is current is tracked, and used by a send, unless its fetch has failed. -/
structure TracksCurrent (ctx : AccountContext) (s : Seen ω) : Prop where
  tracked : ∀ room_id visibility, s.tracked ctx room_id = some visibility →
    Current s.moments room_id visibility
  delivered : ∀ room_id position visibility, told s.moments room_id = some (position,visibility) →
    s.tracked ctx room_id = some visibility
  used : ∀ m before room_id visibility, m :: before <:+ s.moments → m.call = .settings room_id →
    m.action.bind (decided ctx room_id) = some visibility → Current before room_id visibility ∨
      visibility = "shared" ∧ none ∈ answers before room_id

/-- A restriction of the steps that are taken. -/
abbrev Guard (ω : Type) := Seen ω → Moment → Prop

/-- Syncs are processed in the order of their stream, the past tells what is tracked
anyway, fetches do not fail, and what they were answered is written only where the
sync stream has told nothing else. -/
def orderly (ctx : AccountContext) : Guard ω := fun s m =>
  match m.call with
  | .sync position _ => ∀ e ∈ m.tells, (told s.moments e.1).elim 0 Prod.fst ≤ position
  | .messages .. | .context .. => ∀ e ∈ m.tells, s.tracked ctx e.1 = some e.2
  | .settings _ => ∀ e ∈ m.action, (∀ room_id, fetched e ≠ some (room_id,none)) ∧
      ∀ room_id visibility, assigned ctx e.1 = some (room_id,visibility) →
        ∀ latest ∈ told s.moments room_id, latest.2 = visibility
  | .other => True

inductive Starts (ctx : AccountContext) : (l : Call) → Prog Act Act.Ans (Res l) → Prop
  | sync (position : Nat) (body : Value) :
      Starts ctx (.sync position body) (process_sync_body ctx body)
  | messages (room_id : RoomId) (body : Value) :
      Starts ctx (.messages room_id body) (process_messages_body ctx room_id body)
  | context (room_id : RoomId) (body : Value) :
      Starts ctx (.context room_id body) (process_context_body ctx room_id body)
  | settings (room_id : RoomId) :
      Starts ctx (.settings room_id) (encryption_settings ctx room_id).run
  | other (p : M Unit) : p.Does (fun a => assigned ctx a = none) → Starts ctx .other p

/-- Any number of calls for one account, interleaved at every action. What a body tells is
told as the pass over it comes there, and what it has passed over at its end. -/
def system (O : Outside ω) (ctx : AccountContext) (ok : Guard ω) :
    System Call (Noted Act (RoomId × String)) (Noted.Ans Act.Ans) Res (Seen ω) where
  sem l
    | .act a note,s,r,s' => sem O a s.state r s'.state ∧ ok s ⟨l,some ⟨a,r⟩,note⟩ ∧
        s'.moments = ⟨l,some ⟨a,r⟩,note⟩ :: s.moments
    | .note e,s,_,s' => s'.state = s.state ∧ ok s ⟨l,none,some e⟩ ∧
        s'.moments = ⟨l,none,some e⟩ :: s.moments
  env _ s s' := ∃ w, s' = { s with state := { s.state with world := w } }
  start _ s l p s' := (∃ q, Starts ctx l q ∧ p = q.annotated (assigned ctx) l.tells) ∧ s' = s
  restart _ _ := False

/-- What the actions of a call tell. -/
def mark (ctx : AccountContext) : Call → Act → Option (RoomId × String)
  | .sync .. | .messages .. | .context .. => assigned ctx
  | .settings _ | .other => fun _ => none

/-- The same, by what is written. -/
def written (O : Outside ω) (ctx : AccountContext) (ok : Guard ω) :
    System Call Act Act.Ans Res (Seen ω) where
  sem l a s r s' := sem O a s.state r s'.state ∧ ok s ⟨l,some ⟨a,r⟩,mark ctx l a⟩ ∧
    s'.moments = ⟨l,some ⟨a,r⟩,mark ctx l a⟩ :: s.moments
  env _ s s' := ∃ w, s' = { s with state := { s.state with world := w } }
  start _ s l p s' := Starts ctx l p ∧ s' = s
  restart _ _ := False

def discipline (O : Outside ω) (ctx : AccountContext) :
    Discipline (written O ctx (orderly ctx)) Empty where
  due _ := ∅
  guard := anyAction
  inv s _ := TracksCurrent ctx s
  may _ _ := True
  post _ _ := True
  guard_mono _ h := h
  inv_mono _ h := h
  inv_env := by
    rintro b s s' C ⟨w,rfl⟩ h
    exact ⟨h.tracked,h.delivered,h.used⟩
  inv_restart := False.elim

variable {O : Outside ω} {ctx : AccountContext}

theorem sem_tracked {a : Act} {s s' : State ω} {r : a.Ans} (h : sem O a s r s') :
    (s'.accounts ctx).rooms.history_visibility =
      (assigned ctx a).elim (s.accounts ctx).rooms.history_visibility fun e =>
        Function.update (s.accounts ctx).rooms.history_visibility e.1 (some e.2) := by
  by_cases hrooms : ∃ c b, a = .rooms c b
  · obtain ⟨c,b,rfl⟩ := hrooms
    by_cases hc : c = ctx
    · subst hc
      rw [h.2,State.account_self]
      cases b <;> simp [assigned,RoomsAct.run] <;> rfl
    · rw [h.2,State.account_ne _ (Ne.symm hc)]
      cases b <;> simp [assigned,hc]
  · have hnone : assigned ctx a = none := by
      unfold assigned
      split
      · exact (hrooms ⟨_,_,rfl⟩).elim
      · rfl
    rw [hnone]
    obtain he | ⟨x,ha,_⟩ := rooms_of_sem h ctx
    · rw [he]
      rfl
    · exact (hrooms ⟨_,x,ha⟩).elim

/-- A visibility that is decided on has been read, or is assigned by the same action. -/
theorem decided_cases {a : Act} {s s' : State ω} {r : a.Ans} {room_id : RoomId} {visibility : String}
    (h : sem O a s r s') (hd : decided ctx room_id ⟨a,r⟩ = some visibility) :
    (s.accounts ctx).rooms.history_visibility room_id = some visibility ∨
      assigned ctx a = some (room_id,visibility) := by
  unfold decided at hd
  split at hd
  · next he =>
      cases he
      split_ifs at hd with hc
      obtain ⟨rfl,rfl⟩ := hc
      exact .inl (h.1.symm.trans hd)
  · next he =>
      cases he
      split_ifs at hd with hc
      obtain ⟨rfl,rfl⟩ := hc
      cases hd
      exact .inr (if_pos rfl)
  · cases hd

theorem answers_mono {ms ms' : List Moment} (h : ms ⊆ ms') (room_id : RoomId) :
    answers ms room_id ⊆ answers ms' room_id := by
  rintro answer ⟨m,hm,hfetched⟩
  exact ⟨m,h hm,hfetched⟩

/-- Only syncs tell. -/
theorem told_cons {m : Moment} {before : List Moment}
    (h : (∃ position body, m.call = .sync position body) → m.tells = none) :
    told (m :: before) = told before := by
  funext room_id
  rw [told]
  split
  · next position body r visibility hcall htells =>
      rw [h ⟨position,body,hcall⟩] at htells
      cases htells
  · rfl

theorem Current.cons {m : Moment} {before : List Moment} {room_id : RoomId} {visibility : String}
    (h : Current before room_id visibility)
    (htold : told (m :: before) room_id = told before room_id) :
    Current (m :: before) room_id visibility := by
  unfold Current at h ⊢
  rw [htold]
  split at h
  · exact h
  · exact answers_mono (List.subset_cons_self m before) room_id h

omit [Codec] in
/-- What a call tells with an action it also writes. -/
theorem mark_none {l : Call} {a : Act} (ha : assigned ctx a = none) : mark ctx l a = none := by
  cases l <;> first | exact ha | rfl

section
variable {s s' : Seen ω} {l : Call} {a : Act} {r : a.Ans}

theorem used_cons {m : Moment} (h : TracksCurrent ctx s)
    (hm : ∀ room_id visibility, m.call = .settings room_id →
      m.action.bind (decided ctx room_id) = some visibility → Current s.moments room_id visibility) :
    ∀ m' before room_id visibility, m' :: before <:+ m :: s.moments → m'.call = .settings room_id →
      m'.action.bind (decided ctx room_id) = some visibility → Current before room_id visibility ∨
        visibility = "shared" ∧ none ∈ answers before room_id := by
  intro m' before room_id visibility hsuffix hcall hd
  obtain he | hsuffix := List.suffix_cons_iff.mp hsuffix
  · cases he
    exact .inl (hm room_id visibility hcall hd)
  · exact h.used m' before room_id visibility hsuffix hcall hd

theorem spares_keeps (h : TracksCurrent ctx s) (hs : (written O ctx (orderly ctx)).sem l a s r s')
    (ha : assigned ctx a = none) : TracksCurrent ctx s' := by
  obtain ⟨hsem,-,hmoments⟩ := hs
  have htracked : ∀ room_id, s'.tracked ctx room_id = s.tracked ctx room_id := by
    intro room_id
    rw [Seen.tracked,sem_tracked hsem,ha]
    rfl
  have htold : told (⟨l,some ⟨a,r⟩,mark ctx l a⟩ :: s.moments) = told s.moments :=
    told_cons fun _ => mark_none ha
  constructor
  · intro room_id visibility hv
    rw [htracked] at hv
    rw [hmoments]
    exact (h.tracked room_id visibility hv).cons (congrFun htold room_id)
  · intro room_id position visibility hp
    rw [hmoments,htold] at hp
    rw [htracked]
    exact h.delivered room_id position visibility hp
  · rw [hmoments]
    refine used_cons h fun room_id visibility _ hd => ?_
    obtain hread | hassigned := decided_cases hsem hd
    · exact h.tracked room_id visibility hread
    · rw [ha] at hassigned
      cases hassigned

/-- A value that is current already, from anyone but a sync. -/
theorem current_keeps {room_id : RoomId} {visibility : String} (h : TracksCurrent ctx s)
    (hs : (written O ctx (orderly ctx)).sem l a s r s')
    (ha : assigned ctx a = some (room_id,visibility)) (hl : ∀ position body, l ≠ .sync position body)
    (hcurrent : Current s.moments room_id visibility) : TracksCurrent ctx s' := by
  obtain ⟨hsem,-,hmoments⟩ := hs
  have htracked : (s'.state.accounts ctx).rooms.history_visibility = Function.update
      (s.state.accounts ctx).rooms.history_visibility room_id (some visibility) := by
    rw [sem_tracked hsem,ha]
    rfl
  have htold : told (⟨l,some ⟨a,r⟩,mark ctx l a⟩ :: s.moments) = told s.moments :=
    told_cons fun ⟨position,body,hcall⟩ => (hl position body hcall).elim
  constructor
  · intro room_id' visibility' hv
    rw [Seen.tracked,htracked] at hv
    rw [hmoments]
    refine Current.cons ?_ (congrFun htold room_id')
    by_cases hroom : room_id' = room_id
    · subst hroom
      rw [Function.update_self] at hv
      cases hv
      exact hcurrent
    · rw [Function.update_of_ne hroom] at hv
      exact h.tracked room_id' visibility' hv
  · intro room_id' position latest hp
    rw [hmoments,htold] at hp
    rw [Seen.tracked,htracked]
    by_cases hroom : room_id' = room_id
    · subst hroom
      rw [Current,hp] at hcurrent
      rw [Function.update_self,hcurrent]
    · rw [Function.update_of_ne hroom]
      exact h.delivered room_id' position latest hp
  · rw [hmoments]
    refine used_cons h fun room_id' visibility' _ hd => ?_
    obtain hread | hassigned := decided_cases hsem hd
    · exact h.tracked room_id' visibility' hread
    · rw [ha] at hassigned
      cases hassigned
      exact hcurrent

/-- A sync that is not older than what its room was told before tells the value. -/
theorem sync_keeps {position : Nat} {body : Value} {room_id : RoomId} {visibility : String}
    (h : TracksCurrent ctx s) (hs : (written O ctx (orderly ctx)).sem (.sync position body) a s r s')
    (ha : assigned ctx a = some (room_id,visibility)) : TracksCurrent ctx s' := by
  obtain ⟨hsem,hok,hmoments⟩ := hs
  have htracked : (s'.state.accounts ctx).rooms.history_visibility = Function.update
      (s.state.accounts ctx).rooms.history_visibility room_id (some visibility) := by
    rw [sem_tracked hsem,ha]
    rfl
  have hself : told s'.moments room_id = some (position,visibility) := by
    rw [hmoments,told]
    simp only [mark,ha]
    rw [if_pos ⟨trivial,hok (room_id,visibility) ha⟩]
  have hother : ∀ room_id' ≠ room_id, told s'.moments room_id' = told s.moments room_id' := by
    intro room_id' hroom
    rw [hmoments,told]
    simp only [mark,ha]
    rw [if_neg fun hr => hroom hr.1.symm]
  constructor
  · intro room_id' visibility' hv
    rw [Seen.tracked,htracked] at hv
    by_cases hroom : room_id' = room_id
    · subst hroom
      rw [Function.update_self] at hv
      cases hv
      rw [Current,hself]
    · rw [Function.update_of_ne hroom] at hv
      have hcurrent := h.tracked room_id' visibility' hv
      have htold := hother room_id' hroom
      rw [hmoments] at htold ⊢
      exact hcurrent.cons htold
  · intro room_id' position' latest hp
    rw [Seen.tracked,htracked]
    by_cases hroom : room_id' = room_id
    · subst hroom
      rw [hself] at hp
      cases hp
      rw [Function.update_self]
    · rw [hother room_id' hroom] at hp
      rw [Function.update_of_ne hroom]
      exact h.delivered room_id' position' latest hp
  · rw [hmoments]
    exact used_cons h fun _ _ hcall _ => by cases hcall

end

variable {F : Seen ω → Prop}

theorem sync_neutral {position : Nat} {body : Value} (a : Act) :
    (discipline O ctx).Neutral (.sync position body) F a := by
  intro s r s' C _ h _ hs
  cases ha : assigned ctx a with
  | none => exact spares_keeps h hs ha
  | some e => exact sync_keeps h hs ha

/-- Responses about the past tell, where nothing else is excluded, what is tracked. -/
theorem past_neutral {l : Call} (hl : ∀ position body, l ≠ .sync position body)
    (hpast : ∀ (s : Seen ω) a r e, orderly ctx s ⟨l,some ⟨a,r⟩,mark ctx l a⟩ → assigned ctx a = some e →
      s.tracked ctx e.1 = some e.2) (a : Act) : (discipline O ctx).Neutral l F a := by
  intro s r s' C _ h _ hs
  cases ha : assigned ctx a with
  | none => exact spares_keeps h hs ha
  | some e =>
      exact current_keeps h hs ha hl (h.tracked e.1 e.2 (hpast s a r e hs.2.1 ha))

theorem spares_neutral {l : Call} {a : Act} (ha : assigned ctx a = none) :
    (discipline O ctx).Neutral l F a := fun _ _ _ _ _ h _ hs => spares_keeps h hs ha

/-- A fetched value is written where the sync stream has told nothing else. -/
theorem fetched_neutral {room_id : RoomId} {visibility : String} :
    (discipline O ctx).Neutral (.settings room_id)
      (fun s => some visibility ∈ answers s.moments room_id)
      (.rooms ctx (.setHistoryVisibility room_id visibility)) := by
  intro s r s' C hF h _ hs
  have ha : assigned ctx (.rooms ctx (.setHistoryVisibility room_id visibility)) =
      some (room_id,visibility) := if_pos rfl
  refine current_keeps h hs ha (fun _ _ he => by cases he) ?_
  unfold Current
  split
  · next latest htold => exact ((hs.2.1 _ rfl).2 room_id visibility ha _ htold).symm
  · exact hF

theorem stable_answers (l : Call) (room_id : RoomId) (answer : Option String) :
    (discipline O ctx).Stable l fun s => answer ∈ answers s.moments room_id where
  act := by
    intro l' a s r s' C _ _ hs h
    rw [hs.2.2]
    exact answers_mono (List.subset_cons_self _ _) room_id h
  start := fun _ hs h => hs.2 ▸ h
  env := by
    rintro b s s' C _ _ ⟨w,rfl⟩ h
    exact h

theorem keeps_of_neutral {α : Type} {l : Call} (hl : ∀ a, (discipline O ctx).Neutral l (fun _ => True) a)
    (p : M α) : (discipline O ctx).Keeps l (fun _ _ => True) (fun _ => True) p :=
  (Discipline.Keeps.of_every (.const _ _ True) (fun a _ => ⟨trivial,hl a⟩) (Prog.does_true p)).mono
    fun _ _ _ => trivial

theorem history_visibility_or_fetch_keeps (room_id : RoomId) :
    (discipline O ctx).Keeps (.settings room_id) (fun _ _ => True) (fun _ => True)
      (history_visibility_or_fetch ctx room_id) := by
  have hst : (discipline O ctx).Stable (.settings room_id) fun _ => True := .const _ _ True
  unfold history_visibility_or_fetch
  refine .neutral trivial hst (spares_neutral rfl) fun _ tracked _ _ _ _ _ _ => ?_
  cases tracked with
  | some visibility => exact fun _ _ => trivial
  | none =>
      let fetch : Act := .request ctx.token (.stateHistoryVisibility room_id) none
      refine .learn trivial (spares_neutral rfl) (fun answer =>
        stable_answers _ room_id ((fetched ⟨fetch,answer⟩).bind Prod.snd)) fun s answer s' C _ _ _ hs => ?_
      have hanswered : (fetched ⟨fetch,answer⟩).bind Prod.snd ∈ answers s'.moments room_id := by
        rw [hs.2.2]
        refine ⟨_,List.mem_cons_self,room_id,rfl,?_⟩
        cases answer <;> rfl
      refine ⟨hanswered,?_⟩
      -- The fetch has not failed, so that what is written is what it was answered.
      have hanswer := (hs.2.1 _ rfl).1 room_id
      cases answer with
      | error m => exact (hanswer rfl).elim
      | ok answer =>
          obtain ⟨status,body⟩ := answer
          have hsuccess : isSuccess status = true := by
            by_contra hfailed
            exact hanswer (by simp [fetched,hfailed])
          have hvalue : (fetched ⟨fetch,.ok (status,body)⟩).bind Prod.snd =
              some (((body.get "history_visibility").bind Value.asStr).getD "shared") := by
            simp [fetch,fetched,hsuccess]
          rw [hvalue]
          dsimp only [Prog.bind]
          rw [if_pos hsuccess]
          exact .neutral trivial (stable_answers ..) fetched_neutral fun _ _ _ _ _ _ _ _ _ _ => trivial

theorem encryption_settings_keeps (room_id : RoomId) :
    (discipline O ctx).Keeps (.settings room_id) (fun _ _ => True) (fun _ => True)
      (encryption_settings ctx room_id).run := by
  unfold encryption_settings
  rw [run_call_bind,act_bind]
  refine .neutral trivial (.const _ _ True) (spares_neutral rfl) fun _ settings _ _ _ _ _ _ => ?_
  cases settings with
  | error m => exact fun _ _ => trivial
  | ok settings =>
      dsimp only
      rw [run_lift_bind]
      exact (history_visibility_or_fetch_keeps room_id).bind fun _ _ _ => trivial

theorem starts : (discipline O ctx).Starts := by
  intro _ s l p s' C h hs
  obtain ⟨hp,rfl⟩ := hs
  refine ⟨h,fun _ => True,.const _ _ True,trivial,?_⟩
  cases hp with
  | sync position body => exact keeps_of_neutral sync_neutral _
  | messages room_id body =>
      exact keeps_of_neutral (past_neutral (l := .messages room_id body) (fun _ _ he => by cases he)
        fun _ _ _ e hok ha => hok e ha) _
  | context room_id body =>
      exact keeps_of_neutral (past_neutral (l := .context room_id body) (fun _ _ he => by cases he)
        fun _ _ _ e hok ha => hok e ha) _
  | settings room_id => exact encryption_settings_keeps room_id
  | other p hp =>
      exact (Discipline.Keeps.of_every (.const _ _ True)
        (fun a ha => ⟨trivial,spares_neutral ha⟩) hp).mono fun _ _ _ => trivial

/-- The last answer that the settings depend on decides on their visibility. -/
theorem encryption_settings_decided {room_id : RoomId} {es : List (Sigma Act.Ans)}
    {settings : EncryptionSettings}
    (h : (encryption_settings ctx room_id).run.Did es (.ret (.ok settings))) :
    ∃ es' e, es = es' ++ [e] ∧ decided ctx room_id e = some settings.history_visibility := by
  unfold encryption_settings at h
  obtain ⟨es₁,es₂,room_settings,rfl,_,h⟩ | ⟨_,_,he⟩ := Prog.did_exceptBind h
  · obtain ⟨es₃,es₄,visibility,rfl,hv,h⟩ | ⟨_,_,he⟩ := Prog.did_exceptBind h
    · cases h
      obtain ⟨_,hx,hv⟩ := Prog.did_lift hv
      cases hx
      cases hv with
      | @cons _ _ tracked _ _ hv =>
          cases tracked with
          | some visibility =>
              cases hv
              exact ⟨es₁,_,rfl,if_pos ⟨rfl,rfl⟩⟩
          | none =>
              cases hv with
              | @cons _ _ answer _ _ hv =>
                  cases hv with
                  | cons hv =>
                      cases hv
                      refine ⟨es₁ ++ [⟨.rooms ctx (.historyVisibility room_id),none⟩,
                        ⟨.request ctx.token (.stateHistoryVisibility room_id) none,answer⟩],
                        ⟨.rooms ctx (.setHistoryVisibility room_id _),()⟩,?_,if_pos ⟨rfl,rfl⟩⟩
                      rw [List.append_nil,List.append_assoc]
                      rfl
    · cases he
  · cases he

omit [Codec] in
theorem assigned_noted (a : Act) : assigned ctx a = (noted ctx a).bind fun e =>
    match e.2 with
    | .visibility visibility => some (e.1,visibility)
    | _ => none := by
  cases a with
  | rooms c b =>
      cases b <;> first | rfl | (simp only [assigned,noted]; split_ifs <;> rfl)
  | _ => rfl

/-- Calls write the visibilities that their bodies tell, and tell no others. -/
theorem annotated_mark {l : Call} {p : M (Res l)} (h : Starts ctx l p) :
    p.annotated (assigned ctx) l.tells = p.marked (mark ctx l) := by
  cases h with
  | sync position body => exact ((process_sync_body_notes body).filterMap assigned_noted).annotated
  | messages room_id body =>
      exact ((process_messages_body_notes room_id body).filterMap assigned_noted).annotated
  | context room_id body =>
      exact ((process_context_body_notes room_id body).filterMap assigned_noted).annotated
  | settings room_id => exact Prog.annotated_nil ..
  | other p hp => exact Prog.annotated_nil ..

theorem reads (ok : Guard ω) : Reads (system O ctx ok) (written O ctx ok) (mark ctx) where
  act := .rfl
  start := by
    intro b s l p s'
    constructor
    · rintro ⟨⟨q,hq,rfl⟩,hs⟩
      exact ⟨q,annotated_mark hq,hq,hs⟩
    · rintro ⟨q,rfl,hq,hs⟩
      exact ⟨⟨q,hq,(annotated_mark hq).symm⟩,hs⟩
  env := .rfl
  restart := .rfl

/-- What is tracked of an account's rooms in an orderly run, and the visibility that
encryption settings have, is what the client's sync stream told last, and the answer to
a fetch where it told nothing. -/
theorem visibility_current {s₀ : State ω}
    {c : Config Call (Noted Act (RoomId × String)) (Noted.Ans Act.Ans) Res (Seen ω)}
    (hnew : ∀ room_id, (s₀.accounts ctx).rooms.history_visibility room_id = none)
    (h : Reachable (system O ctx (orderly ctx)) (fun _ => (∅ : Set Empty)) anyAction ⟨s₀,[]⟩ c) :
    TracksCurrent ctx c.state ∧ ∀ room_id es settings,
      (encryption_settings ctx room_id).run.Did es (.ret (.ok settings)) →
        ∃ es' e, es = es' ++ [e] ∧ decided ctx room_id e = some settings.history_visibility := by
  have hinit : (discipline O ctx).inv ⟨s₀,[]⟩ ∅ := by
    refine ⟨fun room_id visibility h => ?_,fun _ _ _ h => ?_,fun _ _ _ _ h => ?_⟩
    · rw [Seen.tracked,hnew] at h
      cases h
    · cases h
    · simp at h
  obtain ⟨ts,hts,-⟩ := h.unmarked (discipline O ctx).due (reads (orderly ctx))
  have hc := Discipline.Holds.reachable (D := discipline O ctx) starts hinit hts
  exact ⟨hc.1,fun _ _ _ => encryption_settings_decided⟩

end

local instance : Codec := .plain (fun _ => none) some fun _ _ => 0

def alice : AccountContext := ⟨"@alice:x","DEV","token",⟨0,"key"⟩⟩

/-- A machine that knows nothing of the room's encryption. -/
def machine : Outside Unit
  | .olm _ (.roomSettings _),_,r,_ => r = .ok none
  | _,_,_,_ => False

/-- Alice's account, with nothing else of note. -/
def holding (acc : Account) : State Unit where
  accounts := Function.update (fun _ => .default 0) alice acc
  sessions := ∅
  refused := []
  locked _ := false
  world := ()

theorem holding_rooms (a : RoomsAct) (acc : Account) :
    sem machine (.rooms alice a) (holding acc) (a.run acc.rooms).1
      (holding { acc with rooms := (a.run acc.rooms).2 }) := by
  simp [sem,holding,State.account]

theorem holding_repairs (a : RepairsAct) (acc : Account) :
    sem machine (.repairs alice a) (holding acc) (a.run acc.repairs).1
      (holding { acc with repairs := (a.run acc.repairs).2 }) := by
  simp [sem,holding,State.account]

def visibilityEvent (visibility : String) : Value :=
  .object [("type",.string "m.room.history_visibility"),("state_key",.string ""),
    ("content",.object [("history_visibility",.string visibility)])]

def syncOf (visibility : String) : Value :=
  .object [("rooms",.object [("join",.object [("!r",
    .object [("state",.object [("events",.array [visibilityEvent visibility])])])])])]

def pastOf (visibility : String) : Value :=
  .object [("chunk",.array []),("state",.array [visibilityEvent visibility])]

section
variable {ok : Guard Unit} {acc : Account} {ms : List Moment}
  {vs : List (Thread Call Act Act.Ans Res)}

abbrev Reached (ok : Guard Unit) (acc : Account) (ms : List Moment)
    (ts : List (Thread Call Act Act.Ans Res)) : Prop :=
  Reachable (written machine alice ok) (fun _ => (∅ : Set Empty)) anyAction
    ⟨holding (.default 0),[]⟩ ⟨⟨holding acc,ms⟩,ts⟩

theorem Reached.rooms (us : List (Thread Call Act Act.Ans Res)) {l : Call} {p : M (Res l)}
    {a : RoomsAct} {k : a.Ans → M (Res l)} (h : Reached ok acc ms (us ++ ⟨l,p⟩ :: vs))
    (hp : p = .act (.rooms alice a) k)
    (hok : ok ⟨holding acc,ms⟩ ⟨l,some ⟨.rooms alice a,(a.run acc.rooms).1⟩,mark alice l (.rooms alice a)⟩) :
    Reached ok { acc with rooms := (a.run acc.rooms).2 }
      (⟨l,some ⟨.rooms alice a,(a.run acc.rooms).1⟩,mark alice l (.rooms alice a)⟩ :: ms)
        (us ++ ⟨l,k (a.run acc.rooms).1⟩ :: vs) :=
  h.act us hp trivial ⟨holding_rooms a acc,hok,rfl⟩

theorem Reached.repairs (us : List (Thread Call Act Act.Ans Res)) {l : Call} {p : M (Res l)}
    {a : RepairsAct} {k : a.Ans → M (Res l)} (h : Reached ok acc ms (us ++ ⟨l,p⟩ :: vs))
    (hp : p = .act (.repairs alice a) k)
    (hok : ok ⟨holding acc,ms⟩ ⟨l,some ⟨.repairs alice a,(a.run acc.repairs).1⟩,mark alice l (.repairs alice a)⟩) :
    Reached ok { acc with repairs := (a.run acc.repairs).2 }
      (⟨l,some ⟨.repairs alice a,(a.run acc.repairs).1⟩,mark alice l (.repairs alice a)⟩ :: ms)
      (us ++ ⟨l,k (a.run acc.repairs).1⟩ :: vs) :=
  h.act us hp trivial ⟨holding_repairs a acc,hok,rfl⟩

theorem Reached.roomSettings (us : List (Thread Call Act Act.Ans Res)) {l : Call} {p : M (Res l)}
    {room_id : RoomId} {k : Act.Ans (.olm alice (.roomSettings room_id)) → M (Res l)}
    (h : Reached ok acc ms (us ++ ⟨l,p⟩ :: vs)) (hp : p = .act (.olm alice (.roomSettings room_id)) k)
    (hok : ok ⟨holding acc,ms⟩ ⟨l,some ⟨.olm alice (.roomSettings room_id),.ok none⟩,none⟩)
    (hl : mark alice l (.olm alice (.roomSettings room_id)) = none) :
    Reached ok acc (⟨l,some ⟨.olm alice (.roomSettings room_id),.ok none⟩,none⟩ :: ms)
      (us ++ ⟨l,k (.ok none)⟩ :: vs) :=
  h.act us hp trivial ⟨sem_outside (s := holding acc) trivial rfl,by rwa [hl],by rw [hl]⟩

end
/-- What is reached by the actions is reached by the notes. -/
theorem Reached.annotated {ok : Guard Unit} {acc : Account} {ms : List Moment}
    {ts : List (Thread Call Act Act.Ans Res)} (h : Reached ok acc ms ts) :
    Reachable (system machine alice ok) (fun _ => (∅ : Set Empty)) anyAction
      ⟨holding (.default 0),[]⟩ ⟨⟨holding acc,ms⟩,ts.map (Thread.marked (mark alice))⟩ :=
  Reachable.marked (reads ok) h

/-- A sync tells that only the joined see the history, the past tells the same, and then
a message is encrypted. -/
theorem visibility_current_one :
    ∃ c, Reachable (system machine alice (orderly alice)) (fun _ => (∅ : Set Empty)) anyAction
        ⟨holding (.default 0),[]⟩ c ∧
      ⟨.settings "!r",.ret (.ok ⟨"m.megolm.v1.aes-sha2","joined",none,none⟩)⟩ ∈ c.threads ∧
      told c.state.moments "!r" = some (1,"joined") ∧ TracksCurrent alice c.state := by
  have h₀ : Reached (orderly alice) (.default 0) [] [] := .refl
  have h₁ := Reachable.start h₀ (l := .sync 1 (syncOf "joined")) ⟨.sync 1 (syncOf "joined"),rfl⟩
  have h₂ := Reached.rooms [] h₁ rfl (by rintro _ ⟨⟩)
  have h₃ := Reached.rooms [] h₂ rfl (fun _ _ => Nat.zero_le _)
  have h₄ := Reached.repairs [] h₃ rfl (by rintro _ ⟨⟩)
  have h₅ := Reachable.start h₄ (l := .messages "!r" (pastOf "joined"))
    ⟨.messages "!r" (pastOf "joined"),rfl⟩
  have h₆ := Reached.rooms [_] h₅ rfl (by rintro _ ⟨⟩; rfl)
  have h₇ := Reachable.start h₆ (l := .settings "!r") ⟨.settings "!r",rfl⟩
  have h₈ := Reached.roomSettings [_,_] h₇ rfl (by rintro _ ⟨⟩; exact ⟨nofun,nofun⟩) rfl
  have h₉ := Reached.rooms [_,_] h₈ rfl (by rintro _ ⟨⟩; exact ⟨nofun,nofun⟩)
  exact ⟨_,h₉.annotated,
    List.mem_map.mpr ⟨_,List.mem_append_right _ (List.mem_singleton_self _),rfl⟩,rfl,
    (visibility_current (fun _ => rfl) h₉.annotated).1⟩

/-- A sync tells that only the joined see the history; the past, when everybody did,
is asked for, and the next message is encrypted for everybody. -/
theorem past_overrides_present :
    ¬ ∀ c, Reachable (system machine alice fun _ _ => True) (fun _ => (∅ : Set Empty)) anyAction
      ⟨holding (.default 0),[]⟩ c → TracksCurrent alice c.state := by
  intro hall
  have h₀ : Reached (fun _ _ => True) (.default 0) [] [] := .refl
  have h₁ := Reachable.start h₀ (l := .sync 1 (syncOf "joined")) ⟨.sync 1 (syncOf "joined"),rfl⟩
  have h₂ := Reached.rooms [] h₁ rfl trivial
  have h₃ := Reached.rooms [] h₂ rfl trivial
  have h₄ := Reached.repairs [] h₃ rfl trivial
  have h₅ := Reachable.start h₄ (l := .messages "!r" (pastOf "world_readable"))
    ⟨.messages "!r" (pastOf "world_readable"),rfl⟩
  have h₆ := Reached.rooms [_] h₅ rfl trivial
  have h₇ := Reachable.start h₆ (l := .settings "!r") ⟨.settings "!r",rfl⟩
  have h₈ := Reached.roomSettings [_,_] h₇ rfl trivial rfl
  have h₉ := Reached.rooms [_,_] h₈ rfl trivial
  obtain h | ⟨h,-⟩ := (hall _ h₉.annotated).used _ _ "!r" "world_readable" List.suffix_rfl rfl rfl
  · have htold : "world_readable" = "joined" := h
    exact absurd htold (by decide)
  · exact absurd h (by decide)

end EmentE2ee.HistoryVisibility
