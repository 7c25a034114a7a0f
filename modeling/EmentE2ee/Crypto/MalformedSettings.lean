import EmentE2ee.Crypto.RoomsInterleaving

/-!
# Encryption settings that cannot be used

A room whose encryption state cannot be read is never taken for unencrypted when
the state is fetched. A scan skips such an event, which makes no difference
unless the room is in the negative cache: then it stays there.
-/
namespace EmentE2ee.MalformedSettings

open Concurrent
open Json (Value)

section
variable [Codec] {ω : Type}

/-- The homeserver has the room's encryption state, so it is never said to be
missing. -/
def HasState (O : Outside ω) (room_id : RoomId) : Prop :=
  ∀ token w body w', ¬ O (.request token (.stateEncryption room_id) none) w (.ok (404,body)) w'

/-- A state event with these settings, usable or not. -/
def settingsOf (event : Value) : Option Value :=
  if ((event.get "state_key").bind Value.asStr).isSome ∧
      (event.get "type").bind Value.asStr = some "m.room.encryption" then event.get "content"
  else none

variable (O : Outside ω) (ctx : AccountContext) (room_id : RoomId)

/-- No question after the scan is answered with no, whatever else is done in
between without asking. -/
def NeverNo (events : List Value) (s : State ω) : Prop :=
  ∀ (p : M Unit) (r : Except Error Bool) (s' : State ω),
    p.Does (fun a => a ≠ .rooms ctx (.markUnencrypted room_id)) →
    Prog.Exec (sem O) (scan_state_events ctx room_id events >>= fun _ => p >>= fun _ =>
      (is_room_encrypted ctx room_id).run) s r s' → r ≠ .ok false

/-- The room is not in the negative cache. -/
def Out (s : State ω) : Prop := room_id ∉ (s.accounts ctx).rooms.unencrypted

variable {O ctx room_id} {s s' : State ω}

theorem out_kept {a : Act} {r : a.Ans} (ha : a ≠ .rooms ctx (.markUnencrypted room_id))
    (h : sem O a s r s') (hs : Out ctx room_id s) : Out ctx room_id s' := by
  unfold Out at hs ⊢
  obtain he | ⟨x,hx,he⟩ := rooms_of_sem h ctx
  · rwa [he]
  · rw [he]
    cases x with
    | markUnencrypted other =>
        have hne : room_id ≠ other := fun he => ha (by rw [hx,he])
        simpa [RoomsAct.run,RoomTracker.mark_unencrypted,hne] using hs
    | markEncrypted r => simpa [RoomsAct.run,RoomTracker.mark_encrypted] using fun _ => hs
    | _ => exact hs

theorem out_marked {r : Unit} (h : sem O (.rooms ctx (.markEncrypted room_id)) s r s') :
    Out ctx room_id s' := by
  have hs : s' = _ := h.2
  simp [Out,hs,RoomsAct.run,RoomTracker.mark_encrypted]

theorem out_wp {α : Type} {p : M α} (hp : p.Does fun a => a ≠ .rooms ctx (.markUnencrypted room_id))
    (hs : Out ctx room_id s) : p.wp (sem O) (fun _ s' => Out ctx room_id s') s :=
  Prog.wp_mono (fun _ _ h => h.2) (Prog.wp_of_every (fun ha h hs => out_kept ha h hs) hp hs)

theorem scan_state_event_spares (event : Value) :
    (scan_state_event ctx room_id event).Does fun a => a ≠ .rooms ctx (.markUnencrypted room_id) := by
  unfold scan_state_event
  split_ifs
  · simp
  split
  · split
    · simp
    · exact ⟨by simp,fun _ => ⟨by simp,fun _ => trivial⟩⟩
  · split <;> simp
  · simp
  · simp

/-- A usable event takes the room out of the cache. -/
theorem scan_usable {event : Value} (he : (encryptionEvent event).isSome) :
    (scan_state_event ctx room_id event).wp (sem O) (fun _ s' => Out ctx room_id s') s := by
  unfold encryptionEvent at he
  split_ifs at he with hkey htype
  · cases he
  · obtain ⟨settings,hset⟩ := Option.isSome_iff_exists.mp he
    unfold scan_state_event
    rw [if_neg hkey,htype]
    simp only [hset]
    intro r s₁ h₁
    have hout : Out ctx room_id s₁ := out_marked h₁
    exact out_wp ⟨by simp,fun _ => trivial⟩ hout
  · cases he

theorem scan_wp {events : List Value}
    (h : Out ctx room_id s ∨ ∃ e ∈ events, (encryptionEvent e).isSome) :
    (scan_state_events ctx room_id events).wp (sem O) (fun _ s' => Out ctx room_id s') s := by
  induction events generalizing s with
  | nil => exact h.resolve_right (by simp)
  | cons event events ih =>
      unfold scan_state_events
      rw [Prog.wp_bind]
      by_cases he : (encryptionEvent event).isSome
      · exact Prog.wp_mono (fun _ _ hs => ih (.inl hs)) (scan_usable he)
      · obtain hs | ⟨e,hmem,husable⟩ := h
        · exact Prog.wp_mono (fun _ _ hs => ih (.inl hs)) (out_wp (scan_state_event_spares event) hs)
        · have hlater : e ∈ events := (List.mem_cons.mp hmem).resolve_left fun h => he (h ▸ husable)
          exact Prog.wp_of_forall (fun _ _ => ih (.inr ⟨e,hlater,husable⟩)) _ _

/-- A question about a room that is not in the cache. -/
theorem asked_wp (hO : HasState O room_id) (hs : Out ctx room_id s) :
    (is_room_encrypted ctx room_id).run.wp (sem O) (fun r _ => r ≠ .ok false) s := by
  have herror : ∀ e : Error, (.error e : Except Error Bool) ≠ .ok false := fun e => by simp
  have hyes : (.ok true : Except Error Bool) ≠ .ok false := by simp
  unfold is_room_encrypted
  rw [run_step_bind]
  intro known s₁ h₁
  have hk : known = false := by
    rw [h₁.1]
    simpa [RoomsAct.run,RoomTracker.is_known_unencrypted,Out] using hs
  dsimp only
  rw [if_neg (by simp [hk]),run_call_bind,act_bind]
  intro settings s₂ _
  cases settings with
  | error m => exact herror _
  | ok settings =>
      dsimp only
      split_ifs with hsome
      · exact hyes
      rw [json_request,run_call_bind,act_bind]
      intro answer s₃ h₃
      cases answer with
      | error m => exact herror _
      | ok answer =>
          obtain ⟨status,body⟩ := answer
          dsimp only
          split_ifs with hmiss
          · subst hmiss
            exact (hO _ _ _ _ h₃.1).elim
          · split
            · exact herror _
            · intro _ _ _ _ _ _
              exact hyes
          · exact herror _

/-- The homeserver's answer to a question about a room of which nothing is known. -/
abbrev fetching (ctx : AccountContext) (room_id : RoomId) (status : Nat) (content : Value) :
    List (Sigma Act.Ans) :=
  [⟨.rooms ctx (.isKnownUnencrypted room_id),false⟩,⟨.olm ctx (.roomSettings room_id),.ok none⟩,
    ⟨.request ctx.token (.stateEncryption room_id) none,.ok (status,content)⟩]

omit [Codec] in
theorem settings_isSome (content : Value) : (room_settings_from_content content).isSome =
    ((content.get "algorithm").bind Value.asStr).isSome := Option.isSome_map

/-- A state that the homeserver does not miss is answered with yes or an error. -/
theorem fetched_answer {status : Nat} {content : Value} {es : List (Sigma Act.Ans)}
    {r : Except Error Bool} (hfound : status ≠ 404)
    (h : (is_room_encrypted ctx room_id).run.Did (fetching ctx room_id status content ++ es) (.ret r)) :
    if isSuccess status = true ∧ ((content.get "algorithm").bind Value.asStr).isSome then r = .ok true
    else ∃ e, r = .error e := by
  rw [← settings_isSome]
  cases h with
  | cons h =>
      cases h with
      | cons h =>
          cases h with
          | cons h =>
              change Prog.Did (ExceptT.run (if status = 404 then _ else _)) es _ at h
              rw [if_neg hfound] at h
              by_cases hok : isSuccess status = true
              · rw [if_pos hok] at h
                cases hset : room_settings_from_content content with
                | none =>
                    rw [hset] at h
                    cases h
                    simp
                | some settings =>
                    rw [hset] at h
                    cases h with
                    | cons h =>
                        cases h with
                        | cons h =>
                            cases h
                            simp [hok]
              · rw [if_neg hok] at h
                cases h
                simp [hok]

theorem rooms_exec {a : RoomsAct} (hu : (a.run (s.accounts ctx).rooms).2.unencrypted =
    (s.accounts ctx).rooms.unencrypted) (k : a.Ans → M Unit) (hk : ∀ r, k r = .ret ()) :
    ∃ s', Prog.Exec (sem O) (.act (.rooms ctx a) k) s () s' ∧
      (s'.accounts ctx).rooms.unencrypted = (s.accounts ctx).rooms.unencrypted := by
  refine ⟨s.account ctx { s.accounts ctx with rooms := (a.run (s.accounts ctx).rooms).2 },
    .act ⟨rfl,rfl⟩ ?_,by rwa [State.account_self]⟩
  rw [hk]
  exact .ret () _

variable (O ctx room_id) in
theorem scan_one_exec {event : Value} (h : ¬ (encryptionEvent event).isSome) (s : State ω) :
    ∃ s', Prog.Exec (sem O) (scan_state_event ctx room_id event) s () s' ∧
      (s'.accounts ctx).rooms.unencrypted = (s.accounts ctx).rooms.unencrypted := by
  have hnothing : ∃ s', Prog.Exec (sem O) (.ret ()) s () s' ∧
      (s'.accounts ctx).rooms.unencrypted = (s.accounts ctx).rooms.unencrypted := ⟨s,.ret () s,rfl⟩
  unfold scan_state_event
  split_ifs with hkey
  · exact hnothing
  split
  case h_1 htype =>
    split
    · exact hnothing
    case h_2 settings hset =>
      have husable : (encryptionEvent event).isSome := by simp [encryptionEvent,hkey,htype,hset]
      exact (h husable).elim
  case h_2 =>
    split
    · exact rooms_exec rfl _ fun _ => rfl
    · exact hnothing
  case h_3 => exact rooms_exec rfl _ fun _ => rfl
  case h_4 => exact hnothing

variable (O ctx room_id) in
/-- A scan without usable settings leaves the cache as it was. -/
theorem scan_exec {events : List Value} (h : ∀ e ∈ events, ¬ (encryptionEvent e).isSome) (s : State ω) :
    ∃ s', Prog.Exec (sem O) (scan_state_events ctx room_id events) s () s' ∧
      (s'.accounts ctx).rooms.unencrypted = (s.accounts ctx).rooms.unencrypted := by
  induction events generalizing s with
  | nil => exact ⟨s,.ret () s,rfl⟩
  | cons event events ih =>
      have hfirst := h event (List.mem_cons_self ..)
      obtain ⟨s₁,h₁,hu₁⟩ := scan_one_exec O ctx room_id hfirst s
      obtain ⟨s₂,h₂,hu₂⟩ := ih (fun e he => h e (List.mem_cons_of_mem _ he)) s₁
      exact ⟨s₂,Prog.exec_bind.mpr ⟨(),s₁,h₁,h₂⟩,hu₂.trans hu₁⟩

theorem never_no_iff (hO : HasState O room_id) (events : List Value) (s : State ω) :
    NeverNo O ctx room_id events s ↔
      room_id ∉ (s.accounts ctx).rooms.unencrypted ∨ ∃ e ∈ events, (encryptionEvent e).isSome := by
  constructor
  · intro h
    by_contra hcon
    have hin : room_id ∈ (s.accounts ctx).rooms.unencrypted := by
      by_contra hout
      exact hcon (.inl hout)
    have hnone : ∀ e ∈ events, ¬ (encryptionEvent e).isSome := fun e he husable =>
      hcon (.inr ⟨e,he,husable⟩)
    obtain ⟨s₁,h₁,hu₁⟩ := scan_exec O ctx room_id hnone s
    have hknown : sem O (.rooms ctx (.isKnownUnencrypted room_id)) s₁ true
        (s₁.account ctx { s₁.accounts ctx with rooms := (s₁.accounts ctx).rooms }) :=
      ⟨by simpa [RoomsAct.run,RoomTracker.is_known_unencrypted,hu₁] using hin,rfl⟩
    have hask : Prog.Exec (sem O) (is_room_encrypted ctx room_id).run s₁ (.ok false) _ :=
      .act hknown (.ret _ _)
    have hrun : Prog.Exec (sem O) (scan_state_events ctx room_id events >>= fun _ =>
        Prog.ret () >>= fun _ => (is_room_encrypted ctx room_id).run) s (.ok false) _ :=
      Prog.exec_bind.mpr ⟨(),s₁,h₁,hask⟩
    exact h (.ret ()) (.ok false) _ trivial hrun rfl
  · intro h p r s' hp hrun
    refine hrun.wp (Q := fun r _ => r ≠ .ok false) ?_
    rw [Prog.wp_bind]
    refine Prog.wp_mono (fun _ s₁ h₁ => ?_) (scan_wp h)
    rw [Prog.wp_bind]
    exact Prog.wp_mono (fun _ s₂ h₂ => asked_wp hO h₂) (out_wp hp h₁)

/-- A question that is not answered from the cache is never answered with no: with yes if
the fetched settings name an algorithm, and with an error if not. After a scan none is, if
and only if the room was not in the cache or the scan had usable settings. -/
theorem settings_fail_closed (hO : HasState O room_id) :
    (∀ s r s', room_id ∉ (s.accounts ctx).rooms.unencrypted →
      Prog.Exec (sem O) (is_room_encrypted ctx room_id).run s r s' → r ≠ .ok false) ∧
    (∀ status content es r, status ≠ 404 →
      (is_room_encrypted ctx room_id).run.Did (fetching ctx room_id status content ++ es) (.ret r) →
        if isSuccess status = true ∧ ((content.get "algorithm").bind Value.asStr).isSome then
          r = .ok true
        else ∃ e, r = .error e) ∧
    ∀ events s, NeverNo O ctx room_id events s ↔
      room_id ∉ (s.accounts ctx).rooms.unencrypted ∨ ∃ e ∈ events, (encryptionEvent e).isSome := by
  refine ⟨?_,?_,never_no_iff hO⟩
  · intro s r s' hs hrun
    exact hrun.wp (asked_wp hO hs)
  · intro status content es r hfound h
    exact fetched_answer hfound h

end

local instance : Codec := .plain (fun _ => none) some fun _ _ => 0

/-- A homeserver with this encryption state, and a machine without any. -/
def having (content : Value) : Outside Unit
  | .request _ (.stateEncryption _) _,_,r,_ => r = .ok (200,content)
  | .olm _ (.roomSettings _),_,r,_ => r = .ok none
  | .olm _ (.setRoomSettings ..),_,r,_ => r = .ok ()
  | _,_,_,_ => False

theorem having_state (content : Value) (room_id : RoomId) : HasState (having content) room_id := by
  intro token w body w' h
  cases h

/-- An event whose content names no algorithm. -/
def malformed : Value := .object [("content",.object []),("state_key",.string ""),
  ("type",.string "m.room.encryption")]

/-- Alice's account, with some rooms in the negative cache. -/
def caching (rooms : Finset RoomId) : State Unit where
  accounts := fun _ => { Account.default 0 with rooms := { RoomTracker.default with unencrypted := rooms } }
  sessions := ∅
  refused := []
  locked _ := false
  world := ()

theorem settings_fail_closed_uncached : settingsOf malformed = some (.object []) ∧
    NeverNo (having (.object [])) RoomsInterleaving.alice "!r" [malformed] (caching ∅) := by
  have hout : "!r" ∉ (∅ : Finset RoomId) := Finset.notMem_empty _
  exact ⟨rfl,((settings_fail_closed (having_state (.object []) "!r")).2.2 _ _).mpr (.inl hout)⟩

/-- The scan skips the event, and the room stays in the cache. -/
theorem malformed_settings_stay_unencrypted : settingsOf malformed = some (.object []) ∧
    room_settings_from_content (.object []) = none ∧ HasState (having (.object [])) "!r" ∧
    ¬ NeverNo (having (.object [])) RoomsInterleaving.alice "!r" [malformed] (caching {"!r"}) := by
  have hstate := having_state (.object []) "!r"
  refine ⟨rfl,rfl,hstate,fun h => ?_⟩
  obtain hout | ⟨e,he,husable⟩ := (never_no_iff hstate _ _).mp h
  · exact hout (Finset.mem_singleton_self _)
  · cases List.mem_singleton.mp he
    cases husable

end EmentE2ee.MalformedSettings
