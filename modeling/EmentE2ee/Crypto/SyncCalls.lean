import EmentE2ee.Crypto.Sync

/-!
# How the processing of a sync can end

The lock on the remembered events is held from the first mark to the last, so
whatever else happens meanwhile leaves them alone. Each call then ends in one of
six ways: it returns after an event that does not convert, after a failure or
well, or it is dropped before it has the lock, before the machine has the batch
or after.
-/
namespace EmentE2ee.SyncCalls

open Concurrent
open Json (Value)

section
variable [Codec] {ω : Type}

/-- The proxy's state, with the batches that a context's machine has taken. -/
structure Watched (ω : Type) where
  state : State ω
  taken : List (List Value)

/-- The batch that a machine call has taken, if it is one and did. -/
def takes (ctx : AccountContext) : (a : Act) → a.Ans → List (List Value)
  | .olm c (.receiveSyncChanges changes),.ok _ => if c = ctx then [changes.to_device_events] else []
  | _,_ => []

def seenOf (ctx : AccountContext) (s : Watched ω) : SeenToDevice := (s.state.accounts ctx).seen

/-- An action, after whatever others have done without the lock. -/
def watched (O : Outside ω) (ctx : AccountContext) : Sem Act Act.Ans (Watched ω) :=
  fun a s r s' => ∃ s₁ : State ω, (s₁.accounts ctx).seen = (s.state.accounts ctx).seen ∧
    sem O a s₁ r s'.state ∧ s'.taken = s.taken ++ takes ctx a r

def sparesSeen (ctx : AccountContext) : Act → Prop
  | .seen c _ => c ≠ ctx
  | _ => True

variable {O : Outside ω} {ctx : AccountContext} {s s' : Watched ω}

theorem sem_seen {a : Act} {s s' : State ω} {r : a.Ans} (ha : sparesSeen ctx a)
    (h : sem O a s r s') :
    (s'.accounts ctx).seen = (s.accounts ctx).seen := by
  obtain he | ⟨x,rfl,_⟩ := seen_of_sem h ctx
  · exact he
  · exact (ha rfl).elim

theorem watched_seen {a : Act} {r : a.Ans} (h : watched O ctx a s r s')
    (ha : sparesSeen ctx a) :
    seenOf ctx s' = seenOf ctx s := by
  obtain ⟨s₁,hs₁,hs,_⟩ := h
  exact (sem_seen ha hs).trans hs₁

theorem watched_act {a : SeenAct} {r : a.Ans} (h : watched O ctx (.seen ctx a) s r s') :
    r = (a.run (seenOf ctx s)).1 ∧ seenOf ctx s' = (a.run (seenOf ctx s)).2 ∧ s'.taken = s.taken := by
  obtain ⟨s₁,hs₁,hs,ht⟩ := h
  refine ⟨by rw [hs.1,hs₁,seenOf],?_,by rw [ht]; exact List.append_nil _⟩
  rw [seenOf,hs.2,State.account_self,seenOf,← hs₁]

/-- What each way of ending has remembered, and which batches the machine took. -/
inductive Ending where
  | returned (r : Except Error Unit)
  | dropped (a : Act)

inductive Outcome (ctx : AccountContext) (S : SeenToDevice) (events : List Value) :
    Ending → List (List Value) → SeenToDevice → Prop
  | unconverted {e : Error} : (S.mark ⟨[],[],0⟩ events).2 = .error e →
      Outcome ctx S events (.returned (.error e)) [] (S.mark ⟨[],[],0⟩ events).1
  | failed {batch : SeenToDevice.Batch} {e : Error} : (S.mark ⟨[],[],0⟩ events).2 = .ok batch →
      Outcome ctx S events (.returned (.error e)) []
        ((S.mark ⟨[],[],0⟩ events).1.forgetAll batch.new_keys)
  | done {batch : SeenToDevice.Batch} : (S.mark ⟨[],[],0⟩ events).2 = .ok batch →
      Outcome ctx S events (.returned (.ok ())) [batch.to_device_events]
        (S.mark ⟨[],[],0⟩ events).1
  | waiting : Outcome ctx S events (.dropped (.lock (.seen ctx))) [] S
  | lost {batch : SeenToDevice.Batch} {changes : EncryptionSyncChanges} :
      (S.mark ⟨[],[],0⟩ events).2 = .ok batch → changes.to_device_events = batch.to_device_events →
      Outcome ctx S events (.dropped (.olm ctx (.receiveSyncChanges changes))) []
        (S.mark ⟨[],[],0⟩ events).1
  | taken {batch : SeenToDevice.Batch} {changes : EncryptionSyncChanges} :
      (S.mark ⟨[],[],0⟩ events).2 = .ok batch → changes.to_device_events = batch.to_device_events →
      Outcome ctx S events (.dropped (.olm ctx (.receiveSyncChanges changes)))
        [batch.to_device_events] (S.mark ⟨[],[],0⟩ events).1

theorem field_run {α : Type} (value : Option Value) (convert : Value → Option α) (message : String) :
    ∃ r, (field value convert message).run = .ret r := by
  unfold field
  split
  · exact ⟨_,rfl⟩
  · split <;> exact ⟨_,rfl⟩

/-- Reading the body's other fields is no action, and keeps the events. -/
theorem sync_changes_run (body : Value) (events : List Value) :
    ∃ r : Except Error EncryptionSyncChanges, (sync_changes body events).run = .ret r ∧
      ∀ changes, r = .ok changes → changes.to_device_events = events := by
  obtain ⟨r₁,h₁⟩ := field_run (body.get "device_lists") Codec.deviceLists
    "invalid device_lists in sync response"
  obtain ⟨r₂,h₂⟩ := field_run (body.get "device_one_time_keys_count") Codec.oneTimeKeyCounts
    "invalid device_one_time_keys_count in sync response"
  obtain ⟨r₃,h₃⟩ := field_run ((body.get "device_unused_fallback_key_types").or
    (body.get "org.matrix.msc2732.device_unused_fallback_key_types")) Codec.fallbackKeyTypes
    "invalid device_unused_fallback_key_types in sync response"
  simp only [sync_changes,ExceptT.run_bind,h₁,Prog.ret_bind]
  cases r₁ with
  | error e => exact ⟨.error e,rfl,nofun⟩
  | ok x₁ =>
      simp only [h₂,Prog.ret_bind]
      cases r₂ with
      | error e => exact ⟨.error e,rfl,nofun⟩
      | ok x₂ =>
          simp only [h₃,Prog.ret_bind]
          cases r₃ with
          | error e => exact ⟨.error e,rfl,nofun⟩
          | ok x₃ =>
              refine ⟨_,rfl,fun changes h => ?_⟩
              cases h
              rfl

/-- What follows the machine's answer. -/
def afterMachine (ctx : AccountContext) : Except String (List String) → M (Except Error Nat)
  | .error m => .ret (.error (.context "receive_sync_changes failed" (.text m)))
  | .ok infos =>
      .act (.repairs ctx (.noteRoomKeys infos)) fun _ =>
        .act (.recordFinished ctx) fun _ => .ret (.ok infos.length)

theorem process_run (ctx : AccountContext) (body : Value) (events : List Value) :
    (∃ e, (process_sync_changes ctx body events).run = .ret (.error e)) ∨
    ∃ changes : EncryptionSyncChanges, changes.to_device_events = events ∧
      (process_sync_changes ctx body events).run =
        .act (.olm ctx (.receiveSyncChanges changes)) (afterMachine ctx) := by
  obtain ⟨r,hr,hev⟩ := sync_changes_run body events
  rw [process_sync_changes,ExceptT.run_bind,hr,Prog.ret_bind]
  cases r with
  | error e => exact .inl ⟨e,rfl⟩
  | ok changes =>
      refine .inr ⟨changes,hev changes rfl,?_⟩
      simp only [ExceptT.run_bind,run_withContext,run_call,act_bind]
      refine congrArg (Prog.act _) (funext fun r => ?_)
      cases r <;> rfl

theorem process_wp (body : Value) (events : List Value) (s : Watched ω) :
    (process_sync_changes ctx body events).run.wp (watched O ctx) (fun r s' =>
      seenOf ctx s' = seenOf ctx s ∧ ∃ bs, s'.taken = s.taken ++ bs ∧
        ((∃ e, r = .error e ∧ bs = []) ∨ ∃ n, r = .ok n ∧ bs = [events])) s := by
  obtain ⟨e,he⟩ | ⟨changes,hev,he⟩ := process_run ctx body events
  · rw [he]
    exact ⟨rfl,[],by simp,.inl ⟨e,rfl,rfl⟩⟩
  · rw [he]
    intro r s₁ hs₁
    have h₁ := watched_seen hs₁ trivial
    obtain ⟨_,_,_,ht₁⟩ := hs₁
    cases r with
    | error m => exact ⟨h₁,[],by simpa [takes] using ht₁,.inl ⟨_,rfl,rfl⟩⟩
    | ok infos =>
        intro _ s₂ hs₂ _ s₃ hs₃
        have h₂ := watched_seen hs₂ trivial
        have h₃ := watched_seen hs₃ trivial
        obtain ⟨_,_,_,ht₂⟩ := hs₂
        obtain ⟨_,_,_,ht₃⟩ := hs₃
        refine ⟨h₃.trans (h₂.trans h₁),[events],?_,.inr ⟨_,rfl,rfl⟩⟩
        rw [ht₃,ht₂,ht₁]
        simp [takes,hev]

theorem process_wc (body : Value) (events : List Value) (s : Watched ω) :
    (process_sync_changes ctx body events).run.wc (watched O ctx) Act.waits (fun a s' =>
      seenOf ctx s' = seenOf ctx s ∧ (∃ changes, changes.to_device_events = events ∧
        a = .olm ctx (.receiveSyncChanges changes)) ∧
          (s'.taken = s.taken ∨ s'.taken = s.taken ++ [events])) s := by
  obtain ⟨e,he⟩ | ⟨changes,hev,he⟩ := process_run ctx body events
  · rw [he]
    trivial
  · rw [he]
    refine ⟨fun _ => ⟨rfl,⟨changes,hev,rfl⟩,.inl rfl⟩,fun r s₁ hs₁ => ?_⟩
    have h₁ := watched_seen hs₁ trivial
    obtain ⟨_,_,_,ht₁⟩ := hs₁
    cases r with
    | error m => exact ⟨fun _ => ⟨h₁,⟨changes,hev,rfl⟩,.inl (by simpa [takes] using ht₁)⟩,trivial⟩
    | ok infos =>
        refine ⟨fun _ => ⟨h₁,⟨changes,hev,rfl⟩,.inr (by simpa [takes,hev] using ht₁)⟩,nofun,?_⟩
        exact fun _ _ _ => ⟨nofun,nofun,fun _ _ _ => ⟨nofun,trivial⟩⟩

/-- What follows the marks. -/
def afterMarks (ctx : AccountContext) (body : Value) :
    Except Error SeenToDevice.Batch → M (Except Error Unit)
  | .error e => .ret (.error e)
  | .ok batch => do
      let result ← (process_sync_changes ctx body batch.to_device_events).run
      match result with
      | .ok room_keys =>
          .act .now fun now =>
            .act (.stats ctx now batch.new_keys.length batch.duplicates room_keys) fun _ => .ret (.ok ())
      | .error e => .act (.seen ctx (.forgetAll batch.new_keys)) fun _ => .ret (.error e)

theorem receive_eq (ctx : AccountContext) (body : Value) :
    receive_sync_changes ctx body =
      .act (.lock (.seen ctx)) fun _ => .act (.seen ctx (.mark (incoming body))) fun marked =>
        afterMarks ctx body marked >>= fun r => .act (.unlock (.seen ctx)) fun _ => .ret r := by
  rw [receive_sync_changes,withLock_eq]
  refine congrArg (Prog.act _) (funext fun _ => congrArg (Prog.act _) (funext fun marked => ?_))
  refine congrArg (Prog.bind · _) ?_
  cases marked with
  | error e => rfl
  | ok batch =>
      change ((process_sync_changes ctx body batch.to_device_events).run >>= _) = _
      refine bind_congr fun r => ?_
      cases r <;> rfl

/-- Actions of a call that feeds the machine of `ctx`. -/
def receiving (ctx : AccountContext) : Act → Prop
  | .lock _ | .unlock _ | .repairs _ (.noteRoomKeys _) | .recordFinished _ | .now | .stats .. => True
  | .seen c _ | .olm c (.receiveSyncChanges _) => c = ctx
  | _ => False

theorem receive_does (ctx : AccountContext) (body : Value) :
    (receive_sync_changes ctx body).Does (receiving ctx) := by
  rw [receive_eq]
  refine ⟨trivial,fun _ => ⟨rfl,fun marked => Prog.Does.bind ?_ fun _ => ⟨trivial,fun _ => trivial⟩⟩⟩
  cases marked with
  | error e => trivial
  | ok batch =>
      refine Prog.Does.bind ?_ fun result => ?_
      · obtain ⟨e,he⟩ | ⟨changes,_,he⟩ := process_run ctx body batch.to_device_events
        · rw [he]
          trivial
        · rw [he]
          refine ⟨rfl,fun r => ?_⟩
          cases r with
          | error m => trivial
          | ok infos => exact ⟨trivial,fun _ => ⟨trivial,fun _ => trivial⟩⟩
      · cases result with
        | error e => exact ⟨rfl,fun _ => trivial⟩
        | ok n => exact ⟨trivial,fun _ => ⟨trivial,fun _ => trivial⟩⟩

/-- Where the machine fails the marks are taken back. -/
def settled (marked : SeenToDevice) (batch : SeenToDevice.Batch) : Except Error Unit → SeenToDevice
  | .ok () => marked
  | .error _ => marked.forgetAll batch.new_keys

theorem afterMarks_wp (body : Value) (batch : SeenToDevice.Batch) (s : Watched ω) :
    (afterMarks ctx body (.ok batch)).wp (watched O ctx) (fun r s' => ∃ bs,
      s'.taken = s.taken ++ bs ∧ seenOf ctx s' = settled (seenOf ctx s) batch r ∧
        bs = match r with
          | .ok () => [batch.to_device_events]
          | .error _ => []) s := by
  rw [afterMarks,Prog.wp_bind]
  refine Prog.wp_mono (fun r s₁ h₁ => ?_) (process_wp body batch.to_device_events s)
  obtain ⟨hseen,bs,ht,⟨e,rfl,rfl⟩ | ⟨n,rfl,rfl⟩⟩ := h₁
  · intro _ s₂ hs₂
    obtain ⟨_,h₂,ht₂⟩ := watched_act hs₂
    refine ⟨[],ht₂.trans ht,?_,rfl⟩
    rw [h₂,hseen]
    rfl
  · intro _ s₂ hs₂ _ s₃ hs₃
    have h₂ := watched_seen hs₂ trivial
    have h₃ := watched_seen hs₃ trivial
    obtain ⟨_,_,_,ht₂⟩ := hs₂
    obtain ⟨_,_,_,ht₃⟩ := hs₃
    refine ⟨_,?_,h₃.trans (h₂.trans hseen),rfl⟩
    rw [ht₃,ht₂,ht]
    simp [takes]

theorem receive_wp (body : Value) (s : Watched ω) :
    (receive_sync_changes ctx body).wp (watched O ctx) (fun r s' => ∃ bs,
      s'.taken = s.taken ++ bs ∧
        Outcome ctx (seenOf ctx s) (incoming body) (.returned r) bs (seenOf ctx s')) s := by
  rw [receive_eq]
  intro _ s₁ hs₁ marked s₂ hs₂
  have h₁ := watched_seen hs₁ trivial
  obtain ⟨_,_,_,ht₁⟩ := hs₁
  obtain ⟨hm,h₂,ht₂⟩ := watched_act hs₂
  simp only [SeenAct.run,h₁] at hm h₂
  have htaken : s₂.taken = s.taken := by simp [ht₂,ht₁,takes]
  rw [Prog.wp_bind]
  cases marked with
  | error e =>
      intro _ s₃ hs₃
      have h₃ := watched_seen hs₃ trivial
      obtain ⟨_,_,_,ht₃⟩ := hs₃
      refine ⟨[],by simp [ht₃,htaken,takes],?_⟩
      rw [h₃,h₂]
      exact .unconverted hm.symm
  | ok batch =>
      refine Prog.wp_mono (fun r s₃ h₃ => ?_) (afterMarks_wp body batch s₂)
      intro _ s₄ hs₄
      have h₄ := watched_seen hs₄ trivial
      obtain ⟨_,_,_,ht₄⟩ := hs₄
      obtain ⟨bs,hbs,hseen,hb⟩ := h₃
      refine ⟨bs,by simp [ht₄,hbs,htaken,takes],?_⟩
      rw [h₄,hseen,h₂]
      cases r with
      | ok _ => exact hb ▸ .done hm.symm
      | error e => exact hb ▸ .failed hm.symm

theorem receive_wc (body : Value) (s : Watched ω) :
    (receive_sync_changes ctx body).wc (watched O ctx) Act.waits (fun a s' => ∃ bs,
      s'.taken = s.taken ++ bs ∧
        Outcome ctx (seenOf ctx s) (incoming body) (.dropped a) bs (seenOf ctx s')) s := by
  rw [receive_eq]
  refine ⟨fun _ => ⟨[],by simp,.waiting⟩,fun _ s₁ hs₁ => ?_⟩
  have h₁ := watched_seen hs₁ trivial
  obtain ⟨_,_,_,ht₁⟩ := hs₁
  refine ⟨fun _ => ⟨[],by simpa [takes] using ht₁,h₁ ▸ .waiting⟩,nofun,fun marked s₂ hs₂ => ?_⟩
  obtain ⟨hm,h₂,ht₂⟩ := watched_act hs₂
  simp only [SeenAct.run,h₁] at hm h₂
  have htaken : s₂.taken = s.taken := by simp [ht₂,ht₁,takes]
  refine ⟨nofun,?_⟩
  -- Once the machine has answered, nothing waits any more.
  have hunlock : ∀ r s₃, (Prog.act (.unlock (.seen ctx)) fun _ => .ret r : M (Except Error Unit)).wc
      (watched O ctx) Act.waits (fun a s' => ∃ bs, s'.taken = s.taken ++ bs ∧
        Outcome ctx (seenOf ctx s) (incoming body) (.dropped a) bs (seenOf ctx s')) s₃ :=
    fun r s₃ => ⟨nofun,fun _ _ _ => ⟨nofun,trivial⟩⟩
  cases marked with
  | error e => exact hunlock _ s₂
  | ok batch =>
      refine Prog.wc_bind (Prog.wc_bind ?_ ?_) ?_
      · refine Prog.wc_mono (fun a s₃ h => ?_) (process_wc body batch.to_device_events s₂)
        obtain ⟨hseen,⟨changes,hev,rfl⟩,ht | ht⟩ := h
        · refine ⟨[],by rw [ht,htaken]; simp,?_⟩
          rw [hseen,h₂]
          exact .lost hm.symm hev
        · refine ⟨[batch.to_device_events],by rw [ht,htaken],?_⟩
          rw [hseen,h₂]
          exact .taken hm.symm hev
      · refine Prog.wp_mono (fun r s₃ _ => ?_) (process_wp body batch.to_device_events s₂)
        cases r with
        | error e => exact ⟨nofun,fun _ _ _ => ⟨nofun,trivial⟩⟩
        | ok n => exact ⟨nofun,fun _ _ _ => ⟨nofun,nofun,fun _ _ _ => ⟨nofun,trivial⟩⟩⟩
      · exact Prog.wp_mono (fun r s₃ _ => hunlock r s₃) (afterMarks_wp body batch s₂)

variable {bs : List (List Value)}

theorem receive_returned {body : Value} {r : Except Error Unit}
    (h : Prog.Exec (watched O ctx) (receive_sync_changes ctx body) s r s') : ∃ bs,
      s'.taken = s.taken ++ bs ∧
        Outcome ctx (seenOf ctx s) (incoming body) (.returned r) bs (seenOf ctx s') :=
  h.wp (receive_wp body s)

theorem receive_dropped {body : Value} {a : Act}
    (h : Prog.Cut (watched O ctx) Act.waits (receive_sync_changes ctx body) s a s') : ∃ bs,
      s'.taken = s.taken ++ bs ∧
        Outcome ctx (seenOf ctx s) (incoming body) (.dropped a) bs (seenOf ctx s') :=
  h.wc (receive_wc body s)

/-- A sync body that was processed, how that ended and what the machine took. -/
structure Call where
  body : Value
  ending : Ending
  batches : List (List Value)

/-- Calls follow each other, as each holds the lock. -/
inductive Step (O : Outside ω) (ctx : AccountContext) : State ω → Call → State ω → Prop
  | returned {s s' : State ω} {body : Value} {r : Except Error Unit} {bs : List (List Value)} :
      Prog.Exec (watched O ctx) (receive_sync_changes ctx body) ⟨s,[]⟩ r ⟨s',bs⟩ →
      Step O ctx s ⟨body,.returned r,bs⟩ s'
  | dropped {s s' : State ω} {body : Value} {a : Act} {bs : List (List Value)} :
      Prog.Cut (watched O ctx) Act.waits (receive_sync_changes ctx body) ⟨s,[]⟩ a ⟨s',bs⟩ →
      Step O ctx s ⟨body,.dropped a,bs⟩ s'

theorem Step.outcome {s s' : State ω} {c : Call} (h : Step O ctx s c s') :
    Outcome ctx (s.accounts ctx).seen (incoming c.body) c.ending c.batches (s'.accounts ctx).seen := by
  cases h with
  | returned h =>
      obtain ⟨bs',hbs,ho⟩ := receive_returned h
      rw [List.nil_append] at hbs
      subst hbs
      exact ho
  | dropped h =>
      obtain ⟨bs',hbs,ho⟩ := receive_dropped h
      rw [List.nil_append] at hbs
      subst hbs
      exact ho

/-- No call changes how events are told apart. -/
theorem Outcome.hasher {S S' : SeenToDevice} {events : List Value} {e : Ending}
    (h : Outcome ctx S events e bs S') : S'.hasher = S.hasher := by
  cases h <;> simp

theorem Outcome.key {S S' : SeenToDevice} {events : List Value} {e : Ending}
    (h : Outcome ctx S events e bs S') : S'.key = S.key := by
  funext v
  rw [SeenToDevice.key,h.hasher,SeenToDevice.key]

/-- Every remembered key is that of some event with the property. -/
def Backed (P : Value → Prop) (S : SeenToDevice) : Prop := ∀ k ∈ S.order, ∃ event, P event ∧ S.key event = k

section
variable {P P' : Value → Prop} {S S' : SeenToDevice} {events : List Value} {e : Ending}

theorem Backed.mono (h : Backed P S) (hP : ∀ event, P event → P' event) (hkey : S'.key = S.key)
    (hS : ∀ k ∈ S'.order, k ∈ S.order) : Backed P' S' := by
  intro k hk
  obtain ⟨event,he,hk⟩ := h k (hS k hk)
  exact ⟨event,hP event he,hkey ▸ hk⟩

/-- New events that the machine has taken pay for their marks. -/
theorem Backed.marked {batch : SeenToDevice.Batch} (h : Backed P S)
    (hP : ∀ event, P event → P' event) (hm : (S.mark ⟨[],[],0⟩ events).2 = .ok batch)
    (hnew : ∀ event ∈ S.newEvents events, P' event) : Backed P' (S.mark ⟨[],[],0⟩ events).1 := by
  have hkey : (S.mark ⟨[],[],0⟩ events).1.key = S.key := by
    funext v
    rw [SeenToDevice.key,SeenToDevice.mark_hasher,SeenToDevice.key]
  intro k hk
  rw [hkey]
  rcases SeenToDevice.mem_marked hm hk with hk | hk
  · obtain ⟨event,he,hk⟩ := h k hk
    exact ⟨event,hP event he,hk⟩
  · obtain ⟨event,he,rfl⟩ := List.mem_map.mp hk
    exact ⟨event,hnew event he,rfl⟩

theorem new_in_batch {batch : SeenToDevice.Batch} (hm : (S.mark ⟨[],[],0⟩ events).2 = .ok batch)
    {event : Value} (he : event ∈ S.newEvents events) :
    ∃ raw, Codec.toRaw event = some raw ∧ raw ∈ [batch.to_device_events].flatten := by
  obtain ⟨raw,hraw⟩ := Option.isSome_iff_exists.mp (SeenToDevice.converts_of_mark hm event he)
  refine ⟨raw,hraw,?_⟩
  rw [List.flatten_cons,List.flatten_nil,List.append_nil,(SeenToDevice.new_keys_of_mark hm).1]
  exact List.mem_filterMap.mpr ⟨event,he,hraw⟩

/-- A batch that was lost held all that was marked. -/
theorem Outcome.nothing_lost {changes : EncryptionSyncChanges}
    (ho : Outcome ctx S events (.dropped (.olm ctx (.receiveSyncChanges changes))) [] S')
    (h : changes.to_device_events = []) : S.newEvents events = [] := by
  cases ho with
  | lost hm hb =>
      rw [h,(SeenToDevice.new_keys_of_mark hm).1] at hb
      refine List.eq_nil_iff_forall_not_mem.mpr fun event he => ?_
      obtain ⟨raw,hraw⟩ := Option.isSome_iff_exists.mp (SeenToDevice.converts_of_mark hm event he)
      have hmem := List.mem_filterMap.mpr ⟨event,he,hraw⟩
      rw [← hb] at hmem
      cases hmem

/-- Elsewhere a dropped call has not begun. -/
theorem Outcome.not_begun {a : Act} (ho : Outcome ctx S events (.dropped a) bs S')
    (ha : ¬ ∃ x, a = .olm ctx x) : S' = S ∧ bs = [] := by
  cases ho with
  | waiting => exact ⟨rfl,rfl⟩
  | lost _ _ => exact (ha ⟨_,rfl⟩).elim
  | taken _ _ => exact (ha ⟨_,rfl⟩).elim

/-- A call whose events convert keeps the marks backed, unless it is dropped
with marks whose batch the machine has not taken. -/
theorem Outcome.backed (ho : Outcome ctx S events e bs S') (h : Backed P S)
    (hconv : S.Converts events)
    (hpaid : (∃ changes, e = .dropped (.olm ctx (.receiveSyncChanges changes))) → bs = [] →
      S.newEvents events = [])
    (hP : ∀ event, P event → P' event)
    (hnew : ∀ event ∈ S.newEvents events, ∀ raw, Codec.toRaw event = some raw → raw ∈ bs.flatten →
      P' event) : Backed P' S' := by
  have hkey := ho.key
  have hbatch : ∀ batch : SeenToDevice.Batch, (S.mark ⟨[],[],0⟩ events).2 = .ok batch →
      bs = [batch.to_device_events] → Backed P' (S.mark ⟨[],[],0⟩ events).1 := by
    rintro batch hm rfl
    refine h.marked hP hm fun event he => ?_
    obtain ⟨raw,hraw,hmem⟩ := new_in_batch hm he
    exact hnew event he raw hraw hmem
  cases ho with
  | unconverted he =>
      obtain ⟨_,hok,_⟩ := SeenToDevice.mark_converts hconv ⟨[],[],0⟩
      cases he.symm.trans hok
  | failed hm => exact h.mono hP hkey fun k hk => SeenToDevice.mem_unmarked hm hk
  | done hm => exact hbatch _ hm rfl
  | waiting => exact h.mono hP hkey fun k hk => hk
  | lost hm _ =>
      have hn := hpaid ⟨_,rfl⟩ rfl
      exact h.mono hP hkey fun k hk => by rwa [SeenToDevice.mark_nothing hm hn] at hk
  | taken hm _ => exact hbatch _ hm rfl

/-- After a successful call every event of the body has the property, if keys
tell them apart from those that had it. -/
theorem Outcome.handed (ho : Outcome ctx S events (.returned (.ok ())) bs S') (h : Backed P S)
    (hP : ∀ event, P event → P' event)
    (hnew : ∀ event ∈ S.newEvents events, ∀ raw, Codec.toRaw event = some raw → raw ∈ bs.flatten →
      P' event)
    (hapart : ∀ event ∈ events, ∀ other, P other ∨ other ∈ events → S.key other = S.key event →
      other = event) {event : Value} (he : event ∈ events) : P' event := by
  cases ho with
  | done hm =>
      have hP' : ∀ x ∈ S.newEvents events, P' x := fun x hx => by
        obtain ⟨raw,hraw,hmem⟩ := new_in_batch hm hx
        exact hnew x hx raw hraw hmem
      rw [← S.delivered_deliveries events] at he
      obtain ⟨⟨event,isNew⟩,hd,rfl⟩ := List.mem_map.mp he
      rw [S.delivered_deliveries] at he
      cases isNew with
      | true =>
          refine hP' event ?_
          rw [← S.fresh_deliveries]
          exact Sliding.mem_fresh.mpr hd
      | false =>
          obtain ⟨A,B,hsplit⟩ := List.append_of_mem hd
          rcases SeenToDevice.repeated_delivery hsplit with hk | ⟨other,ho,hk⟩
          · obtain ⟨other,hother,hk⟩ := h _ hk
            exact hapart event he other (.inl hother) hk ▸ hP other hother
          · have hmem : (other,true) ∈ S.deliveries events := by
              rw [hsplit]
              exact List.mem_append_left _ ho
            have hother : other ∈ S.newEvents events := by
              rw [← S.fresh_deliveries]
              exact Sliding.mem_fresh.mpr hmem
            have hin := (S.newEvents_sublist events).subset hother
            exact hapart event he other (.inr hin) hk ▸ hP' other hother

end

/-- An action with nobody else at work. -/
theorem watched_of {a : Act} {σ : State ω} {r : a.Ans} (h : sem O a s.state r σ) :
    watched O ctx a s r ⟨σ,s.taken ++ takes ctx a r⟩ := ⟨s.state,rfl,h,rfl⟩

theorem watched_outside {a : Act} {r : a.Ans} {w : ω} (ha : a.outside) (h : O a s.state.world r w) :
    watched O ctx a s r ⟨{ s.state with world := w },s.taken ++ takes ctx a r⟩ :=
  watched_of (sem_outside ha h)

end

@[reducible] def oneCodec : Codec := .plain (fun _ => none) some fun _ _ => 7

local instance : Codec := oneCodec

def roomKey : Value := .object [("content",.object []),("type",.string "m.room_key")]

def oneKey : Value := .object [("next_batch",.string "s1"),
  ("to_device",.object [("events",.array [roomKey])])]

def alice : AccountContext := ⟨"@alice:x","DEV","token",⟨0,"key"⟩⟩

/-- A machine that takes every batch. -/
def taking : Outside Unit
  | .olm _ (.receiveSyncChanges _),_,r,w' => r = .ok [] ∧ w' = ()
  | .recordFinished _,_,_,_ => True
  | .now,_,_,_ => True
  | _,_,_,_ => False

def blank : State Unit := ⟨fun _ => .default 0,∅,[],fun _ => false,()⟩

theorem marked_one :
    ((SeenToDevice.default 0).mark ⟨[],[],0⟩ (incoming oneKey)).2 = .ok ⟨[roomKey],[7],0⟩ := rfl

theorem order_one : ((SeenToDevice.default 0).mark ⟨[],[],0⟩ (incoming oneKey)).1.order = [7] := rfl

theorem taken_one : ∃ s' : State Unit,
    Step taking alice blank ⟨oneKey,.returned (.ok ()),[[roomKey]]⟩ s' := by
  apply Exists.intro
  apply Step.returned
  rw [receive_eq]
  refine .act (r := ()) (watched_of ⟨rfl,rfl⟩) ?_
  refine .act (r := .ok ⟨[roomKey],[7],0⟩) (watched_of ⟨marked_one.symm,rfl⟩) ?_
  refine .act (r := .ok []) (watched_outside trivial ⟨rfl,rfl⟩) ?_
  refine .act (r := ()) (watched_of ⟨rfl,rfl⟩) ?_
  refine .act (r := ()) (watched_outside (w := ()) trivial trivial) ?_
  refine .act (r := (0 : Nat)) (watched_outside (w := ()) trivial trivial) ?_
  refine .act (r := ()) (watched_of rfl) ?_
  refine .act (r := ()) (watched_of rfl) ?_
  exact .ret _ _

end EmentE2ee.SyncCalls
