import EmentE2ee.Crypto.RepairQueueRuns
import EmentE2ee.Crypto.SyncPass

/-!
# Promised placeholders

A placeholder in a joined room's timeline promises to update in place, and its
event is tracked. The repairs of the same response take out what counts as ready
and put nothing back that the response delivers: a placeholder whose record is
ready when it is delivered is forgotten.
-/
namespace EmentE2ee.Promises

open Concurrent
open Json (Value)
open Timelines (events)

section
variable [Codec] {ω : Type}

abbrev Oracle := Value → RoomId → Except String RoomEventDecryptionResult

/-- Which events the machine can decrypt does not change during the call. -/
def Decides (O : Outside ω) (ctx : AccountContext) (dec : Oracle) : Prop :=
  ∀ raw room_id w r w', O (.olm ctx (.tryDecryptRoomEvent raw room_id)) w r w' → r = dec raw room_id

def unable : Except String RoomEventDecryptionResult → Option (String × Option String)
  | .ok (.unableToDecrypt reason session_id) => some (reason,session_id)
  | _ => none

/-- Reason and session of an event that cannot be decrypted. -/
def missed (dec : Oracle) (room_id : RoomId) (event : Value) : Option (String × Option String) :=
  if isEncrypted event then (Codec.toRaw event).bind fun raw => unable (dec raw room_id) else none

def missedBy : Decryption → Option (String × Option String)
  | .undecryptable reason session_id _ => some (reason,session_id)
  | _ => none

variable {O : Outside ω} {ctx : AccountContext} {dec : Oracle} {s s' : State ω}

theorem decrypt_missed (hO : Decides O ctx dec) {room_id : RoomId} {event : Value} {o : Decryption}
    (h : Prog.Exec (sem O) (decrypt ctx room_id event) s o s') :
    missedBy o = missed dec room_id event := by
  refine h.wp (Q := fun o _ => missedBy o = missed dec room_id event) ?_
  unfold decrypt
  split_ifs with he
  · split
    · next hraw => simp [missedBy,missed,he,hraw]
    · next raw hraw =>
        rw [act_bind]
        intro r s₁ hs
        have hr : r = dec raw room_id := hO _ _ _ _ _ hs.1
        have hm : missed dec room_id event = unable r := by
          rw [missed,if_pos he,hraw,Option.bind_some,hr]
        rw [hm]
        clear hr hs hm
        cases r with
        | error m => exact rfl
        | ok result =>
            cases result with
            | unableToDecrypt reason session_id => exact rfl
            | decrypted event' info =>
                dsimp only
                split
                · rw [Prog.wp_bind]
                  refine Prog.wp_of_forall (fun _ s₂ => ?_) _ _
                  rw [Prog.wp_bind]
                  exact Prog.wp_of_forall (fun _ _ => rfl) _ _
                · exact rfl
  · simp [missedBy,missed,he]

/-- The pass tracks each event it cannot decrypt. -/
def tracking (dec : Oracle) : SyncPass.Effect RepairQueue where
  member _ _ _ q := q
  event room_id x q := (missed dec room_id x).elim q fun m => q.track room_id x m.2

def tracking_spec (hO : Decides O ctx dec) : SyncPass.Spec O ctx (tracking dec) where
  view s := (s.accounts ctx).repairs
  made room_id x y := ∀ m, missed dec room_id x = some m → y = utd_placeholder x m.1 m.2 true
  member_exec {sec room_id room s r s'} h := by
    cases sec with
    | join =>
        cases h with
        | act hs h =>
            cases h
            obtain ⟨_,hs'⟩ := hs
            rw [hs',State.account_self]
            rfl
    | leave =>
        cases h with
        | act hs h =>
            cases h
            obtain ⟨_,hs'⟩ := hs
            rw [hs',State.account_self]
            rfl
  scan_exec h := (SyncPass.bystander_exec (SyncPass.scan_bystander _ _) h ctx).1
  event_exec {room_id x s y s'} h := by
    obtain ⟨o,s₁,ho,h⟩ := Prog.exec_bind.mp h
    have hm := decrypt_missed hO ho
    have hkept := (SyncPass.bystander_exec ((decrypt_does ctx room_id x).mono
      fun _ h => SyncPass.decrypting_bystander h) ho ctx).1
    have hevent : ∀ q, (tracking dec).event room_id x q =
        (missedBy o).elim q fun m => q.track room_id x m.2 := by
      intro q
      rw [hm]
      rfl
    rw [hevent,← hm]
    cases o with
    | decrypted event =>
        cases h
        exact ⟨hkept,fun m hm => by cases hm⟩
    | untouched =>
        cases h
        exact ⟨hkept,fun m hm => by cases hm⟩
    | undecryptable reason session_id raw =>
        obtain ⟨_,s₂,hrequest,h⟩ := Prog.exec_bind.mp h
        have hkept₂ := (SyncPass.bystander_exec (SyncPass.maybe_request_bystander ..) hrequest ctx).1
        cases h with
        | act hs h =>
            cases h
            obtain ⟨_,hs'⟩ := hs
            rw [hs',State.account_self]
            refine ⟨?_,fun m hm => by cases hm; rfl⟩
            change ((s₂.accounts ctx).repairs.track room_id x session_id) = _
            rw [hkept₂,hkept]
            rfl

theorem pass_inStep {q : RepairQueue} (h : q.InStep) (body : Value) :
    ((tracking dec).pass body q).InStep := by
  refine SyncPass.Effect.pass_invariant (fun _ _ _ _ h => h) (fun room_id x q h => ?_) body h
  cases hm : missed dec room_id x with
  | none => simpa [tracking,hm] using h
  | some m => simpa [tracking,hm] using h.track room_id x m.2

theorem pass_is_ready (q : RepairQueue) (body : Value) :
    ((tracking dec).pass body q).is_ready = q.is_ready := by
  refine SyncPass.Effect.pass_invariant (I := fun q' : RepairQueue => q'.is_ready = q.is_ready)
    (fun _ _ _ _ h => h) (fun room_id x q' h => ?_) body rfl
  cases hm : missed dec room_id x with
  | none => simpa [tracking,hm] using h
  | some m => simpa [tracking,hm] using h

/-- Actions that neither take anything out of a queue nor put back what the
response delivers. -/
def spares (delivered : List String) : Act → Prop
  | .repairs _ (.requeue repair) => repair.event_id ∉ delivered
  | .repairs .. => False
  | _ => True

omit [Codec] in
theorem repairing_spares {delivered : List String} {a : Act} (h : a.repairing delivered) :
    spares delivered a := by
  unfold Act.repairing at h
  split at h
  · exact h
  · trivial
  · unfold spares
    split <;> first | exact h.elim | trivial

/-- What is delivered is not put back. -/
theorem spares_exec {α : Type} {delivered : List String} {p : M α} {a : α}
    (hp : p.Does (spares delivered)) (h : Prog.Exec (sem O) p s a s') {id : String}
    (hid : id ∈ delivered) : (s'.accounts ctx).repairs.pending.lookup id =
      (s.accounts ctx).repairs.pending.lookup id := by
  induction h with
  | ret a s => rfl
  | @act _ _ _ s₁ _ _ _ hs _ ih =>
      rw [ih (hp.2 _)]
      have hspare := hp.1
      obtain he | ⟨x,rfl,he⟩ := repairs_of_sem hs ctx
      · rw [he]
      · rw [he]
        cases x with
        | requeue repair =>
            refine RepairQueue.requeue_lookup_ne fun he => ?_
            rw [he] at hid
            exact hspare hid
        | _ => exact hspare.elim

/-- Of what the response delivers, exactly what is not ready stays pending. -/
theorem inject_pending {body : Value} {r : Option (Nat × Value)}
    (h : Prog.Exec (sem O) (inject ctx body) s r s') {id : String}
    (hid : id ∈ delivered_event_ids body) : id ∈ (s'.accounts ctx).repairs.pending ↔
      ∃ r, (s.accounts ctx).repairs.pending.lookup id = some r ∧
        (s.accounts ctx).repairs.is_ready r = false := by
  cases h with
  | @act _ _ _ s₁ _ ready _ hs h =>
      obtain ⟨_,hs₁⟩ := hs
      have hq : (s₁.accounts ctx).repairs = (s.accounts ctx).repairs.take_ready.2 := by
        rw [hs₁,State.account_self]
        rfl
      have hkept : (s'.accounts ctx).repairs.pending.lookup id =
          (s₁.accounts ctx).repairs.pending.lookup id := by
        refine spares_exec ?_ h hid
        change Prog.Does _ (if List.isEmpty ready = true then (pure (some (0,body)) : M _)
          else repair_all ctx _ ready 0 body)
        split_ifs
        · simp
        · exact (repair_all_does ctx ..).mono fun _ h => repairing_spares h
      rw [← AList.lookup_isSome,hkept,hq,Option.isSome_iff_exists]
      exact exists_congr fun r => RepairQueue.take_ready_lookup

variable (dec)

/-- A joined room's timeline brings an event with this ID that cannot be decrypted. -/
def Missed (body : Value) (id : String) : Prop :=
  ∃ r room_id x m, parseRoomId r = some room_id ∧ x ∈ events r body ∧ eventId x = some id ∧
    missed dec room_id x = some m

/-- The client is shown such an event as a placeholder that promises to update. -/
def Promised (body body' : Value) (id : String) : Prop :=
  ∃ r room_id x m, parseRoomId r = some room_id ∧ x ∈ events r body ∧ eventId x = some id ∧
    missed dec room_id x = some m ∧ utd_placeholder x m.1 m.2 true ∈ events r body'

variable {dec}

omit [Codec] in
theorem placeholder_id (x : Value) (reason : String) (session_id : Option String) :
    eventId (utd_placeholder x reason session_id true) = eventId x := by
  have hcopied : ∀ base : Json.Map, base.lookup "event_id" = none →
      (copyKey x base "event_id").lookup "event_id" = x.get "event_id" := by
    intro base hbase
    unfold copyKey
    cases hx : x.get "event_id" with
    | none => exact hbase
    | some v => exact Json.Map.lookup_insert_self ..
  have hget : (utd_placeholder x reason session_id true).get "event_id" = x.get "event_id" := by
    simp only [utd_placeholder,Value.get_object,List.foldl_cons,List.foldl_nil]
    rw [Json.Map.lookup_insert_ne (by decide),SyncRewrite.copyKey_lookup (by decide),
      SyncRewrite.copyKey_lookup (by decide),SyncRewrite.copyKey_lookup (by decide)]
    exact hcopied _ rfl
  rw [eventId,hget,eventId]

omit [Codec] in
theorem exists_made {R : Value → Value → Prop} {xs ys : List Value} (h : List.Forall₂ R xs ys)
    {x : Value} (hx : x ∈ xs) : ∃ y ∈ ys, R x y := by
  induction h with
  | nil => cases hx
  | cons hxy _ ih =>
      obtain rfl | hx := List.mem_cons.mp hx
      · exact ⟨_,List.mem_cons_self ..,hxy⟩
      · obtain ⟨y,hy,hxy⟩ := ih hx
        exact ⟨y,List.mem_cons_of_mem _ hy,hxy⟩

/-- What the pass could not decrypt is a placeholder after it, and is delivered as one. -/
theorem promised_of_missed {body body₁ body' : Value} {n : Nat} {id : String}
    (hmade : ∀ r room_id, parseRoomId r = some room_id → List.Forall₂ (fun x y => ∀ m,
      missed dec room_id x = some m → y = utd_placeholder x m.1 m.2 true) (events r body) (events r body₁))
    (hinject : Prog.Exec (sem O) (inject ctx body₁) s (some (n,body')) s')
    (hmissed : Missed dec body id) : Promised dec body body' id ∧ id ∈ delivered_event_ids body₁ := by
  obtain ⟨r,room_id,x,m,hr,hx,hid,hm⟩ := hmissed
  obtain ⟨y,hy,hxy⟩ := exists_made (hmade r room_id hr) hx
  rw [hxy m hm] at hy
  have hkept := (hinject.wp (Prog.wp_of_every (I := fun _ => True) (fun _ _ _ => trivial)
    (Timelines.inject_events ctx body₁) trivial)).1 n body' rfl r
  refine ⟨⟨r,room_id,x,m,hr,hx,hid,hm,hkept.subset hy⟩,?_⟩
  exact Timelines.delivered_of_events hy ((placeholder_id x m.1 m.2).trans hid)

/-- After the call, run alone, each promised event that the bound on the queue does
not push out is pending, if and only if none of them counted as ready before. -/
theorem promised_stays_tracked (hO : Decides O ctx dec) {body body' : Value}
    (hq : (s.accounts ctx).repairs.InStep)
    (h : Prog.Exec (sem O) (process_sync_body ctx body) s (some body') s') :
    (∀ id, Promised dec body body' id →
      id ∈ ((tracking dec).pass body (s.accounts ctx).repairs).order →
        id ∈ (s'.accounts ctx).repairs.pending) ↔
    ∀ id r, Missed dec body id →
      ((tracking dec).pass body (s.accounts ctx).repairs).pending.lookup id = some r →
        (s.accounts ctx).repairs.is_ready r = false := by
  obtain ⟨body₁,s₁,hdecrypt,h⟩ := Prog.exec_bind.mp h
  obtain ⟨injected,s₂,hinject,h⟩ := Prog.exec_bind.mp h
  obtain ⟨hqueue,hmade⟩ := SyncPass.Spec.pass_exec (S := tracking_spec hO) hdecrypt
  change (s₁.accounts ctx).repairs = (tracking dec).pass body (s.accounts ctx).repairs at hqueue
  have hstep : ((tracking dec).pass body (s.accounts ctx).repairs).InStep := pass_inStep hq body
  have hready : ((tracking dec).pass body (s.accounts ctx).repairs).is_ready =
      (s.accounts ctx).repairs.is_ready := pass_is_ready _ body
  have hs' : s' = s₂ ∧ ∃ n, injected = some (n,body') := by
    cases hi : injected with
    | none => rw [hi] at h; cases h
    | some p =>
        rw [hi] at h
        cases h
        exact ⟨rfl,_,rfl⟩
  obtain ⟨rfl,n,rfl⟩ := hs'
  have hshown : ∀ id, Missed dec body id → Promised dec body body' id ∧
      id ∈ delivered_event_ids body₁ := fun _ => promised_of_missed hmade hinject
  constructor
  · intro hall id r hmissed hl
    obtain ⟨hpromised,hdelivered⟩ := hshown id hmissed
    have hmem : id ∈ ((tracking dec).pass body (s.accounts ctx).repairs).pending :=
      AList.lookup_isSome.mp (by rw [hl]; rfl)
    have hpending := hall id hpromised ((hstep.keys id).mpr hmem)
    obtain ⟨r',hl',hr'⟩ := (inject_pending hinject hdelivered).mp hpending
    rw [hqueue,hl,Option.some.injEq] at hl'
    rw [hqueue,hready,← hl'] at hr'
    exact hr'
  · intro hall id hpromised hrecent
    obtain ⟨r,room_id,x,m,hr,hx,hid,hm,_⟩ := hpromised
    have hmissed : Missed dec body id := ⟨r,room_id,x,m,hr,hx,hid,hm⟩
    have hmem := (hstep.keys id).mp hrecent
    obtain ⟨p,hp⟩ := Option.isSome_iff_exists.mp (AList.lookup_isSome.mpr hmem)
    refine (inject_pending hinject (hshown id hmissed).2).mpr ⟨p,?_,?_⟩
    · rw [hqueue]
      exact hp
    · rw [hqueue,hready]
      exact hall id p hmissed hp

end

local instance : Codec := .plain (fun _ => none) some fun _ _ => 0

open SyncRewrite (bodyOf unread bob fresh keyless process_unread)

def noKey : Oracle := fun _ _ => .ok (.unableToDecrypt "no key" none)

theorem keyless_decides : Decides keyless bob noKey := by
  intro raw room_id w r w' h
  exact h

theorem unread_missed : Missed noKey (bodyOf unread) "$e" :=
  ⟨"!r","!r",unread,("no key",none),rfl,List.mem_singleton_self _,rfl,rfl⟩

/-- A first placeholder stays tracked. -/
theorem promised_stays_tracked_one : ∃ body' s',
    Prog.Exec (sem keyless) (process_sync_body bob (bodyOf unread)) fresh (some body') s' ∧
    Missed noKey (bodyOf unread) "$e" ∧ ∀ id, Promised noKey (bodyOf unread) body' id →
      id ∈ ((tracking noKey).pass (bodyOf unread) (fresh.accounts bob).repairs).order →
        id ∈ (s'.accounts bob).repairs.pending := by
  obtain ⟨s',hexec⟩ := process_unread
  have hfresh : (fresh.accounts bob).repairs.InStep := RepairQueue.default_inStep
  refine ⟨_,s',hexec,unread_missed,(promised_stays_tracked keyless_decides hfresh hexec).mpr ?_⟩
  intro id r _ _
  cases r.session_id with
  | none => simp [RepairQueue.is_ready,fresh,Account.default,RepairQueue.default]
  | some sid => simp [RepairQueue.is_ready,fresh,Account.default,RepairQueue.default]

def pendingUnread : PendingRepair := ⟨"!r","$e",none,unread⟩

/-- The event is pending already, and keys were imported in bulk. -/
def imported : State Unit := fresh.account bob { fresh.accounts bob with
  repairs := (RepairQueue.default.track "!r" unread none).note_bulk_import }

theorem imported_inStep : (imported.accounts bob).repairs.InStep :=
  (RepairQueue.default_inStep.track "!r" unread none).note_bulk_import

theorem process_imported : ∃ s', Prog.Exec (sem keyless) (process_sync_body bob (bodyOf unread))
      imported (some (bodyOf (utd_placeholder unread "no key" none true))) s' ∧
    "$e" ∉ (s'.accounts bob).repairs.pending := by
  rw [SyncRewrite.process_bodyOf bob unread rfl]
  have hunread : keyless (.olm bob (.tryDecryptRoomEvent unread "!r")) ()
      (.ok (.unableToDecrypt "no key" none)) () := rfl
  have hdelivered : pendingUnread.event_id ∈ delivered_event_ids (bodyOf (utd_placeholder unread "no key" none true)) :=
    Timelines.delivered_of_events (r := "!r") (e := utd_placeholder unread "no key" none true)
      (List.mem_singleton_self _) (placeholder_id unread "no key" none)
  have hskip : repair_all bob
      (delivered_event_ids (bodyOf (utd_placeholder unread "no key" none true)))
      [pendingUnread] 0 (bodyOf (utd_placeholder unread "no key" none true)) =
        .ret (some (0,bodyOf (utd_placeholder unread "no key" none true))) := by
    rw [repair_all,if_pos hdelivered]
    rfl
  have hinject : ∀ t : State Unit, [pendingUnread] = (t.accounts bob).repairs.take_ready.1 →
      Prog.Exec (sem keyless) (inject bob (bodyOf (utd_placeholder unread "no key" none true))) t
        (some (0,bodyOf (utd_placeholder unread "no key" none true)))
        (t.account bob { t.accounts bob with repairs := (t.accounts bob).repairs.take_ready.2 }) := by
    intro t ht
    have hrun : Prog.Exec (sem keyless) (.act (.repairs bob .takeReady) fun ready =>
        if List.isEmpty ready = true then
          .ret (some (0,bodyOf (utd_placeholder unread "no key" none true)))
        else repair_all bob
          (delivered_event_ids (bodyOf (utd_placeholder unread "no key" none true))) ready 0
          (bodyOf (utd_placeholder unread "no key" none true))) t
        (some (0,bodyOf (utd_placeholder unread "no key" none true)))
        (t.account bob { t.accounts bob with repairs := (t.accounts bob).repairs.take_ready.2 }) := by
      refine .act (r := [pendingUnread]) ⟨ht,rfl⟩ ?_
      rw [if_neg (by decide),hskip]
      exact .ret _ _
    exact hrun
  exact ⟨_,.act (r := ()) ⟨rfl,rfl⟩ (.act (sem_outside trivial hunread) (.act (r := ()) ⟨rfl,rfl⟩
    (Prog.exec_bind.mpr ⟨_,_,.ret _ _,Prog.exec_bind.mpr ⟨_,_,hinject _ rfl,.ret _ _⟩⟩))),
    by decide⟩

/-- A placeholder delivered again while a bulk import made it ready is forgotten,
though the client is promised that it will update. -/
theorem ready_promise_is_forgotten : ∃ body' s', Decides keyless bob noKey ∧
    (imported.accounts bob).repairs.InStep ∧
    Prog.Exec (sem keyless) (process_sync_body bob (bodyOf unread)) imported (some body') s' ∧
    ¬ ∀ id, Promised noKey (bodyOf unread) body' id →
      id ∈ ((tracking noKey).pass (bodyOf unread) (imported.accounts bob).repairs).order →
        id ∈ (s'.accounts bob).repairs.pending := by
  obtain ⟨s',hexec,hgone⟩ := process_imported
  refine ⟨_,s',keyless_decides,imported_inStep,hexec,fun h => hgone (h "$e" ?_ (by decide))⟩
  exact ⟨"!r","!r",unread,("no key",none),rfl,List.mem_singleton_self _,rfl,rfl,
    List.mem_singleton_self _⟩

end EmentE2ee.Promises
