import EmentE2ee.Crypto.RepairQueueRuns

/-!
# Waking a parked sync

An incremental sync listens for the notification, looks whether anything is
ready, and then waits for the homeserver or the notification. Notes of keys
signal everyone who listens. Flags can be left behind when a ready entry is
evicted or replaced; a tracked event that they make ready signals nobody.
-/
namespace EmentE2ee.WakeUps

open Concurrent
open Json (Value)
open RepairQueueRuns (Shared Op)

inductive Phase where
  | listening
  | waiting
  deriving DecidableEq, Repr

/-- A sync that has enabled its notification, and whether it was signalled. -/
structure Listener where
  phase : Phase
  signalled : Bool
  deriving DecidableEq, Repr

structure Parking where
  shared : Shared
  syncs : Nat → Option Listener

/-- Whether an operation signals all enabled notifications. -/
def wakes (q : RepairQueue) : Op → Bool
  | .noteRoomKeys session_ids => !q.pending.entries.isEmpty &&
      { q with ready_sessions := q.ready_sessions ∪ session_ids.toFinset }.any_ready
  | .noteBulkImport => !q.pending.entries.isEmpty
  | _ => false

def Listener.signal (l : Listener) (woken : Bool) : Listener :=
  { l with signalled := l.signalled || woken }

inductive Input where
  | op (o : Op)
  | listen (sync : Nat)
  | look (sync : Nat)
  /-- The homeserver has answered, the notification has come, or the sync is dropped. -/
  | leave (sync : Nat)

/-- Where a sync stands once it has looked: one that finds something is answered. -/
def looked (q : RepairQueue) (signalled : Bool) : Option Listener :=
  if q.has_ready then none else some ⟨.waiting,signalled⟩

inductive Step : Parking → Input → Parking → Prop
  | op {s : Parking} {o : Op} {shared : Shared} : RepairQueueRuns.Step s.shared o shared →
      Step s (.op o) ⟨shared,fun i => (s.syncs i).map (·.signal (wakes s.shared.queue o))⟩
  | listen {s : Parking} {i : Nat} : s.syncs i = none →
      Step s (.listen i) { s with syncs := Function.update s.syncs i (some ⟨.listening,false⟩) }
  | look {s : Parking} {i : Nat} {signalled : Bool} : s.syncs i = some ⟨.listening,signalled⟩ →
      Step s (.look i)
        { s with syncs := Function.update s.syncs i (looked s.shared.queue signalled) }
  | leave (s : Parking) (i : Nat) :
      Step s (.leave i) { s with syncs := Function.update s.syncs i none }

/-- A sync that waits while something is ready has been signalled. -/
def NoneAsleep (s : Parking) : Prop :=
  ∀ i signalled, s.syncs i = some ⟨.waiting,signalled⟩ →
    (∃ id r, s.shared.queue.pending.lookup id = some r ∧ s.shared.queue.is_ready r = true) →
      signalled = true

/-- The record an operation puts into the queue. -/
def puts (q : RepairQueue) : Op → Option PendingRepair
  | .track room_id event session_id => (eventId event).bind fun id =>
      if id ∈ q.pending then none else some ⟨room_id,id,session_id,event⟩
  | .requeue repair => some repair
  | _ => none

/-- While a sync waits that nobody has signalled, nothing is tracked or put back
that counts as ready at once, unless something pending was ready before. -/
def fresh (s : Parking) : Input → Prop
  | .op o => (∃ i, s.syncs i = some ⟨.waiting,false⟩) → ∀ r, puts s.shared.queue o = some r →
      s.shared.queue.is_ready r = true → s.shared.queue.any_ready = true
  | _ => True

section
variable {q : RepairQueue}

theorem note_room_keys_wakes {session_ids : List String}
    (h : (q.note_room_keys session_ids).any_ready = true) :
    wakes q (.noteRoomKeys session_ids) = true := by
  simp only [RepairQueue.note_room_keys] at h
  split_ifs at h with hempty hany
  · have hnil : q.pending.entries = [] := List.isEmpty_iff.mp hempty
    simp [RepairQueue.any_ready,hnil] at h
  · simp [wakes,hempty,hany]
  · obtain ⟨id,r,hl,hr⟩ := (RepairQueue.any_ready_iff _).mp h
    have hmore : (_ : RepairQueue).any_ready = true := (RepairQueue.any_ready_iff
      { q with ready_sessions := q.ready_sessions ∪ session_ids.toFinset }).mpr ⟨id,r,hl,by
        have hall : q.retry_all = true := by simpa [RepairQueue.is_ready] using hr
        simp [RepairQueue.is_ready,hall]⟩
    exact (hany hmore).elim

theorem note_bulk_import_wakes (h : q.note_bulk_import.any_ready = true) :
    wakes q .noteBulkImport = true := by
  unfold RepairQueue.note_bulk_import at h
  split_ifs at h with hempty
  · have hnil : q.pending.entries = [] := List.isEmpty_iff.mp hempty
    simp [RepairQueue.any_ready,hnil] at h
  · simp [wakes,hempty]

/-- An operation that makes something ready signals, except by what it puts in. -/
theorem ready_wakes {s s' : Shared} {o : Op} (hstep : RepairQueueRuns.Step s o s')
    (hg : ∀ r, puts s.queue o = some r → s.queue.is_ready r = true → s.queue.any_ready = true)
    (h : s'.queue.any_ready = true) : s.queue.any_ready = true ∨ wakes s.queue o = true := by
  cases hstep with
  | track room_id event session_id =>
      obtain ⟨id,r,hl,hr⟩ := (RepairQueue.any_ready_iff _).mp h
      rw [RepairQueue.track_is_ready] at hr
      obtain hold | ⟨hid,he,rfl⟩ := RepairQueue.track_lookup hl
      · exact .inl ((RepairQueue.any_ready_iff _).mpr ⟨id,r,hold,hr⟩)
      · exact .inl (hg _ (by simp [puts,he,hid]) hr)
  | noteRoomKeys session_ids => exact .inr (note_room_keys_wakes h)
  | noteBulkImport => exact .inr (note_bulk_import_wakes h)
  | takeReady =>
      obtain ⟨id,r,hl,hr⟩ := (RepairQueue.any_ready_iff _).mp h
      have hnone : s.queue.take_ready.2.is_ready r = false := by
        cases hsid : r.session_id <;> simp [RepairQueue.is_ready,RepairQueue.take_ready,hsid]
      rw [hnone] at hr
      cases hr
  | requeue _ =>
      obtain ⟨id,r,hl,hr⟩ := (RepairQueue.any_ready_iff _).mp h
      rw [RepairQueue.requeue_is_ready] at hr
      obtain hold | rfl := RepairQueue.requeue_lookup hl
      · exact .inl ((RepairQueue.any_ready_iff _).mpr ⟨id,r,hold,hr⟩)
      · exact .inl (hg _ rfl hr)
  | settle _ => exact .inl h

end

theorem step_noneAsleep {s s' : Parking} {i : Input} (h : NoneAsleep s) (hstep : Step s i s')
    (hg : fresh s i) : NoneAsleep s' := by
  intro j signalled hj hready
  have hany := (RepairQueue.any_ready_iff _).mpr hready
  cases hstep with
  | @op o shared hop =>
      obtain ⟨l,hl,hsig⟩ := Option.map_eq_some_iff.mp hj
      have hphase : l.phase = .waiting := congrArg Listener.phase hsig
      have hsignalled : (l.signalled || wakes s.shared.queue o) = signalled :=
        congrArg Listener.signalled hsig
      have hwaits : s.syncs j = some ⟨.waiting,l.signalled⟩ := by rw [hl,← hphase]
      cases hs : l.signalled with
      | true => rw [← hsignalled,hs,Bool.true_or]
      | false =>
          rw [hs] at hwaits
          obtain hbefore | hwake := ready_wakes hop (hg ⟨j,hwaits⟩) hany
          · have hold := h j false hwaits ((RepairQueue.any_ready_iff _).mp hbefore)
            cases hold
          · rw [← hsignalled,hwake,Bool.or_true]
  | @listen k hk =>
      change Function.update s.syncs k _ j = _ at hj
      by_cases hjk : j = k
      · subst hjk
        rw [Function.update_self] at hj
        cases hj
      · rw [Function.update_of_ne hjk] at hj
        exact h j signalled hj hready
  | @look k b hk =>
      change Function.update s.syncs k _ j = _ at hj
      by_cases hjk : j = k
      · subst hjk
        have hnot : s.shared.queue.has_ready = true := hany
        rw [Function.update_self,looked,if_pos hnot] at hj
        cases hj
      · rw [Function.update_of_ne hjk] at hj
        exact h j signalled hj hready
  | leave k =>
      change Function.update s.syncs k _ j = _ at hj
      by_cases hjk : j = k
      · subst hjk
        rw [Function.update_self] at hj
        cases hj
      · rw [Function.update_of_ne hjk] at hj
        exact h j signalled hj hready

def start : Parking := ⟨⟨.default,[]⟩,fun _ => none⟩

/-- In every run in which left-over flags make nothing ready that is tracked or
put back before a waiting sync, one that waits while something is ready has been
signalled. -/
theorem parked_syncs_are_signalled {s : Parking} {is : List Input}
    (hrun : Run (fun s i s' => Step s i s' ∧ fresh s i) start is s) : NoneAsleep s :=
  hrun.invariant (I := NoneAsleep) (fun i signalled h => by cases h)
    fun _ _ _ hs hstep => step_noneAsleep hs hstep.1 hstep.2

def eventOf (id : String) : Value := .object [("event_id",.string id)]

/-- A key arrives while a sync waits. -/
theorem parked_syncs_are_signalled_one : ∃ s : Parking, s.syncs 0 = some ⟨.waiting,true⟩ ∧
    s.shared.queue.any_ready = true ∧ NoneAsleep s := by
  have h₁ : Run (fun s i s' => Step s i s' ∧ fresh s i) start _ _ :=
    .snoc .nil ⟨.op (.track _ "!r" (eventOf "$e") (some "S")),fun ⟨_,h⟩ => by cases h⟩
  have h₂ := h₁.snoc ⟨.listen (i := 0) rfl,trivial⟩
  have h₃ := h₂.snoc ⟨.look (i := 0) rfl,trivial⟩
  have h₄ := h₃.snoc ⟨.op (.noteRoomKeys _ ["S"]),fun _ _ h => by cases h⟩
  exact ⟨_,rfl,by decide,parked_syncs_are_signalled h₄⟩

def fillerId (n : Nat) : String := String.ofList (List.replicate n 'x')

theorem fillerId_ne {n m : Nat} (h : n ≠ m) : fillerId n ≠ fillerId m := by
  intro he
  have hlen := congrArg String.length he
  simp [fillerId] at hlen
  exact h hlen

theorem fillerId_not_event (n : Nat) {id : String} (h : '$' ∈ id.toList) : fillerId n ≠ id := by
  intro he
  rw [← he,fillerId,String.toList_ofList] at h
  have hx := List.eq_of_mem_replicate h
  cases hx

/-- An entry that is ready, and then so many others that they may evict it. -/
structure Filled (n : Nat) (s : Parking) : Prop where
  inStep : s.shared.queue.InStep
  order : s.shared.queue.order <:+ "$e" :: (List.range n).map fillerId
  flags : ∀ r, s.shared.queue.is_ready r = true ↔ r.session_id = some "S"
  sessions : ∀ id r, s.shared.queue.pending.lookup id = some r → id = "$e" ∨ r.session_id = some "T"
  syncs : s.syncs = fun _ => none

theorem filled_step {n : Nat} {s : Parking} (h : Filled n s) : Filled (n + 1)
    ⟨{ s.shared with queue := s.shared.queue.track "!r" (eventOf (fillerId n)) (some "T") },
      fun i => (s.syncs i).map (·.signal false)⟩ := by
  have hnew : fillerId n ∉ s.shared.queue.pending := by
    intro hp
    have ho := h.order.subset ((h.inStep.keys _).mpr hp)
    obtain he | hm := List.mem_cons.mp ho
    · exact fillerId_not_event n (by decide) he
    · obtain ⟨m,hm,he⟩ := List.mem_map.mp hm
      exact fillerId_ne (List.mem_range.mp hm).ne he
  have hid : eventId (eventOf (fillerId n)) = some (fillerId n) := rfl
  refine ⟨h.inStep.track "!r" (eventOf (fillerId n)) (some "T"),?_,fun r => ?_,fun id r hl => ?_,?_⟩
  · have hsuffix := RepairQueue.track_new hid hnew "!r" (some "T")
    obtain ⟨t,ht⟩ := h.order
    have hmore : s.shared.queue.order ++ [fillerId n] <:+
        "$e" :: (List.range (n + 1)).map fillerId := by
      refine ⟨t,?_⟩
      rw [← List.append_assoc,ht,List.range_succ,List.map_append]
      rfl
    exact hsuffix.trans hmore
  · rw [RepairQueue.track_is_ready]
    exact h.flags r
  · obtain hold | ⟨_,_,rfl⟩ := RepairQueue.track_lookup hl
    · exact h.sessions id r hold
    · exact .inr rfl
  · rw [h.syncs]
    rfl

theorem filled_run (n : Nat) : ∃ is s, Run Step start is s ∧ Filled n s := by
  induction n with
  | zero =>
      have h₁ : Run Step start _ _ :=
        .snoc .nil (.op (.track _ "!r" (eventOf "$e") (some "S")))
      have h₂ := h₁.snoc (.op (.noteRoomKeys _ ["S"]))
      have hinit : start.shared.queue.InStep := RepairQueue.default_inStep
      have hinStep := (hinit.track "!r" (eventOf "$e") (some "S")).note_room_keys ["S"]
      refine ⟨_,_,h₂,hinStep,?_,fun r => ?_,fun id r hl => ?_,rfl⟩
      · exact List.suffix_rfl
      · have hflags : (((RepairQueue.default.track "!r" (eventOf "$e") (some "S")).note_room_keys
            ["S"]).is_ready r = true) ↔ r.session_id = some "S" := by
          have hall : ((RepairQueue.default.track "!r" (eventOf "$e") (some "S")).note_room_keys
            ["S"]).retry_all = false := by decide
          have hsessions : ((RepairQueue.default.track "!r" (eventOf "$e")
            (some "S")).note_room_keys ["S"]).ready_sessions = {"S"} := by decide
          rw [RepairQueue.is_ready,hall,hsessions]
          cases r.session_id <;> simp
        exact hflags
      · rw [(RepairQueue.note_room_keys_pending _ _).1] at hl
        obtain hold | ⟨_,he,_⟩ := RepairQueue.track_lookup hl
        · simp [start,RepairQueue.default] at hold
        · have hid : some "$e" = some id := he
          exact .inl (Option.some.inj hid).symm
  | succ n ih =>
      obtain ⟨is,s,hrun,hs⟩ := ih
      exact ⟨_,_,hrun.snoc (.op (.track _ "!r" (eventOf (fillerId n)) (some "T"))),filled_step hs⟩

/-- With the queue full, the ready entry is gone but its flag is not. -/
theorem Filled.not_ready {s : Parking} (h : Filled MAX_PENDING s) :
    s.shared.queue.any_ready = false := by
  rw [← Bool.not_eq_true]
  intro hany
  obtain ⟨id,r,hl,hr⟩ := (RepairQueue.any_ready_iff _).mp hany
  have hS := (h.flags r).mp hr
  obtain rfl | hT := h.sessions id r hl
  · have hmem := s.shared.queue.listed "$e" r hl
    obtain ⟨t,ht⟩ := h.order
    cases t with
    | nil =>
        have hlen := h.inStep.bound
        have ht' : s.shared.queue.order = "$e" :: (List.range MAX_PENDING).map fillerId := ht
        rw [ht',List.length_cons,List.length_map,List.length_range] at hlen
        omega
    | cons x t =>
        have htail : t ++ s.shared.queue.order = (List.range MAX_PENDING).map fillerId :=
          (List.cons.inj ht).2
        have hin := List.mem_append_right t hmem
        rw [htail] at hin
        obtain ⟨m,_,he⟩ := List.mem_map.mp hin
        exact fillerId_not_event m (by decide) he
  · rw [hS] at hT
    exact absurd hT (by decide)

/-- The entry a key made ready is evicted and its flag stays. A sync then waits,
and an event of the same session is tracked: it is ready and nobody is signalled. -/
theorem left_over_flags_wake_nobody : ∃ is s, Run Step start is s ∧ ¬ NoneAsleep s := by
  obtain ⟨is,s,hrun,hs⟩ := filled_run MAX_PENDING
  have hlisten := hrun.snoc (.listen (i := 0) (congrFun hs.syncs 0))
  have hlook := hlisten.snoc (.look (i := 0) (Function.update_self 0 _ s.syncs))
  have htrack := hlook.snoc (.op (.track _ "!r" (eventOf "$f") (some "S")))
  have hnew : "$f" ∉ s.shared.queue.pending := by
    intro hp
    have ho := hs.order.subset ((hs.inStep.keys _).mpr hp)
    obtain he | hm := List.mem_cons.mp ho
    · exact absurd he (by decide)
    · obtain ⟨m,_,he⟩ := List.mem_map.mp hm
      exact fillerId_not_event m (by decide) he
  have hid : eventId (eventOf "$f") = some "$f" := rfl
  have htracked := hs.inStep.tracked hid hnew "!r" (some "S")
  refine ⟨_,_,htrack,fun hnone => ?_⟩
  have hwaits : looked s.shared.queue false = some ⟨.waiting,false⟩ := if_neg (by
    rw [RepairQueue.has_ready,hs.not_ready]
    decide)
  have hsleeping := hnone 0 false
  dsimp only at hsleeping
  rw [Function.update_self,hwaits] at hsleeping
  refine absurd (hsleeping rfl ⟨"$f",_,htracked,?_⟩) (by decide)
  rw [RepairQueue.track_is_ready]
  exact (hs.flags _).mpr rfl

end EmentE2ee.WakeUps
