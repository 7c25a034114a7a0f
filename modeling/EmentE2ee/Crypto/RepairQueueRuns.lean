import EmentE2ee.Concurrent.Run
import EmentE2ee.Crypto.RepairQueue

/-!
# The order of the repair queue, over runs

Concurrent requests track events, note keys, take what is ready and put some of
it back. Every operation but the last keeps the order and the pending entries in
step and within the bound; putting back does too where the event is not pending
and there is room for it.
-/
namespace EmentE2ee

open Json (Value)

namespace RepairQueue

/-- Snapshot of what is waiting. -/
def snapshot (q : RepairQueue) : List PendingRepair := q.order.filterMap q.pending.lookup

/-- Each pending record is about the event it holds. -/
def OwnEvents (q : RepairQueue) : Prop :=
  ∀ id r, q.pending.lookup id = some r → eventId r.event = some id

/-- The order lists exactly what is pending, once, within the bound. -/
structure InStep (q : RepairQueue) : Prop where
  nodup : q.order.Nodup
  keys : ∀ id, id ∈ q.order ↔ id ∈ q.pending
  bound : q.order.length ≤ MAX_PENDING

theorem default_inStep : default.InStep where
  nodup := List.nodup_nil
  keys id := by simp [default]
  bound := Nat.zero_le _

theorem evict_suffix (ids : List String) (p : Pending) : (evict ids p).1 <:+ ids := by
  induction ids generalizing p with
  | nil => exact List.suffix_rfl
  | cons id ids ih =>
      unfold evict
      split_ifs
      · have h := ih (p.erase id)
        exact h.trans (List.suffix_cons id ids)
      · exact List.suffix_rfl

theorem evict_length (ids : List String) (p : Pending) :
    (evict ids p).1.length ≤ MAX_PENDING := by
  induction ids generalizing p with
  | nil => exact Nat.zero_le _
  | cons id ids ih =>
      unfold evict
      split_ifs with h
      · exact ih (p.erase id)
      · exact Nat.le_of_not_lt h

theorem evict_keys {ids : List String} {p : Pending} (hn : ids.Nodup)
    (hk : ∀ id, id ∈ ids ↔ id ∈ p) (id : String) :
    id ∈ (evict ids p).1 ↔ id ∈ (evict ids p).2 := by
  induction ids generalizing p with
  | nil => exact hk id
  | cons x ids ih =>
      have hx : x ∉ ids := (List.nodup_cons.mp hn).1
      unfold evict
      split_ifs
      · refine ih (List.nodup_cons.mp hn).2 fun id => ?_
        have h := hk id
        rw [List.mem_cons] at h
        rw [AList.mem_erase]
        constructor
        · intro hid
          exact ⟨fun he => hx (he ▸ hid),h.mp (.inr hid)⟩
        · rintro ⟨hne,hid⟩
          exact (h.mpr hid).resolve_left hne
      · exact hk id

variable {q : RepairQueue}

theorem InStep.track (h : q.InStep) (room_id : RoomId) (event : Value)
    (session_id : Option String) : (q.track room_id event session_id).InStep := by
  unfold RepairQueue.track
  cases eventId event with
  | none => exact h
  | some id =>
      dsimp only
      split_ifs with hp
      · exact h
      have hnew : id ∉ q.order := fun ho => hp ((h.keys id).mp ho)
      have hn : (q.order ++ [id]).Nodup :=
        List.nodup_append.mpr ⟨h.nodup,List.nodup_singleton id,fun a ha b hb he => by
          rw [List.mem_singleton.mp hb] at he
          exact hnew (he ▸ ha)⟩
      have hk : ∀ x, x ∈ q.order ++ [id] ↔
          x ∈ q.pending.insert id ⟨room_id,id,session_id,event⟩ := by
        intro x
        rw [List.mem_append,List.mem_singleton,AList.mem_insert,h.keys,or_comm]
      exact ⟨(evict_suffix _ _).sublist.nodup hn,evict_keys hn hk,evict_length _ _⟩

/-- A new event goes to the end, and room for it is made at the front. -/
theorem track_new {event : Value} {id : String} (hid : eventId event = some id)
    (hp : id ∉ q.pending) (room_id : RoomId) (session_id : Option String) :
    (q.track room_id event session_id).order <:+ q.order ++ [id] := by
  simp only [RepairQueue.track,hid,if_neg hp]
  exact evict_suffix _ _

theorem track_order (q : RepairQueue) (room_id : RoomId) (event : Value)
    (session_id : Option String) : (q.track room_id event session_id).order = q.order ∨
      ∃ id, eventId event = some id ∧ id ∉ q.pending ∧
        (q.track room_id event session_id).order <:+ q.order ++ [id] := by
  cases hid : eventId event with
  | none =>
      left
      simp only [RepairQueue.track,hid]
  | some id =>
      by_cases hp : id ∈ q.pending
      · left
        simp only [RepairQueue.track,hid,if_pos hp]
      · exact .inr ⟨id,rfl,hp,track_new hid hp room_id session_id⟩

/-- The newest entry is never evicted. -/
theorem evict_ne_nil {ids : List String} (p : Pending) (h : ids ≠ []) : (evict ids p).1 ≠ [] := by
  induction ids generalizing p with
  | nil => exact (h rfl).elim
  | cons id ids ih =>
      unfold evict
      split_ifs with hlong
      · refine ih (p.erase id) fun hnil => ?_
        rw [hnil] at hlong
        simp [MAX_PENDING] at hlong
      · exact List.cons_ne_nil id ids

theorem InStep.tracked (h : q.InStep) {event : Value} {id : String} (hid : eventId event = some id)
    (hp : id ∉ q.pending) (room_id : RoomId) (session_id : Option String) :
    (q.track room_id event session_id).pending.lookup id = some ⟨room_id,id,session_id,event⟩ := by
  have hne : (q.track room_id event session_id).order ≠ [] := by
    simp only [RepairQueue.track,hid,if_neg hp]
    exact evict_ne_nil _ (by simp)
  have hmem : id ∈ (q.track room_id event session_id).order := by
    obtain ⟨t,ht⟩ := track_new hid hp room_id session_id
    obtain ⟨ids,x,hx⟩ := (q.track room_id event session_id).order.eq_nil_or_concat.resolve_left hne
    rw [hx,List.concat_eq_append,← List.append_assoc] at ht
    have hlast : x = id := List.singleton_inj.mp (List.append_inj_right' ht rfl)
    rw [hx,hlast,List.concat_eq_append]
    exact List.mem_append_right _ (List.mem_singleton_self id)
  have hpending := ((h.track room_id event session_id).keys id).mp hmem
  obtain ⟨r,hr⟩ := Option.isSome_iff_exists.mp (AList.lookup_isSome.mpr hpending)
  obtain hold | ⟨_,_,hrec⟩ := track_lookup hr
  · exact (hp (AList.lookup_isSome.mp (by rw [hold]; rfl))).elim
  · rw [hr,hrec]

theorem InStep.note_room_keys (h : q.InStep) (session_ids : List String) :
    (q.note_room_keys session_ids).InStep := by
  obtain ⟨hp,ho⟩ := q.note_room_keys_pending session_ids
  refine ⟨ho ▸ h.nodup,fun id => ?_,ho ▸ h.bound⟩
  rw [hp,ho]
  exact h.keys id

theorem InStep.note_bulk_import (h : q.InStep) : q.note_bulk_import.InStep := by
  obtain ⟨hp,ho⟩ := q.note_bulk_import_pending
  refine ⟨ho ▸ h.nodup,fun id => ?_,ho ▸ h.bound⟩
  rw [hp,ho]
  exact h.keys id

theorem take_ready_order (q : RepairQueue) :
    q.take_ready.2.order = q.order.filter (· ∉ q.ready_ids) := retain_order ..

theorem InStep.take_ready (h : q.InStep) : q.take_ready.2.InStep := by
  have ho := q.take_ready_order
  refine ⟨?_,fun id => ?_,?_⟩
  · rw [ho]
    exact h.nodup.filter _
  · have hpending : id ∈ q.take_ready.2.pending ↔
        ∃ r, q.pending.lookup id = some r ∧ q.is_ready r = false := by
      rw [← AList.lookup_isSome,Option.isSome_iff_exists]
      exact exists_congr fun r => take_ready_lookup
    rw [ho,hpending,List.mem_filter,decide_eq_true_eq,h.keys,mem_ready_ids,
      ← AList.lookup_isSome,Option.isSome_iff_exists]
    constructor
    · rintro ⟨⟨r,hr⟩,hready⟩
      refine ⟨r,hr,?_⟩
      by_contra hne
      exact hready ⟨r,hr,by simpa using hne⟩
    · rintro ⟨r,hr,hready⟩
      refine ⟨⟨r,hr⟩,?_⟩
      rintro ⟨r',hr',hready'⟩
      rw [hr,Option.some.injEq] at hr'
      rw [← hr',hready] at hready'
      cases hready'
  · rw [ho]
    exact (List.length_filter_le _ _).trans h.bound

/-- Putting an entry back keeps the queue in step exactly if its event is not
pending and there is room for it. -/
theorem InStep.requeue_iff (h : q.InStep) (repair : PendingRepair) : (q.requeue repair).InStep ↔
    repair.event_id ∉ q.pending ∧ q.order.length < MAX_PENDING := by
  constructor
  · intro h'
    constructor
    · intro hp
      have ho := (h.keys _).mpr hp
      have hn : (q.order ++ [repair.event_id]).Nodup := h'.nodup
      exact (List.nodup_append.mp hn).2.2 _ ho _ (List.mem_singleton_self _) rfl
    · have hb : (q.order ++ [repair.event_id]).length ≤ MAX_PENDING := h'.bound
      rw [List.length_append,List.length_singleton] at hb
      omega
  · rintro ⟨hp,hroom⟩
    have hnew : repair.event_id ∉ q.order := fun ho => hp ((h.keys _).mp ho)
    refine ⟨?_,fun id => ?_,?_⟩
    · refine List.nodup_append.mpr ⟨h.nodup,List.nodup_singleton _,fun a ha b hb he => ?_⟩
      rw [List.mem_singleton.mp hb] at he
      exact hnew (he ▸ ha)
    · change id ∈ q.order ++ [repair.event_id] ↔ id ∈ q.pending.insert repair.event_id repair
      rw [List.mem_append,List.mem_singleton,AList.mem_insert,h.keys,or_comm]
    · change (q.order ++ [repair.event_id]).length ≤ MAX_PENDING
      rw [List.length_append,List.length_singleton]
      omega

/-- The snapshot has one entry for each listed event, in order. -/
theorem InStep.snapshot_ids (h : q.InStep) : q.snapshot.map PendingRepair.event_id = q.order := by
  have hall : ∀ ids : List String, (∀ id ∈ ids, id ∈ q.pending) →
      (ids.filterMap q.pending.lookup).map PendingRepair.event_id = ids := by
    intro ids hids
    induction ids with
    | nil => rfl
    | cons id ids ih =>
        have hid : id ∈ q.pending := hids id (List.mem_cons_self ..)
        obtain ⟨r,hr⟩ := Option.isSome_iff_exists.mp (AList.lookup_isSome.mpr hid)
        have hname := q.named id r hr
        have htail := ih fun x hx => hids x (List.mem_cons_of_mem _ hx)
        rw [List.filterMap_cons_some (f := fun a => q.pending.lookup a) hr,List.map_cons,hname,htail]
  exact hall q.order fun id hid => (h.keys id).mp hid

theorem InStep.pending_bound (h : q.InStep) : q.pending.keys.length ≤ MAX_PENDING := by
  have hperm : q.pending.keys.Perm q.order :=
    (List.perm_ext_iff_of_nodup q.pending.keys_nodup h.nodup).mpr fun id => by
      rw [h.keys,AList.mem_keys]
  rw [hperm.length_eq]
  exact h.bound

end RepairQueue

namespace RepairQueueRuns

open Concurrent

/-- The queue, and the entries taken from it that are not settled yet. -/
structure Shared where
  queue : RepairQueue
  taken : List PendingRepair

inductive Op where
  | track (room_id : RoomId) (event : Value) (session_id : Option String)
  | noteRoomKeys (session_ids : List String)
  | noteBulkImport
  | takeReady
  | requeue (repair : PendingRepair)
  /-- A taken entry is repaired, or needs no repair. -/
  | settle (repair : PendingRepair)

/-- The operations of concurrent requests, one at a time. Only what was taken is
put back, once. -/
inductive Step : Shared → Op → Shared → Prop
  | track (s : Shared) (room_id : RoomId) (event : Value) (session_id : Option String) :
      Step s (.track room_id event session_id)
        { s with queue := s.queue.track room_id event session_id }
  | noteRoomKeys (s : Shared) (session_ids : List String) :
      Step s (.noteRoomKeys session_ids) { s with queue := s.queue.note_room_keys session_ids }
  | noteBulkImport (s : Shared) :
      Step s .noteBulkImport { s with queue := s.queue.note_bulk_import }
  | takeReady (s : Shared) :
      Step s .takeReady ⟨s.queue.take_ready.2,s.taken ++ s.queue.take_ready.1⟩
  | requeue {s : Shared} {repair : PendingRepair} {xs ys : List PendingRepair} :
      s.taken = xs ++ repair :: ys → Step s (.requeue repair) ⟨s.queue.requeue repair,xs ++ ys⟩
  | settle {s : Shared} {repair : PendingRepair} {xs ys : List PendingRepair} :
      s.taken = xs ++ repair :: ys → Step s (.settle repair) ⟨s.queue,xs ++ ys⟩

/-- An entry is put back only where its event is not pending and there is room. -/
def roomy (s : Shared) : Op → Prop
  | .requeue repair => repair.event_id ∉ s.queue.pending ∧ s.queue.order.length < MAX_PENDING
  | _ => True

theorem step_inStep {s s' : Shared} {op : Op} (h : s.queue.InStep) (hstep : Step s op s')
    (hg : roomy s op) : s'.queue.InStep := by
  cases hstep with
  | track room_id event session_id => exact h.track room_id event session_id
  | noteRoomKeys session_ids => exact h.note_room_keys session_ids
  | noteBulkImport => exact h.note_bulk_import
  | takeReady => exact h.take_ready
  | requeue _ => exact (h.requeue_iff _).mpr hg
  | settle _ => exact h

/-- The representation invariant, and what it says of the snapshot and of eviction. -/
structure Represents (q : RepairQueue) : Prop where
  nodup : q.order.Nodup
  keys : ∀ id, id ∈ q.order ↔ id ∈ q.pending
  stored : ∀ id r, q.pending.lookup id = some r → r.event_id = id
  bound : q.pending.keys.length ≤ MAX_PENDING
  snapshot : q.snapshot.map PendingRepair.event_id = q.order
  oldest : ∀ room_id event session_id, (q.track room_id event session_id).order = q.order ∨
    ∃ id, eventId event = some id ∧ id ∉ q.pending ∧
      (q.track room_id event session_id).order <:+ q.order ++ [id]

/-- In every run that puts entries back only where there is room, and their
events are not pending, the queue represents what is waiting. -/
theorem queue_represents {s : Shared} {ops : List Op}
    (hrun : Run (fun s op s' => Step s op s' ∧ roomy s op) ⟨.default,[]⟩ ops s) :
    Represents s.queue := by
  have h : s.queue.InStep := hrun.invariant (I := fun s => s.queue.InStep)
    RepairQueue.default_inStep fun s op s' hs hstep => step_inStep hs hstep.1 hstep.2
  exact ⟨h.nodup,h.keys,s.queue.named,h.pending_bound,h.snapshot_ids,s.queue.track_order⟩

/-- Every record is about the event it holds, in the queue and out of it. -/
structure OwnEvents (s : Shared) : Prop where
  pending : s.queue.OwnEvents
  taken : ∀ r ∈ s.taken, eventId r.event = some r.event_id

theorem step_ownEvents {s s' : Shared} {op : Op} (h : OwnEvents s) (hstep : Step s op s') :
    OwnEvents s' := by
  have hremove : ∀ {xs ys : List PendingRepair} {repair : PendingRepair},
      s.taken = xs ++ repair :: ys → eventId repair.event = some repair.event_id ∧
        ∀ r ∈ xs ++ ys, eventId r.event = some r.event_id := by
    intro xs ys repair htaken
    refine ⟨h.taken repair (by simp [htaken]),fun r hr => h.taken r ?_⟩
    rw [htaken]
    rcases List.mem_append.mp hr with hr | hr
    · exact List.mem_append_left _ hr
    · exact List.mem_append_right _ (List.mem_cons_of_mem _ hr)
  cases hstep with
  | track room_id event session_id =>
      refine ⟨fun id r hl => ?_,h.taken⟩
      obtain hold | ⟨_,he,rfl⟩ := RepairQueue.track_lookup hl
      · exact h.pending id r hold
      · exact he
  | noteRoomKeys session_ids =>
      refine ⟨fun id r hl => h.pending id r ?_,h.taken⟩
      rwa [(RepairQueue.note_room_keys_pending _ _).1] at hl
  | noteBulkImport =>
      refine ⟨fun id r hl => h.pending id r ?_,h.taken⟩
      rwa [(RepairQueue.note_bulk_import_pending _).1] at hl
  | takeReady =>
      refine ⟨fun id r hl => h.pending id r (RepairQueue.take_ready_lookup.mp hl).1,fun r hr => ?_⟩
      rcases List.mem_append.mp hr with hr | hr
      · exact h.taken r hr
      · exact h.pending _ r (RepairQueue.take_ready_taken hr).1
  | requeue htaken =>
      obtain ⟨hown,hrest⟩ := hremove htaken
      refine ⟨fun id r hl => ?_,hrest⟩
      have hname := RepairQueue.named _ id r hl
      obtain hold | rfl := RepairQueue.requeue_lookup hl
      · exact h.pending id r hold
      · rw [← hname]
        exact hown
  | settle htaken => exact ⟨h.pending,(hremove htaken).2⟩

/-- In every run, whatever is put back. -/
theorem records_hold_own_events {s : Shared} {ops : List Op}
    (hrun : Run Step ⟨.default,[]⟩ ops s) : OwnEvents s :=
  hrun.invariant (I := OwnEvents) ⟨fun id r hl => by simp [RepairQueue.default] at hl,
    fun r hr => by cases hr⟩ fun _ _ _ hs hstep => step_ownEvents hs hstep

def placeholder : Value := .object [("event_id",.string "$e"),("type",.string "m.room.encrypted")]

def pendingPlaceholder : PendingRepair := ⟨"!r","$e",some "S",placeholder⟩

/-- An entry is taken and put back, with nothing in between. -/
theorem queue_represents_requeued : ∃ s : Shared, s.queue.order = ["$e"] ∧ Represents s.queue := by
  have h₁ : Run (fun s op s' => Step s op s' ∧ roomy s op) ⟨.default,[]⟩ _ _ :=
    .snoc .nil ⟨.track _ "!r" placeholder (some "S"),trivial⟩
  have h₂ := h₁.snoc ⟨.noteRoomKeys _ ["S"],trivial⟩
  have h₃ := h₂.snoc ⟨.takeReady _,trivial⟩
  have htaken : [pendingPlaceholder] = [] ++ pendingPlaceholder :: [] := rfl
  have h₄ := h₃.snoc ⟨.requeue htaken,⟨by decide,by decide⟩⟩
  exact ⟨_,rfl,queue_represents h₄⟩

/-- Between the taking of an entry and its return, another response delivers its
event again: the order lists it twice. -/
theorem requeued_twice : ∃ ops s, Run Step ⟨.default,[]⟩ ops s ∧ s.queue.order = ["$e","$e"] ∧
    ¬ Represents s.queue := by
  have h₁ : Run Step ⟨.default,[]⟩ _ _ := .snoc .nil (.track _ "!r" placeholder (some "S"))
  have h₂ := h₁.snoc (.noteRoomKeys _ ["S"])
  have h₃ := h₂.snoc (.takeReady _)
  have h₄ := h₃.snoc (.track _ "!r" placeholder (some "S"))
  have htaken : [pendingPlaceholder] = [] ++ pendingPlaceholder :: [] := rfl
  have h₅ := h₄.snoc (.requeue htaken)
  refine ⟨_,_,h₅,rfl,fun h => ?_⟩
  exact absurd h.nodup (by decide)

end RepairQueueRuns
end EmentE2ee
