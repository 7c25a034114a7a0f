import EmentE2ee.Http
import Mathlib.Data.Finset.Basic
import Mathlib.Data.List.AList

/-!
# Placeholders awaiting their keys

Events the client was shown as placeholders, by event ID, with the IDs in order
of arrival. Arriving keys set flags: the sessions whose key came, or everything
after a bulk import. Whatever is ready is taken at once and clears the flags.
Every pending event is listed in the order and stored under its own ID; an ID
can be listed without being pending, or twice, after concurrent requests.
-/
namespace EmentE2ee

open Json (Value)

def MAX_PENDING : Nat := 2000

/-- An event the client was shown as a placeholder. -/
structure PendingRepair where
  room_id : RoomId
  event_id : String
  session_id : Option String
  /-- The original event, as the homeserver sent it. -/
  event : Value

abbrev Pending := AList fun _ : String => PendingRepair

structure RepairQueue where
  pending : Pending
  order : List String
  ready_sessions : Finset String
  retry_all : Bool
  listed : ∀ id r, pending.lookup id = some r → id ∈ order
  named : ∀ id r, pending.lookup id = some r → r.event_id = id

/-- The event's string ID, if it has one. -/
def eventId (event : Value) : Option String := (event.get "event_id").bind Value.asStr

namespace RepairQueue

def default : RepairQueue where
  pending := ∅
  order := []
  ready_sessions := ∅
  retry_all := false
  listed := by simp
  named := by simp

def is_ready (q : RepairQueue) (r : PendingRepair) : Bool :=
  q.retry_all || r.session_id.any fun id => decide (id ∈ q.ready_sessions)

def any_ready (q : RepairQueue) : Bool := q.pending.entries.any fun e => q.is_ready e.2

theorem any_ready_iff (q : RepairQueue) :
    q.any_ready = true ↔ ∃ id r, q.pending.lookup id = some r ∧ q.is_ready r = true := by
  simp only [any_ready,List.any_eq_true]
  constructor
  · rintro ⟨⟨id,r⟩,he,hr⟩
    exact ⟨id,r,AList.mem_lookup_iff.mpr he,hr⟩
  · rintro ⟨id,r,hl,hr⟩
    exact ⟨⟨id,r⟩,AList.mem_lookup_iff.mp hl,hr⟩

/-- Forget the oldest events beyond the bound. -/
def evict : List String → Pending → List String × Pending
  | [],p => ([],p)
  | id :: ids,p =>
      if MAX_PENDING < (id :: ids).length then evict ids (p.erase id) else (id :: ids,p)

theorem evict_lookup {ids : List String} {p : Pending} {id : String} {r : PendingRepair}
    (h : (evict ids p).2.lookup id = some r) : p.lookup id = some r := by
  induction ids generalizing p with
  | nil => exact h
  | cons x ids ih =>
      simp only [evict] at h
      split_ifs at h
      · have h' := ih h
        by_cases hx : id = x
        · subst hx
          simp at h'
        · rwa [AList.lookup_erase_ne hx] at h'
      · exact h

theorem evict_listed {ids : List String} {p : Pending}
    (hl : ∀ id r, p.lookup id = some r → id ∈ ids) (id : String) (r : PendingRepair)
    (h : (evict ids p).2.lookup id = some r) : id ∈ (evict ids p).1 := by
  induction ids generalizing p with
  | nil => exact hl id r h
  | cons x ids ih =>
      simp only [evict] at h ⊢
      split_ifs at h ⊢
      · refine ih (fun id r hr => ?_) h
        by_cases hx : id = x
        · subst hx
          simp at hr
        · rw [AList.lookup_erase_ne hx] at hr
          exact (List.mem_cons.mp (hl id r hr)).resolve_left hx
      · exact hl id r h

/-- Remember an event that is being delivered as a placeholder. -/
def track (q : RepairQueue) (room_id : RoomId) (event : Value) (session_id : Option String) :
    RepairQueue :=
  match eventId event with
  | none => q
  | some event_id =>
      if event_id ∈ q.pending then q
      else
        let pending := q.pending.insert event_id ⟨room_id,event_id,session_id,event⟩
        have hl : ∀ id r, pending.lookup id = some r → id ∈ q.order ++ [event_id] := by
          intro id r h
          by_cases hid : id = event_id
          · simp [hid]
          · rw [AList.lookup_insert_ne hid] at h
            simp [q.listed id r h]
        { q with
          pending := (evict (q.order ++ [event_id]) pending).2
          order := (evict (q.order ++ [event_id]) pending).1
          listed := evict_listed hl
          named := by
            intro id r h
            have h' := evict_lookup h
            by_cases hid : id = event_id
            · subst hid
              rw [AList.lookup_insert] at h'
              cases h'
              rfl
            · rw [AList.lookup_insert_ne hid] at h'
              exact q.named id r h' }

/-- Tracking adds at most the record of the tracked event. -/
theorem track_lookup {q : RepairQueue} {room_id : RoomId} {event : Value}
    {session_id : Option String} {id : String} {r : PendingRepair}
    (h : (q.track room_id event session_id).pending.lookup id = some r) :
    q.pending.lookup id = some r ∨
      (id ∉ q.pending ∧ eventId event = some id ∧ r = ⟨room_id,id,session_id,event⟩) := by
  unfold track at h
  cases hid : eventId event with
  | none =>
      rw [hid] at h
      exact .inl h
  | some event_id =>
      simp only [hid] at h
      split_ifs at h with hp
      · exact .inl h
      · have h' := evict_lookup h
        by_cases he : id = event_id
        · subst he
          rw [AList.lookup_insert] at h'
          cases h'
          exact .inr ⟨hp,rfl,rfl⟩
        · rw [AList.lookup_insert_ne he] at h'
          exact .inl h'

@[simp] theorem track_is_ready (q : RepairQueue) (room_id : RoomId) (event : Value)
    (session_id : Option String) : (q.track room_id event session_id).is_ready = q.is_ready := by
  unfold track
  cases eventId event with
  | none => rfl
  | some event_id =>
      simp only
      split_ifs <;> rfl

/-- Room keys for these megolm sessions have just arrived. Keys that make
nothing ready are not remembered, nor are those noted before them. -/
def note_room_keys (q : RepairQueue) (session_ids : List String) : RepairQueue :=
  if q.pending.entries.isEmpty then q
  else
    let q' := { q with ready_sessions := q.ready_sessions ∪ session_ids.toFinset }
    if q'.any_ready then q' else { q' with ready_sessions := ∅ }

/-- Many keys arrived at once. -/
def note_bulk_import (q : RepairQueue) : RepairQueue :=
  if q.pending.entries.isEmpty then q else { q with retry_all := true }

theorem note_room_keys_pending (q : RepairQueue) (ks : List String) :
    (q.note_room_keys ks).pending = q.pending ∧ (q.note_room_keys ks).order = q.order := by
  simp only [note_room_keys]
  split_ifs <;> exact ⟨rfl,rfl⟩

theorem note_bulk_import_pending (q : RepairQueue) :
    q.note_bulk_import.pending = q.pending ∧ q.note_bulk_import.order = q.order := by
  unfold note_bulk_import
  split_ifs <;> exact ⟨rfl,rfl⟩

theorem entries_ne_nil {q : RepairQueue} {id : String} {r : PendingRepair}
    (h : q.pending.lookup id = some r) : q.pending.entries.isEmpty = false := by
  have hm := AList.mem_lookup_iff.mp h
  cases he : q.pending.entries with
  | nil =>
      rw [he] at hm
      cases hm
  | cons _ _ => rfl

/-- After a note, a pending event whose session was noted is ready, and one
that was ready still is. -/
theorem note_room_keys_ready {q : RepairQueue} {ks : List String} {id : String}
    {r : PendingRepair} (h : q.pending.lookup id = some r)
    (hr : q.is_ready r = true ∨ ∃ s ∈ ks, r.session_id = some s) :
    (q.note_room_keys ks).is_ready r = true := by
  let q' := { q with ready_sessions := q.ready_sessions ∪ ks.toFinset }
  have hready : q'.is_ready r = true := by
    rcases hr with hr | ⟨s,hs,hr⟩
    · simp only [is_ready,Bool.or_eq_true] at hr ⊢
      refine hr.imp_right fun hs => ?_
      cases hsid : r.session_id with
      | none => simp [hsid] at hs
      | some s =>
          simp only [hsid,Option.any_some,decide_eq_true_eq] at hs ⊢
          exact Finset.mem_union_left _ hs
    · simp [is_ready,q',hr,hs]
  have hany : q'.any_ready = true := q'.any_ready_iff.mpr ⟨id,r,h,hready⟩
  unfold note_room_keys
  rw [if_neg (by simp [entries_ne_nil h]),if_pos hany]
  exact hready

theorem note_bulk_import_ready {q : RepairQueue} {id : String} {r : PendingRepair}
    (h : q.pending.lookup id = some r) : q.note_bulk_import.is_ready r = true := by
  unfold note_bulk_import
  rw [if_neg (by simp [entries_ne_nil h])]
  simp [is_ready]

def has_ready (q : RepairQueue) : Bool := q.any_ready

/-- Walks the order, keeping what is not ready. -/
def retain (ready : List String) : List String → Pending → List String × Pending × List PendingRepair
  | [],p => ([],p,[])
  | id :: ids,p =>
      if id ∈ ready then
        match p.lookup id with
        | some repair =>
            let rest := retain ready ids (p.erase id)
            (rest.1,rest.2.1,repair :: rest.2.2)
        | none => retain ready ids p
      else
        let rest := retain ready ids p
        (id :: rest.1,rest.2)

theorem retain_order (ready ids : List String) (p : Pending) :
    (retain ready ids p).1 = ids.filter (· ∉ ready) := by
  induction ids generalizing p with
  | nil => rfl
  | cons x ids ih =>
      by_cases hx : x ∈ ready
      · cases hl : p.lookup x <;> simp [retain,hx,hl,ih]
      · simp [retain,hx,ih]

theorem retain_lookup (ready ids : List String) (p : Pending) (id : String) :
    (retain ready ids p).2.1.lookup id =
      if id ∈ ready ∧ id ∈ ids then none else p.lookup id := by
  induction ids generalizing p with
  | nil => simp [retain]
  | cons x ids ih =>
      by_cases hx : x ∈ ready
      · cases hl : p.lookup x with
        | none =>
            simp only [retain,if_pos hx,hl,ih]
            by_cases hid : id = x
            · subst hid
              simp [hx,hl]
            · simp [hid]
        | some repair =>
            simp only [retain,if_pos hx,hl,ih]
            by_cases hid : id = x
            · subst hid
              simp [hx]
            · simp [hid,AList.lookup_erase_ne hid]
      · simp only [retain,if_neg hx,ih]
        by_cases hid : id = x
        · subst hid
          simp [hx]
        · simp [hid]

theorem retain_taken {ready ids : List String} {p : Pending} {r : PendingRepair}
    (h : r ∈ (retain ready ids p).2.2) : ∃ id ∈ ready, p.lookup id = some r := by
  induction ids generalizing p with
  | nil => simp [retain] at h
  | cons x ids ih =>
      by_cases hx : x ∈ ready
      · cases hl : p.lookup x with
        | none =>
            simp only [retain,if_pos hx,hl] at h
            exact ih h
        | some repair =>
            simp only [retain,if_pos hx,hl,List.mem_cons] at h
            rcases h with rfl | h
            · exact ⟨x,hx,hl⟩
            · obtain ⟨id,hid,hr⟩ := ih h
              refine ⟨id,hid,?_⟩
              by_cases hix : id = x
              · subst hix
                simp at hr
              · rwa [AList.lookup_erase_ne hix] at hr
      · simp only [retain,if_neg hx] at h
        exact ih h

def ready_ids (q : RepairQueue) : List String :=
  (q.pending.entries.filter fun e => q.is_ready e.2).map fun e => e.2.event_id

theorem mem_ready_ids (q : RepairQueue) (id : String) :
    id ∈ q.ready_ids ↔ ∃ r, q.pending.lookup id = some r ∧ q.is_ready r = true := by
  simp only [ready_ids,List.mem_map,List.mem_filter]
  constructor
  · rintro ⟨⟨x,r⟩,⟨he,hr⟩,rfl⟩
    have hl : q.pending.lookup x = some r := AList.mem_lookup_iff.mpr he
    exact ⟨r,(q.named x r hl).symm ▸ hl,hr⟩
  · rintro ⟨r,hl,hr⟩
    exact ⟨⟨id,r⟩,⟨AList.mem_lookup_iff.mp hl,hr⟩,q.named id r hl⟩

theorem retain_lookup_some {ready ids : List String} {p : Pending} {id : String}
    {r : PendingRepair} (h : (retain ready ids p).2.1.lookup id = some r) :
    p.lookup id = some r ∧ ¬ (id ∈ ready ∧ id ∈ ids) := by
  rw [retain_lookup] at h
  split_ifs at h with hc
  exact ⟨h,hc⟩

/-- Remove and return the placeholders whose keys should now be there. -/
def take_ready (q : RepairQueue) : List PendingRepair × RepairQueue :=
  let r := retain q.ready_ids q.order q.pending
  (r.2.2,
    { pending := r.2.1
      order := r.1
      ready_sessions := ∅
      retry_all := false
      listed := by
        intro id x h
        obtain ⟨hl,hc⟩ := retain_lookup_some h
        have ho := q.listed id x hl
        rw [retain_order]
        simp only [List.mem_filter,decide_eq_true_eq]
        exact ⟨ho,fun hr => hc ⟨hr,ho⟩⟩
      named := fun id x h => q.named id x (retain_lookup_some h).1 })

/-- What stays is what was not ready. -/
theorem take_ready_lookup {q : RepairQueue} {id : String} {r : PendingRepair} :
    q.take_ready.2.pending.lookup id = some r ↔
      q.pending.lookup id = some r ∧ q.is_ready r = false := by
  constructor
  · intro h
    obtain ⟨hl,hc⟩ := retain_lookup_some h
    refine ⟨hl,?_⟩
    by_contra hr
    exact hc ⟨(q.mem_ready_ids id).mpr ⟨r,hl,by simpa using hr⟩,q.listed id r hl⟩
  · rintro ⟨hl,hr⟩
    change (retain q.ready_ids q.order q.pending).2.1.lookup id = some r
    rw [retain_lookup,if_neg]
    · exact hl
    · rintro ⟨hm,_⟩
      obtain ⟨x,hx,hready⟩ := (q.mem_ready_ids id).mp hm
      rw [hl,Option.some.injEq] at hx
      rw [← hx,hr] at hready
      cases hready

theorem take_ready_taken {q : RepairQueue} {r : PendingRepair} (h : r ∈ q.take_ready.1) :
    q.pending.lookup r.event_id = some r ∧ q.is_ready r = true := by
  obtain ⟨id,hid,hl⟩ := retain_taken h
  obtain ⟨x,hx,hready⟩ := (q.mem_ready_ids id).mp hid
  rw [hl,Option.some.injEq] at hx
  exact ⟨by rw [q.named id r hl]; exact hl,hx ▸ hready⟩

/-- Put back a placeholder whose key turned out not to be there after all. -/
def requeue (q : RepairQueue) (repair : PendingRepair) : RepairQueue :=
  { q with
    pending := q.pending.insert repair.event_id repair
    order := q.order ++ [repair.event_id]
    listed := by
      intro id r h
      by_cases hid : id = repair.event_id
      · simp [hid]
      · rw [AList.lookup_insert_ne hid] at h
        simp [q.listed id r h]
    named := by
      intro id r h
      by_cases hid : id = repair.event_id
      · subst hid
        rw [AList.lookup_insert] at h
        cases h
        rfl
      · rw [AList.lookup_insert_ne hid] at h
        exact q.named id r h }

theorem requeue_lookup {q : RepairQueue} {repair : PendingRepair} {id : String}
    {r : PendingRepair} (h : (q.requeue repair).pending.lookup id = some r) :
    q.pending.lookup id = some r ∨ r = repair := by
  by_cases hid : id = repair.event_id
  · subst hid
    simp only [requeue,AList.lookup_insert,Option.some.injEq] at h
    exact .inr h.symm
  · simp only [requeue,AList.lookup_insert_ne hid] at h
    exact .inl h

theorem requeue_lookup_ne {q : RepairQueue} {repair : PendingRepair} {id : String}
    (h : id ≠ repair.event_id) : (q.requeue repair).pending.lookup id = q.pending.lookup id :=
  AList.lookup_insert_ne h

@[simp] theorem requeue_is_ready (q : RepairQueue) (repair : PendingRepair) :
    (q.requeue repair).is_ready = q.is_ready := rfl

end RepairQueue
end EmentE2ee
