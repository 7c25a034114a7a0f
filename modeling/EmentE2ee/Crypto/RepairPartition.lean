import EmentE2ee.Crypto.RepairAccounts
import EmentE2ee.Crypto.WakeUps

/-!
# The ready and the waiting

Taking what is ready splits the queue in two and clears the flags, so nothing is
ready again before another key arrives. What was taken is repaired in the order
of the queue, whatever else happens meanwhile.
-/
namespace EmentE2ee

open Concurrent
open Json (Value)

namespace RepairQueue

theorem retain_mem {ready ids : List String} {p : Pending} {id : String} {r : PendingRepair}
    (hready : id ∈ ready) (hid : id ∈ ids) (hl : p.lookup id = some r) :
    r ∈ (retain ready ids p).2.2 := by
  induction ids generalizing p with
  | nil => simp at hid
  | cons x ids ih =>
      by_cases hxid : id = x
      · subst hxid
        simp [retain,hready,hl]
      · have hid' := (List.mem_cons.mp hid).resolve_left hxid
        by_cases hx : x ∈ ready
        · cases hlx : p.lookup x with
          | none =>
              simp only [retain,if_pos hx,hlx]
              exact ih hid' hl
          | some repair =>
              simp only [retain,if_pos hx,hlx]
              exact List.mem_cons_of_mem _ (ih hid' (by rwa [AList.lookup_erase_ne hxid]))
        · simp only [retain,if_neg hx]
          exact ih hid' hl

/-- The taken entries stand in the order, and none of them stands twice. -/
theorem retain_ids {ready ids : List String} {p : Pending}
    (hnamed : ∀ id r, p.lookup id = some r → r.event_id = id) :
    ((retain ready ids p).2.2.map PendingRepair.event_id).Sublist ids ∧
      ((retain ready ids p).2.2.map PendingRepair.event_id).Nodup ∧
      ∀ r ∈ (retain ready ids p).2.2, p.lookup r.event_id = some r := by
  induction ids generalizing p with
  | nil => simp [retain]
  | cons x ids ih =>
      by_cases hx : x ∈ ready
      · cases hl : p.lookup x with
        | none =>
            simp only [retain,if_pos hx,hl]
            obtain ⟨hsub,hnodup,hfound⟩ := ih hnamed
            exact ⟨hsub.cons x,hnodup,hfound⟩
        | some repair =>
            simp only [retain,if_pos hx,hl,List.map_cons,hnamed x repair hl]
            have herased : ∀ id r, (p.erase x).lookup id = some r → r.event_id = id := by
              intro id r h
              by_cases hid : id = x
              · subst hid
                simp at h
              · rw [AList.lookup_erase_ne hid] at h
                exact hnamed id r h
            obtain ⟨hsub,hnodup,hfound⟩ := ih herased
            refine ⟨hsub.cons_cons x,List.nodup_cons.mpr ⟨?_,hnodup⟩,?_⟩
            · intro hmem
              obtain ⟨r,hr,hrx⟩ := List.mem_map.mp hmem
              have hgone := hfound r hr
              rw [hrx] at hgone
              simp at hgone
            · intro r hr
              rcases List.mem_cons.mp hr with rfl | hr
              · rw [hnamed x r hl,hl]
              · have hstill := hfound r hr
                by_cases hid : r.event_id = x
                · rw [hid] at hstill
                  simp at hstill
                · rwa [AList.lookup_erase_ne hid] at hstill
      · simp only [retain,if_neg hx]
        obtain ⟨hsub,hnodup,hfound⟩ := ih hnamed
        exact ⟨hsub.cons x,hnodup,hfound⟩

theorem take_ready_flags (q : RepairQueue) (r : PendingRepair) :
    q.take_ready.2.is_ready r = false := by
  cases hsid : r.session_id <;> simp [is_ready,take_ready,hsid]

/-- What is taken are the entries that are ready, each once and in the queue's
order; what is left are the others, in the order they had, and none is ready. -/
structure Split (q : RepairQueue) (taken : List PendingRepair) (rest : RepairQueue) : Prop where
  ready : ∀ r, r ∈ taken ↔ q.pending.lookup r.event_id = some r ∧ q.is_ready r = true
  once : (taken.map PendingRepair.event_id).Nodup
  order : (taken.map PendingRepair.event_id).Sublist q.order
  left : ∀ id r, rest.pending.lookup id = some r ↔
    q.pending.lookup id = some r ∧ q.is_ready r = false
  left_order : rest.order = q.order.filter fun id => (q.pending.lookup id).all fun r => !q.is_ready r
  idle : ∀ r, rest.is_ready r = false

theorem take_ready_split (q : RepairQueue) : q.Split q.take_ready.1 q.take_ready.2 where
  ready r := by
    refine ⟨take_ready_taken,?_⟩
    rintro ⟨hl,hr⟩
    exact retain_mem ((q.mem_ready_ids _).mpr ⟨r,hl,hr⟩) (q.listed _ r hl) hl
  once := (retain_ids q.named).2.1
  order := (retain_ids q.named).1
  left id r := take_ready_lookup
  left_order := by
    refine (retain_order q.ready_ids q.order q.pending).trans ?_
    refine List.filter_congr fun id _ => ?_
    have hmem := q.mem_ready_ids id
    cases hl : q.pending.lookup id with
    | none =>
        have hno : id ∉ q.ready_ids := by simp [hmem,hl]
        simp [hno]
    | some r =>
        have hiff : id ∈ q.ready_ids ↔ q.is_ready r = true := by simp [hmem,hl]
        cases hr : q.is_ready r with
        | true => simp [hiff.mpr hr,hr]
        | false =>
            have hno : id ∉ q.ready_ids := fun h => by simp [hiff.mp h] at hr
            simp [hno,hr]
  idle := take_ready_flags q

end RepairQueue

namespace RepairPartition

open SyncRewrite (entry)
open Timelines (events)

open WakeUps (Parking Input)

/-- A note of keys that have arrived. -/
def arrival : Input → Prop
  | .op (.noteRoomKeys _) | .op .noteBulkImport => True
  | _ => False

/-- Nothing is ready, and a sync that has begun since is not signalled. -/
structure Idle (since : Parking) (s : Parking) : Prop where
  flags : ∀ r, s.shared.queue.is_ready r = false
  syncs : ∀ i l, since.syncs i = none → s.syncs i = some l → l.signalled = false

theorem Idle.has_ready {since s : Parking} (h : Idle since s) : s.shared.queue.has_ready = false := by
  cases hready : s.shared.queue.has_ready with
  | false => rfl
  | true =>
      obtain ⟨id,r,_,hr⟩ := (RepairQueue.any_ready_iff _).mp hready
      rw [h.flags r] at hr
      cases hr

theorem Idle.takes_nothing {since s : Parking} (h : Idle since s) :
    s.shared.queue.take_ready.1 = [] := by
  rw [List.eq_nil_iff_forall_not_mem]
  intro r hr
  have hready := (RepairQueue.take_ready_taken hr).2
  rw [h.flags r] at hready
  cases hready

theorem Idle.step {since s s' : Parking} {i : Input} (h : Idle since s) (hstep : WakeUps.Step s i s')
    (hi : ¬arrival i) : Idle since s' := by
  cases hstep with
  | @op o shared hop =>
      have hsyncs : WakeUps.wakes s.shared.queue o = false → ∀ j l, since.syncs j = none →
          (s.syncs j).map (·.signal (WakeUps.wakes s.shared.queue o)) = some l →
            l.signalled = false := by
        intro hwakes j l hj hl
        obtain ⟨l₀,hl₀,rfl⟩ := Option.map_eq_some_iff.mp hl
        simp [WakeUps.Listener.signal,h.syncs j l₀ hj hl₀,hwakes]
      cases hop with
      | track room_id event session_id =>
          refine ⟨fun r => ?_,hsyncs rfl⟩
          rw [RepairQueue.track_is_ready]
          exact h.flags r
      | noteRoomKeys session_ids => exact absurd trivial hi
      | noteBulkImport => exact absurd trivial hi
      | takeReady => exact ⟨RepairQueue.take_ready_flags _,hsyncs rfl⟩
      | requeue _ => exact ⟨fun r => h.flags r,hsyncs rfl⟩
      | settle _ => exact ⟨h.flags,hsyncs rfl⟩
  | @listen j _ =>
      refine ⟨h.flags,fun k l hk hl => ?_⟩
      change Function.update s.syncs j _ k = some l at hl
      by_cases hkj : k = j
      · subst hkj
        rw [Function.update_self] at hl
        cases hl
        rfl
      · rw [Function.update_of_ne hkj] at hl
        exact h.syncs k l hk hl
  | @look j signalled hj =>
      refine ⟨h.flags,fun k l hk hl => ?_⟩
      change Function.update s.syncs j _ k = some l at hl
      by_cases hkj : k = j
      · subst hkj
        rw [Function.update_self,WakeUps.looked,h.has_ready] at hl
        cases hl
        exact h.syncs k ⟨.listening,signalled⟩ hk hj
      · rw [Function.update_of_ne hkj] at hl
        exact h.syncs k l hk hl
  | leave j =>
      refine ⟨h.flags,fun k l hk hl => ?_⟩
      change Function.update s.syncs j none k = some l at hl
      by_cases hkj : k = j
      · subst hkj
        rw [Function.update_self] at hl
        cases hl
      · rw [Function.update_of_ne hkj] at hl
        exact h.syncs k l hk hl

/-- Between what is taken and the next key nothing is ready, whatever else the
syncs and the tracking of events do to the queue. -/
theorem idle_run {since s : Parking} {is : List Input}
    (hrun : Run (fun s i s' => WakeUps.Step s i s' ∧ ¬arrival i) since is s)
    (hidle : Idle since since) : Idle since s :=
  hrun.invariant (I := Idle since) hidle fun _ _ _ h hstep => h.step hstep.1 hstep.2

variable [Codec] {ctx : AccountContext}

/-- What decrypting an event may lead to, whatever the machine answers. -/
def MayDecrypt (ctx : AccountContext) (repair : PendingRepair) (plain : Value) : Prop :=
  ∃ es, (decrypt ctx repair.room_id repair.event).Did es (.ret (.decrypted plain))

/-- The edit repairs the entry. -/
def EditOf (ctx : AccountContext) (repair : PendingRepair) (edit : Value) : Prop :=
  ∃ plain, MayDecrypt ctx repair plain ∧ synthetic_edit plain = some (some edit)

/-- The room's timeline has gained edits of some of these entries, in their order. -/
def Gained (ctx : AccountContext) (repairs : List PendingRepair) (room_id : RoomId)
    (body body' : Value) : Prop :=
  ∃ edits : List (PendingRepair × Value), (edits.map Prod.fst).Sublist repairs ∧
    events room_id body' = events room_id body ++ edits.map Prod.snd ∧
    ∀ p ∈ edits, p.1.room_id = room_id ∧ EditOf ctx p.1 p.2

theorem Gained.skip {repair : PendingRepair} {repairs : List PendingRepair} {room_id : RoomId}
    {body body' : Value} (h : Gained ctx repairs room_id body body') :
    Gained ctx (repair :: repairs) room_id body body' := by
  obtain ⟨edits,hsub,hevents,hedits⟩ := h
  exact ⟨edits,hsub.cons repair,hevents,hedits⟩

theorem push_events (body : Value) (room_id : RoomId) (edit : Value) :
    (push_into_sync ctx body room_id edit).Every (fun _ => True) fun r =>
      ∀ b body', r = some (b,body') → ∀ r', events r' body' =
        events r' body ++ if b = true ∧ r' = room_id then [edit] else [] := by
  have hpush : ∀ w w' : Value, (∀ r', events r' w = events r' body) →
      pushEvent room_id edit w = some w' → ∀ r', events r' w' =
        events r' body ++ if true = true ∧ r' = room_id then [edit] else [] := by
    intro w w' hw h r'
    obtain ⟨hself,hother⟩ := Timelines.pushEvent_events h
    by_cases hr : r' = room_id
    · subst hr
      simp [hself,hw]
    · simp [hother r' hr,hw,hr]
  unfold push_into_sync
  split_ifs with hobject hentry
  · rintro b body' h
    obtain ⟨w,hw,⟨⟩⟩ := Option.map_eq_some_iff.mp h
    exact hpush body _ (fun _ => rfl) hw
  · refine ⟨trivial,fun unread => ?_⟩
    cases unread with
    | none =>
        rintro b body' ⟨⟩ r'
        simp
    | some unread =>
        rintro b body' h
        obtain ⟨w₂,h₂,⟨⟩⟩ := Option.map_eq_some_iff.mp h
        obtain ⟨w₁,h₁,h₂⟩ := Option.bind_eq_some_iff.mp h₂
        refine hpush w₁ _ (fun r' => ?_) h₂
        have hassign : body.indexMut "rooms" (Value.indexMut "join" (Value.indexMut room_id fun _ =>
          some (roomEntry unread))) = some w₁ := h₁
        obtain ⟨⟨x,hx,hx'⟩,hother⟩ := Timelines.entry_indexMut hassign
        by_cases hr : r' = room_id
        · have hnone : entry room_id body = none := by simpa [entry] using hentry
          have hempty : Timelines.roomEvents (roomEntry unread) = [] := by
            cases unread <;> rfl
          rw [hr,events,events,hx',hnone,← Option.some.inj hx]
          exact hempty
        · rw [events,events,hother r' hr]
  · rintro b body' ⟨⟩ r'
    simp

theorem repair_all_gained {delivered : List String} {repairs : List PendingRepair} {n m : Nat}
    {body body' : Value} {es : List (Sigma Act.Ans)}
    (h : (repair_all ctx delivered repairs n body).Did es (.ret (some (m,body'))))
    (room_id : RoomId) : Gained ctx repairs room_id body body' := by
  induction repairs generalizing n body es with
  | nil =>
      cases h
      exact ⟨[],.slnil,by simp,by simp⟩
  | cons repair repairs ih =>
      unfold repair_all at h
      split_ifs at h with hdelivered
      · exact (ih h).skip
      obtain ⟨es₁,es₂,outcome,rfl,hdecrypt,h⟩ := Prog.did_bind h
      cases outcome with
      | undecryptable reason session_id raw =>
          cases h with
          | cons h => exact (ih h).skip
      | untouched =>
          cases h with
          | cons h => exact (ih h).skip
      | decrypted plain =>
          cases hedit : synthetic_edit plain with
          | none =>
              simp only [hedit] at h
              cases h
          | some edit =>
              cases edit with
              | none =>
                  simp only [hedit] at h
                  exact (ih h).skip
              | some edit =>
                  simp only [hedit] at h
                  obtain ⟨es₃,es₄,pushed,rfl,hpush,h⟩ := Prog.did_bind h
                  have hevents := (push_events body repair.room_id edit).did hpush
                  cases pushed with
                  | none => cases h
                  | some pushed =>
                      obtain ⟨b,body₁⟩ := pushed
                      have hbody₁ := hevents b body₁ rfl room_id
                      have hrest : Gained ctx repairs room_id body₁ body' := by
                        cases b with
                        | true => exact ih h
                        | false => exact ih h
                      obtain ⟨edits,hsub,hgained,hedits⟩ := hrest
                      rw [hbody₁] at hgained
                      split_ifs at hgained with hhere
                      · refine ⟨(repair,edit) :: edits,hsub.cons_cons repair,by simpa using hgained,?_⟩
                        rintro p (_ | ⟨_,hp⟩)
                        · exact ⟨hhere.2.symm,plain,⟨es₁,hdecrypt⟩,hedit⟩
                        · exact hedits p hp
                      · exact ⟨edits,hsub.cons repair,by simpa using hgained,hedits⟩

/-- Whatever the actions of the call are answered, the timelines gain edits of what
was taken, in the order of the queue. -/
theorem inject_gained {body body' : Value} {taken : List PendingRepair} {m : Nat}
    {es : List (Sigma Act.Ans)}
    (h : (inject ctx body).Did (⟨.repairs ctx .takeReady,taken⟩ :: es) (.ret (some (m,body'))))
    (room_id : RoomId) : Gained ctx taken room_id body body' := by
  cases h with
  | cons h =>
      change Prog.Did (if taken.isEmpty then _ else _) es _ at h
      split_ifs at h
      · cases h
        exact ⟨[],List.nil_sublist _,by simp,by simp⟩
      · exact repair_all_gained h room_id

/-- Taking what is ready splits the queue; the edits are in its order, and before
another key arrives no sync is answered with repairs only and nothing is taken. -/
theorem take_ready_partitions (q : RepairQueue) :
    q.Split q.take_ready.1 q.take_ready.2 ∧
    (∀ (ctx : AccountContext) (body body' : Value) (m : Nat) (es : List (Sigma Act.Ans)),
      (inject ctx body).Did (⟨.repairs ctx .takeReady,q.take_ready.1⟩ :: es)
        (.ret (some (m,body'))) → ∀ room_id, Gained ctx q.take_ready.1 room_id body body') ∧
    ∀ (since s : Parking) (is : List Input), since.shared.queue = q.take_ready.2 →
      Run (fun s i s' => WakeUps.Step s i s' ∧ ¬arrival i) since is s →
        s.shared.queue.has_ready = false ∧ s.shared.queue.take_ready.1 = [] ∧
          ∀ i l, since.syncs i = none → s.syncs i = some l → l.signalled = false := by
  refine ⟨q.take_ready_split,fun ctx body body' m es h room_id => inject_gained h room_id,?_⟩
  intro since s is hqueue hrun
  have hidle : Idle since s := idle_run hrun
    ⟨fun r => by rw [hqueue]; exact q.take_ready_flags r,fun i l hi hl => by simp [hi] at hl⟩
  exact ⟨hidle.has_ready,hidle.takes_nothing,hidle.syncs⟩

end RepairPartition
end EmentE2ee
