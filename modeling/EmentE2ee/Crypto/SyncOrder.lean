import EmentE2ee.Concurrent.Run
import EmentE2ee.Crypto.SyncCalls
import Mathlib.Data.Set.Function

/-!
# To-device events, once and in order

A history pairs each call with the deliveries of its body, flagged where the
event was handed to the machine. Over any run no event is handed over again
before as many others as are remembered were delivered, and a batch is made of
the body's new events in order. What else is missing from it was handed over
before, unless a call that was dropped, or met an event that does not convert,
left it marked.
-/
namespace EmentE2ee.SyncOrder

open Concurrent
open Json (Value)
open Sliding (Trace delivered fresh idle Once Tracks Under)
open SyncCalls

abbrev History := List (Call × Trace Value)

/-- All deliveries of a history, each with whether it was handed over. -/
def handings (H : History) : Trace Value := (H.map Prod.snd).flatten

@[simp] theorem handings_snoc (H : History) (c : Call) (t : Trace Value) :
    handings (H ++ [(c,t)]) = handings H ++ t := by
  simp [handings]

section
variable [Codec] {ω : Type}

/-- The call ended well or failed in `process_sync_changes`. -/
def Regular (c : Call) : Prop :=
  (∃ r, c.ending = .returned r) ∧ ∀ event ∈ incoming c.body, (Codec.toRaw event).isSome

/-- Some irregular call of the history delivered the event. -/
def Abandoned (H : History) (event : Value) : Prop :=
  ∃ h ∈ H, ¬ Regular h.1 ∧ event ∈ incoming h.1.body

/-- What a call did, after the history. -/
structure Told (H : History) (c : Call) (t : Trace Value) : Prop where
  delivered : delivered t = incoming c.body
  handed : c.batches = [] ∧ fresh t = [] ∨
    c.batches = [(fresh t).filterMap Codec.toRaw] ∧ ∀ event ∈ fresh t, (Codec.toRaw event).isSome
  /-- A call that ended well has handed its batch over. -/
  ended_well : c.ending = .returned (.ok ()) → c.batches ≠ []
  none_missing : c.batches ≠ [] → ∀ A event B, t = A ++ (event,false) :: B →
    (event,true) ∈ handings H ++ A ∨ Abandoned H event

def InOrder (H : History) : Prop := ∀ H₁ c t H₂, H = H₁ ++ (c,t) :: H₂ → Told H₁ c t

theorem InOrder.snoc {H : History} {c : Call} {t : Trace Value} (h : InOrder H)
    (hc : Told H c t) : InOrder (H ++ [(c,t)]) := by
  intro H₁ c' t' H₂ he
  obtain ⟨_,rfl,hct⟩ | ⟨H₃,_,he⟩ := Sliding.snoc_split he
  · cases hct
    exact hc
  · exact h H₁ c' t' H₃ he

theorem InOrder.handed {H : History} (h : InOrder H) {event : Value}
    (he : (event,true) ∈ handings H) : ∃ c ∈ H.map Prod.fst, event ∈ incoming c.body := by
  obtain ⟨t,ht,het⟩ := List.mem_flatten.mp he
  obtain ⟨⟨c,t⟩,hc,rfl⟩ := List.mem_map.mp ht
  obtain ⟨H₁,H₂,rfl⟩ := List.append_of_mem hc
  refine ⟨c,by simp,?_⟩
  rw [← (h H₁ c t H₂ rfl).delivered]
  exact List.mem_map.mpr ⟨(event,true),het,rfl⟩

/-- The memory against the history, with the keys that were marked. -/
structure Tracked (S : SeenToDevice) (H : History) (U : Trace UInt64) : Prop where
  tracks : Tracks S.window U
  once : Once SEEN_TO_DEVICE_CAPACITY U
  under : List.Forall₂ (Under S.key) (handings H) U
  sources : ∀ k ∈ S.order, ∃ event, S.key event = k ∧
    ((event,true) ∈ handings H ∨ Abandoned H event)

variable {ctx : AccountContext} {S S' : SeenToDevice} {H : History} {U : Trace UInt64} {c : Call}

theorem Abandoned.snoc {event : Value} (h : Abandoned H event) (c : Call) (t : Trace Value) :
    Abandoned (H ++ [(c,t)]) event := by
  obtain ⟨x,hx,hr⟩ := h
  exact ⟨x,List.mem_append_left _ hx,hr⟩

theorem Tracked.source (h : Tracked S H U) {k : UInt64} (hk : k ∈ S.order) (c : Call)
    (t : Trace Value) : ∃ event, S.key event = k ∧
      ((event,true) ∈ handings (H ++ [(c,t)]) ∨ Abandoned (H ++ [(c,t)]) event) := by
  obtain ⟨event,he,hs⟩ := h.sources k hk
  refine ⟨event,he,hs.imp (fun hm => ?_) fun ha => ha.snoc c t⟩
  rw [handings_snoc]
  exact List.mem_append_left _ hm

/-- A call that hands nothing over leaves only marks of irregular calls. -/
theorem Tracked.untaken (h : Tracked S H U) {D : Trace UInt64} (hkey : S'.key = S.key)
    (htracks : Tracks S'.window (U ++ D)) (honce : Once SEEN_TO_DEVICE_CAPACITY (U ++ D))
    (hD : delivered D = (incoming c.body).map S.key)
    (hS : ∀ k ∈ S'.order, k ∈ S.order ∨ ¬ Regular c ∧ k ∈ (incoming c.body).map S.key) :
    Tracked S' (H ++ [(c,idle (incoming c.body))]) (U ++ D) where
  tracks := htracks
  once := honce
  under := by
    rw [handings_snoc,hkey]
    exact List.rel_append h.under (Sliding.idle_under hD)
  sources := by
    intro k hk
    rw [hkey]
    rcases hS k hk with hk | ⟨hr,hk⟩
    · exact h.source hk c _
    · obtain ⟨event,he,rfl⟩ := List.mem_map.mp hk
      exact ⟨event,rfl,.inr ⟨(c,_),List.mem_append_right _ (List.mem_singleton_self _),hr,he⟩⟩

/-- A call that hands over its new events has marked just these. -/
theorem Tracked.taken (h : Tracked S H U) {batch : SeenToDevice.Batch}
    (hm : (S.mark ⟨[],[],0⟩ (incoming c.body)).2 = .ok batch) :
    Tracked (S.mark ⟨[],[],0⟩ (incoming c.body)).1 (H ++ [(c,S.deliveries (incoming c.body))])
      (U ++ (S.window.mark ((incoming c.body).map S.key)).2) := by
  obtain ⟨_,_,hw⟩ := SeenToDevice.mark_converts (SeenToDevice.converts_of_mark hm) ⟨[],[],0⟩
  obtain ⟨ht,ho⟩ := h.tracks.mark ((incoming c.body).map S.key) h.once
  have hkey : (S.mark ⟨[],[],0⟩ (incoming c.body)).1.key = S.key := by
    funext v
    rw [SeenToDevice.key,SeenToDevice.mark_hasher,SeenToDevice.key]
  refine ⟨hw ▸ ht,ho,?_,?_⟩
  · rw [handings_snoc,hkey]
    exact List.rel_append h.under (S.deliveries_under _)
  · intro k hk
    rw [hkey]
    rcases SeenToDevice.mem_marked hm hk with hk | hk
    · exact h.source hk c _
    · obtain ⟨event,he,rfl⟩ := List.mem_map.mp hk
      rw [← S.fresh_deliveries,Sliding.mem_fresh] at he
      refine ⟨event,rfl,.inl ?_⟩
      rw [handings_snoc]
      exact List.mem_append_right _ he

/-- What the deliveries of one call are, however it ended. -/
theorem Tracked.step (h : Tracked S H U)
    (ho : Outcome ctx S (incoming c.body) c.ending c.batches S') :
    (c.batches = [] ∧ ∃ D, Tracked S' (H ++ [(c,idle (incoming c.body))]) (U ++ D)) ∨
    ∃ D batch, (S.mark ⟨[],[],0⟩ (incoming c.body)).2 = .ok batch ∧
      c.batches = [batch.to_device_events] ∧
      Tracked S' (H ++ [(c,S.deliveries (incoming c.body))]) (U ++ D) := by
  obtain ⟨body,ending,batches⟩ := c
  have hkey := ho.key
  obtain ⟨ht,honce⟩ := h.tracks.mark ((incoming body).map S.key) h.once
  have hD : delivered (S.window.mark ((incoming body).map S.key)).2 = (incoming body).map S.key :=
    S.window.mark_fst _
  cases ho with
  | unconverted he =>
      obtain ⟨pre,post,hsplit,hw⟩ := SeenToDevice.mark_stops he
      obtain ⟨htp,hop⟩ := h.tracks.mark (pre.map S.key) h.once
      have hpre : delivered (S.window.mark (pre.map S.key)).2 = pre.map S.key := S.window.mark_fst _
      refine .inl ⟨rfl,(S.window.mark (pre.map S.key)).2 ++ idle (post.map S.key),
        h.untaken hkey ?_ ?_ ?_ fun k hk => ?_⟩
      · rw [← List.append_assoc,hw]
        exact htp.idle _
      · rw [← List.append_assoc]
        exact hop.idle _
      · rw [Sliding.delivered_append,hpre,Sliding.delivered_idle,← List.map_append,← hsplit]
      · rw [← SeenToDevice.window_keys,hw] at hk
        refine (S.window.mem_mark hk).imp id fun hf => ⟨fun hr => ?_,?_⟩
        · obtain ⟨_,hok,_⟩ := SeenToDevice.mark_converts
            (fun e he => hr.2 e ((S.newEvents_sublist _).subset he)) ⟨[],[],0⟩
          cases he.symm.trans hok
        · have hk' : k ∈ delivered (S.window.mark (pre.map S.key)).2 :=
            List.mem_map.mpr ⟨(k,true),Sliding.mem_fresh.mp hf,rfl⟩
          rw [hpre] at hk'
          rw [hsplit,List.map_append]
          exact List.mem_append_left _ hk'
  | failed hm =>
      obtain ⟨_,_,hw⟩ := SeenToDevice.mark_converts (SeenToDevice.converts_of_mark hm) ⟨[],[],0⟩
      refine .inl ⟨rfl,Sliding.refuse (S.window.mark ((incoming body).map S.key)).2,
        h.untaken hkey ?_ honce.rollback ?_ fun k hk => .inl (SeenToDevice.mem_unmarked hm hk)⟩
      · rw [SeenToDevice.forgetAll_window,hw,(SeenToDevice.new_keys_of_mark hm).2,S.newEvents_fresh]
        exact ht.rollback honce
      · rw [Sliding.delivered_refuse,hD]
  | done hm => exact .inr ⟨_,_,hm,rfl,h.taken hm⟩
  | waiting =>
      exact .inl ⟨rfl,idle ((incoming body).map S.key),h.untaken hkey (h.tracks.idle _)
        (h.once.idle _) (Sliding.delivered_idle _) fun k hk => .inl hk⟩
  | lost hm _ =>
      obtain ⟨_,_,hw⟩ := SeenToDevice.mark_converts (SeenToDevice.converts_of_mark hm) ⟨[],[],0⟩
      refine .inl ⟨rfl,_,h.untaken hkey (hw ▸ ht) honce hD fun k hk => ?_⟩
      refine (SeenToDevice.mem_marked hm hk).imp id fun hn => ⟨fun hr => ?_,?_⟩
      · obtain ⟨⟨r,hr⟩,_⟩ := hr
        cases hr
      · exact ((S.newEvents_sublist _).map S.key).subset hn
  | taken hm _ => exact .inr ⟨_,_,hm,rfl,h.taken hm⟩

theorem Tracked.init (hasher : Hasher) : Tracked (.default hasher) [] [] where
  tracks := .nil
  once := .nil
  under := .nil
  sources := nofun

theorem batch_of_ok (ho : Outcome ctx S (incoming c.body) c.ending c.batches S')
    (hok : c.ending = .returned (.ok ())) : c.batches ≠ [] := by
  obtain ⟨body,ending,batches⟩ := c
  cases ho with
  | done _ => exact List.cons_ne_nil _ _
  | taken _ _ => exact List.cons_ne_nil _ _
  | _ => cases hok

/-- Of the deliveries of a call, what its batch is and what it leaves out. -/
theorem Tracked.told (h : Tracked S H U) (hH : InOrder H) {batch : SeenToDevice.Batch}
    (hinj : Set.InjOn S.key {e | (∃ c ∈ H.map Prod.fst, e ∈ incoming c.body) ∨ e ∈ incoming c.body})
    (hm : (S.mark ⟨[],[],0⟩ (incoming c.body)).2 = .ok batch)
    (hb : c.batches = [batch.to_device_events]) : Told H c (S.deliveries (incoming c.body)) where
  delivered := S.delivered_deliveries _
  handed := by
    rw [S.fresh_deliveries,hb,(SeenToDevice.new_keys_of_mark hm).1]
    exact .inr ⟨rfl,SeenToDevice.converts_of_mark hm⟩
  ended_well _ := by
    rw [hb]
    exact List.cons_ne_nil _ _
  none_missing := by
    intro _ A event B ht
    have hdel := S.delivered_deliveries (incoming c.body)
    rw [ht,Sliding.delivered_append] at hdel
    have hev : event ∈ incoming c.body := by
      rw [← hdel]
      exact List.mem_append_right _ List.mem_cons_self
    rcases SeenToDevice.repeated_delivery ht with hk | ⟨e,he,hk⟩
    · obtain ⟨e,hk,he | ha⟩ := h.sources _ hk
      · cases hinj (.inl (hH.handed he)) (.inr hev) hk
        exact .inl (List.mem_append_left _ he)
      · obtain ⟨x,hx,hr,hxe⟩ := ha
        cases hinj (.inl ⟨x.1,List.mem_map_of_mem hx,hxe⟩) (.inr hev) hk
        exact .inr ⟨x,hx,hr,hxe⟩
    · have hmem : e ∈ incoming c.body := by
        rw [← hdel]
        exact List.mem_append_left _ (List.mem_map.mpr ⟨_,he,rfl⟩)
      cases hinj (.inr hmem) (.inr hev) hk
      exact .inl (List.mem_append_right _ he)

theorem told_idle (hb : c.batches = []) (hend : c.ending = .returned (.ok ()) → c.batches ≠ []) :
    Told H c (idle (incoming c.body)) where
  delivered := Sliding.delivered_idle _
  handed := .inl ⟨hb,Sliding.fresh_idle _⟩
  ended_well := hend
  none_missing hne := (hne hb).elim

/-- Over every run of calls, failing, dropped or not. -/
theorem handed_over_once_in_order {O : Outside ω} {s₀ s : State ω} {calls : List Call}
    {hasher : Hasher} (h₀ : (s₀.accounts ctx).seen = .default hasher)
    (hrun : Run (Step O ctx) s₀ calls s)
    (hinj : Set.InjOn (Codec.hashOne hasher) {e | ∃ c ∈ calls, e ∈ incoming c.body}) :
    ∃ H : History, H.map Prod.fst = calls ∧ Once SEEN_TO_DEVICE_CAPACITY (handings H) ∧
      InOrder H := by
  have hall : Set.InjOn (Codec.hashOne hasher) {e | ∃ c ∈ calls, e ∈ incoming c.body} →
      (s.accounts ctx).seen.hasher = hasher ∧ ∃ H U, H.map Prod.fst = calls ∧
        Tracked (s.accounts ctx).seen H U ∧ InOrder H := by
    clear hinj
    induction hrun with
    | nil =>
        intro _
        rw [h₀]
        exact ⟨rfl,[],[],rfl,.init hasher,fun H₁ c t H₂ h => by simp at h⟩
    | @snoc calls s s' c _ hs ih =>
        intro hinj
        obtain ⟨hh,H,U,rfl,ht,hH⟩ := ih (hinj.mono fun e he =>
          he.imp fun x hx => ⟨List.mem_append_left _ hx.1,hx.2⟩)
        have ho := hs.outcome
        refine ⟨ho.hasher.trans hh,?_⟩
        rcases ht.step ho with ⟨hb,D,ht'⟩ | ⟨D,batch,hm,hb,ht'⟩
        · exact ⟨_,_,by simp,ht',hH.snoc (told_idle hb (batch_of_ok ho))⟩
        · refine ⟨_,_,by simp,ht',hH.snoc (ht.told hH ?_ hm hb)⟩
          have hkey : (s.accounts ctx).seen.key = Codec.hashOne hasher := by
            funext v
            rw [SeenToDevice.key,hh]
          rw [hkey]
          refine hinj.mono fun e he => ?_
          rcases he with ⟨x,hx,he⟩ | he
          · exact ⟨x,List.mem_append_left _ hx,he⟩
          · exact ⟨c,by simp,he⟩
  obtain ⟨_,H,U,hH,ht,hin⟩ := hall hinj
  exact ⟨H,hH,ht.once.under ht.under,hin⟩

end

local instance : Codec := oneCodec

/-- The event is handed over, once. -/
theorem handed_over_once_in_order_one : ∃ c s, Run (Step taking alice) blank [c] s ∧
    c.ending = .returned (.ok ()) ∧ c.batches = [[roomKey]] ∧
    ∃ H : History, H.map Prod.fst = [c] ∧ Once SEEN_TO_DEVICE_CAPACITY (handings H) ∧ InOrder H := by
  obtain ⟨s',hs⟩ := taken_one
  refine ⟨_,s',.snoc .nil hs,rfl,rfl,handed_over_once_in_order rfl (.snoc .nil hs) ?_⟩
  rintro e ⟨c,hc,he⟩ e' ⟨c',hc',he'⟩ _
  rw [List.mem_singleton] at hc hc'
  subst hc hc'
  exact (List.mem_singleton.mp he).trans (List.mem_singleton.mp he').symm

end EmentE2ee.SyncOrder
