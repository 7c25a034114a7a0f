import EmentE2ee.Error
import EmentE2ee.Sliding.Calls
import Mathlib.Data.Finset.Basic

/-!
# Remembered to-device events

The most recent to-device events by keyed hash, as a queue in order of arrival
and a set for lookup. The two never disagree, so the memory is a window of
distinct keys.
-/
namespace EmentE2ee

open Json (Value)

def SEEN_TO_DEVICE_CAPACITY : Nat := 4096

structure SeenToDevice where
  hasher : Hasher
  order : List UInt64
  set : Finset UInt64
  agree : set = order.toFinset
  nodup : order.Nodup
  bound : order.length ≤ SEEN_TO_DEVICE_CAPACITY

namespace SeenToDevice

def default (hasher : Hasher) : SeenToDevice where
  hasher := hasher
  order := []
  set := ∅
  agree := rfl
  nodup := List.nodup_nil
  bound := Nat.zero_le _

def key [Codec] (s : SeenToDevice) (event : Value) : UInt64 := Codec.hashOne s.hasher event

/-- Push a key that is not there yet; one too many and the oldest goes. -/
def push (order : List UInt64) (set : Finset UInt64) (key : UInt64) :
    List UInt64 × Finset UInt64 :=
  let set := insert key set
  let order := order ++ [key]
  if SEEN_TO_DEVICE_CAPACITY < order.length then
    match order with
    | oldest :: rest => (rest,set.erase oldest)
    | [] => (order,set)
  else (order,set)

theorem push_order (order : List UInt64) (set : Finset UInt64) (key : UInt64) :
    (push order set key).1 = Sliding.trim SEEN_TO_DEVICE_CAPACITY (order ++ [key]) := by
  simp only [push,Sliding.trim]
  split_ifs
  · cases order <;> rfl
  · rfl

theorem push_set {order : List UInt64} {set : Finset UInt64} {key : UInt64}
    (hs : set = order.toFinset) (hn : (order ++ [key]).Nodup) :
    (push order set key).2 = (push order set key).1.toFinset := by
  have hall : insert key set = (order ++ [key]).toFinset := by
    rw [hs]
    ext x
    rw [Finset.mem_insert,List.mem_toFinset,List.mem_toFinset,List.mem_append,List.mem_singleton,or_comm]
  simp only [push]
  rw [hall]
  split_ifs
  · cases h : order ++ [key] with
    | nil => rfl
    | cons oldest rest =>
        have hfresh : oldest ∉ rest.toFinset := by
          rw [h] at hn
          simpa using (List.nodup_cons.mp hn).1
        simp only [List.toFinset_cons,Finset.erase_insert hfresh]
  · rfl

/-- Remember an event; false if it was already seen. -/
def insert (s : SeenToDevice) (key : UInt64) : SeenToDevice × Bool :=
  if h : key ∈ s.set then (s,false)
  else
    let r := push s.order s.set key
    have hn : (s.order ++ [key]).Nodup :=
      Sliding.nodup_snoc s.nodup fun hm => h (by rw [s.agree]; exact List.mem_toFinset.mpr hm)
    ({ s with
        order := r.1
        set := r.2
        agree := push_set s.agree hn
        nodup := by
          obtain ⟨d,hd⟩ := Sliding.trim_suffix SEEN_TO_DEVICE_CAPACITY (s.order ++ [key])
          rw [hd] at hn
          exact push_order s.order s.set key ▸ hn.of_append_right
        bound := by
          rw [push_order]
          exact Sliding.trim_length (by simpa using s.bound) },true)

def forget (s : SeenToDevice) (key : UInt64) : SeenToDevice :=
  if key ∈ s.set then
    { s with
      order := s.order.filter (· ≠ key)
      set := s.set.erase key
      agree := by
        rw [s.agree]
        ext x
        simp [and_comm]
      nodup := s.nodup.filter _
      bound := Nat.le_trans (List.length_filter_le ..) s.bound }
  else s

def window (s : SeenToDevice) : Sliding.Window UInt64 SEEN_TO_DEVICE_CAPACITY :=
  ⟨s.order,s.nodup,s.bound⟩

@[simp] theorem window_keys (s : SeenToDevice) : s.window.keys = s.order := rfl
@[simp] theorem window_default (h : Hasher) :
    (SeenToDevice.default h).window = Sliding.Window.empty := rfl

theorem mem_set (s : SeenToDevice) (k : UInt64) : k ∈ s.set ↔ k ∈ s.order := by
  rw [s.agree,List.mem_toFinset]

theorem insert_window (s : SeenToDevice) (k : UInt64) :
    (s.insert k).1.window = (s.window.insert k).1 ∧ (s.insert k).2 = (s.window.insert k).2 := by
  by_cases h : k ∈ s.set
  · simp [insert,Sliding.Window.insert,h,(s.mem_set k).mp h]
  · have h' : k ∉ s.order := fun hm => h ((s.mem_set k).mpr hm)
    simp [insert,Sliding.Window.insert,h,h',window,push_order]

theorem forget_window (s : SeenToDevice) (k : UInt64) :
    (s.forget k).window = s.window.forget k := by
  by_cases h : k ∈ s.set
  · simp [forget,Sliding.Window.forget,h,window]
  · have h' : k ∉ s.order := fun hm => h ((s.mem_set k).mpr hm)
    have hall : s.order.filter (· ≠ k) = s.order :=
      List.filter_eq_self.mpr fun x hx => by
        simp only [ne_eq,decide_not,Bool.not_eq_eq_eq_not,Bool.not_true,decide_eq_false_iff_not]
        rintro rfl
        exact h' hx
    simp only [forget,if_neg h,window,Sliding.Window.forget]
    congr 1
    exact hall.symm

@[simp] theorem insert_hasher (s : SeenToDevice) (k : UInt64) :
    (s.insert k).1.hasher = s.hasher := by
  unfold insert
  split_ifs <;> rfl

@[simp] theorem insert_key [Codec] (s : SeenToDevice) (k : UInt64) :
    (s.insert k).1.key = s.key := by
  funext event
  rw [key,insert_hasher,key]

@[simp] theorem forget_hasher (s : SeenToDevice) (k : UInt64) :
    (s.forget k).hasher = s.hasher := by
  unfold forget
  split_ifs <;> rfl

def forgetAll (s : SeenToDevice) (keys : List UInt64) : SeenToDevice := keys.foldl forget s

theorem forgetAll_window (s : SeenToDevice) (keys : List UInt64) :
    (s.forgetAll keys).window = s.window.forgetAll keys := by
  induction keys generalizing s with
  | nil => rfl
  | cons k keys ih =>
      have h := ih (s.forget k)
      rw [s.forget_window k] at h
      exact h

@[simp] theorem forgetAll_hasher (s : SeenToDevice) (keys : List UInt64) :
    (s.forgetAll keys).hasher = s.hasher := by
  induction keys generalizing s with
  | nil => rfl
  | cons k keys ih => exact (ih (s.forget k)).trans (s.forget_hasher k)

def call (s : SeenToDevice) : Sliding.Call UInt64 → SeenToDevice × Option Bool
  | .insert key => ((s.insert key).1,some (s.insert key).2)
  | .forget key => (s.forget key,none)

/-- One call after the other, each with what it returned. -/
def calls (s : SeenToDevice) : List (Sliding.Call UInt64) → SeenToDevice × Sliding.Log UInt64
  | [] => (s,[])
  | c :: cs =>
      let r := s.call c
      let rest := r.1.calls cs
      (rest.1,(c,r.2) :: rest.2)

theorem call_window (s : SeenToDevice) (c : Sliding.Call UInt64) :
    (s.call c).1.window = (s.window.call c).1 ∧ (s.call c).2 = (s.window.call c).2 := by
  cases c with
  | insert k =>
      obtain ⟨hw,hb⟩ := s.insert_window k
      exact ⟨hw,congrArg some hb⟩
  | forget k => exact ⟨s.forget_window k,rfl⟩

theorem calls_window (s : SeenToDevice) (cs : List (Sliding.Call UInt64)) :
    (s.calls cs).1.window = (s.window.calls cs).1 ∧ (s.calls cs).2 = (s.window.calls cs).2 := by
  induction cs generalizing s with
  | nil => exact ⟨rfl,rfl⟩
  | cons c cs ih =>
      obtain ⟨hw,hb⟩ := s.call_window c
      have hrest := ih (s.call c).1
      rw [hw] at hrest
      exact ⟨hrest.1,congrArg₂ (fun b L => (c,b) :: L) hb hrest.2⟩

/-- From the empty memory on, whatever is inserted and forgotten, the queue and
the answers are those of a window, the set holds the queued keys, and a key
that was not forgotten leaves only when it is crowded out. -/
theorem calls_slide (hasher : Hasher) (cs : List (Sliding.Call UInt64)) :
    let s := (SeenToDevice.default hasher).calls cs
    let w := (Sliding.Window.empty : Sliding.Window UInt64 SEEN_TO_DEVICE_CAPACITY).calls cs
    (s.1.order = w.1.keys ∧ s.2 = w.2) ∧
      (∀ k, k ∈ s.1.set ↔ k ∈ s.1.order) ∧ s.1.order.Nodup ∧
      s.1.order.length ≤ SEEN_TO_DEVICE_CAPACITY ∧
      ∀ A k B, s.2 = A ++ (.insert k,some true) :: B → (.forget k,none) ∉ B → k ∉ s.1.order →
        Sliding.Crowded SEEN_TO_DEVICE_CAPACITY k (Sliding.arrivals B) := by
  intro s w
  obtain ⟨hw,hlog⟩ := (SeenToDevice.default hasher).calls_window cs
  rw [window_default] at hw hlog
  have hkeys : s.1.order = w.1.keys := congrArg (·.keys) hw
  have hfollows : Sliding.Follows w.1 w.2 := Sliding.Follows.nil.calls cs
  refine ⟨⟨hkeys,hlog⟩,s.1.mem_set,s.1.nodup,s.1.bound,?_⟩
  intro A k B hL hf hk
  have hL' : w.2 = A ++ (.insert k,some true) :: B := hlog ▸ hL
  exact hfollows.gone A k B hL' hf (hkeys ▸ hk)

section
variable [Codec]

/-- What the marking loop has put aside for the machine. -/
structure Batch where
  to_device_events : List Value
  new_keys : List UInt64
  duplicates : Nat

def invalidEvent : Error :=
  .context "invalid to_device.events in sync response" (.text "invalid JSON value")

/-- Marks the incoming events one by one and keeps the new ones. An event that
does not convert ends the loop with its mark, and those before it, in place. -/
def mark (s : SeenToDevice) (acc : Batch) : List Value → SeenToDevice × Except Error Batch
  | [] => (s,.ok acc)
  | event :: rest =>
      let key := s.key event
      let r := s.insert key
      if r.2 then
        let acc := { acc with new_keys := acc.new_keys ++ [key] }
        match Codec.toRaw event with
        | some raw =>
            r.1.mark { acc with to_device_events := acc.to_device_events ++ [raw] } rest
        | none => (r.1,.error invalidEvent)
      else r.1.mark { acc with duplicates := acc.duplicates + 1 } rest

/-- The incoming events that the loop takes for new. -/
def newEvents (s : SeenToDevice) : List Value → List Value
  | [] => []
  | event :: rest =>
      let r := s.insert (s.key event)
      if r.2 then event :: r.1.newEvents rest else r.1.newEvents rest

/-- Every new event converts. -/
def Converts (s : SeenToDevice) (incoming : List Value) : Prop :=
  ∀ event ∈ s.newEvents incoming, (Codec.toRaw event).isSome

theorem newEvents_sublist (s : SeenToDevice) (incoming : List Value) :
    (s.newEvents incoming).Sublist incoming := by
  induction incoming generalizing s with
  | nil => exact List.Sublist.refl _
  | cons event rest ih =>
      simp only [newEvents]
      split_ifs
      · exact (ih _).cons_cons event
      · exact (ih _).cons event

@[simp] theorem mark_hasher (s : SeenToDevice) (acc : Batch) (incoming : List Value) :
    (s.mark acc incoming).1.hasher = s.hasher := by
  induction incoming generalizing s acc with
  | nil => rfl
  | cons event rest ih =>
      simp only [mark]
      split_ifs
      · cases Codec.toRaw event with
        | none => simp
        | some raw => simp [ih]
      · simp [ih]

/-- What the new events and their marks are, in terms of the window. -/
theorem newEvents_fresh (s : SeenToDevice) (incoming : List Value) :
    (s.newEvents incoming).map s.key =
      Sliding.fresh (s.window.mark (incoming.map s.key)).2 := by
  induction incoming generalizing s with
  | nil => rfl
  | cons event rest ih =>
      obtain ⟨hw,hb⟩ := s.insert_window (s.key event)
      have h := ih (s.insert (s.key event)).1
      rw [insert_key,hw] at h
      simp only [newEvents,Sliding.Window.mark,List.map_cons]
      rw [← hb]
      by_cases hnew : (s.insert (s.key event)).2 = true
      · simp [hnew,h,Sliding.fresh]
      · simp [hnew,h,Sliding.fresh]

/-- Where all new events convert, the loop marks every incoming event and keeps
exactly the new ones, in order. -/
theorem mark_converts {s : SeenToDevice} {incoming : List Value} (h : s.Converts incoming)
    (acc : Batch) :
    ∃ dups, (s.mark acc incoming).2 = .ok ⟨acc.to_device_events ++
        (s.newEvents incoming).filterMap Codec.toRaw,
        acc.new_keys ++ (s.newEvents incoming).map s.key,dups⟩ ∧
      (s.mark acc incoming).1.window = (s.window.mark (incoming.map s.key)).1 := by
  induction incoming generalizing s acc with
  | nil => exact ⟨acc.duplicates,by simp [mark,newEvents],rfl⟩
  | cons event rest ih =>
      obtain ⟨hw,_⟩ := s.insert_window (s.key event)
      simp only [mark,newEvents,Sliding.Window.mark,List.map_cons]
      rw [← hw]
      by_cases hnew : (s.insert (s.key event)).2 = true
      · have hconv := h event (by simp [newEvents,hnew])
        obtain ⟨raw,hraw⟩ := Option.isSome_iff_exists.mp hconv
        have hrest : (s.insert (s.key event)).1.Converts rest := fun e he =>
          h e (by simp [newEvents,hnew,he])
        obtain ⟨dups,hok,hwin⟩ := ih hrest
          ⟨acc.to_device_events ++ [raw],acc.new_keys ++ [s.key event],acc.duplicates⟩
        refine ⟨dups,?_,?_⟩
        · simpa [hnew,hraw] using hok
        · simpa [hnew,hraw] using hwin
      · have hrest : (s.insert (s.key event)).1.Converts rest := fun e he =>
          h e (by simp [newEvents,hnew,he])
        obtain ⟨dups,hok,hwin⟩ := ih hrest { acc with duplicates := acc.duplicates + 1 }
        refine ⟨dups,?_,?_⟩
        · simpa [hnew] using hok
        · simpa [hnew] using hwin

/-- The loop only ends well where all new events convert. -/
theorem converts_of_mark {s : SeenToDevice} {acc : Batch} {incoming : List Value} {batch : Batch}
    (h : (s.mark acc incoming).2 = .ok batch) : s.Converts incoming := by
  induction incoming generalizing s acc with
  | nil => exact fun _ he => by simp [newEvents] at he
  | cons event rest ih =>
      simp only [mark] at h
      intro e he
      simp only [newEvents] at he
      by_cases hnew : (s.insert (s.key event)).2 = true
      · rw [if_pos hnew] at h he
        cases hraw : Codec.toRaw event with
        | none => simp [hraw] at h
        | some raw =>
            simp only [hraw] at h
            rcases List.mem_cons.mp he with rfl | he
            · exact hraw ▸ rfl
            · exact ih h e he
      · rw [if_neg hnew] at h he
        exact ih h e he

/-- Otherwise it stops at an event that does not, with all up to it marked. -/
theorem mark_stops {s : SeenToDevice} {acc : Batch} {incoming : List Value} {e : Error}
    (h : (s.mark acc incoming).2 = .error e) : ∃ pre post, incoming = pre ++ post ∧
      (s.mark acc incoming).1.window = (s.window.mark (pre.map s.key)).1 := by
  induction incoming generalizing s acc with
  | nil => simp [mark] at h
  | cons event rest ih =>
      obtain ⟨hw,_⟩ := s.insert_window (s.key event)
      simp only [mark] at h ⊢
      by_cases hnew : (s.insert (s.key event)).2 = true
      · rw [if_pos hnew] at h ⊢
        cases hraw : Codec.toRaw event with
        | none => exact ⟨[event],rest,rfl,by simpa [Sliding.Window.mark] using hw⟩
        | some raw =>
            simp only [hraw] at h ⊢
            obtain ⟨pre,post,rfl,hwin⟩ := ih h
            refine ⟨event :: pre,post,rfl,?_⟩
            simp only [List.map_cons,Sliding.Window.mark]
            rw [hwin,hw,insert_key]
      · rw [if_neg hnew] at h ⊢
        obtain ⟨pre,post,rfl,hwin⟩ := ih h
        refine ⟨event :: pre,post,rfl,?_⟩
        simp only [List.map_cons,Sliding.Window.mark]
        rw [hwin,hw,insert_key]

theorem new_keys_of_mark {s : SeenToDevice} {batch : Batch} {events : List Value}
    (h : (s.mark ⟨[],[],0⟩ events).2 = .ok batch) :
    batch.to_device_events = (s.newEvents events).filterMap Codec.toRaw ∧
      batch.new_keys = (s.newEvents events).map s.key := by
  obtain ⟨dups,hok,_⟩ := mark_converts (converts_of_mark h) ⟨[],[],0⟩
  rw [h] at hok
  cases hok
  exact ⟨List.nil_append _,List.nil_append _⟩

theorem order_of_mark {s : SeenToDevice} {batch : Batch} {events : List Value}
    (h : (s.mark ⟨[],[],0⟩ events).2 = .ok batch) :
    (s.mark ⟨[],[],0⟩ events).1.order = (s.window.mark (events.map s.key)).1.keys := by
  obtain ⟨dups,_,hw⟩ := mark_converts (converts_of_mark h) ⟨[],[],0⟩
  rw [← hw,window_keys]

/-- After the marks, what was remembered and what was new. -/
theorem mem_marked {s : SeenToDevice} {batch : Batch} {events : List Value}
    (h : (s.mark ⟨[],[],0⟩ events).2 = .ok batch) {k : UInt64}
    (hk : k ∈ (s.mark ⟨[],[],0⟩ events).1.order) :
    k ∈ s.order ∨ k ∈ (s.newEvents events).map s.key := by
  rw [order_of_mark h] at hk
  rw [s.newEvents_fresh events]
  exact s.window.mem_mark hk

/-- What the rollback leaves of the marks was remembered before them. -/
theorem mem_unmarked {s : SeenToDevice} {batch : Batch} {events : List Value}
    (h : (s.mark ⟨[],[],0⟩ events).2 = .ok batch) {k : UInt64}
    (hk : k ∈ ((s.mark ⟨[],[],0⟩ events).1.forgetAll batch.new_keys).order) : k ∈ s.order := by
  rw [← window_keys,forgetAll_window,Sliding.Window.mem_forgetAll,
    window_keys,(new_keys_of_mark h).2] at hk
  exact (mem_marked h hk.1).resolve_right hk.2

/-- Without new events nothing is marked. -/
theorem mark_nothing {s : SeenToDevice} {batch : Batch} {events : List Value}
    (h : (s.mark ⟨[],[],0⟩ events).2 = .ok batch) (hn : s.newEvents events = []) :
    (s.mark ⟨[],[],0⟩ events).1.order = s.order := by
  have hf := s.newEvents_fresh events
  rw [hn] at hf
  rw [order_of_mark h,s.window.mark_room _ (by rw [← hf]; simpa using s.bound),← hf]
  exact List.append_nil _

/-- Marks for which there is room are taken back without a trace. -/
theorem kept_of_room {s : SeenToDevice} {batch : Batch} {events : List Value}
    (h : (s.mark ⟨[],[],0⟩ events).2 = .ok batch)
    (hroom : s.order.length + (s.newEvents events).length ≤ SEEN_TO_DEVICE_CAPACITY)
    {k : UInt64} (hk : k ∈ s.order) :
    k ∈ ((s.mark ⟨[],[],0⟩ events).1.forgetAll batch.new_keys).order := by
  obtain ⟨dups,_,hw⟩ := mark_converts (converts_of_mark h) ⟨[],[],0⟩
  have hf := s.newEvents_fresh events
  rw [← window_keys,forgetAll_window,hw,(new_keys_of_mark h).2,hf]
  refine s.window.mark_forgetAll _ ?_ hk
  rw [← hf,List.length_map]
  exact hroom

/-- The incoming events, each with whether the loop takes it for new. -/
def deliveries (s : SeenToDevice) : List Value → Sliding.Trace Value
  | [] => []
  | event :: rest =>
      let r := s.insert (s.key event)
      (event,r.2) :: r.1.deliveries rest

theorem delivered_deliveries (s : SeenToDevice) (events : List Value) :
    Sliding.delivered (s.deliveries events) = events := by
  induction events generalizing s with
  | nil => rfl
  | cons event rest ih => exact congrArg (event :: ·) (ih _)

theorem fresh_deliveries (s : SeenToDevice) (events : List Value) :
    Sliding.fresh (s.deliveries events) = s.newEvents events := by
  induction events generalizing s with
  | nil => rfl
  | cons event rest ih =>
      have h := ih (s.insert (s.key event)).1
      simp only [deliveries,newEvents]
      by_cases hnew : (s.insert (s.key event)).2 = true
      · simpa [Sliding.fresh,hnew] using h
      · simpa [Sliding.fresh,hnew] using h

theorem deliveries_under (s : SeenToDevice) (events : List Value) :
    List.Forall₂ (Sliding.Under s.key) (s.deliveries events)
      (s.window.mark (events.map s.key)).2 := by
  induction events generalizing s with
  | nil => exact .nil
  | cons event rest ih =>
      obtain ⟨hw,hb⟩ := s.insert_window (s.key event)
      have h := ih (s.insert (s.key event)).1
      rw [insert_key,hw] at h
      exact .cons ⟨rfl,fun he => hb ▸ he⟩ h

/-- An event that is not new was remembered, or came before in the same body. -/
theorem repeated_delivery {s : SeenToDevice} {events : List Value} {A B : Sliding.Trace Value}
    {event : Value} (h : s.deliveries events = A ++ (event,false) :: B) :
    s.key event ∈ s.order ∨ ∃ e, (e,true) ∈ A ∧ s.key e = s.key event := by
  induction events generalizing s A with
  | nil => simp [deliveries] at h
  | cons first rest ih =>
      obtain ⟨hw,hb⟩ := s.insert_window (s.key first)
      simp only [deliveries] at h
      by_cases hold : s.key first ∈ s.order
      · rw [s.window.insert_old hold] at hw hb
        have horder : (s.insert (s.key first)).1.order = s.order := congrArg (·.keys) hw
        cases A with
        | nil =>
            simp only [List.nil_append,List.cons.injEq,Prod.mk.injEq] at h
            exact .inl (h.1.1 ▸ hold)
        | cons a A =>
            simp only [List.cons_append,List.cons.injEq] at h
            obtain ⟨rfl,h⟩ := h
            have hrest := ih h
            rw [insert_key,horder] at hrest
            exact hrest.imp id fun ⟨e,he,hk⟩ => ⟨e,List.mem_cons_of_mem _ he,hk⟩
      · obtain ⟨hkeys,hnew⟩ := s.window.insert_new hold
        rw [hnew] at hb
        cases A with
        | nil => simp [hb] at h
        | cons a A =>
            simp only [List.cons_append,List.cons.injEq] at h
            obtain ⟨rfl,h⟩ := h
            obtain hmem | ⟨e,he,hk⟩ := ih h
            · rw [insert_key] at hmem
              obtain ⟨d,hd⟩ := Sliding.trim_suffix SEEN_TO_DEVICE_CAPACITY (s.order ++ [s.key first])
              have horder : (s.insert (s.key first)).1.order =
                  Sliding.trim SEEN_TO_DEVICE_CAPACITY (s.order ++ [s.key first]) :=
                (congrArg (·.keys) hw).trans hkeys
              have hall : s.key event ∈ s.order ++ [s.key first] := by
                rw [hd,← horder]
                exact List.mem_append_right d hmem
              rcases List.mem_append.mp hall with hm | hm
              · exact .inl hm
              · exact .inr ⟨first,by rw [hb]; exact List.mem_cons_self,(List.mem_singleton.mp hm).symm⟩
            · rw [insert_key] at hk
              exact .inr ⟨e,List.mem_cons_of_mem _ he,hk⟩

end
end SeenToDevice
end EmentE2ee
