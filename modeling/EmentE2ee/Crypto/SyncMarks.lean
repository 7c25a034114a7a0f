import EmentE2ee.Concurrent.Run
import EmentE2ee.Crypto.SyncCalls

/-!
# Which events are remembered

A remembered event is one that the machine took, and a call that fails forgets
nothing, as long as marks that were made are taken back or paid for: no event of
the body fails to convert, no call is dropped with marks whose batch the machine
has not taken, and the marks of a failing call push nothing out.
-/
namespace EmentE2ee.SyncMarks

open Concurrent
open Json (Value)
open SyncCalls

section
variable [Codec] {ω : Type}

/-- The event was in a batch that the machine took in one of the calls. -/
def Taken (calls : List Call) (event : Value) : Prop :=
  ∃ c ∈ calls, event ∈ incoming c.body ∧ ∃ raw, Codec.toRaw event = some raw ∧ raw ∈ c.batches.flatten

/-- Every remembered key is that of such an event. -/
def Processed (calls : List Call) (S : SeenToDevice) : Prop := Backed (Taken calls) S

/-- Of what was remembered, a call without success forgets nothing. -/
def KeptBy (c : Call) (S S' : SeenToDevice) : Prop :=
  c.batches = [] → ∀ k ∈ S.order, k ∈ S'.order

/-- What a call has to meet, given what is remembered before it. -/
structure Orderly (ctx : AccountContext) (S : SeenToDevice) (c : Call) : Prop where
  converts : S.Converts (incoming c.body)
  paid : (∃ changes, c.ending = .dropped (.olm ctx (.receiveSyncChanges changes))) →
    c.batches = [] → S.newEvents (incoming c.body) = []
  room : (∃ e, c.ending = .returned (.error e)) → S.order = [] ∨
    S.order.length + (S.newEvents (incoming c.body)).length ≤ SEEN_TO_DEVICE_CAPACITY

variable {O : Outside ω} {ctx : AccountContext} {S S' : SeenToDevice} {c : Call}

theorem Processed.step {calls : List Call} (h : Processed calls S) (hg : Orderly ctx S c)
    (ho : Outcome ctx S (incoming c.body) c.ending c.batches S') : Processed (calls ++ [c]) S' := by
  refine ho.backed h hg.converts hg.paid ?_ fun event he raw hraw hb => ?_
  · rintro event ⟨c',hc,he⟩
    exact ⟨c',List.mem_append_left _ hc,he⟩
  · exact ⟨c,by simp,(S.newEvents_sublist _).subset he,raw,hraw,hb⟩

theorem kept_step (hg : Orderly ctx S c)
    (ho : Outcome ctx S (incoming c.body) c.ending c.batches S') : KeptBy c S S' := by
  obtain ⟨body,ending,batches⟩ := c
  intro hnone k hk
  cases ho with
  | unconverted he =>
      obtain ⟨_,hok,_⟩ := SeenToDevice.mark_converts hg.converts ⟨[],[],0⟩
      cases he.symm.trans hok
  | failed hm =>
      rcases hg.room ⟨_,rfl⟩ with hnil | hroom
      · rw [hnil] at hk
        cases hk
      · exact SeenToDevice.kept_of_room hm hroom hk
  | done hm => cases hnone
  | waiting => exact hk
  | lost hm _ => rwa [SeenToDevice.mark_nothing hm (hg.paid ⟨_,rfl⟩ rfl)]
  | taken hm _ => cases hnone

/-- Between orderly calls, what is remembered was processed, and the next
orderly call without success forgets none of it. -/
theorem remembered_was_processed {s₀ s : State ω} {calls : List Call} {hasher : Hasher}
    (h₀ : (s₀.accounts ctx).seen = .default hasher)
    (hrun : Run (fun s c s' => Step O ctx s c s' ∧ Orderly ctx (s.accounts ctx).seen c) s₀ calls s) :
    Processed calls (s.accounts ctx).seen ∧
      ∀ c s', Step O ctx s c s' → Orderly ctx (s.accounts ctx).seen c →
        KeptBy c (s.accounts ctx).seen (s'.accounts ctx).seen := by
  refine ⟨?_,fun c s' hs hg => kept_step hg hs.outcome⟩
  refine hrun.history (I := fun calls s => Processed calls (s.accounts ctx).seen) ?_ ?_
  · intro k hk
    rw [h₀] at hk
    cases hk
  · exact fun calls s c s' ih h => ih.step h.2 h.1.outcome

end

local instance : Codec := oneCodec

/-- The event is processed, and remembered. -/
theorem remembered_was_processed_one : ∃ c s, Run (Step taking alice) blank [c] s ∧
    roomKey ∈ incoming c.body ∧ (s.accounts alice).seen.order = [7] ∧
    Processed [c] (s.accounts alice).seen := by
  obtain ⟨s',hs⟩ := taken_one
  have horder : (s'.accounts alice).seen.order = [7] := by
    have ho : Outcome alice (.default 0) (incoming oneKey) _ _ _ := hs.outcome
    generalize (s'.accounts alice).seen = S',[[roomKey]] = bs at ho ⊢
    cases ho
    exact order_one
  have hg : Orderly alice (blank.accounts alice).seen ⟨oneKey,.returned (.ok ()),[[roomKey]]⟩ :=
    ⟨SeenToDevice.converts_of_mark marked_one,nofun,nofun⟩
  exact ⟨_,s',.snoc .nil hs,List.mem_singleton_self _,horder,
    (remembered_was_processed rfl (.snoc .nil ⟨hs,hg⟩)).1⟩

/-- The event is marked, and the call is dropped before the machine has it. -/
theorem dropped_marks_stay : ∃ c s, Run (Step taking alice) blank [c] s ∧
    ¬ Processed [c] (s.accounts alice).seen := by
  have hcut : ∃ a s', Prog.Cut (watched taking alice) Act.waits (receive_sync_changes alice oneKey)
      ⟨blank,[]⟩ a ⟨s',[]⟩ ∧ ∃ changes, a = .olm alice (.receiveSyncChanges changes) := by
    rw [receive_eq]
    exact ⟨_,_,.act (r := ()) (watched_of ⟨rfl,rfl⟩)
      (.act (r := .ok ⟨[roomKey],[7],0⟩) (watched_of ⟨marked_one.symm,rfl⟩) (.before trivial)),_,rfl⟩
  obtain ⟨a,s',hcut,changes,rfl⟩ := hcut
  have hs : Step taking alice blank ⟨oneKey,.dropped (.olm alice (.receiveSyncChanges changes)),[]⟩ s' :=
    .dropped hcut
  have horder : 7 ∈ (s'.accounts alice).seen.order := by
    have ho : Outcome alice (.default 0) (incoming oneKey) _ _ _ := hs.outcome
    generalize (s'.accounts alice).seen = S' at ho ⊢
    cases ho with
    | lost hm _ => exact order_one ▸ List.mem_singleton_self _
  refine ⟨_,s',.snoc .nil hs,fun hp => ?_⟩
  obtain ⟨_,⟨c,hc,_,_,_,hb⟩,_⟩ := hp 7 horder
  rw [List.mem_singleton] at hc
  subst hc
  simp at hb

end EmentE2ee.SyncMarks
