import EmentE2ee.Sliding.Window

/-!
# Any mix of insertions and removals

A window under arbitrary calls, with a log of every call and its answer. A key
that was inserted and not forgotten leaves only when `cap` distinct other keys
were inserted behind it.
-/
namespace Sliding

inductive Call (κ : Type)
  | insert (k : κ)
  | forget (k : κ)

/-- Calls in order, each with what it returned; forgetting returns nothing. -/
abbrev Log (κ : Type) := List (Call κ × Option Bool)

variable {κ : Type} {cap : Nat}

/-- What a call of the log brought in, if it did. -/
def arrival : Call κ × Option Bool → Option (κ × Bool)
  | (.insert k,some true) => some (k,true)
  | _ => none

/-- The keys that were inserted as new. -/
def arrivals (L : Log κ) : Trace κ := L.filterMap arrival

@[simp] theorem arrivals_append (L M : Log κ) : arrivals (L ++ M) = arrivals L ++ arrivals M :=
  List.filterMap_append ..
@[simp] theorem arrivals_nil : arrivals ([] : Log κ) = [] := rfl
@[simp] theorem arrivals_new (k : κ) : arrivals [(Call.insert k,some true)] = [(k,true)] := rfl
@[simp] theorem arrivals_old (k : κ) : arrivals [(Call.insert k,some false)] = [] := rfl
@[simp] theorem arrivals_forget (k : κ) (b : Option Bool) : arrivals [(Call.forget k,b)] = [] := rfl

namespace Window
variable [DecidableEq κ]

def call (w : Window κ cap) : Call κ → Window κ cap × Option Bool
  | .insert k => ((w.insert k).1,some (w.insert k).2)
  | .forget k => (w.forget k,none)

/-- One call after the other, with the log of them. -/
def calls (w : Window κ cap) : List (Call κ) → Window κ cap × Log κ
  | [] => (w,[])
  | c :: cs =>
      let r := w.call c
      let rest := r.1.calls cs
      (rest.1,(c,r.2) :: rest.2)

end Window

/-- Keys inserted as new and not forgotten are remembered until they are
crowded out, and only keys inserted since stand behind them. -/
structure Follows (w : Window κ cap) (L : Log κ) : Prop where
  gone : ∀ A k B, L = A ++ (.insert k,some true) :: B → (.forget k,none) ∉ B → k ∉ w.keys →
    Crowded cap k (arrivals B)
  since : ∀ A k B, L = A ++ (.insert k,some true) :: B → ∀ u v, w.keys = u ++ k :: v →
    ∀ x ∈ v, x ∈ delivered (arrivals B)

variable {w : Window κ cap} {L : Log κ}

theorem Follows.nil : Follows w [] := by
  constructor <;> intro A k B h <;> simp at h

theorem Follows.insert_old (h : Follows w L) (b : κ) :
    Follows w (L ++ [(.insert b,some false)]) := by
  constructor
  · intro A k B hL hf hk
    obtain ⟨_,_,he⟩ | ⟨B₀,rfl,hT⟩ := snoc_split hL
    · cases he
    · have hold := h.gone A k B₀ hT (fun hm => hf (List.mem_append_left _ hm)) hk
      simpa using hold
  · intro A k B hL u v hw x hx
    obtain ⟨_,_,he⟩ | ⟨B₀,rfl,hT⟩ := snoc_split hL
    · cases he
    · simpa using h.since A k B₀ hT u v hw x hx

variable [DecidableEq κ]

theorem Follows.insert_new (h : Follows w L) {b : κ} (hb : b ∉ w.keys) :
    Follows (w.insert b).1 (L ++ [(.insert b,some true)]) := by
  -- Behind an inserted key, the old window or `b` itself.
  have behind : ∀ A k B, L ++ [(.insert b,some true)] = A ++ (.insert k,some true) :: B →
      ∀ u v, w.keys ++ [b] = u ++ k :: v → ∀ x ∈ v, x ∈ delivered (arrivals B) := by
    intro A k B hL u v hw x hx
    obtain ⟨rfl,_,_⟩ | ⟨v₀,rfl,hw₀⟩ := snoc_split hw
    · cases hx
    · have hk : k ∈ w.keys := by simp [hw₀]
      obtain ⟨_,_,he⟩ | ⟨B₀,rfl,hT⟩ := snoc_split hL
      · cases he
        exact (hb hk).elim
      · rw [List.mem_append] at hx
        rw [arrivals_append,arrivals_new,delivered_append,delivered_singleton,List.mem_append]
        exact hx.imp (h.since A k B₀ hT u v₀ hw₀ x) id
  constructor
  · intro A k B hL hf hk
    by_cases hold : k ∈ w.keys ++ [b]
    · obtain ⟨v,hv,hn,hlen,hkv⟩ := w.pushed_out hb hold hk
      refine ⟨v,hn,hlen,fun x hx => ⟨?_,behind A k B hL [] v hv x hx⟩⟩
      intro he
      exact hkv (he ▸ hx)
    · have hk' : k ∉ w.keys := fun hm => hold (List.mem_append_left _ hm)
      obtain ⟨_,_,he⟩ | ⟨B₀,rfl,hT⟩ := snoc_split hL
      · cases he
        simp at hold
      · have hgone := h.gone A k B₀ hT (fun hm => hf (List.mem_append_left _ hm)) hk'
        exact hgone.mono (by simp)
  · intro A k B hL u v hw x hx
    obtain ⟨d,hd⟩ := trim_suffix cap (w.keys ++ [b])
    rw [← (w.insert_new hb).1,hw] at hd
    exact behind A k B hL (d ++ u) v (by rw [hd,List.append_assoc]) x hx

theorem Follows.forget (h : Follows w L) (b : κ) :
    Follows (w.forget b) (L ++ [(.forget b,none)]) := by
  constructor
  · intro A k B hL hf hk
    obtain ⟨_,_,he⟩ | ⟨B₀,rfl,hT⟩ := snoc_split hL
    · cases he
    · have hkb : k ≠ b := by
        intro he
        subst he
        exact hf (List.mem_append_right _ List.mem_cons_self)
      have hk' : k ∉ w.keys := fun hm => hk (by simp [Window.forget,hm,hkb])
      have hold := h.gone A k B₀ hT (fun hm => hf (List.mem_append_left _ hm)) hk'
      simpa using hold
  · intro A k B hL u v hw x hx
    obtain ⟨_,_,he⟩ | ⟨B₀,rfl,hT⟩ := snoc_split hL
    · cases he
    · obtain ⟨u',v',hw',hv⟩ := sublist_split (List.filter_sublist) hw
      simpa using h.since A k B₀ hT u' v' hw' x (hv hx)

theorem Follows.call (h : Follows w L) (c : Call κ) :
    Follows (w.call c).1 (L ++ [(c,(w.call c).2)]) := by
  cases c with
  | forget k => exact h.forget k
  | insert k =>
      by_cases hk : k ∈ w.keys
      · simp only [Window.call,w.insert_old hk]
        exact h.insert_old k
      · simp only [Window.call]
        rw [(w.insert_new hk).2]
        exact h.insert_new hk

/-- Every log of calls is followed. -/
theorem Follows.calls (h : Follows w L) (cs : List (Call κ)) :
    Follows (w.calls cs).1 (L ++ (w.calls cs).2) := by
  induction cs generalizing w L with
  | nil => simpa [Window.calls] using h
  | cons c cs ih =>
      have hrest := ih (h.call c)
      rwa [List.append_assoc] at hrest

end Sliding
