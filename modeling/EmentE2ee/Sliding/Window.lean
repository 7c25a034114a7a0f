import Mathlib.Data.List.Nodup

/-!
# A bounded memory of distinct keys

Deliveries are recognised by key against the most recent `cap` keys. A trace
records every delivery and whether it was accepted as new. A batch is marked
key by key and rolled back as a whole when it fails, so the trace of a failed
batch accepts nothing. The law is that a key accepted twice had at least `cap`
distinct other keys delivered in between, whatever batches failed meanwhile.
-/
namespace Sliding

/-- Distinct keys, the oldest first, at most `cap` of them. -/
structure Window (κ : Type) (cap : Nat) where
  keys : List κ
  nodup : keys.Nodup
  bound : keys.length ≤ cap

variable {κ : Type} {cap : Nat}

/-- One key too many pushes out the oldest. -/
def trim (cap : Nat) (ks : List κ) : List κ := if cap < ks.length then ks.tail else ks

theorem trim_suffix (cap : Nat) (ks : List κ) : ∃ d, ks = d ++ trim cap ks := by
  unfold trim
  split_ifs
  · cases ks with
    | nil => exact ⟨[],rfl⟩
    | cons k ks => exact ⟨[k],rfl⟩
  · exact ⟨[],rfl⟩

theorem trim_length {ks : List κ} (h : ks.length ≤ cap + 1) : (trim cap ks).length ≤ cap := by
  unfold trim
  split_ifs
  · rw [List.length_tail]
    omega
  · omega

theorem nodup_snoc {ks : List κ} {k : κ} (hn : ks.Nodup) (h : k ∉ ks) : (ks ++ [k]).Nodup :=
  List.nodup_append.mpr ⟨hn,List.nodup_singleton k,fun a ha b hb =>
    fun he => h (by rw [List.mem_singleton] at hb; exact hb ▸ he ▸ ha)⟩

/-- The two places where an element can stand in an extended list. -/
theorem snoc_split {α : Type} {T A B : List α} {y z : α} (h : T ++ [y] = A ++ z :: B) :
    (B = [] ∧ T = A ∧ y = z) ∨ ∃ B₀, B = B₀ ++ [y] ∧ T = A ++ z :: B₀ := by
  rcases List.eq_nil_or_concat B with rfl | ⟨B₀,b,rfl⟩
  · obtain ⟨hT,hy⟩ := List.append_inj' h rfl
    exact .inl ⟨rfl,hT,by simpa using hy⟩
  · rw [List.concat_eq_append,← List.cons_append,← List.append_assoc] at h
    obtain ⟨hT,hb⟩ := List.append_inj' h rfl
    simp only [List.cons.injEq,and_true] at hb
    exact .inr ⟨B₀,by rw [List.concat_eq_append,hb],hT⟩

namespace Window
variable [DecidableEq κ]

def empty : Window κ cap := ⟨[],List.nodup_nil,Nat.zero_le _⟩

/-- Remember a key; false if it was remembered already. -/
def insert (w : Window κ cap) (k : κ) : Window κ cap × Bool :=
  if h : k ∈ w.keys then (w,false)
  else
    (⟨trim cap (w.keys ++ [k]),
      by
        obtain ⟨d,hd⟩ := trim_suffix cap (w.keys ++ [k])
        have hn := nodup_snoc w.nodup h
        rw [hd] at hn
        exact hn.of_append_right,
      trim_length (by simpa using w.bound)⟩,true)

def forget (w : Window κ cap) (k : κ) : Window κ cap :=
  ⟨w.keys.filter (· ≠ k),w.nodup.filter _,Nat.le_trans (List.length_filter_le ..) w.bound⟩

def forgetAll (w : Window κ cap) (ks : List κ) : Window κ cap := ks.foldl forget w

/-- Offer keys one after the other; each is recorded with whether it was new. -/
def mark (w : Window κ cap) : List κ → Window κ cap × List (κ × Bool)
  | [] => (w,[])
  | k :: ks =>
      let r := w.insert k
      let rest := r.1.mark ks
      (rest.1,(k,r.2) :: rest.2)

variable (w : Window κ cap)

theorem insert_old {k : κ} (h : k ∈ w.keys) : w.insert k = (w,false) := by
  simp [insert,h]

theorem insert_new {k : κ} (h : k ∉ w.keys) :
    (w.insert k).1.keys = trim cap (w.keys ++ [k]) ∧ (w.insert k).2 = true := by
  simp [insert,h]

/-- A key that an insertion pushes out stood first, before a full window. -/
theorem pushed_out {b k : κ} (hb : b ∉ w.keys) (hold : k ∈ w.keys ++ [b])
    (hk : k ∉ (w.insert b).1.keys) :
    ∃ v, w.keys ++ [b] = k :: v ∧ v.Nodup ∧ cap ≤ v.length ∧ k ∉ v := by
  obtain ⟨hkeys,_⟩ := w.insert_new hb
  have htrim : trim cap (w.keys ++ [b]) ≠ w.keys ++ [b] := by
    rw [← hkeys]
    exact fun he => hk (he ▸ hold)
  have hlen : cap < (w.keys ++ [b]).length := by
    by_contra hc
    exact htrim (if_neg hc)
  obtain ⟨y,v,hv⟩ : ∃ y v, w.keys ++ [b] = y :: v := List.exists_cons_of_ne_nil (by simp)
  have hvk : (w.insert b).1.keys = v := by
    rw [hkeys,trim,if_pos hlen,hv,List.tail_cons]
  have hy : k = y := by
    rw [hv,List.mem_cons] at hold
    exact hold.resolve_right (hvk ▸ hk)
  have hn := nodup_snoc w.nodup hb
  rw [hv] at hn hlen
  rw [List.length_cons] at hlen
  exact ⟨v,hy ▸ hv,hn.of_cons,by omega,hvk ▸ hk⟩

theorem mem_forgetAll (ks : List κ) (k : κ) :
    k ∈ (w.forgetAll ks).keys ↔ k ∈ w.keys ∧ k ∉ ks := by
  induction ks generalizing w with
  | nil => simp [forgetAll]
  | cons x ks ih =>
      have h := ih (w.forget x)
      simp only [forgetAll,List.foldl_cons] at h ⊢
      rw [h]
      simp [forget,and_assoc]

theorem forgetAll_sublist (ks : List κ) : (w.forgetAll ks).keys.Sublist w.keys := by
  induction ks generalizing w with
  | nil => exact List.Sublist.refl _
  | cons x ks ih => exact (ih (w.forget x)).trans List.filter_sublist

theorem mark_fst (ks : List κ) : (w.mark ks).2.map Prod.fst = ks := by
  induction ks generalizing w with
  | nil => rfl
  | cons k ks ih => simp only [mark,List.map_cons,ih]

end Window

/-- Deliveries in order, each with whether it was accepted as new. -/
abbrev Trace (κ : Type) := List (κ × Bool)

def delivered (T : Trace κ) : List κ := T.map Prod.fst

@[simp] theorem delivered_append (T T' : Trace κ) :
    delivered (T ++ T') = delivered T ++ delivered T' := List.map_append ..
@[simp] theorem delivered_singleton (k : κ) (b : Bool) : delivered [(k,b)] = [k] := rfl

/-- Deliveries of which none is accepted. -/
def idle (ks : List κ) : Trace κ := ks.map fun k => (k,false)

@[simp] theorem delivered_idle (ks : List κ) : delivered (idle ks) = ks := by
  simp [delivered,idle,Function.comp_def]

/-- At least `cap` distinct other keys were delivered. -/
def Crowded (cap : Nat) (k : κ) (T : Trace κ) : Prop :=
  ∃ l : List κ, l.Nodup ∧ cap ≤ l.length ∧ ∀ x ∈ l, x ≠ k ∧ x ∈ delivered T

/-- No key is accepted again before it is crowded out. -/
def Once (cap : Nat) (T : Trace κ) : Prop :=
  ∀ A k B C, T = A ++ (k,true) :: B ++ (k,true) :: C → Crowded cap k B

theorem Crowded.mono {k : κ} {T T' : Trace κ} (h : Crowded cap k T)
    (hT : delivered T ⊆ delivered T') : Crowded cap k T' := by
  obtain ⟨l,hn,hl,hx⟩ := h
  exact ⟨l,hn,hl,fun x hm => ⟨(hx x hm).1,hT (hx x hm).2⟩⟩

/-- Every accepted key is remembered until it is crowded out, and only keys
delivered since stand behind it. -/
structure Tracks (w : Window κ cap) (T : Trace κ) : Prop where
  gone : ∀ A k B, T = A ++ (k,true) :: B → k ∉ w.keys → Crowded cap k B
  since : ∀ A k B, T = A ++ (k,true) :: B → ∀ u v, w.keys = u ++ k :: v →
    ∀ x ∈ v, x ∈ delivered B

variable {w : Window κ cap} {T : Trace κ}

theorem Once.nil : Once cap ([] : Trace κ) := by
  intro A k B C h
  simp at h

theorem Tracks.nil : Tracks (Window.empty : Window κ cap) [] := by
  constructor <;> intro A k B h <;> simp at h

/-- A delivery that is not accepted adds nothing to answer for. -/
theorem Once.refused (h : Once cap T) (b : κ) : Once cap (T ++ [(b,false)]) := by
  intro A k B C hT
  obtain ⟨_,_,hb⟩ | ⟨C₀,_,hT⟩ := snoc_split hT
  · cases hb
  · exact h A k B C₀ hT

theorem Tracks.refused (h : Tracks w T) (b : κ) : Tracks w (T ++ [(b,false)]) := by
  constructor
  · intro A k B hT hk
    obtain ⟨_,_,hb⟩ | ⟨B₀,hB,hT⟩ := snoc_split hT
    · cases hb
    · exact (h.gone A k B₀ hT hk).mono (by simp [hB])
  · intro A k B hT u v hw x hx
    obtain ⟨_,_,hb⟩ | ⟨B₀,hB,hT⟩ := snoc_split hT
    · cases hb
    · simp [hB,h.since A k B₀ hT u v hw x hx]

theorem Once.accepted (h : Once cap T) (ht : Tracks w T) {b : κ} (hb : b ∉ w.keys) :
    Once cap (T ++ [(b,true)]) := by
  intro A k B C hT
  obtain ⟨_,hT,hb'⟩ | ⟨C₀,_,hT⟩ := snoc_split hT
  · cases hb'
    exact ht.gone A b B hT hb
  · exact h A k B C₀ hT

/-- The same for any number of deliveries. -/
theorem Once.idle (h : Once cap T) (ks : List κ) : Once cap (T ++ idle ks) := by
  induction ks generalizing T with
  | nil => simpa [Sliding.idle] using h
  | cons k ks ih =>
      have hk := ih (h.refused k)
      rwa [List.append_assoc] at hk

theorem Tracks.idle (h : Tracks w T) (ks : List κ) : Tracks w (T ++ idle ks) := by
  induction ks generalizing T with
  | nil => simpa [Sliding.idle] using h
  | cons k ks ih =>
      have hk := ih (h.refused k)
      rwa [List.append_assoc] at hk

section
variable [DecidableEq κ]

theorem Tracks.accepted (h : Tracks w T) {b : κ} (hb : b ∉ w.keys) :
    Tracks (w.insert b).1 (T ++ [(b,true)]) := by
  obtain ⟨hkeys,_⟩ := w.insert_new hb
  obtain ⟨d,hd⟩ := trim_suffix cap (w.keys ++ [b])
  rw [← hkeys] at hd
  -- Behind an accepted key, the old window or `b` itself.
  have behind : ∀ A k B, T ++ [(b,true)] = A ++ (k,true) :: B →
      ∀ u v, w.keys ++ [b] = u ++ k :: v → ∀ x ∈ v, x ∈ delivered B := by
    intro A k B hT u v hw x hx
    obtain ⟨hv,_,_⟩ | ⟨v₀,hv,hw⟩ := snoc_split hw
    · simp [hv] at hx
    · have hk : k ∈ w.keys := by simp [hw]
      obtain ⟨_,_,hb'⟩ | ⟨B₀,hB,hT⟩ := snoc_split hT
      · cases hb'
        exact (hb hk).elim
      · rw [hv,List.mem_append] at hx
        rw [hB,delivered_append,delivered_singleton,List.mem_append]
        exact hx.imp (h.since A k B₀ hT u v₀ hw x) id
  constructor
  · intro A k B hT hk
    by_cases hold : k ∈ w.keys ++ [b]
    · -- It has just been pushed out: the whole window was delivered since.
      obtain ⟨v,hv,hn,hlen,hkv⟩ := w.pushed_out hb hold hk
      refine ⟨v,hn,hlen,fun x hx => ⟨?_,behind A k B hT [] v hv x hx⟩⟩
      intro he
      exact hkv (he ▸ hx)
    · have hk' : k ∉ w.keys := fun hm => hold (List.mem_append_left _ hm)
      obtain ⟨_,_,hb'⟩ | ⟨B₀,hB,hT⟩ := snoc_split hT
      · cases hb'
        simp at hold
      · exact (h.gone A k B₀ hT hk').mono (by simp [hB])
  · intro A k B hT u v hw x hx
    exact behind A k B hT (d ++ u) v (by rw [hd,hw,List.append_assoc]) x hx

/-- Marking keeps both laws, with every new key counted as accepted. -/
theorem Tracks.mark (h : Tracks w T) (ks : List κ) (ho : Once cap T) :
    Tracks (w.mark ks).1 (T ++ (w.mark ks).2) ∧ Once cap (T ++ (w.mark ks).2) := by
  induction ks generalizing w T with
  | nil => simpa [Window.mark] using And.intro h ho
  | cons k ks ih =>
      simp only [Window.mark]
      rw [List.append_cons T]
      by_cases hk : k ∈ w.keys
      · rw [w.insert_old hk]
        exact ih (h.refused k) (ho.refused k)
      · rw [(w.insert_new hk).2]
        exact ih (h.accepted hk) (ho.accepted h hk)

end

section
variable {α : Type} {f : α → κ} {T : Trace α} {U : Trace κ}

/-- A delivery and its key, accepted only if the key was. -/
def Under (f : α → κ) (d : α × Bool) (u : κ × Bool) : Prop := f d.1 = u.1 ∧ (d.2 = true → u.2 = true)

theorem under_delivered (h : List.Forall₂ (Under f) T U) : delivered U = (delivered T).map f := by
  induction h with
  | nil => rfl
  | cons hd _ ih =>
      simp only [delivered,List.map_cons] at ih ⊢
      rw [ih,hd.1]

/-- Where nothing is accepted any keys will do. -/
theorem idle_under {ks : List α} {D : Trace κ} (h : delivered D = ks.map f) :
    List.Forall₂ (Under f) (idle ks) D := by
  induction ks generalizing D with
  | nil =>
      obtain rfl : D = [] := by simpa [delivered] using h
      exact .nil
  | cons k ks ih =>
      cases D with
      | nil => simp [delivered] at h
      | cons d D =>
          simp only [delivered,List.map_cons,List.cons.injEq] at h
          exact .cons ⟨h.1.symm,nofun⟩ (ih h.2)

theorem under_split {A B : Trace α} {d : α × Bool} (h : List.Forall₂ (Under f) (A ++ d :: B) U) :
    ∃ A' u B', U = A' ++ u :: B' ∧ List.Forall₂ (Under f) A A' ∧ Under f d u ∧
      List.Forall₂ (Under f) B B' := by
  induction A generalizing U with
  | nil =>
      cases h with
      | cons hd hB => exact ⟨[],_,_,rfl,.nil,hd,hB⟩
  | cons a A ih =>
      cases h with
      | cons ha hA =>
          obtain ⟨A',u,B',rfl,hA,hd,hB⟩ := ih hA
          exact ⟨_ :: A',u,B',rfl,.cons ha hA,hd,hB⟩

/-- Distinct keys stand for distinct things. -/
theorem Crowded.under {k : α} (h : List.Forall₂ (Under f) T U) (hc : Crowded cap (f k) U) :
    Crowded cap k T := by
  obtain ⟨l,hn,hl,hx⟩ := hc
  have hpre : ∀ x ∈ l, ∃ y, f y = x ∧ y ∈ delivered T := by
    intro x hm
    have hd := (hx x hm).2
    rw [under_delivered h] at hd
    obtain ⟨y,hy,rfl⟩ := List.mem_map.mp hd
    exact ⟨y,rfl,hy⟩
  have : Nonempty α := ⟨k⟩
  choose! g hg using hpre
  have hmap : (l.map g).map f = l := by
    rw [List.map_map]
    exact (List.map_congr_left fun x hm => (hg x hm).1).trans (List.map_id l)
  refine ⟨l.map g,.of_map f (hmap.symm ▸ hn),by simpa using hl,fun y hy => ?_⟩
  obtain ⟨x,hm,rfl⟩ := List.mem_map.mp hy
  refine ⟨?_,(hg x hm).2⟩
  rintro rfl
  exact (hx x hm).1 (hg x hm).1.symm

/-- What holds of the keys holds of what they stand for, if that is accepted
no more often. -/
theorem Once.under (h : List.Forall₂ (Under f) T U) (ho : Once cap U) : Once cap T := by
  intro A k B C hT
  rw [hT,List.append_assoc,List.cons_append] at h
  obtain ⟨A',⟨k₁,b₁⟩,R,rfl,_,⟨hk₁,hb₁⟩,hR⟩ := under_split h
  obtain ⟨B',⟨k₂,b₂⟩,C',rfl,hB,⟨hk₂,hb₂⟩,_⟩ := under_split hR
  obtain rfl := hb₁ rfl
  obtain rfl := hb₂ rfl
  subst hk₁
  subst hk₂
  exact (ho A' (f k) B' C' (by simp)).under hB

end

/-- The keys a trace accepted. -/
def fresh (T : Trace κ) : List κ := (T.filter Prod.snd).map Prod.fst

@[simp] theorem fresh_idle (ks : List κ) : fresh (idle ks) = [] := by
  simp [fresh,idle]

/-- The same deliveries with nothing accepted. -/
def refuse (T : Trace κ) : Trace κ := T.map fun d => (d.1,false)

theorem mem_fresh {T : Trace κ} {k : κ} : k ∈ fresh T ↔ (k,true) ∈ T := by
  simp [fresh]

@[simp] theorem delivered_refuse (T : Trace κ) : delivered (refuse T) = delivered T := by
  simp [delivered,refuse,Function.comp_def]

/-- In a trace that ends in refusals, what was accepted stands before them. -/
theorem accepted_before {T D A B : Trace κ} {k : κ}
    (h : T ++ refuse D = A ++ (k,true) :: B) :
    ∃ B₀, T = A ++ (k,true) :: B₀ ∧ B = B₀ ++ refuse D := by
  rcases List.append_eq_append_iff.mp h with ⟨C,hA,hD⟩ | ⟨C,hT,hB⟩
  · have hk : (k,true) ∈ refuse D := by simp [hD]
    simp [refuse] at hk
  · cases C with
    | nil =>
        have hk : (k,true) ∈ refuse D := by
          rw [List.nil_append] at hB
          simp [← hB]
        simp [refuse] at hk
    | cons c C =>
        rw [List.cons_append,List.cons.injEq] at hB
        obtain ⟨rfl,rfl⟩ := hB
        exact ⟨C,hT,rfl⟩

theorem sublist_split {α : Type} {l l' u v : List α} {k : α} (h : l.Sublist l')
    (hl : l = u ++ k :: v) : ∃ u' v', l' = u' ++ k :: v' ∧ v ⊆ v' := by
  rw [hl] at h
  obtain ⟨r₁,r₂,rfl,_,hr₂⟩ := List.append_sublist_iff.mp h
  obtain ⟨r₃,r₄,rfl,hk,hv⟩ := List.cons_sublist_iff.mp hr₂
  obtain ⟨a,b,rfl⟩ := List.append_of_mem hk
  exact ⟨r₁ ++ a,b ++ r₄,by simp,fun x hx => List.mem_append_right _ (hv.subset hx)⟩

theorem Once.rollback {D : Trace κ} (ho : Once cap (T ++ D)) : Once cap (T ++ refuse D) := by
  intro A k B C hT
  obtain ⟨C₀,hT,hC⟩ := accepted_before (A := A ++ (k,true) :: B) (by simpa using hT)
  exact ho A k B (C₀ ++ D) (by simp [hT])

variable [DecidableEq κ]

/-- Where there is room nothing is pushed out. -/
theorem Window.mark_room (w : Window κ cap) (ks : List κ)
    (h : w.keys.length + (fresh (w.mark ks).2).length ≤ cap) :
    (w.mark ks).1.keys = w.keys ++ fresh (w.mark ks).2 := by
  induction ks generalizing w with
  | nil => simp [mark,fresh]
  | cons k ks ih =>
      simp only [mark] at h ⊢
      by_cases hk : k ∈ w.keys
      · rw [w.insert_old hk] at h ⊢
        simpa [fresh] using ih w (by simpa [fresh] using h)
      · obtain ⟨hkeys,hnew⟩ := w.insert_new hk
        rw [hnew] at h ⊢
        simp only [fresh,List.filter_cons_of_pos,List.map_cons,List.length_cons] at h ⊢
        have htrim : (w.insert k).1.keys = w.keys ++ [k] := by
          rw [hkeys,trim,if_neg]
          simp only [List.length_append,List.length_cons,List.length_nil]
          omega
        have hlen : (w.insert k).1.keys.length = w.keys.length + 1 := by simp [htrim]
        rw [ih _ (by rw [hlen]; unfold fresh; omega),htrim]
        simp [fresh]

/-- Only what was there and what was accepted is remembered. -/
theorem Window.mem_mark (w : Window κ cap) {ks : List κ} {k : κ} (h : k ∈ (w.mark ks).1.keys) :
    k ∈ w.keys ∨ k ∈ fresh (w.mark ks).2 := by
  induction ks generalizing w with
  | nil => exact .inl h
  | cons x ks ih =>
      simp only [mark] at h ⊢
      by_cases hx : x ∈ w.keys
      · rw [w.insert_old hx] at h ⊢
        simpa [fresh] using ih w h
      · obtain ⟨hkeys,hnew⟩ := w.insert_new hx
        rw [hnew]
        obtain ⟨d,hd⟩ := trim_suffix cap (w.keys ++ [x])
        have hsub : ∀ y ∈ (w.insert x).1.keys, y ∈ w.keys ∨ y = x := by
          intro y hy
          have hy' : y ∈ w.keys ++ [x] := by
            rw [hd,← hkeys]
            exact List.mem_append_right d hy
          simpa using hy'
        rcases ih _ h with hk | hk
        · exact (hsub k hk).imp id fun he => by simp [fresh,he]
        · exact .inr (by simp only [fresh,List.filter_cons_of_pos,List.map_cons]
                         exact List.mem_cons_of_mem _ hk)

/-- Taking a batch back where there was room for it changes nothing. -/
theorem Window.mark_forgetAll (w : Window κ cap) (ks : List κ)
    (h : w.keys.length + (fresh (w.mark ks).2).length ≤ cap) {k : κ} (hk : k ∈ w.keys) :
    k ∈ ((w.mark ks).1.forgetAll (fresh (w.mark ks).2)).keys := by
  have hroom := w.mark_room ks h
  have hn := (w.mark ks).1.nodup
  rw [hroom,List.nodup_append] at hn
  rw [mem_forgetAll,hroom]
  exact ⟨List.mem_append_left _ hk,fun hf => hn.2.2 k hk k hf rfl⟩

/-- Forgetting a failed batch leaves the laws of the trace that accepted none of it. -/
theorem Tracks.rollback {D : Trace κ} (h : Tracks w (T ++ D)) (ho : Once cap (T ++ D)) :
    Tracks (w.forgetAll (fresh D)) (T ++ refuse D) := by
  constructor
  · intro A k B hT hk
    obtain ⟨B₀,rfl,rfl⟩ := accepted_before hT
    by_cases hold : k ∈ w.keys
    · -- Only this batch can have brought it back, so it was crowded out before.
      have hD : (k,true) ∈ D := by
        by_contra hD
        exact hk ((w.mem_forgetAll _ k).mpr ⟨hold,fun hm => hD (mem_fresh.mp hm)⟩)
      obtain ⟨D₁,D₂,rfl⟩ := List.append_of_mem hD
      exact (ho A k (B₀ ++ D₁) D₂ (by simp)).mono (by
        rw [delivered_append,delivered_append,delivered_refuse,delivered_append]
        exact List.append_subset.mpr ⟨List.subset_append_left _ _,
          List.subset_append_of_subset_right _ (List.subset_append_left _ _)⟩)
    · exact (h.gone A k (B₀ ++ D) (by simp) hold).mono (by simp)
  · intro A k B hT u v hw x hx
    obtain ⟨B₀,rfl,rfl⟩ := accepted_before hT
    obtain ⟨u',v',hw',hv⟩ := sublist_split (w.forgetAll_sublist (fresh D)) hw
    have hmem := h.since A k (B₀ ++ D) (by simp) u' v' hw' x (hv hx)
    rwa [delivered_append,delivered_refuse,← delivered_append]

end Sliding
