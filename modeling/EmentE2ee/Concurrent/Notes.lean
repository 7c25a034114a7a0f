import EmentE2ee.Concurrent.Phases

/-!
# Programs with notes

What a program is to do can be noted beside its actions: the items in their order, one at
each action of a kind, and at its end those that it has taken no action for. Where the
program takes exactly the actions for the items, a system that goes by the notes runs as
one that goes by the actions.
-/
namespace Concurrent

/-- An action with a note, or a note alone. -/
inductive Noted (A ν : Type) where
  | act (a : A) (note : Option ν)
  | note (v : ν)

variable {L A α β ν σ ω ω' : Type} {R : A → Type} {Res : L → Type}

abbrev Noted.Ans (R : A → Type) : Noted A ν → Type
  | act a _ => R a
  | note _ => Unit

namespace Prog

/-- The program with the items noted at the actions that do something. -/
def annotated (does : A → Option ν) : List ν → Prog A R α → Prog (Noted A ν) (Noted.Ans R) α
  | items, .ret x => items.foldr (fun v p => .act (.note v) fun _ => p) (.ret x)
  | items, .act a k =>
      if (does a).isSome then .act (.act a items.head?) fun r => (k r).annotated does items.tail
      else .act (.act a none) fun r => (k r).annotated does items

/-- The program with what each action does noted at it. -/
def marked (mark : A → Option ν) (p : Prog A R α) : Prog (Noted A ν) (Noted.Ans R) α :=
  p.via (fun a => .act a (mark a)) fun _ r => r

/-- However it is answered, the program does exactly the items, in their order. -/
def Writes (does : A → Option ν) (Q : α → Prop) : List ν → Prog A R α → Prop
  | items, .ret x => items = [] ∧ Q x
  | items, .act a k => ∃ rest, items = (does a).toList ++ rest ∧ ∀ r, (k r).Writes does Q rest

variable {does : A → Option ν} {Q : α → Prop} {Q' : β → Prop} {items items' : List ν}

theorem Writes.bind {p : Prog A R α} {g : α → Prog A R β} (h : p.Writes does Q items)
    (hg : ∀ x, Q x → (g x).Writes does Q' items') : (p >>= g).Writes does Q' (items ++ items') := by
  induction p generalizing items with
  | ret x =>
      obtain ⟨rfl,hQ⟩ := h
      exact hg x hQ
  | act a k ih =>
      obtain ⟨rest,rfl,hrest⟩ := h
      exact ⟨rest ++ items',List.append_assoc ..,fun r => ih r (hrest r)⟩

theorem Writes.mono {Q₁ : α → Prop} {p : Prog A R α} (hQ : ∀ x, Q x → Q₁ x)
    (h : p.Writes does Q items) : p.Writes does Q₁ items := by
  induction p generalizing items with
  | ret x => exact ⟨h.1,hQ x h.2⟩
  | act a k ih =>
      obtain ⟨rest,he,hrest⟩ := h
      exact ⟨rest,he,fun r => ih r (hrest r)⟩

/-- Where the first part does nothing. -/
theorem Writes.after {p : Prog A R α} {g : α → Prog A R β} (h : p.Writes does Q [])
    (hg : ∀ x, Q x → (g x).Writes does Q' items) : (p >>= g).Writes does Q' items := h.bind hg

/-- Where only the result is made. -/
theorem Writes.bind_ret {p : Prog A R α} {g : α → β} (h : p.Writes does Q items)
    (hg : ∀ x, Q x → Q' (g x)) : (p >>= fun x => .ret (g x)).Writes does Q' items := by
  rw [← List.append_nil items]
  exact h.bind fun x hx => ⟨rfl,hg x hx⟩

theorem Writes.nothing {P : A → Prop} (hP : ∀ a, P a → does a = none) {p : Prog A R α}
    (h : p.Does P) : p.Writes does (fun _ => True) [] := by
  induction p with
  | ret x => exact ⟨rfl,trivial⟩
  | act a k ih => exact ⟨[],by rw [hP a h.1]; rfl,fun r => ih r (h.2 r)⟩

/-- Where nothing counts as done. -/
theorem Writes.uncounted (p : Prog A R α) :
    p.Writes (fun _ => (none : Option ν)) (fun _ => True) [] := by
  induction p with
  | ret x => exact ⟨rfl,trivial⟩
  | act a k ih => exact ⟨[],rfl,ih⟩

/-- The same of a part of the items. -/
theorem Writes.filterMap {μ : Type} {f : ν → Option μ} {does' : A → Option μ}
    (hdoes : ∀ a, does' a = (does a).bind f) {p : Prog A R α} (h : p.Writes does Q items) :
    p.Writes does' Q (items.filterMap f) := by
  induction p generalizing items with
  | ret x =>
      obtain ⟨rfl,hQ⟩ := h
      exact ⟨rfl,hQ⟩
  | act a k ih =>
      obtain ⟨rest,rfl,hrest⟩ := h
      refine ⟨rest.filterMap f,?_,fun r => ih r (hrest r)⟩
      rw [List.filterMap_append,hdoes]
      cases does a with
      | none => rfl
      | some v => cases hv : f v <;> simp [hv]

theorem Writes.annotated {p : Prog A R α} (h : p.Writes does Q items) :
    p.annotated does items = p.marked does := by
  induction p generalizing items with
  | ret x =>
      obtain ⟨rfl,-⟩ := h
      rfl
  | act a k ih =>
      obtain ⟨rest,rfl,hrest⟩ := h
      have hk : (fun r => (k r).annotated does rest) = fun r => (k r).marked does :=
        funext fun r => ih r (hrest r)
      cases ha : does a with
      | none => simpa [Prog.annotated,marked,via,ha] using hk
      | some v => simpa [Prog.annotated,marked,via,ha] using hk

/-- Where nothing is to be done nothing is noted. -/
theorem annotated_nil (does : A → Option ν) (p : Prog A R α) :
    p.annotated does [] = p.marked fun _ => none := by
  induction p with
  | ret x => rfl
  | act a k ih =>
      have hk : (fun r => (k r).annotated does []) = fun r => (k r).marked fun _ => none := funext ih
      rw [Prog.annotated]
      split_ifs <;> exact congrArg _ hk

end Prog

section
variable {S : System L A R Res σ} {S' : System L (Noted A ν) (Noted.Ans R) Res σ}
  {mark : L → A → Option ν} {due : A → Set ω} {due' : Noted A ν → Set ω'}

/-- One system does with the notes of a call what the other does with its actions. -/
structure Reads (S' : System L (Noted A ν) (Noted.Ans R) Res σ) (S : System L A R Res σ)
    (mark : L → A → Option ν) : Prop where
  act : ∀ {l a s r s'}, S'.sem l (.act a (mark l a)) s r s' ↔ S.sem l a s r s'
  start : ∀ {b s l p s'}, S'.start b s l p s' ↔ ∃ q, p = q.marked (mark l) ∧ S.start b s l q s'
  env : ∀ {b s s'}, S'.env b s s' ↔ S.env b s s'
  restart : ∀ {s s'}, S'.restart s s' ↔ S.restart s s'

def Thread.marked (mark : L → A → Option ν) (t : Thread L A R Res) :
    Thread L (Noted A ν) (Noted.Ans R) Res := ⟨t.call,t.rest.marked (mark t.call)⟩

theorem marked_act {l : L} {t : Thread L A R Res} {a' : Noted A ν}
    {k' : Noted.Ans R a' → Prog (Noted A ν) (Noted.Ans R) (Res l)} (h : t.marked mark = ⟨l,.act a' k'⟩) :
    ∃ a k, t = ⟨l,.act a k⟩ ∧
      (⟨a',k'⟩ : (a' : Noted A ν) × (Noted.Ans R a' → Prog (Noted A ν) (Noted.Ans R) (Res l))) =
        ⟨.act a (mark l a),fun r => (k r).marked (mark l)⟩ := by
  obtain ⟨l₀,p⟩ := t
  cases p with
  | ret x => cases h
  | act a k =>
      cases h
      exact ⟨a,k,rfl,rfl⟩

theorem busy_marked (ts : List (Thread L A R Res)) :
    busy (ts.map (Thread.marked mark)) = busy ts := by
  funext l
  refine propext ⟨?_,?_⟩
  · rintro ⟨a',k',h⟩
    obtain ⟨t,ht,he⟩ := List.mem_map.mp h
    obtain ⟨a,k,rfl,-⟩ := marked_act he
    exact ⟨a,k,ht⟩
  · rintro ⟨a,k,h⟩
    exact ⟨_,_,List.mem_map_of_mem h⟩

variable (due) in
/-- What is reached by the notes is reached by the actions. -/
theorem Reachable.unmarked (hreads : Reads S' S mark) {s₀ : σ}
    {c : Config L (Noted A ν) (Noted.Ans R) Res σ} (h : Reachable S' due' anyAction s₀ c) :
    ∃ ts, Reachable S due anyAction s₀ ⟨c.state,ts⟩ ∧ c.threads = ts.map (Thread.marked mark) := by
  induction h with
  | refl => exact ⟨[],.refl,rfl⟩
  | tail _ hs ih =>
      obtain ⟨ts,hts,hmap⟩ := ih
      cases hs with
      | @start s s' us l p hp =>
          obtain rfl : us = _ := hmap
          rw [busy_marked] at hp
          obtain ⟨q,rfl,hq⟩ := hreads.start.mp hp
          exact ⟨ts ++ [⟨l,q⟩],hts.start hq,by rw [List.map_append]; rfl⟩
      | @act s s' us vs l a' k' r _ hsem =>
          obtain ⟨us₀,ts₀,rfl,rfl,hrest⟩ := List.map_eq_append_iff.mp hmap.symm
          obtain ⟨t,vs₀,rfl,ht,rfl⟩ := List.map_eq_cons_iff.mp hrest
          obtain ⟨a,k,rfl,he⟩ := marked_act ht
          cases he
          refine ⟨us₀ ++ ⟨l,k r⟩ :: vs₀,hts.act us₀ rfl trivial (hreads.act.mp hsem),?_⟩
          rw [List.map_append,List.map_cons]
          rfl
      | @env s s' us he =>
          obtain rfl : us = _ := hmap
          rw [busy_marked] at he
          exact ⟨ts,hts.env (hreads.env.mp he),rfl⟩
      | restart he => exact ⟨[],hts.tail (.restart (hreads.restart.mp he)),rfl⟩

/-- And the other way round. -/
theorem Reachable.marked (hreads : Reads S' S mark) {s₀ : σ} {c : Config L A R Res σ}
    (h : Reachable S due anyAction s₀ c) :
    Reachable S' due' anyAction s₀ ⟨c.state,c.threads.map (Thread.marked mark)⟩ := by
  induction h with
  | refl => exact .refl
  | tail _ hs ih =>
      cases hs with
      | @start s s' ts l p hp =>
          rw [List.map_append]
          refine ih.start ?_
          rw [busy_marked]
          exact hreads.start.mpr ⟨p,rfl,hp⟩
      | @act s s' us vs l a k r _ hsem =>
          rw [List.map_append,List.map_cons] at ih ⊢
          exact ih.act _ rfl trivial (hreads.act.mpr hsem)
      | @env s s' ts he =>
          refine ih.env ?_
          rw [busy_marked]
          exact hreads.env.mpr he
      | restart he => exact ih.tail (.restart (hreads.restart.mpr he))

/-- Calls do their items, and what they have done stays on record. -/
structure Records (S : System L A R Res σ) (does : L → A → Option ν) (items : L → List ν)
    (record : σ → Set ν) : Prop where
  start : ∀ {b s l p s'}, S.start b s l p s' →
    p.Writes (does l) (fun _ => True) (items l) ∧ record s ⊆ record s'
  act : ∀ {l a s r s'}, S.sem l a s r s' →
    record s ⊆ record s' ∧ ∀ v, does l a = some v → v ∈ record s'
  env : ∀ {b s s'}, S.env b s s' → record s ⊆ record s'

/-- What a call is to do is on record or still before it. -/
theorem Reachable.pending {does : L → A → Option ν} {items : L → List ν} {record : σ → Set ν}
    {ok : σ → Set ω → A → Prop} {s₀ : σ} {c : Config L A R Res σ} (hr : Records S does items record)
    (h : Reachable S due ok s₀ c) : ∀ t ∈ c.threads, ∃ rest,
      t.rest.Writes (does t.call) (fun _ => True) rest ∧
        ∀ v ∈ items t.call, v ∈ rest ∨ v ∈ record c.state := by
  induction h with
  | refl => exact fun _ ht => (List.not_mem_nil ht).elim
  | tail _ hs ih =>
      have hkept : ∀ {s s' : σ} {t : Thread L A R Res}, record s ⊆ record s' →
          (∃ rest, t.rest.Writes (does t.call) (fun _ => True) rest ∧
            ∀ v ∈ items t.call, v ∈ rest ∨ v ∈ record s) →
          ∃ rest, t.rest.Writes (does t.call) (fun _ => True) rest ∧
            ∀ v ∈ items t.call, v ∈ rest ∨ v ∈ record s' :=
        fun hsub ⟨rest,hrest,hv⟩ => ⟨rest,hrest,fun v hmem => (hv v hmem).imp_right fun h => hsub h⟩
      cases hs with
      | @start s s' us l p hp =>
          obtain ⟨hwrites,hsub⟩ := hr.start hp
          intro t ht
          rcases List.mem_append.mp ht with ht | ht
          · exact hkept hsub (ih t ht)
          · rw [List.mem_singleton.mp ht]
            exact ⟨items l,hwrites,fun v hv => .inl hv⟩
      | @act s s' us vs l a k r _ hsem =>
          obtain ⟨hsub,hdone⟩ := hr.act hsem
          intro t ht
          rcases List.mem_append.mp ht with ht | ht
          · exact hkept hsub (ih t (List.mem_append_left _ ht))
          rcases List.mem_cons.mp ht with rfl | ht
          · obtain ⟨_,⟨rest,rfl,hrest⟩,hv⟩ := ih ⟨l,.act a k⟩ (by simp)
            refine ⟨rest,hrest r,fun v hmem => ?_⟩
            rcases hv v hmem with hlater | hdid
            · rcases List.mem_append.mp hlater with hnow | hlater
              · exact .inr (hdone v (Option.mem_toList.mp hnow))
              · exact .inl hlater
            · exact .inr (hsub hdid)
          · exact hkept hsub (ih t (List.mem_append_right _ (List.mem_cons_of_mem _ ht)))
      | env he => exact fun t ht => hkept (hr.env he) (ih t ht)
      | restart _ => exact fun _ ht => (List.not_mem_nil ht).elim

/-- All that a call was to do is on record when it has ended. -/
theorem Reachable.recorded {does : L → A → Option ν} {items : L → List ν} {record : σ → Set ν}
    {ok : σ → Set ω → A → Prop} {s₀ : σ} {c : Config L A R Res σ} (hr : Records S does items record)
    (h : Reachable S due ok s₀ c) {l : L} {x : Res l} (ht : ⟨l,.ret x⟩ ∈ c.threads) :
    ∀ v ∈ items l, v ∈ record c.state := by
  obtain ⟨rest,⟨rfl,_⟩,hv⟩ := h.pending hr _ ht
  exact fun v hmem => (hv v hmem).resolve_left List.not_mem_nil

end
end Concurrent
