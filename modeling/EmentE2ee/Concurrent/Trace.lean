import EmentE2ee.Concurrent.Program

/-!
# Events in their history

What every event of a trace asks of the events before it. Traces are put
together from parts when nothing is asked that more history could undo.
-/
namespace Concurrent

variable {α : Type} {P : List α → α → Prop} {es es₁ es₂ : List α}

/-- Every event stands after a history that `P` allows it. -/
def Each (P : List α → α → Prop) (es : List α) : Prop :=
  ∀ before x after, es = before ++ x :: after → P before x

theorem Each.nil : Each P [] := by
  intro before x after h
  simp at h

theorem Each.left (h : Each P (es₁ ++ es₂)) : Each P es₁ := by
  intro before x after he
  exact h before x (after ++ es₂) (by rw [he,List.append_assoc,List.cons_append])

/-- Events that ask nothing of the history. -/
theorem Each.of_forall (h : ∀ x ∈ es, ∀ before, P before x) : Each P es := by
  intro before x after he
  have hx : x ∈ es := by simp [he]
  exact h x hx before

theorem Each.append (hP : ∀ earlier before x, P before x → P (earlier ++ before) x)
    (h₁ : Each P es₁) (h₂ : Each P es₂) : Each P (es₁ ++ es₂) := by
  intro before x after he
  obtain ⟨mid,hbefore,htail⟩ | ⟨mid,hes,htail⟩ := List.append_eq_append_iff.mp he
  · rw [hbefore]
    exact hP es₁ mid x (h₂ mid x after htail)
  · cases mid with
    | nil =>
        rw [List.append_nil] at hes
        have hx := hP es₁ [] x (h₂ [] x after htail.symm)
        rwa [List.append_nil,hes] at hx
    | cons y mid =>
        rw [List.cons_append,List.cons.injEq] at htail
        obtain ⟨rfl,_⟩ := htail
        exact h₁ before x mid hes

/-- One event after a history. -/
theorem Each.snoc (h : Each P es) {x : α} (hx : P es x) : Each P (es ++ [x]) := by
  intro before y after he
  rcases List.eq_nil_or_concat after with rfl | ⟨after,z,rfl⟩
  · obtain ⟨rfl,hy⟩ := List.append_inj' he rfl
    cases hy
    exact hx
  · rw [List.concat_eq_append,← List.cons_append,← List.append_assoc] at he
    exact h before y after (List.append_inj' he rfl).1

section
variable {A : Type} {R : A → Type} {β : Type}

theorem Prog.exists_did (hR : ∀ a, Nonempty (R a)) (p : Prog A R β) :
    ∃ es x, Prog.Did p es (.ret x) := by
  induction p with
  | ret x => exact ⟨[],x,.nil _⟩
  | act a k ih =>
      obtain ⟨r⟩ := hR a
      obtain ⟨es,x,h⟩ := ih r
      exact ⟨⟨a,r⟩ :: es,x,.cons h⟩

/-- One more action answered. -/
theorem Prog.Did.snoc {p : Prog A R β} {es : List (Sigma R)} {a : A} {k : R a → Prog A R β}
    (h : p.Did es (.act a k)) (r : R a) : p.Did (es ++ [⟨a,r⟩]) (k r) := by
  generalize hq : Prog.act a k = q at h
  induction h with
  | nil p =>
      subst hq
      exact .cons (.nil _)
  | cons _ ih => exact .cons (ih hq)

/-- After the first part comes what the second starts with. -/
theorem Prog.Did.next {γ : Type} {p : Prog A R β} {g : β → Prog A R γ} {es : List (Sigma R)}
    {x : β} {q : Prog A R γ} (h : p.Did es (.ret x)) (hq : g x = q) : (p >>= g).Did es q := by
  have hnext := h.bind_iff.mpr (Prog.Did.nil (g x))
  rwa [List.append_nil,hq] at hnext

/-- Where every action can be answered, what a program did is the start of what it
does to its end. -/
theorem Prog.Did.extend (hR : ∀ a, Nonempty (R a)) {p q : Prog A R β} {es : List (Sigma R)}
    (h : p.Did es q) : ∃ es' x, p.Did (es ++ es') (.ret x) := by
  induction h with
  | nil p => exact p.exists_did hR
  | cons _ ih =>
      obtain ⟨es',x,h⟩ := ih
      exact ⟨es',x,.cons h⟩

namespace Prog
variable {γ δ : Type} {T : Sigma R → Prop} {out : Sigma R → List δ} {Q Q' : List δ → β → Prop}

/-- However a program is answered, as long as all answers are `T`: what its trace puts
out and its result are related by `Q`. -/
def Emits (T : Sigma R → Prop) (out : Sigma R → List δ) (Q : List δ → β → Prop)
    (p : Prog A R β) : Prop :=
  ∀ es x, p.Did es (.ret x) → (∀ e ∈ es, T e) → Q (es.flatMap out) x

theorem Emits.mono (hQ : ∀ os x, Q os x → Q' os x) {p : Prog A R β} (h : p.Emits T out Q) :
    p.Emits T out Q' := fun es x hes hT => hQ _ _ (h es x hes hT)

theorem Emits.ret {x : β} (h : Q [] x) : (Prog.ret x : Prog A R β).Emits T out Q := by
  intro es y hes _
  cases hes
  exact h

theorem Emits.act {a : A} {k : R a → Prog A R β}
    (h : ∀ r, T ⟨a,r⟩ → (k r).Emits T out fun os y => Q (out ⟨a,r⟩ ++ os) y) :
    (Prog.act a k).Emits T out Q := by
  intro es y hes hT
  cases hes with
  | cons hes => exact h _ (hT _ List.mem_cons_self) _ _ hes fun e he => hT e (List.mem_cons_of_mem _ he)

theorem Emits.perform {Q' : List δ → γ → Prop} {a : A} {g : R a → Prog A R γ}
    (h : ∀ r, T ⟨a,r⟩ → (g r).Emits T out fun os y => Q' (out ⟨a,r⟩ ++ os) y) :
    (Prog.perform a >>= g).Emits T out Q' := .act h

theorem Emits.bind {Q' : List δ → γ → Prop} {p : Prog A R β} {g : β → Prog A R γ}
    (h : p.Emits T out Q)
    (hg : ∀ os x, Q os x → (g x).Emits T out fun os' y => Q' (os ++ os') y) :
    (p >>= g).Emits T out Q' := by
  intro es y hes hT
  obtain ⟨es₁,es₂,x,rfl,h₁,h₂⟩ := did_bind hes
  rw [List.flatMap_append]
  refine hg _ x (h es₁ x h₁ fun e he => hT e ?_) es₂ y h₂ fun e he => hT e ?_
  · exact List.mem_append_left _ he
  · exact List.mem_append_right _ he

/-- Actions that put nothing out. -/
theorem Emits.silent {P : A → Prop} (hP : ∀ a, P a → ∀ r, out ⟨a,r⟩ = []) {p : Prog A R β}
    (h : p.Does P) : p.Emits T out fun os _ => os = [] := by
  intro es x hes _
  rw [List.flatMap_eq_nil_iff]
  intro e he
  exact hP e.1 (h.did_mem hes e he) e.2

/-- Where the first part puts nothing out. -/
theorem Emits.after {Q' : List δ → γ → Prop} {p : Prog A R β} {g : β → Prog A R γ}
    (h : p.Emits T out fun os _ => os = []) (hg : ∀ x, (g x).Emits T out Q') :
    (p >>= g).Emits T out Q' := by
  refine h.bind fun os x hos => ?_
  subst hos
  exact hg x

end Prog

end
end Concurrent
