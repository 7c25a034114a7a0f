import Mathlib.Data.Set.Insert

/-!
# Programs of atomic actions

An asynchronous function touches shared state only through actions that are
atomic for every other task: one acquisition of a lock, one call of a library,
one answered request. A program names its next action and continues with the
answer, so that the same text can be run alone, cut off at an action, or
interleaved with other programs. What an action does and may answer is a
separate relation; nothing here fixes the actions, the answers or the state.
-/
namespace Concurrent

/-- A program over actions `A`, where the answer to `a` is a value of `R a`. -/
inductive Prog (A : Type) (R : A → Type) (α : Type) where
  | ret (a : α)
  | act (a : A) (k : R a → Prog A R α)

/-- `sem a s r s'`: in state `s`, action `a` may answer `r` and leave `s'`. -/
abbrev Sem (A : Type) (R : A → Type) (σ : Type) := (a : A) → σ → R a → σ → Prop

namespace Prog
variable {A : Type} {R : A → Type} {α β γ σ : Type}

def bind : Prog A R α → (α → Prog A R β) → Prog A R β
  | .ret a, g => g a
  | .act a k, g => .act a fun r => (k r).bind g

instance : Monad (Prog A R) where
  pure := .ret
  bind := bind

/-- The program that performs one action and returns its answer. -/
def perform (a : A) : Prog A R (R a) := .act a .ret

@[simp] theorem pure_eq (a : α) : (pure a : Prog A R α) = .ret a := rfl
@[simp] theorem ret_bind (a : α) (g : α → Prog A R β) : (Prog.ret a >>= g) = g a := rfl
@[simp] theorem act_bind (a : A) (k : R a → Prog A R α) (g : α → Prog A R β) :
    (Prog.act a k >>= g) = .act a fun r => k r >>= g := rfl

theorem bind_ret (p : Prog A R α) : (p >>= Prog.ret) = p := by
  induction p with
  | ret a => rfl
  | act a k ih => simp only [act_bind,ih]

@[simp] theorem bind_assoc (p : Prog A R α) (f : α → Prog A R β) (g : β → Prog A R γ) :
    (p >>= f >>= g) = p >>= fun a => f a >>= g := by
  induction p with
  | ret a => rfl
  | act a k ih => simp only [act_bind,ih]

instance : LawfulMonad (Prog A R) :=
  LawfulMonad.mk' _ bind_ret (fun _ _ => rfl) bind_assoc

/-- Every action on every path satisfies `P`, and every result satisfies `Q`. -/
def Every (P : A → Prop) (Q : α → Prop) : Prog A R α → Prop
  | .ret a => Q a
  | .act a k => P a ∧ ∀ r, (k r).Every P Q

theorem Every.mono {P P' : A → Prop} {Q Q' : α → Prop} (hP : ∀ a, P a → P' a)
    (hQ : ∀ a, Q a → Q' a) {p : Prog A R α} (h : p.Every P Q) : p.Every P' Q' := by
  induction p with
  | ret a => exact hQ a h
  | act a k ih => exact ⟨hP a h.1,fun r => ih r (h.2 r)⟩

theorem Every.bind {P : A → Prop} {Q : α → Prop} {Q' : β → Prop} {p : Prog A R α}
    {g : α → Prog A R β} (h : p.Every P Q) (hg : ∀ a, Q a → (g a).Every P Q') :
    (p >>= g).Every P Q' := by
  induction p with
  | ret a => exact hg a h
  | act a k ih => exact ⟨h.1,fun r => ih r (h.2 r)⟩

theorem Every.perform {P : A → Prop} {Q' : β → Prop} {a : A} {g : R a → Prog A R β}
    (h : P a) (hg : ∀ r, (g r).Every P Q') : (perform a >>= g).Every P Q' := ⟨h,hg⟩

theorem Every.and {P P' : A → Prop} {Q Q' : α → Prop} {p : Prog A R α} (h : p.Every P Q)
    (h' : p.Every P' Q') : p.Every (fun a => P a ∧ P' a) fun a => Q a ∧ Q' a := by
  induction p with
  | ret a => exact ⟨h,h'⟩
  | act a k ih => exact ⟨⟨h.1,h'.1⟩,fun r => ih r (h.2 r) (h'.2 r)⟩

/-- Every action on every path satisfies `P`. -/
def Does (P : A → Prop) (p : Prog A R α) : Prop := p.Every P fun _ => True

section
variable {P : A → Prop} {ε : Type}

/-- What is asked of the actions only, or of nothing at all. -/
theorem does_true (p : Prog A R α) : p.Does fun _ => True := by
  induction p with
  | ret a => trivial
  | act a k ih => exact ⟨trivial,ih⟩

@[simp] theorem does_ret (a : α) : (Prog.ret a : Prog A R α).Does P := trivial
@[simp] theorem does_act (a : A) (k : R a → Prog A R α) :
    (Prog.act a k).Does P ↔ P a ∧ ∀ r, (k r).Does P := Iff.rfl

theorem Does.mono {P' : A → Prop} (hP : ∀ a, P a → P' a) {p : Prog A R α} (h : p.Does P) :
    p.Does P' := Every.mono hP (fun _ _ => trivial) h

theorem Does.bind {p : Prog A R α} {g : α → Prog A R β} (h : p.Does P)
    (hg : ∀ a, (g a).Does P) : (p >>= g).Does P := Every.bind h fun a _ => hg a

@[simp] theorem does_bind_ret (p : Prog A R α) (f : α → β) :
    (p >>= fun a => (.ret (f a) : Prog A R β)).Does P ↔ p.Does P := by
  induction p with
  | ret a => exact Iff.rfl
  | act a k ih => simp only [Prog.act_bind,does_act,ih]

@[simp] theorem does_map (p : Prog A R α) (f : α → β) : (f <$> p).Does P ↔ p.Does P := by
  rw [← bind_pure_comp]
  exact does_bind_ret p f

/-- The same for programs that may fail. -/
theorem Every.exceptBind {Q : Except ε β → Prop} {x : ExceptT ε (Prog A R) α}
    {f : α → ExceptT ε (Prog A R) β} (hx : x.run.Does P) (hf : ∀ a, (f a).run.Every P Q)
    (he : ∀ e, Q (.error e)) : (x >>= f).run.Every P Q := by
  rw [ExceptT.run_bind]
  refine Every.bind hx fun r _ => ?_
  cases r with
  | ok a => exact hf a
  | error e => exact he e

theorem Does.exceptBind {x : ExceptT ε (Prog A R) α} {f : α → ExceptT ε (Prog A R) β}
    (hx : x.run.Does P) (hf : ∀ a, (f a).run.Does P) : (x >>= f).run.Does P := by
  rw [ExceptT.run_bind]
  refine hx.bind fun r => ?_
  cases r with
  | ok a => exact hf a
  | error e => exact does_ret _

end

/-- While every answer satisfies `N`, every action satisfies `P`, and the result `Q`. -/
def EveryWhile (N : (a : A) → R a → Prop) (P : A → Prop) (Q : α → Prop) : Prog A R α → Prop
  | .ret a => Q a
  | .act a k => P a ∧ ∀ r, N a r → (k r).EveryWhile N P Q

/-- While every answer satisfies `N`, every action satisfies `P`. -/
def DoesWhile (N : (a : A) → R a → Prop) (P : A → Prop) (p : Prog A R α) : Prop :=
  p.EveryWhile N P fun _ => True

section
variable {N : (a : A) → R a → Prop} {P : A → Prop} {Q Q' : α → Prop} {ε : Type}

theorem EveryWhile.mono (hQ : ∀ a, Q a → Q' a) {p : Prog A R α} (h : p.EveryWhile N P Q) :
    p.EveryWhile N P Q' := by
  induction p with
  | ret a => exact hQ a h
  | act a k ih => exact ⟨h.1,fun r hr => ih r (h.2 r hr)⟩

theorem EveryWhile.bind {Q' : β → Prop} {p : Prog A R α} {g : α → Prog A R β}
    (h : p.EveryWhile N P Q) (hg : ∀ a, Q a → (g a).EveryWhile N P Q') :
    (p >>= g).EveryWhile N P Q' := by
  induction p with
  | ret a => exact hg a h
  | act a k ih => exact ⟨h.1,fun r hr => ih r (h.2 r hr)⟩

theorem Every.everyWhile {p : Prog A R α} (h : p.Every P Q) : p.EveryWhile N P Q := by
  induction p with
  | ret a => exact h
  | act a k ih => exact ⟨h.1,fun r _ => ih r (h.2 r)⟩

theorem Does.doesWhile {p : Prog A R α} (h : p.Does P) : p.DoesWhile N P := Every.everyWhile h

theorem EveryWhile.and {p : Prog A R α} (h : p.EveryWhile N P Q) (h' : p.EveryWhile N P Q') :
    p.EveryWhile N P fun a => Q a ∧ Q' a := by
  induction p with
  | ret a => exact ⟨h,h'⟩
  | act a k ih => exact ⟨h.1,fun r hr => ih r (h.2 r hr) (h'.2 r hr)⟩

/-- What holds of a sequence holds of its second part after every first one. -/
theorem EveryWhile.of_bind {Q : β → Prop} {p : Prog A R α} {g : α → Prog A R β}
    (h : (p >>= g).EveryWhile N P Q) : p.EveryWhile N P fun a => (g a).EveryWhile N P Q := by
  induction p with
  | ret a => exact h
  | act a k ih => exact ⟨h.1,fun r hr => ih r (h.2 r hr)⟩

/-- Where every action can be answered the program ends. -/
theorem EveryWhile.exists_result (hN : ∀ a, ∃ r, N a r) {p : Prog A R α}
    (h : p.EveryWhile N P Q) : ∃ a, Q a := by
  induction p with
  | ret a => exact ⟨a,h⟩
  | act a k ih =>
      obtain ⟨r,hr⟩ := hN a
      exact ih r (h.2 r hr)

/-- Where nothing is asked of the answers. -/
theorem doesWhile_true {p : Prog A R α} : p.DoesWhile (fun _ _ => True) P ↔ p.Does P := by
  refine ⟨fun h => ?_,Does.doesWhile⟩
  induction p with
  | ret a => trivial
  | act a k ih => exact ⟨h.1,fun r => ih r (h.2 r trivial)⟩

theorem DoesWhile.bind {p : Prog A R α} {g : α → Prog A R β} (h : p.DoesWhile N P)
    (hg : ∀ a, (g a).DoesWhile N P) : (p >>= g).DoesWhile N P := EveryWhile.bind h fun a _ => hg a

theorem EveryWhile.map {Q : β → Prop} {p : Prog A R α} {f : α → β}
    (h : p.EveryWhile N P fun a => Q (f a)) : (f <$> p).EveryWhile N P Q := by
  rw [← bind_pure_comp]
  exact h.bind fun _ hQ => hQ

theorem DoesWhile.map {p : Prog A R α} (h : p.DoesWhile N P) (f : α → β) :
    (f <$> p).DoesWhile N P := EveryWhile.map h

/-- The same for programs that may fail. -/
theorem EveryWhile.exceptBind {Q : Except ε α → Prop} {x : ExceptT ε (Prog A R) α}
    {f : α → ExceptT ε (Prog A R) β} (hx : x.run.EveryWhile N P Q)
    (hf : ∀ a, Q (.ok a) → (f a).run.DoesWhile N P) : (x >>= f).run.DoesWhile N P := by
  rw [ExceptT.run_bind]
  refine EveryWhile.bind hx fun r hr => ?_
  cases r with
  | ok a => exact hf a hr
  | error e => trivial

theorem DoesWhile.exceptBind {x : ExceptT ε (Prog A R) α} {f : α → ExceptT ε (Prog A R) β}
    (hx : x.run.DoesWhile N P) (hf : ∀ a, (f a).run.DoesWhile N P) : (x >>= f).run.DoesWhile N P :=
  EveryWhile.exceptBind hx fun a _ => hf a

end

/-- On every path the program still performs an action that satisfies `P`. -/
def Owes (P : A → Prop) : Prog A R α → Prop
  | .ret _ => False
  | .act a k => P a ∨ ∀ r, (k r).Owes P

theorem Owes.bind {P : A → Prop} {p : Prog A R α} (g : α → Prog A R β) (h : p.Owes P) :
    (p >>= g).Owes P := by
  induction p with
  | ret a => exact h.elim
  | act a k ih => exact h.imp id fun hk r => ih r (hk r)

theorem Owes.after {P : A → Prop} {g : α → Prog A R β} (h : ∀ a, (g a).Owes P) (p : Prog A R α) :
    (p >>= g).Owes P := by
  induction p with
  | ret a => exact h a
  | act a k ih => exact .inr ih

/-- The program runs from `s` to the result `a` in state `s'`. -/
inductive Exec (sem : Sem A R σ) : Prog A R α → σ → α → σ → Prop
  | ret (a : α) (s : σ) : Exec sem (.ret a) s a s
  | act {a : A} {k : R a → Prog A R α} {s s₁ s₂ : σ} {r : R a} {b : α} :
      sem a s r s₁ → Exec sem (k r) s₁ b s₂ → Exec sem (.act a k) s b s₂

/-- The program is abandoned at some action that `waits`, before it or after the
effect of one whose answer is lost, leaving `s'`. -/
inductive Cut (sem : Sem A R σ) (waits : A → Prop) : Prog A R α → σ → A → σ → Prop
  | before {a : A} {k : R a → Prog A R α} {s : σ} : waits a → Cut sem waits (.act a k) s a s
  | after {a : A} {k : R a → Prog A R α} {s s₁ : σ} {r : R a} :
      waits a → sem a s r s₁ → Cut sem waits (.act a k) s a s₁
  | act {a b : A} {k : R a → Prog A R α} {s s₁ s₂ : σ} {r : R a} :
      sem a s r s₁ → Cut sem waits (k r) s₁ b s₂ → Cut sem waits (.act a k) s b s₂

/-- Every run from the state ends with `Q`. -/
def wp (sem : Sem A R σ) (Q : α → σ → Prop) : Prog A R α → σ → Prop
  | .ret a, s => Q a s
  | .act a k, s => ∀ r s', sem a s r s' → (k r).wp sem Q s'

variable {sem : Sem A R σ}

@[simp] theorem wp_ret (Q : α → σ → Prop) (a : α) (s : σ) :
    (Prog.ret a : Prog A R α).wp sem Q s ↔ Q a s := Iff.rfl

@[simp] theorem wp_act (Q : α → σ → Prop) (a : A) (k : R a → Prog A R α) (s : σ) :
    (Prog.act a k).wp sem Q s ↔ ∀ r s', sem a s r s' → (k r).wp sem Q s' := Iff.rfl

theorem wp_bind (Q : β → σ → Prop) (p : Prog A R α) (g : α → Prog A R β) (s : σ) :
    (p >>= g).wp sem Q s ↔ p.wp sem (fun a => (g a).wp sem Q) s := by
  induction p generalizing s with
  | ret a => rfl
  | act a k ih => simp only [act_bind,wp_act,ih]

theorem wp_mono {Q Q' : α → σ → Prop} (h : ∀ a s, Q a s → Q' a s) {p : Prog A R α} {s : σ}
    (hp : p.wp sem Q s) : p.wp sem Q' s := by
  induction p generalizing s with
  | ret a => exact h a s hp
  | act a k ih => exact fun r s' hs => ih r (hp r s' hs)

/-- The rule for programs that may fail. -/
theorem wp_exceptBind {ε : Type} (Q : Except ε β → σ → Prop) (x : ExceptT ε (Prog A R) α)
    (f : α → ExceptT ε (Prog A R) β) (s : σ) :
    (x >>= f).run.wp sem Q s ↔ x.run.wp sem (fun
      | .ok a, s' => (f a).run.wp sem Q s'
      | .error e, s' => Q (.error e) s') s := by
  rw [ExceptT.run_bind,wp_bind]
  constructor <;>
  · refine wp_mono fun r s' h => ?_
    cases r <;> exact h

theorem wp_lift {ε : Type} (Q : Except ε α → σ → Prop) (p : Prog A R α) (s : σ) :
    (ExceptT.lift p : ExceptT ε (Prog A R) α).run.wp sem Q s ↔ p.wp sem (fun a => Q (.ok a)) s := by
  rw [ExceptT.run_lift,← bind_pure_comp,wp_bind]
  rfl

/-- What is true anyway. -/
theorem wp_of_forall {Q : α → σ → Prop} (h : ∀ a s, Q a s) (p : Prog A R α) (s : σ) :
    p.wp sem Q s := by
  induction p generalizing s with
  | ret a => exact h a s
  | act a k ih => exact fun r s' _ => ih r s'

theorem wp_and {Q Q' : α → σ → Prop} {p : Prog A R α} {s : σ} (h : p.wp sem Q s)
    (h' : p.wp sem Q' s) : p.wp sem (fun a s => Q a s ∧ Q' a s) s := by
  induction p generalizing s with
  | ret a => exact ⟨h,h'⟩
  | act a k ih => exact fun r s' hs => ih r (h r s' hs) (h' r s' hs)

/-- What every action keeps holds at the end. -/
theorem wp_of_every {P : A → Prop} {Q : α → Prop} {I : σ → Prop}
    (hI : ∀ {a s r s'}, P a → sem a s r s' → I s → I s') {p : Prog A R α} (h : p.Every P Q)
    {s : σ} (hs : I s) : p.wp sem (fun a s' => Q a ∧ I s') s := by
  induction p generalizing s with
  | ret a => exact ⟨h,hs⟩
  | act a k ih => exact fun r s' hr => ih r (h.2 r) (hI h.1 hr hs)

/-- A semantics that another one simulates. -/
theorem wp_map {τ : Type} {sem' : Sem A R τ} {f : τ → σ}
    (hf : ∀ {a s r s'}, sem' a s r s' → sem a (f s) r (f s')) {Q : α → σ → Prop}
    {p : Prog A R α} {s : τ} (h : p.wp sem Q (f s)) : p.wp sem' (fun a s => Q a (f s)) s := by
  induction p generalizing s with
  | ret a => exact h
  | act a k ih => exact fun r s' hs => ih r (h r _ (hf hs))

theorem Exec.wp {p : Prog A R α} {s s' : σ} {a : α} (h : Exec sem p s a s')
    {Q : α → σ → Prop} (hp : p.wp sem Q s) : Q a s' := by
  induction h with
  | ret a s => exact hp
  | act hs _ ih => exact ih (hp _ _ hs)

/-- Wherever the program is abandoned, `Q` holds of the action and the state. -/
def wc (sem : Sem A R σ) (waits : A → Prop) (Q : A → σ → Prop) : Prog A R α → σ → Prop
  | .ret _, _ => True
  | .act a k, s => (waits a → Q a s) ∧
      ∀ r s', sem a s r s' → (waits a → Q a s') ∧ (k r).wc sem waits Q s'

theorem Cut.wc {waits : A → Prop} {p : Prog A R α} {s s' : σ} {a : A}
    (h : Cut sem waits p s a s') {Q : A → σ → Prop} (hp : p.wc sem waits Q s) : Q a s' := by
  induction h with
  | before hw => exact hp.1 hw
  | after hw hs => exact (hp.2 _ _ hs).1 hw
  | act hs _ ih => exact ih (hp.2 _ _ hs).2

theorem wc_mono {waits : A → Prop} {Q Q' : A → σ → Prop} (h : ∀ a s, Q a s → Q' a s)
    {p : Prog A R α} {s : σ} (hp : p.wc sem waits Q s) : p.wc sem waits Q' s := by
  induction p generalizing s with
  | ret a => trivial
  | act a k ih =>
      refine ⟨fun hw => h _ _ (hp.1 hw),fun r s' hs => ⟨fun hw => h _ _ ((hp.2 r s' hs).1 hw),?_⟩⟩
      exact ih r (hp.2 r s' hs).2

theorem wc_bind {waits : A → Prop} {Q : A → σ → Prop} {p : Prog A R α} {g : α → Prog A R β}
    {s : σ} (hp : p.wc sem waits Q s) (hg : p.wp sem (fun a => (g a).wc sem waits Q) s) :
    (p >>= g).wc sem waits Q s := by
  induction p generalizing s with
  | ret a => exact hg
  | act a k ih =>
      refine ⟨hp.1,fun r s' hs => ⟨(hp.2 r s' hs).1,?_⟩⟩
      exact ih r (hp.2 r s' hs).2 (hg r s' hs)

theorem wc_bind_ret {waits : A → Prop} {Q : A → σ → Prop} {p : Prog A R α} (f : α → β) {s : σ}
    (hp : p.wc sem waits Q s) : (p >>= fun a => (.ret (f a) : Prog A R β)).wc sem waits Q s :=
  wc_bind hp (wp_of_forall (fun _ _ => trivial) p s)

theorem wc_lift {ε : Type} {waits : A → Prop} {Q : A → σ → Prop} {p : Prog A R α} {s : σ}
    (hp : p.wc sem waits Q s) : (ExceptT.lift p : ExceptT ε (Prog A R) α).run.wc sem waits Q s := by
  rw [ExceptT.run_lift,← bind_pure_comp]
  exact wc_bind_ret _ hp

theorem wc_of_forall {waits : A → Prop} {Q : A → σ → Prop} (h : ∀ a s, Q a s) (p : Prog A R α)
    (s : σ) : p.wc sem waits Q s := by
  induction p generalizing s with
  | ret a => trivial
  | act a k ih => exact ⟨fun _ => h _ _,fun r s' _ => ⟨fun _ => h _ _,ih r s'⟩⟩

theorem wc_exceptBind {ε : Type} {waits : A → Prop} {Q : A → σ → Prop}
    {x : ExceptT ε (Prog A R) α} {f : α → ExceptT ε (Prog A R) β} {s : σ}
    (hx : x.run.wc sem waits Q s)
    (hf : x.run.wp sem (fun r s' => ∀ a, r = .ok a → (f a).run.wc sem waits Q s') s) :
    (x >>= f).run.wc sem waits Q s := by
  rw [ExceptT.run_bind]
  refine wc_bind hx (wp_mono (fun r s' h => ?_) hf)
  cases r with
  | ok a => exact h a rfl
  | error e => trivial

theorem wc_of_does {waits P : A → Prop} {I : σ → Prop}
    (hI : ∀ {a s r s'}, P a → sem a s r s' → I s → I s') {p : Prog A R α} (h : p.Does P)
    {s : σ} (hs : I s) : p.wc sem waits (fun _ s' => I s') s := by
  induction p generalizing s with
  | ret a => trivial
  | act a k ih =>
      refine ⟨fun _ => hs,fun r s' hr => ?_⟩
      have hs' := hI h.1 hr hs
      exact ⟨fun _ => hs',ih r (h.2 r) hs'⟩

theorem wc_map {waits : A → Prop} {τ : Type} {sem' : Sem A R τ} {f : τ → σ}
    (hf : ∀ {a s r s'}, sem' a s r s' → sem a (f s) r (f s')) {Q : A → σ → Prop}
    {p : Prog A R α} {s : τ} (h : p.wc sem waits Q (f s)) :
    p.wc sem' waits (fun a s => Q a (f s)) s := by
  induction p generalizing s with
  | ret a => trivial
  | act a k ih =>
      refine ⟨h.1,fun r s' hs => ?_⟩
      obtain ⟨hw,hk⟩ := h.2 r _ (hf hs)
      exact ⟨hw,ih r hk⟩

theorem wc_and {waits : A → Prop} {Q Q' : A → σ → Prop} {p : Prog A R α} {s : σ}
    (h : p.wc sem waits Q s) (h' : p.wc sem waits Q' s) :
    p.wc sem waits (fun a s => Q a s ∧ Q' a s) s := by
  induction p generalizing s with
  | ret a => trivial
  | act a k ih =>
      refine ⟨fun hw => ⟨h.1 hw,h'.1 hw⟩,fun r s' hs => ?_⟩
      obtain ⟨hw,hk⟩ := h.2 r s' hs
      obtain ⟨hw',hk'⟩ := h'.2 r s' hs
      exact ⟨fun hx => ⟨hw hx,hw' hx⟩,ih r hk hk'⟩

theorem exec_bind {p : Prog A R α} {g : α → Prog A R β} {s s' : σ} {b : β} :
    Exec sem (p >>= g) s b s' ↔ ∃ a s₁, Exec sem p s a s₁ ∧ Exec sem (g a) s₁ b s' := by
  induction p generalizing s with
  | ret a =>
      constructor
      · exact fun h => ⟨a,s,.ret a s,h⟩
      · rintro ⟨_,_,⟨⟩,h⟩
        exact h
  | act a k ih =>
      constructor
      · intro h
        cases h with
        | act hs hk =>
            obtain ⟨x,s₁,hx,hg⟩ := (ih _).mp hk
            exact ⟨x,s₁,.act hs hx,hg⟩
      · rintro ⟨x,s₁,hx,hg⟩
        cases hx with
        | act hs hk => exact .act hs ((ih _).mpr ⟨x,s₁,hk,hg⟩)

/-- A program that may fail either fails or goes on with a result. -/
theorem exec_exceptBind {ε : Type} {x : ExceptT ε (Prog A R) α} {f : α → ExceptT ε (Prog A R) β}
    {s s' : σ} {b : Except ε β} : Exec sem (x >>= f).run s b s' ↔
      (∃ a s₁, Exec sem x.run s (.ok a) s₁ ∧ Exec sem (f a).run s₁ b s') ∨
      ∃ e, Exec sem x.run s (.error e) s' ∧ b = .error e := by
  rw [ExceptT.run_bind,exec_bind]
  constructor
  · rintro ⟨r,s₁,hx,h⟩
    cases r with
    | ok a => exact .inl ⟨a,s₁,hx,h⟩
    | error e =>
        cases h
        exact .inr ⟨e,hx,rfl⟩
  · rintro (⟨a,s₁,hx,h⟩ | ⟨e,hx,rfl⟩)
    · exact ⟨.ok a,s₁,hx,h⟩
    · exact ⟨.error e,s',hx,.ret _ _⟩

theorem exec_lift {ε : Type} {p : Prog A R α} {s s' : σ} {r : Except ε α} :
    Exec sem (ExceptT.lift p : ExceptT ε (Prog A R) α).run s r s' ↔
      ∃ a, r = .ok a ∧ Exec sem p s a s' := by
  rw [ExceptT.run_lift,← bind_pure_comp,exec_bind]
  constructor
  · rintro ⟨a,s₁,hp,h⟩
    cases h
    exact ⟨a,rfl,hp⟩
  · rintro ⟨a,rfl,hp⟩
    exact ⟨a,s',hp,.ret _ _⟩

/-- A semantics that answers the actions of the program in the same ways. -/
theorem Exec.of_does {P : A → Prop} {sem' : Sem A R σ}
    (hP : ∀ {a s r s'}, P a → sem a s r s' → sem' a s r s') {p : Prog A R α} {s s' : σ} {a : α}
    (hp : p.Does P) (h : Exec sem p s a s') : Exec sem' p s a s' := by
  induction h with
  | ret a s => exact .ret a s
  | act hs _ ih => exact .act (hP hp.1 hs) (ih (hp.2 _))

/-- The same semantics, and a record of the actions with their answers. -/
def noted (sem : Sem A R σ) : Sem A R (σ × List (Sigma R)) :=
  fun a s r s' => sem a s.1 r s'.1 ∧ s'.2 = s.2 ++ [⟨a,r⟩]

section
variable {N : (a : A) → R a → Prop} {P : A → Prop} {I : σ → Prop}

theorem recorded_after {es es' es'' : List (Sigma R)} {a : A} {r : R a} (ha : P a)
    (hfirst : es' = es ++ [⟨a,r⟩]) (hrest : ∃ more, es'' = es' ++ more ∧ ∀ e ∈ more, P e.1) :
    ∃ more, es'' = es ++ more ∧ ∀ e ∈ more, P e.1 := by
  obtain ⟨more,rfl,hmore⟩ := hrest
  refine ⟨⟨a,r⟩ :: more,by rw [hfirst,List.append_assoc]; rfl,?_⟩
  rintro e (_ | ⟨_,he⟩)
  · exact ha
  · exact hmore e he

/-- Where the invariant has the answers satisfy `N`, the recorded actions satisfy `P`. -/
theorem DoesWhile.exec (hN : ∀ {a s r s'}, I s → sem a s r s' → N a r ∧ I s') {p : Prog A R α}
    (hp : p.DoesWhile N P) {s s' : σ × List (Sigma R)} {x : α} (h : Exec (noted sem) p s x s')
    (hs : I s.1) : I s'.1 ∧ ∃ more, s'.2 = s.2 ++ more ∧ ∀ e ∈ more, P e.1 := by
  induction h with
  | ret a s => exact ⟨hs,[],(List.append_nil _).symm,by simp⟩
  | act hr _ ih =>
      have hN := hN hs hr.1
      obtain ⟨hs',hmore⟩ := ih (hp.2 _ hN.1) hN.2
      exact ⟨hs',recorded_after hp.1 hr.2 hmore⟩

theorem DoesWhile.cut (hN : ∀ {a s r s'}, I s → sem a s r s' → N a r ∧ I s') {waits : A → Prop}
    {p : Prog A R α} (hp : p.DoesWhile N P) {s s' : σ × List (Sigma R)} {a : A}
    (h : Cut (noted sem) waits p s a s') (hs : I s.1) :
    I s'.1 ∧ ∃ more, s'.2 = s.2 ++ more ∧ ∀ e ∈ more, P e.1 := by
  induction h with
  | before _ => exact ⟨hs,[],(List.append_nil _).symm,by simp⟩
  | after _ hr => exact ⟨(hN hs hr.1).2,[_],hr.2,by simpa using hp.1⟩
  | act hr _ ih =>
      have hN := hN hs hr.1
      obtain ⟨hs',hmore⟩ := ih (hp.2 _ hN.1) hN.2
      exact ⟨hs',recorded_after hp.1 hr.2 hmore⟩

end

theorem cut_bind {waits : A → Prop} {p : Prog A R α} {g : α → Prog A R β} {s s' : σ} {a : A}
    (h : Cut sem waits (p >>= g) s a s') : Cut sem waits p s a s' ∨
      ∃ x s₁, Exec sem p s x s₁ ∧ Cut sem waits (g x) s₁ a s' := by
  induction p generalizing s with
  | ret x => exact .inr ⟨x,s,.ret x s,h⟩
  | act b k ih =>
      cases h with
      | before hw => exact .inl (.before hw)
      | after hw hs => exact .inl (.after hw hs)
      | act hs hk =>
          obtain hcut | ⟨x,s₁,hx,hg⟩ := ih _ hk
          · exact .inl (.act hs hcut)
          · exact .inr ⟨x,s₁,.act hs hx,hg⟩

theorem cut_exceptBind {ε : Type} {waits : A → Prop} {x : ExceptT ε (Prog A R) α}
    {f : α → ExceptT ε (Prog A R) β} {s s' : σ} {a : A} (h : Cut sem waits (x >>= f).run s a s') :
    Cut sem waits x.run s a s' ∨
      ∃ y s₁, Exec sem x.run s (.ok y) s₁ ∧ Cut sem waits (f y).run s₁ a s' := by
  rw [ExceptT.run_bind] at h
  obtain hcut | ⟨r,s₁,hx,h⟩ := cut_bind h
  · exact .inl hcut
  · cases r with
    | ok y => exact .inr ⟨y,s₁,hx,h⟩
    | error e => cases h

/-- A program that never waits is not dropped. -/
theorem Does.not_cut {waits : A → Prop} {p : Prog A R α} (hp : p.Does fun a => ¬ waits a) {s s' : σ}
    {a : A} : ¬ Cut sem waits p s a s' := by
  intro h
  induction h with
  | before hw => exact hp.1 hw
  | after hw _ => exact hp.1 hw
  | act _ _ ih => exact ih (hp.2 _)

section
variable {B : Type} {S : B → Type}

/-- The same program, where there are other actions too. -/
def widen : Prog A R α → Prog (A ⊕ B) (Sum.elim R S) α
  | .ret a => .ret a
  | .act a k => .act (.inl a) fun r => (k r).widen

theorem widen_does {P : A ⊕ B → Prop} {p : Prog A R α} (h : p.Does fun a => P (.inl a)) :
    (p.widen : Prog (A ⊕ B) (Sum.elim R S) α).Does P := by
  induction p with
  | ret a => trivial
  | act a k ih => exact ⟨h.1,fun r => ih r (h.2 r)⟩

theorem widen_doesWhile {N : (a : A ⊕ B) → Sum.elim R S a → Prop} {P : A ⊕ B → Prop}
    {p : Prog A R α} (h : p.DoesWhile (fun a => N (.inl a)) fun a => P (.inl a)) :
    (p.widen : Prog (A ⊕ B) (Sum.elim R S) α).DoesWhile N P := by
  induction p with
  | ret a => trivial
  | act a k ih => exact ⟨h.1,fun r hr => ih r (h.2 r hr)⟩

end

/-- Once the actions of the list were answered as listed, `q` is left of the program. -/
inductive Did : Prog A R α → List (Sigma R) → Prog A R α → Prop
  | nil (p : Prog A R α) : Did p [] p
  | cons {a : A} {k : R a → Prog A R α} {r : R a} {es : List (Sigma R)} {q : Prog A R α} :
      Did (k r) es q → Did (.act a k) (⟨a,r⟩ :: es) q

theorem Does.did {P : A → Prop} {p : Prog A R α} (hp : p.Does P) {es : List (Sigma R)} {a : A}
    {k : R a → Prog A R α} (h : Did p es (.act a k)) : P a := by
  induction es generalizing p with
  | nil =>
      cases h
      exact hp.1
  | cons e es ih =>
      cases h with
      | cons h => exact ih (hp.2 _) h

theorem Every.did {P : A → Prop} {Q : α → Prop} {p : Prog A R α} (hp : p.Every P Q)
    {es : List (Sigma R)} {x : α} (h : Did p es (.ret x)) : Q x := by
  induction es generalizing p with
  | nil =>
      cases h
      exact hp
  | cons e es ih =>
      cases h with
      | cons h => exact ih (hp.2 _) h

theorem Does.did_mem {P : A → Prop} {p : Prog A R α} (hp : p.Does P) {es : List (Sigma R)}
    {q : Prog A R α} (h : Did p es q) : ∀ e ∈ es, P e.1 := by
  induction h with
  | nil p => simp
  | cons _ ih =>
      rintro e (_ | ⟨_,he⟩)
      · exact hp.1
      · exact ih (hp.2 _) e he

/-- Where the first part has ended, the second goes on with its result. -/
theorem Did.bind_iff {p : Prog A R α} {es : List (Sigma R)} {x : α} (h : Did p es (.ret x))
    {g : α → Prog A R β} {es' : List (Sigma R)} {q : Prog A R β} :
    Did (p >>= g) (es ++ es') q ↔ Did (g x) es' q := by
  induction es generalizing p with
  | nil =>
      cases h
      exact Iff.rfl
  | cons e es ih =>
      cases h with
      | cons h =>
          rw [← ih h]
          constructor
          · intro hq
            cases hq with
            | cons hq => exact hq
          · exact fun hq => .cons hq

/-- Up to there, what is done is done by the first part. -/
theorem Did.of_bind {p : Prog A R α} {es : List (Sigma R)} {p' : Prog A R α} {g : α → Prog A R β}
    {es' : List (Sigma R)} {q : Prog A R β} (h : Did p (es ++ es') p') (hq : Did (p >>= g) es q) :
    ∃ p'', Did p es p'' ∧ q = p'' >>= g := by
  induction es generalizing p with
  | nil =>
      generalize hpg : p >>= g = pg at hq
      cases hq
      exact ⟨p,.nil p,hpg.symm⟩
  | cons e es ih =>
      cases h with
      | cons h =>
          cases hq with
          | cons hq =>
              obtain ⟨p'',hp,rfl⟩ := ih h hq
              exact ⟨p'',.cons hp,rfl⟩

theorem did_bind {p : Prog A R α} {g : α → Prog A R β} {es : List (Sigma R)} {y : β}
    (h : Did (p >>= g) es (.ret y)) : ∃ es₁ es₂ x, es = es₁ ++ es₂ ∧ Did p es₁ (.ret x) ∧
      Did (g x) es₂ (.ret y) := by
  induction p generalizing es with
  | ret x => exact ⟨[],es,x,rfl,.nil _,h⟩
  | act a k ih =>
      cases h with
      | cons h =>
          obtain ⟨es₁,es₂,x,rfl,h₁,h₂⟩ := ih _ h
          exact ⟨_ :: es₁,es₂,x,rfl,.cons h₁,h₂⟩

/-- An action of two parts, one after the other, is one of the first or of the second. -/
theorem did_bind_act {p : Prog A R α} {g : α → Prog A R β} {es : List (Sigma R)} {a : A}
    {k : R a → Prog A R β} (h : Did (p >>= g) es (.act a k)) : (∃ k', Did p es (.act a k')) ∨
      ∃ es₁ es₂ x, es = es₁ ++ es₂ ∧ Did p es₁ (.ret x) ∧ Did (g x) es₂ (.act a k) := by
  induction p generalizing es with
  | ret x => exact .inr ⟨[],es,x,rfl,.nil _,h⟩
  | act b k' ih =>
      generalize hp : (Prog.act b k' >>= g) = p' at h
      cases h with
      | nil =>
          rw [act_bind] at hp
          cases hp
          exact .inl ⟨k',.nil _⟩
      | cons h =>
          rw [act_bind] at hp
          cases hp
          obtain ⟨k'',h'⟩ | ⟨es₁,es₂,x,rfl,h₁,h₂⟩ := ih _ h
          · exact .inl ⟨k'',.cons h'⟩
          · exact .inr ⟨_ :: es₁,es₂,x,rfl,.cons h₁,h₂⟩

/-- Where only the result is changed, the actions are the first part's. -/
theorem did_map_act {p : Prog A R α} {f : α → β} {es : List (Sigma R)} {a : A}
    {k : R a → Prog A R β} (h : Did (p >>= fun x => (.ret (f x) : Prog A R β)) es (.act a k)) :
    ∃ k', Did p es (.act a k') := by
  obtain hp | ⟨_,_,_,_,_,h⟩ := did_bind_act h
  · exact hp
  · cases h

theorem did_map {p : Prog A R α} {f : α → β} {es : List (Sigma R)} {y : β}
    (h : Did (p >>= fun x => (.ret (f x) : Prog A R β)) es (.ret y)) :
    ∃ x, y = f x ∧ Did p es (.ret x) := by
  obtain ⟨es₁,es₂,x,rfl,hp,h⟩ := did_bind h
  cases h
  exact ⟨x,rfl,by rwa [List.append_nil]⟩

/-- The same for programs that may fail. -/
theorem did_exceptBind {ε : Type} {x : ExceptT ε (Prog A R) α} {f : α → ExceptT ε (Prog A R) β}
    {es : List (Sigma R)} {b : Except ε β} (h : Did (x >>= f).run es (.ret b)) :
    (∃ es₁ es₂ a, es = es₁ ++ es₂ ∧ Did x.run es₁ (.ret (.ok a)) ∧ Did (f a).run es₂ (.ret b)) ∨
      ∃ e, Did x.run es (.ret (.error e)) ∧ b = .error e := by
  rw [ExceptT.run_bind] at h
  obtain ⟨es₁,es₂,r,rfl,hx,h⟩ := did_bind h
  cases r with
  | ok a => exact .inl ⟨es₁,es₂,a,rfl,hx,h⟩
  | error e =>
      cases h
      exact .inr ⟨e,by rwa [List.append_nil],rfl⟩

theorem did_exceptBind_act {ε : Type} {x : ExceptT ε (Prog A R) α}
    {f : α → ExceptT ε (Prog A R) β} {es : List (Sigma R)} {a : A} {k : R a → Prog A R (Except ε β)}
    (h : Did (x >>= f).run es (.act a k)) : (∃ k', Did x.run es (.act a k')) ∨
      ∃ es₁ es₂ y, es = es₁ ++ es₂ ∧ Did x.run es₁ (.ret (.ok y)) ∧
        Did (f y).run es₂ (.act a k) := by
  rw [ExceptT.run_bind] at h
  obtain hx | ⟨es₁,es₂,r,rfl,hx,h⟩ := did_bind_act h
  · exact .inl hx
  · cases r with
    | ok y => exact .inr ⟨es₁,es₂,y,rfl,hx,h⟩
    | error e => cases h

/-- The program ends well, or is at an action of this kind. -/
def Past {ε : Type} (P : A → Prop) : Prog A R (Except ε α) → Prop
  | .ret (.ok _) => True
  | .ret (.error _) => False
  | .act a _ => P a

/-- What the first part never does comes after it, and so does a good end. -/
theorem did_past {ε : Type} {P : A → Prop} {x : ExceptT ε (Prog A R) α}
    {f : α → ExceptT ε (Prog A R) β} {es : List (Sigma R)} {q : Prog A R (Except ε β)}
    (hx : x.run.Does fun a => ¬ P a) (hq : Past P q) (h : Did (x >>= f).run es q) :
    ∃ es₁ es₂ y, es = es₁ ++ es₂ ∧ Did x.run es₁ (.ret (.ok y)) ∧ Did (f y).run es₂ q := by
  cases q with
  | ret b =>
      obtain hdone | ⟨e,_,rfl⟩ := did_exceptBind h
      · exact hdone
      · exact hq.elim
  | act a k =>
      obtain ⟨k',h'⟩ | hdone := did_exceptBind_act h
      · exact (hx.did h' hq).elim
      · exact hdone

theorem did_lift {ε : Type} {p : Prog A R α} {es : List (Sigma R)} {r : Except ε α}
    (h : Did (ExceptT.lift p : ExceptT ε (Prog A R) α).run es (.ret r)) :
    ∃ x, r = .ok x ∧ Did p es (.ret x) := by
  rw [ExceptT.run_lift,← bind_pure_comp] at h
  exact did_map h

theorem did_lift_act {ε : Type} {p : Prog A R α} {es : List (Sigma R)} {a : A}
    {k : R a → Prog A R (Except ε α)}
    (h : Did (ExceptT.lift p : ExceptT ε (Prog A R) α).run es (.act a k)) :
    ∃ k', Did p es (.act a k') := by
  rw [ExceptT.run_lift,← bind_pure_comp] at h
  exact did_map_act h

/-- Runs that record what they were answered. -/
def recorded : Sem A R (List (Sigma R)) := fun a es r es' => es' = es ++ [⟨a,r⟩]

theorem exec_recorded {p : Prog A R α} {es es' : List (Sigma R)} {x : α} :
    Exec recorded p es x es' ↔ ∃ more, es' = es ++ more ∧ Did p more (.ret x) := by
  induction p generalizing es with
  | ret y =>
      constructor
      · rintro ⟨⟩
        exact ⟨[],by simp,.nil _⟩
      · rintro ⟨more,rfl,h⟩
        cases h
        rw [List.append_nil]
        exact .ret ..
  | act a k ih =>
      constructor
      · intro h
        cases h with
        | act hs hk =>
            obtain ⟨more,rfl,h⟩ := (ih _).mp hk
            exact ⟨_ :: more,by rw [show _ = _ from hs]; simp,.cons h⟩
      · rintro ⟨more,rfl,h⟩
        cases h with
        | cons h => exact .act rfl ((ih _).mpr ⟨_,by simp,h⟩)

end Prog
end Concurrent
