import EmentE2ee.Action

/-!
# Programs over further actions

Some parts of the proxy, joining an existing identity and verifying devices, take
actions of their own besides those every part takes.
-/
namespace EmentE2ee

open Concurrent

variable [Codec] {B : Type} {S : B → Type} {α : Type}

abbrev WideM (S : B → Type) := Prog (Act ⊕ B) (Sum.elim Act.Ans S)
abbrev WideFallible (S : B → Type) := ExceptT Error (WideM S)

def Fallible.widen (p : Fallible α) : WideFallible S α := ExceptT.mk p.run.widen

/-- One of the further actions. -/
def further (b : B) : WideM S (S b) := .act (Sum.inr b) .ret

/-- One of those every part takes. -/
def usual (a : Act) : WideM S a.Ans := .act (Sum.inl a) .ret

/-- Runs a section under a lock, which is released however the section ends. -/
def underLock (l : Lock) (p : WideM S α) : WideM S α := do
  usual (.lock l)
  let r ← p
  usual (.unlock l)
  pure r

/-- An action whose failure, with a message of its own, ends the program. -/
def furtherCall (p : WideM S (Except String α)) : WideFallible S α :=
  ExceptT.mk (p >>= fun r => pure (r.mapError Error.text))

def bail (message : String) : WideFallible S α := throw (.text message)

/-- What is missing ends the program with the message. -/
def orBail (x : Option α) (message : String) : WideFallible S α := x.elim (bail message) pure

section
variable {P : Act ⊕ B → Prop}

@[simp] theorem bail_does (message : String) : (bail message : WideFallible S α).run.Does P := trivial

@[simp] theorem orBail_does (x : Option α) (message : String) :
    (orBail x message : WideFallible S α).run.Does P := by
  cases x <;> trivial

@[simp] theorem furtherCall_does (p : WideM S (Except String α)) :
    (furtherCall p).run.Does P ↔ p.Does P := Prog.does_bind_ret ..

@[simp] theorem adapt_does (p : WideFallible S α) (f : Error → Error) :
    (p.adapt f).run.Does P ↔ p.run.Does P := by
  change (Except.mapError f <$> p.run).Does P ↔ _
  exact Prog.does_map ..

@[simp] theorem usual_does (a : Act) :
    @Prog.Does (Act ⊕ B) (Sum.elim Act.Ans S) (no_index a.Ans) P (usual a) ↔ P (.inl a) :=
  ⟨fun h => h.1,fun h => ⟨h,fun _ => trivial⟩⟩

@[simp] theorem wide_lift_does (p : WideM S α) :
    (ExceptT.lift p : WideFallible S α).run.Does P ↔ p.Does P := by
  rw [ExceptT.run_lift]
  exact Prog.does_map ..

@[simp] theorem further_does (b : B) :
    @Prog.Does (Act ⊕ B) (Sum.elim Act.Ans S) (no_index (S b)) P (further b) ↔ P (.inr b) :=
  ⟨fun h => h.1,fun h => ⟨h,fun _ => trivial⟩⟩

end

section
variable {σ : Type} {sem : Sem (Act ⊕ B) (Sum.elim Act.Ans S) σ} {s s' : σ}

theorem furtherCall_exec {a : Act ⊕ B} {k : Sum.elim Act.Ans S a → Except String α}
    {r : Except Error α} (h : Prog.Exec sem (furtherCall (.act a fun r => .ret (k r))).run s r s') :
    ∃ x, sem a s x s' ∧ r = (k x).mapError .text := by
  cases h with
  | act hs h =>
      cases h
      exact ⟨_,hs,rfl⟩

/-- A call that is dropped has not been made, or its answer is lost. -/
theorem furtherCall_cut {waits : Act ⊕ B → Prop} {a b : Act ⊕ B}
    {k : Sum.elim Act.Ans S a → Except String α}
    (h : Prog.Cut sem waits (furtherCall (.act a fun r => .ret (k r))).run s b s') :
    s' = s ∨ ∃ r, sem a s r s' := by
  cases h with
  | before _ => exact .inl rfl
  | after _ hs => exact .inr ⟨_,hs⟩
  | act hs h => cases h

theorem orBail_exec {x : Option α} {message : String} {a : α}
    (h : Prog.Exec sem (orBail x message).run s (.ok a) s') : x = some a := by
  cases x with
  | none => cases h
  | some y =>
      cases h
      rfl

end
end EmentE2ee
