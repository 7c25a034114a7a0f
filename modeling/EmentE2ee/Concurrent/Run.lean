import Mathlib.Data.List.Induction

/-!
# Runs of labelled transitions

For systems whose steps are whole calls, serialized by a lock or by a single
caller. The labels are the inputs; a guard on inputs and states is a second
transition relation, so a guarded run is again a run.
-/
namespace Concurrent

variable {σ ι : Type}

/-- The inputs lead from the first state to the last. -/
inductive Run (step : σ → ι → σ → Prop) (s₀ : σ) : List ι → σ → Prop
  | nil : Run step s₀ [] s₀
  | snoc {is : List ι} {s s' : σ} {i : ι} :
      Run step s₀ is s → step s i s' → Run step s₀ (is ++ [i]) s'

namespace Run
variable {step step' : σ → ι → σ → Prop} {s₀ s : σ} {is : List ι}

/-- What holds initially and is kept by each step holds at the end. -/
theorem invariant {I : σ → Prop} (h₀ : I s₀) (hstep : ∀ s i s', I s → step s i s' → I s')
    (r : Run step s₀ is s) : I s := by
  induction r with
  | nil => exact h₀
  | snoc _ hs ih => exact hstep _ _ _ ih hs

/-- The invariant may also speak about the inputs consumed so far. -/
theorem history {I : List ι → σ → Prop} (h₀ : I [] s₀)
    (hstep : ∀ is s i s', I is s → step s i s' → I (is ++ [i]) s')
    (r : Run step s₀ is s) : I is s := by
  induction r with
  | nil => exact h₀
  | snoc _ hs ih => exact hstep _ _ _ _ ih hs

theorem single {i : ι} : Run step s₀ [i] s ↔ step s₀ i s := by
  constructor
  · intro h
    generalize hi : [i] = is at h
    cases h with
    | nil => cases hi
    | @snoc is s' _ j h hs =>
        obtain ⟨rfl,rfl⟩ : is = [] ∧ j = i := by
          cases is with
          | nil => exact ⟨rfl,by cases hi; rfl⟩
          | cons j is => simp at hi
        generalize his : ([] : List ι) = is at h
        cases h with
        | nil => exact hs
        | snoc => simp at his
  · exact fun h => (Run.nil.snoc h : Run step s₀ ([] ++ [i]) s)

/-- A run of two parts has a state between them. -/
theorem append {js : List ι} : Run step s₀ (is ++ js) s ↔ ∃ m, Run step s₀ is m ∧ Run step m js s := by
  constructor
  · intro h
    induction js using List.reverseRecOn generalizing s with
    | nil => exact ⟨s,by rwa [List.append_nil] at h,.nil⟩
    | append_singleton js j ih =>
        generalize hks : is ++ (js ++ [j]) = ks at h
        rw [← List.append_assoc] at hks
        cases h with
        | nil => simp at hks
        | snoc h hs =>
            obtain ⟨rfl,hj⟩ := List.append_inj' hks rfl
            cases hj
            obtain ⟨m,h₁,h₂⟩ := ih h
            exact ⟨m,h₁,.snoc h₂ hs⟩
  · rintro ⟨m,h₁,h₂⟩
    induction h₂ with
    | nil => rwa [List.append_nil]
    | snoc _ hs ih =>
        rw [← List.append_assoc]
        exact .snoc ih hs

theorem cons {i : ι} : Run step s₀ (i :: is) s ↔ ∃ m, step s₀ i m ∧ Run step m is s := by
  rw [← List.singleton_append,append]
  simp only [single]

end Run
end Concurrent
