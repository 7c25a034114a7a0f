import EmentE2ee.Concurrent.Notes
import EmentE2ee.Concurrent.Trace
import EmentE2ee.Json.Value

/-!
# What updates leave alone

Lookups after a value under a key was rewritten by a program or assigned through
a chain of indexes. Objects are compared by their lookups.
-/
namespace Json

open Concurrent

namespace Map

theorem insert_insert (k : String) (v w : Value) (m : Map) :
    insert k w (insert k v m) = insert k w m := by
  induction m with
  | nil => simp [insert]
  | cons e m ih =>
      simp only [insert]
      split_ifs with h₁ h₂
      · simp [insert]
      · simp [insert]
      · simp [insert,h₁,h₂,ih]

theorem lookup_remove_self (k : String) (m : Map) : (remove k m).lookup k = none := by
  induction m with
  | nil => rfl
  | cons e m ih =>
      by_cases he : e.1 = k
      · have hremove : remove k (e :: m) = remove k m := by simp [remove,he]
        rw [hremove,ih]
      · have hremove : remove k (e :: m) = e :: remove k m := by simp [remove,he]
        rw [hremove]
        simp only [lookup,he,if_false,ih]

theorem lookup_remove_ne {k k' : String} (h : k' ≠ k) (m : Map) :
    (remove k m).lookup k' = m.lookup k' := by
  induction m with
  | nil => rfl
  | cons e m ih =>
      by_cases he : e.1 = k
      · have hremove : remove k (e :: m) = remove k m := by simp [remove,he]
        have hne : e.1 ≠ k' := fun he' => h (he'.symm.trans he)
        rw [hremove,ih]
        simp [lookup,hne]
      · have hremove : remove k (e :: m) = e :: remove k m := by simp [remove,he]
        rw [hremove]
        simp only [lookup,ih]

theorem remove_insert (k : String) (v : Value) (m : Map) :
    remove k (insert k v m) = remove k m := by
  induction m with
  | nil => simp [insert,remove]
  | cons e m ih =>
      simp only [insert]
      split_ifs with h₁ h₂
      · simp [remove,h₁]
      · simp [remove]
      · simp only [remove,List.filter_cons] at ih ⊢
        rw [ih]

section
variable {A : Type} {R : A → Type} {σ : Type} {sem : Sem A R σ}

theorem exec_updateM {k : String} {f : Value → Prog A R Value} {m m' : Map} {s s' : σ}
    (h : Prog.Exec sem (updateM k f m) s m' s') :
    (∀ k' ≠ k, m'.lookup k' = m.lookup k') ∧
      ((m.lookup k = none ∧ m'.lookup k = none ∧ s' = s) ∨
        ∃ v w, m.lookup k = some v ∧ m'.lookup k = some w ∧ Prog.Exec sem (f v) s w s') := by
  induction m generalizing m' s s' with
  | nil =>
      cases h
      exact ⟨fun _ _ => rfl,.inl ⟨rfl,rfl,rfl⟩⟩
  | cons e m ih =>
      obtain ⟨k₁,v⟩ := e
      simp only [updateM] at h
      split_ifs at h with hk
      · obtain ⟨w,s₁,hv,hret⟩ := Prog.exec_bind.mp h
        cases hret
        refine ⟨fun k' hk' => ?_,.inr ⟨v,w,?_,?_,hv⟩⟩
        · simp [lookup,hk,hk'.symm]
        · simp [lookup,hk]
        · simp [lookup,hk]
      · obtain ⟨m₁,s₁,hm,hret⟩ := Prog.exec_bind.mp h
        cases hret
        obtain ⟨hother,hself⟩ := ih hm
        refine ⟨fun k' hk' => ?_,?_⟩
        · simp [lookup,hother k' hk']
        · simpa [lookup,hk] using hself

/-- A map without the key stays as it is. -/
theorem emits_updateM {δ : Type} {T : Sigma R → Prop} {out : Sigma R → List δ} {k : String}
    {f : Value → Prog A R Value} {Q : Value → List δ → Value → Prop}
    (hf : ∀ v, (f v).Emits T out (Q v)) (m : Map) : (updateM k f m).Emits T out fun os m' =>
      (m.lookup k = none ∧ os = [] ∧ m' = m) ∨ ∃ v w, m.lookup k = some v ∧ m'.lookup k = some w ∧
        Q v os w ∧ ∀ k' ≠ k, m'.lookup k' = m.lookup k' := by
  induction m with
  | nil => exact .ret (.inl ⟨rfl,rfl,rfl⟩)
  | cons e m ih =>
      obtain ⟨k₁,v⟩ := e
      simp only [updateM]
      split_ifs with hk
      · refine (hf v).bind fun os w hw => .ret (.inr ⟨v,w,?_,?_,?_,fun k' hk' => ?_⟩)
        · simp [lookup,hk]
        · simp [lookup,hk]
        · rwa [List.append_nil]
        · simp [lookup,hk,hk'.symm]
      · refine ih.bind fun os m' hm => .ret ?_
        rw [List.append_nil]
        obtain ⟨hnone,rfl,rfl⟩ | ⟨v,w,hv,hw,hQ,hother⟩ := hm
        · exact .inl ⟨by simpa [lookup,hk] using hnone,rfl,rfl⟩
        · refine .inr ⟨v,w,?_,?_,hQ,fun k' hk' => ?_⟩
          · simpa [lookup,hk] using hv
          · simpa [lookup,hk] using hw
          · simp [lookup,hother k' hk']

/-- What is done about the value under a key. -/
theorem writes_updateM {ν : Type} {does : A → Option ν} {k : String} {f : Value → Prog A R Value}
    {items : Value → List ν} (hf : ∀ v, (f v).Writes does (fun _ => True) (items v)) (m : Map) :
    (updateM k f m).Writes does (fun m' => ∀ k' ≠ k, m'.lookup k' = m.lookup k')
      ((m.lookup k).elim [] items) := by
  induction m with
  | nil => exact ⟨rfl,fun _ _ => rfl⟩
  | cons e m ih =>
      obtain ⟨k₁,v⟩ := e
      simp only [updateM]
      split_ifs with hk
      · rw [show lookup k ((k₁,v) :: m) = some v by simp [lookup,hk]]
        refine (hf v).bind_ret fun w _ k' hk' => ?_
        simp [lookup,hk,hk'.symm]
      · rw [show lookup k ((k₁,v) :: m) = lookup k m by simp [lookup,hk]]
        refine ih.bind_ret fun m' hm' k' hk' => ?_
        simp [lookup,hm' k' hk']

end
end Map

namespace Value

theorem isObject_iff {v : Value} : v.isObject = true ↔ ∃ m : Map, v = .object m := by
  cases v <;> simp [isObject,asObject]

theorem isArray_iff {v : Value} : v.isArray = true ↔ ∃ xs, v = .array xs := by
  cases v <;> simp [isArray,asArray]

/-- Two rewritings under one key are one. -/
theorem indexMut_bind (k : String) (f g : Value → Option Value) (v : Value) :
    (v.indexMut k f).bind (indexMut k g) = v.indexMut k fun x => (f x).bind g := by
  cases v with
  | object m =>
      cases hf : f ((Map.lookup k m).getD .null) with
      | none => simp [indexMut,hf]
      | some x => simp [indexMut,hf,Map.insert_insert]
  | null =>
      cases hf : f .null with
      | none => simp [indexMut,hf]
      | some x => simp [indexMut,hf,Map.lookup,Map.insert]
  | bool b => rfl
  | number n => rfl
  | string s => rfl
  | array xs => rfl

section
variable {A : Type} {R : A → Type} {σ : Type} {sem : Sem A R σ}

theorem exec_updateM {k : String} {f : Value → Prog A R Value} {m : Map} {w : Value} {s s' : σ}
    (h : Prog.Exec sem (updateM k f (.object m)) s w s') : ∃ m' : Map, w = .object m' ∧
      (∀ k' ≠ k, m'.lookup k' = m.lookup k') ∧
      ((m.lookup k = none ∧ m'.lookup k = none ∧ s' = s) ∨
        ∃ v w, m.lookup k = some v ∧ m'.lookup k = some w ∧ Prog.Exec sem (f v) s w s') := by
  obtain ⟨m',s₁,hm,hret⟩ := Prog.exec_bind.mp h
  cases hret
  exact ⟨m',rfl,Map.exec_updateM hm⟩

/-- Only objects are rewritten. -/
theorem exec_updateM_other {k : String} {f : Value → Prog A R Value} {v w : Value} {s s' : σ}
    (hv : v.isObject = false) (h : Prog.Exec sem (updateM k f v) s w s') : w = v ∧ s' = s := by
  cases v with
  | object m => cases hv
  | null => cases h; exact ⟨rfl,rfl⟩
  | bool b => cases h; exact ⟨rfl,rfl⟩
  | number n => cases h; exact ⟨rfl,rfl⟩
  | string s => cases h; exact ⟨rfl,rfl⟩
  | array xs => cases h; exact ⟨rfl,rfl⟩

/-- Whatever is rewritten under a key, the other keys stay. -/
theorem exec_updateM_get {k : String} {f : Value → Prog A R Value} {v w : Value} {s s' : σ}
    (h : Prog.Exec sem (updateM k f v) s w s') : (∀ k' ≠ k, w.get k' = v.get k') ∧
      ((v.get k = none ∧ w.get k = none ∧ s' = s) ∨
        ∃ x y, v.get k = some x ∧ w.get k = some y ∧ Prog.Exec sem (f x) s y s') := by
  cases hv : v.isObject with
  | true =>
      obtain ⟨m,rfl⟩ := isObject_iff.mp hv
      obtain ⟨m',rfl,hm⟩ := exec_updateM h
      exact hm
  | false =>
      obtain ⟨rfl,rfl⟩ := exec_updateM_other hv h
      have hno : w.get k = none := by
        cases w with
        | object m => cases hv
        | _ => rfl
      exact ⟨fun _ _ => rfl,.inl ⟨hno,hno,rfl⟩⟩

/-- A value without the key stays as it is. -/
theorem emits_updateM {δ : Type} {T : Sigma R → Prop} {out : Sigma R → List δ} {k : String}
    {f : Value → Prog A R Value} {Q : Value → List δ → Value → Prop}
    (hf : ∀ v, (f v).Emits T out (Q v)) (v : Value) : (v.updateM k f).Emits T out fun os w =>
      (v.get k = none ∧ os = [] ∧ w = v) ∨ ∃ x y, v.get k = some x ∧ w.get k = some y ∧
        Q x os y ∧ ∀ k' ≠ k, w.get k' = v.get k' := by
  have hother : ∀ w : Value, w.isObject = false → w.get k = none := by
    intro w hw
    cases w with
    | object m => cases hw
    | _ => rfl
  cases v with
  | object m =>
      refine (Map.emits_updateM hf m).bind fun os m' hm => .ret ?_
      rw [List.append_nil]
      obtain ⟨hnone,rfl,rfl⟩ | hfound := hm
      · exact .inl ⟨hnone,rfl,rfl⟩
      · exact .inr hfound
  | _ => exact .ret (.inl ⟨hother _ rfl,rfl,rfl⟩)

/-- What is done about the value under a key. -/
theorem writes_updateM {ν : Type} {does : A → Option ν} {k : String} {f : Value → Prog A R Value}
    {items : Value → List ν} (hf : ∀ x, (f x).Writes does (fun _ => True) (items x)) (v : Value) :
    (v.updateM k f).Writes does (fun w => ∀ k' ≠ k, w.get k' = v.get k')
      ((v.get k).elim [] items) := by
  cases v with
  | object m => exact (Map.writes_updateM hf m).bind_ret fun _ hm => hm
  | _ => exact ⟨rfl,fun _ _ => rfl⟩

theorem writes_nothing_updateM {ν : Type} {does : A → Option ν} {k : String}
    {f : Value → Prog A R Value} (hf : ∀ x, (f x).Writes does (fun _ => True) []) (v : Value) :
    (v.updateM k f).Writes does (fun w => ∀ k' ≠ k, w.get k' = v.get k') [] := by
  have hnothing : (v.get k).elim [] (fun _ => ([] : List ν)) = [] := by
    cases v.get k <;> rfl
  exact hnothing ▸ writes_updateM hf v

end
end Value
end Json
