import EmentE2ee.Json.Value

/-!
# The shape of a value

Which values an assignment through indexes gets through, and which rewritings
leave that alone: those that keep the kinds of values under all keys.
-/
namespace Json

inductive Kind where
  | null | bool | number | string | array | object
  deriving DecidableEq, Repr

namespace Value

def kind : Value → Kind
  | .null => .null
  | .bool _ => .bool
  | .number _ => .number
  | .string _ => .string
  | .array _ => .array
  | .object _ => .object

/-- Indexing gets through objects, and makes objects of nulls. -/
def indexable (v : Value) : Bool := v.kind = .null || v.kind = .object

/-- Mutable indexing by a chain of keys reaches its end. -/
def Assignable : List String → Value → Prop
  | [],_ => True
  | k :: ks,v => v.indexable = true ∧ Assignable ks ((v.get k).getD .null)

/-- Mutable indexing by a chain of keys. -/
def modify (f : Value → Option Value) : List String → Value → Option Value
  | [] => f
  | k :: ks => indexMut k (modify f ks)

theorem isObject_kind (v : Value) : v.isObject = true ↔ v.kind = .object := by
  cases v <;> simp [isObject,asObject,kind]

theorem isArray_kind (v : Value) : v.isArray = true ↔ v.kind = .array := by
  cases v <;> simp [isArray,asArray,kind]

theorem indexable_of_get {k : String} {v w : Value} (h : v.get k = some w) :
    v.indexable = true := by
  cases v with
  | object m => rfl
  | _ => simp [get,asObject] at h

theorem indexMut_isSome (k : String) (f : Value → Option Value) (v : Value) :
    (v.indexMut k f).isSome = true ↔
      v.indexable = true ∧ (f ((v.get k).getD .null)).isSome = true := by
  cases v <;> simp [indexMut,indexable,kind,get,asObject]

theorem indexMut_isObject {k : String} {f : Value → Option Value} {v w : Value}
    (h : v.indexMut k f = some w) : w.isObject = true := by
  cases v with
  | object m =>
      obtain ⟨x,_,rfl⟩ := Option.map_eq_some_iff.mp h
      rfl
  | null =>
      obtain ⟨x,_,rfl⟩ := Option.map_eq_some_iff.mp h
      rfl
  | _ => cases h

theorem assign_modify (ks : List String) (v x : Value) :
    v.assign ks x = modify (fun _ => some x) ks v := by
  induction ks generalizing v with
  | nil => rfl
  | cons k ks ih =>
      have hall : (fun w => assign ks w x) = modify (fun _ => some x) ks := funext ih
      rw [assign,modify,hall]

theorem getD_pointer (k : String) (ks : List String) (v : Value) :
    ((v.pointer (k :: ks)).getD .null) = (((v.get k).getD .null).pointer ks).getD .null := by
  rw [pointer_cons]
  cases v.get k with
  | some w => rfl
  | none => cases ks <;> rfl

theorem modify_isSome (f : Value → Option Value) (ks : List String) (v : Value) :
    (modify f ks v).isSome = true ↔
      v.Assignable ks ∧ (f ((v.pointer ks).getD .null)).isSome = true := by
  induction ks generalizing v with
  | nil => simp [modify,Assignable]
  | cons k ks ih =>
      rw [modify,indexMut_isSome,ih,getD_pointer,Assignable,and_assoc]

theorem assign_isSome (ks : List String) (v x : Value) :
    (v.assign ks x).isSome = true ↔ v.Assignable ks := by
  rw [assign_modify,modify_isSome]
  simp

/-- A chain of keys under which there is a value can be assigned through. -/
theorem assignable_of_pointer {ks : List String} {v w : Value} (h : v.pointer ks = some w) :
    v.Assignable ks := by
  induction ks generalizing v with
  | nil => trivial
  | cons k ks ih =>
      obtain ⟨x,hx,hw⟩ := Option.bind_eq_some_iff.mp h
      exact ⟨indexable_of_get hx,by rw [hx]; exact ih hw⟩

variable {f : Value → Option Value} {v w : Value}

theorem modify_pointer {ks : List String} (h : modify f ks v = some w) :
    ∃ x, f ((v.pointer ks).getD .null) = some x ∧ w.pointer ks = some x := by
  induction ks generalizing v w with
  | nil => exact ⟨w,h,rfl⟩
  | cons k ks ih =>
      obtain ⟨y,hy,hget⟩ := get_indexMut_self h
      obtain ⟨x,hx,hpointer⟩ := ih hy
      refine ⟨x,by rwa [getD_pointer],?_⟩
      rw [pointer_cons,hget]
      exact hpointer

/-- Beside the last key everything stays, and can be assigned. -/
theorem modify_beside (ks : List String) {k k' : String} (hk : k' ≠ k)
    (h : modify f (ks ++ [k]) v = some w) :
    w.pointer (ks ++ [k']) = v.pointer (ks ++ [k']) ∧ w.Assignable (ks ++ [k']) := by
  induction ks generalizing v w with
  | nil =>
      have hget := get_indexMut_ne hk.symm h
      have hobject := indexMut_isObject h
      refine ⟨?_,?_,trivial⟩
      · rw [List.nil_append,pointer_cons,pointer_cons,hget]
      · rw [indexable,(isObject_kind w).mp hobject]
        rfl
  | cons l ks ih =>
      obtain ⟨y,hy,hget⟩ := get_indexMut_self h
      obtain ⟨hpointer,hassign⟩ := ih hy
      have hobject := indexMut_isObject h
      refine ⟨?_,?_,?_⟩
      · rw [List.cons_append,pointer_cons,pointer_cons,hget]
        refine hpointer.trans ?_
        cases hv : v.get l with
        | some x => rfl
        | none => cases ks <;> rfl
      · rw [indexable,(isObject_kind w).mp hobject]
        rfl
      · rw [hget]
        exact hassign

/-- The same kinds of values under the same keys. -/
def Alike (v w : Value) : Prop := ∀ ks, (v.pointer ks).map kind = (w.pointer ks).map kind

theorem Alike.refl (v : Value) : Alike v v := fun _ => rfl

theorem Alike.trans {u : Value} (h : Alike u v) (h' : Alike v w) : Alike u w := fun ks =>
  (h ks).trans (h' ks)

theorem Alike.kind (h : Alike v w) : v.kind = w.kind := by
  simpa using h []

theorem Alike.get (h : Alike v w) (k : String) : (v.get k = none ∧ w.get k = none) ∨
    ∃ x y, v.get k = some x ∧ w.get k = some y ∧ Alike x y := by
  have hk := h [k]
  cases hv : v.get k with
  | none =>
      cases hw : w.get k with
      | none => exact .inl ⟨rfl,rfl⟩
      | some y => simp [pointer,hv,hw] at hk
  | some x =>
      cases hw : w.get k with
      | none => simp [pointer,hv,hw] at hk
      | some y =>
          refine .inr ⟨x,y,rfl,rfl,fun ks => ?_⟩
          simpa [pointer_cons,hv,hw] using h (k :: ks)

theorem alike_of_get (hkind : v.kind = w.kind) (h : ∀ k, (v.get k = none ∧ w.get k = none) ∨
    ∃ x y, v.get k = some x ∧ w.get k = some y ∧ Alike x y) : Alike v w := by
  intro ks
  cases ks with
  | nil => exact congrArg some hkind
  | cons k ks =>
      rw [pointer_cons,pointer_cons]
      obtain ⟨hv,hw⟩ | ⟨x,y,hv,hw,hxy⟩ := h k
      · rw [hv,hw]
      · rw [hv,hw]
        exact hxy ks

theorem alike_array (xs ys : List Value) : Alike (.array xs) (.array ys) :=
  alike_of_get rfl fun _ => .inl ⟨rfl,rfl⟩

/-- Objects are compared entry by entry. -/
theorem Alike.cons {x y : Value} {m m' : Map} (k : String) (hxy : Alike x y)
    (h : Alike (.object m) (.object m')) : Alike (.object ((k,x) :: m)) (.object ((k,y) :: m')) := by
  refine alike_of_get rfl fun k' => ?_
  by_cases hk : k = k'
  · exact .inr ⟨x,y,by simp [Map.lookup,hk],by simp [Map.lookup,hk],hxy⟩
  · simpa [Map.lookup,hk] using h.get k'

theorem Alike.pointer (h : Alike v w) (ks : List String) : (v.pointer ks = none ∧ w.pointer ks = none) ∨
    ∃ x y, v.pointer ks = some x ∧ w.pointer ks = some y ∧ Alike x y := by
  induction ks generalizing v w with
  | nil => exact .inr ⟨v,w,rfl,rfl,h⟩
  | cons k ks ih =>
      rw [pointer_cons,pointer_cons]
      obtain ⟨hv,hw⟩ | ⟨x,y,hv,hw,hxy⟩ := h.get k
      · rw [hv,hw]
        exact .inl ⟨rfl,rfl⟩
      · rw [hv,hw]
        exact ih hxy

theorem Alike.assignable (h : Alike v w) (ks : List String) :
    v.Assignable ks ↔ w.Assignable ks := by
  induction ks generalizing v w with
  | nil => exact Iff.rfl
  | cons k ks ih =>
      rw [Assignable,Assignable,indexable,indexable,h.kind]
      obtain ⟨hv,hw⟩ | ⟨x,y,hv,hw,hxy⟩ := h.get k
      · rw [hv,hw]
      · rw [hv,hw]
        exact and_congr Iff.rfl (ih hxy)

end Value
end Json
