import Mathlib.Data.List.Basic
import Mathlib.Data.String.Basic

/-!
# JSON values

Values as a parser leaves them, with objects as association lists in key order.
Lookups never fail on a value of the wrong type, they find nothing. Assignment
through a chain of indexes does fail: it creates what is missing inside objects
and nulls, and panics on every other value, which is `none` here.
-/
namespace Json

inductive Number where
  | posInt (n : Nat)
  | negInt (n : Int)
  | float (text : String)
  deriving Repr, DecidableEq

inductive Value where
  | null
  | bool (b : Bool)
  | number (n : Number)
  | string (s : String)
  | array (xs : List Value)
  | object (m : List (String × Value))
  deriving Repr

abbrev Map := List (String × Value)

namespace Map

def lookup (k : String) : Map → Option Value
  | [] => none
  | (k',v) :: m => if k' = k then some v else lookup k m

/-- Replaces the value of a key in place, or puts the key where it sorts. -/
def insert (k : String) (v : Value) : Map → Map
  | [] => [(k,v)]
  | (k',v') :: m =>
      if k' = k then (k,v) :: m
      else if k < k' then (k,v) :: (k',v') :: m
      else (k',v') :: insert k v m

def remove (k : String) (m : Map) : Map := m.filter fun e => e.1 ≠ k

/-- Rewrite the value of a key, where the key is present. -/
def updateM {M : Type → Type} [Monad M] (k : String) (f : Value → M Value) : Map → M Map
  | [] => pure []
  | (k',v) :: m =>
      if k' = k then do
        let v' ← f v
        pure ((k',v') :: m)
      else do
        let m' ← updateM k f m
        pure ((k',v) :: m')

@[simp] theorem lookup_insert_self (k : String) (v : Value) (m : Map) :
    lookup k (insert k v m) = some v := by
  induction m with
  | nil => simp [insert,lookup]
  | cons e m ih =>
      simp only [insert]
      split_ifs with h₁ h₂
      · simp [lookup]
      · simp [lookup]
      · simp [lookup,h₁,ih]

theorem lookup_insert_ne {k k' : String} (h : k' ≠ k) (v : Value) (m : Map) :
    lookup k (insert k' v m) = lookup k m := by
  induction m with
  | nil => simp [insert,lookup,h]
  | cons e m ih =>
      simp only [insert]
      split_ifs with h₁ h₂
      · rw [h₁.symm] at h ⊢
        simp [lookup,h]
      · simp [lookup,h]
      · simp [lookup,ih]

end Map

namespace Value

def asStr : Value → Option String
  | .string s => some s
  | _ => none

def asU64 : Value → Option Nat
  | .number (.posInt n) => some n
  | _ => none

def asArray : Value → Option (List Value)
  | .array xs => some xs
  | _ => none

def asObject : Value → Option Map
  | .object m => some m
  | _ => none

def isArray (v : Value) : Bool := v.asArray.isSome
def isObject (v : Value) : Bool := v.asObject.isSome

def get (k : String) (v : Value) : Option Value := v.asObject.bind (Map.lookup k)

/-- Lookup along keys none of which reads as an array index. -/
def pointer : List String → Value → Option Value
  | [], v => some v
  | k :: ks, v => (v.get k).bind (pointer ks)

/-- Rewrite the value under a key, where there is one. -/
def updateM {M : Type → Type} [Monad M] (k : String) (f : Value → M Value) : Value → M Value
  | .object m => do
      let m' ← Map.updateM k f m
      pure (.object m')
  | v => pure v

/-- Mutable indexing by a key: `f` sees null where the key is missing. -/
def indexMut (k : String) (f : Value → Option Value) : Value → Option Value
  | .object m => (f ((Map.lookup k m).getD .null)).map fun v => .object (Map.insert k v m)
  | .null => (f .null).map fun v => .object [(k,v)]
  | _ => none

/-- Assignment through a chain of indexes. -/
def assign : List String → Value → Value → Option Value
  | [], _, x => some x
  | k :: ks, v, x => v.indexMut k fun w => assign ks w x

@[simp] theorem asObject_object (m : Map) : (Value.object m).asObject = some m := rfl
@[simp] theorem asArray_array (xs : List Value) : (Value.array xs).asArray = some xs := rfl
@[simp] theorem asStr_string (s : String) : (Value.string s).asStr = some s := rfl
@[simp] theorem get_object (k : String) (m : Map) :
    (Value.object m).get k = Map.lookup k m := rfl
@[simp] theorem pointer_nil (v : Value) : v.pointer [] = some v := rfl
theorem pointer_cons (k : String) (ks : List String) (v : Value) :
    v.pointer (k :: ks) = (v.get k).bind (pointer ks) := rfl

theorem get_indexMut_ne {k k' : String} (h : k' ≠ k) {f : Value → Option Value} {v w : Value}
    (hw : v.indexMut k' f = some w) : w.get k = v.get k := by
  cases v with
  | object m =>
      obtain ⟨x,_,rfl⟩ := Option.map_eq_some_iff.mp hw
      exact Map.lookup_insert_ne h x m
  | null =>
      obtain ⟨x,_,rfl⟩ := Option.map_eq_some_iff.mp hw
      simp [get,asObject,Map.lookup,h]
  | bool b => cases hw
  | number n => cases hw
  | string s => cases hw
  | array xs => cases hw

theorem get_indexMut_self {k : String} {f : Value → Option Value} {v w : Value}
    (hw : v.indexMut k f = some w) : ∃ x, f ((v.get k).getD .null) = some x ∧ w.get k = some x := by
  cases v with
  | object m =>
      obtain ⟨x,hx,rfl⟩ := Option.map_eq_some_iff.mp hw
      exact ⟨x,hx,Map.lookup_insert_self k x m⟩
  | null =>
      obtain ⟨x,hx,rfl⟩ := Option.map_eq_some_iff.mp hw
      exact ⟨x,hx,by simp [get,Map.lookup]⟩
  | bool b => cases hw
  | number n => cases hw
  | string s => cases hw
  | array xs => cases hw

end Value
end Json
