import EmentE2ee.Http

/-!
# Splitting at a character

At its first place, and at every place.
-/
namespace EmentE2ee

theorem splitOnce_none {c : Char} {cs : List Char} (h : c ∉ cs) : splitOnce c cs = none := by
  induction cs with
  | nil => rfl
  | cons x xs ih =>
      have hx : x ≠ c := fun he => h (by simp [he])
      rw [splitOnce,if_neg hx,ih fun hc => h (List.mem_cons_of_mem x hc)]
      rfl

theorem splitOnce_append {c : Char} {a : List Char} (h : c ∉ a) (b : List Char) :
    splitOnce c (a ++ c :: b) = some (a,b) := by
  induction a with
  | nil => exact if_pos rfl
  | cons x xs ih =>
      have hx : x ≠ c := fun he => h (by simp [he])
      rw [List.cons_append,splitOnce,if_neg hx,ih fun hc => h (List.mem_cons_of_mem x hc)]
      rfl

theorem splitOnce_some {c : Char} {cs a b : List Char} (h : splitOnce c cs = some (a,b)) :
    cs = a ++ c :: b ∧ c ∉ a := by
  induction cs generalizing a with
  | nil => cases h
  | cons x xs ih =>
      rw [splitOnce] at h
      split_ifs at h with hx
      · cases h
        exact ⟨by rw [hx]; rfl,List.not_mem_nil⟩
      · obtain ⟨p,hp,he⟩ := Option.map_eq_some_iff.mp h
        cases he
        obtain ⟨hxs,ha⟩ := ih hp
        refine ⟨by rw [hxs]; rfl,?_⟩
        rintro (_ | ⟨_,hc⟩)
        · exact hx rfl
        · exact ha hc

theorem mem_splitOn {a : Char} {xs s : List Char} (h : s ∈ xs.splitOn a) :
    ∀ c ∈ s, c ≠ a ∧ c ∈ xs := by
  induction xs generalizing s with
  | nil =>
      rw [List.splitOn_nil,List.mem_singleton] at h
      subst h
      intro c hc
      exact absurd hc List.not_mem_nil
  | cons x xs ih =>
      rw [List.splitOn_cons_eq_if_modifyHead] at h
      have htail : ∀ {t}, t ∈ xs.splitOn a → ∀ c ∈ t, c ≠ a ∧ c ∈ x :: xs :=
        fun ht c hc => ⟨(ih ht c hc).1,List.mem_cons_of_mem x (ih ht c hc).2⟩
      split_ifs at h with hx
      · rcases List.mem_cons.mp h with rfl | h
        · intro c hc
          exact absurd hc List.not_mem_nil
        · exact htail h
      · obtain ⟨t,ts,hsplit⟩ := List.exists_cons_of_ne_nil (List.splitOn_ne_nil a xs)
        rw [hsplit,List.modifyHead_cons] at h
        rcases List.mem_cons.mp h with rfl | h
        · intro c hc
          rcases List.mem_cons.mp hc with rfl | hc
          · exact ⟨fun he => hx (by simp [he]),List.mem_cons_self⟩
          · exact htail (hsplit ▸ List.mem_cons_self) c hc
        · exact htail (hsplit ▸ List.mem_cons_of_mem t h)

theorem mem_intercalate {a c : Char} {ls : List (List Char)} (h : c ∈ [a].intercalate ls) :
    c = a ∨ ∃ l ∈ ls, c ∈ l := by
  induction ls with
  | nil => simp [List.intercalate] at h
  | cons l ls ih =>
      cases ls with
      | nil =>
          simp only [List.intercalate,List.intersperse_singleton,List.flatten_cons,List.flatten_nil,
            List.append_nil] at h
          exact .inr ⟨l,List.mem_cons_self,h⟩
      | cons k ls =>
          rw [List.intercalate_cons_cons] at h
          simp only [List.mem_append,List.mem_singleton] at h
          rcases h with (h | h) | h
          · exact .inr ⟨l,List.mem_cons_self,h⟩
          · exact .inl h
          · rcases ih h with h | ⟨m,hm,h⟩
            · exact .inl h
            · exact .inr ⟨m,List.mem_cons_of_mem l hm,h⟩

end EmentE2ee
