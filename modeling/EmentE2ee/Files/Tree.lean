import Mathlib.Data.List.Infix

/-!
# Directory trees

Directories by their path below a fixed root, each with a payload, listed in the
order in which reading a directory finds them. A directory's parent is a
directory.
-/
namespace Files

abbrev Path := List String

/-- The path of a name in a directory, as the system resolves it. -/
def down (p : Path) (name : String) : Path :=
  if name = "" ∨ name = "." then p else if name = ".." then p.dropLast else p ++ [name]

/-- A name that stands for itself in a path. -/
def Plain (name : String) : Prop := name ≠ "" ∧ name ≠ "." ∧ name ≠ ".."

instance (name : String) : Decidable (Plain name) := by unfold Plain; infer_instance

theorem down_plain {name : String} (h : Plain name) (p : Path) : down p name = p ++ [name] := by
  simp [down,h.1,h.2.1,h.2.2]

structure Tree (N : Type) where
  entries : List (Path × N)
  rooted : ∀ p ∈ entries.map Prod.fst, p.dropLast ∈ entries.map Prod.fst

namespace Tree
variable {N : Type}

def paths (t : Tree N) : List Path := t.entries.map Prod.fst

def empty : Tree N := ⟨[],by simp⟩

/-- The payload of a directory, if it exists. -/
def get (t : Tree N) (p : Path) : Option N := (t.entries.find? fun e => e.1 = p).map Prod.snd

/-- The directories in a directory. -/
def subdirs (t : Tree N) (p : Path) : List Path := t.paths.filter fun q => q ≠ [] ∧ q.dropLast = p

/-- What has to be made for a directory to exist. -/
def missing (t : Tree N) (p : Path) : List Path := p.inits.filter fun q => q ∉ t.paths

theorem mem_missing {t : Tree N} {p q : Path} : q ∈ t.missing p ↔ q <+: p ∧ q ∉ t.paths := by
  simp only [missing,List.mem_filter,List.mem_inits,decide_eq_true_eq]

theorem keys_append {t : Tree N} {ps : List Path} {n : N} {q : Path} :
    q ∈ (ps.map (·,n) ++ t.entries).map Prod.fst ↔ q ∈ ps ∨ q ∈ t.paths := by
  simp [paths]

/-- The directory with whatever is missing on the way to it. -/
def create (n : N) (t : Tree N) (p : Path) : Tree N where
  entries := (t.missing p).map (·,n) ++ t.entries
  rooted := by
    intro q hq
    rw [keys_append] at hq ⊢
    rcases hq with hnew | hold
    · have hbelow := (List.dropLast_prefix q).trans (mem_missing.mp hnew).1
      by_cases h : q.dropLast ∈ t.paths
      · exact .inr h
      · exact .inl (mem_missing.mpr ⟨hbelow,h⟩)
    · exact .inr (t.rooted q hold)

def modify (f : N → N) (t : Tree N) (p : Path) : Tree N where
  entries := t.entries.map fun e => (e.1,if e.1 = p then f e.2 else e.2)
  rooted := by
    have hkeys : (t.entries.map fun e => (e.1,if e.1 = p then f e.2 else e.2)).map Prod.fst =
        t.entries.map Prod.fst := by simp
    rw [hkeys]
    exact t.rooted

theorem get_isSome {t : Tree N} {p : Path} : (t.get p).isSome ↔ p ∈ t.paths := by
  simp [get,paths]

theorem mem_subdirs {t : Tree N} {p q : Path} :
    q ∈ t.subdirs p ↔ q ∈ t.paths ∧ q ≠ [] ∧ q.dropLast = p := by
  simp [subdirs]

theorem snoc_mem_subdirs {t : Tree N} {p : Path} {name : String} :
    p ++ [name] ∈ t.subdirs p ↔ p ++ [name] ∈ t.paths := by
  simp [mem_subdirs]

theorem parent_mem {t : Tree N} {p : Path} {name : String} (h : p ++ [name] ∈ t.paths) :
    p ∈ t.paths := by
  have hparent := t.rooted _ h
  rwa [List.dropLast_concat] at hparent

theorem find_const (ps : List Path) (n : N) (q : Path) :
    ((ps.map (·,n)).find? fun e => e.1 = q).map Prod.snd = if q ∈ ps then some n else none := by
  induction ps with
  | nil => simp
  | cons p ps ih =>
      by_cases hp : p = q
      · simp [hp]
      · simpa [hp,Ne.symm hp] using ih

theorem get_create {n : N} {t : Tree N} {p q : Path} :
    (t.create n p).get q = if q ∈ t.missing p then some n else t.get q := by
  have hnew := find_const (t.missing p) n q
  simp only [get,create,List.find?_append,Option.map_or,hnew]
  split_ifs with h
  · simp
  · simp

@[simp] theorem mem_paths_create {n : N} {t : Tree N} {p q : Path} :
    q ∈ (t.create n p).paths ↔ q ∈ t.paths ∨ q <+: p := by
  refine keys_append.trans ?_
  rw [mem_missing]
  tauto

@[simp] theorem paths_modify {f : N → N} {t : Tree N} {p : Path} :
    (t.modify f p).paths = t.paths := by
  simp [paths,modify]

theorem get_modify {f : N → N} {t : Tree N} {p q : Path} :
    (t.modify f p).get q = if q = p then (t.get q).map f else t.get q := by
  have hfind : ∀ es : List (Path × N),
      ((es.map fun e => (e.1,if e.1 = p then f e.2 else e.2)).find? fun e => e.1 = q).map Prod.snd =
        if q = p then ((es.find? fun e => e.1 = q).map Prod.snd).map f
          else (es.find? fun e => e.1 = q).map Prod.snd := by
    intro es
    induction es with
    | nil => simp
    | cons e es ih =>
        by_cases he : e.1 = q
        · by_cases hq : q = p
          · simp [he,hq]
          · simp [he,hq]
        · simpa [he] using ih
  exact hfind t.entries

end Tree
end Files
