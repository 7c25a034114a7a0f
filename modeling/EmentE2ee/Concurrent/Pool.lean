import EmentE2ee.Concurrent.Program
import Mathlib.Data.Set.Basic
import Mathlib.Logic.Relation

/-!
# Interleaved programs and what they preserve

A system runs any number of calls over one state. Each call is a program, calls
may start at any time, and between any two actions of one call the others, and
the world outside, may act; a restart abandons all calls. A discipline is what a
proof about all interleavings needs: an invariant of the state, which may count
on what some call is still bound to do, what a call may do, and a promise about
its result. While a call is in progress it may rely on facts that no step of
another call falsifies. A guard restricts the actions considered, so that one
discipline also speaks about the runs that avoid a given action.
-/
namespace Concurrent

/-- A call in progress: which call it is, and what is left of it. -/
structure Thread (L A : Type) (R : A → Type) (Res : L → Type) where
  call : L
  rest : Prog A R (Res call)

structure Config (L A : Type) (R : A → Type) (Res : L → Type) (σ : Type) where
  state : σ
  threads : List (Thread L A R Res)

/-- What the actions of a call do, what happens around the calls, and which
calls may start. The predicates say which calls are in progress. -/
structure System (L A : Type) (R : A → Type) (Res : L → Type) (σ : Type) where
  sem : L → Sem A R σ
  env : (L → Prop) → σ → σ → Prop
  start : (L → Prop) → σ → (l : L) → Prog A R (Res l) → σ → Prop
  restart : σ → σ → Prop

variable {L A σ ω α β : Type} {R : A → Type} {Res : L → Type}

/-- The call has not ended. -/
def busy (ts : List (Thread L A R Res)) (l : L) : Prop :=
  ∃ a k, (⟨l,.act a k⟩ : Thread L A R Res) ∈ ts

/-- What the program will discharge on every path it can still take. -/
def Prog.owed (due : A → Set ω) (p : Prog A R α) : Set ω := {w | p.Owes fun a => w ∈ due a}

theorem Prog.owed_act (due : A → Set ω) (a : A) (k : R a → Prog A R α) :
    (Prog.act a k).owed due = due a ∪ {w | ∀ r, w ∈ (k r).owed due} := rfl

theorem Prog.owed_bind (due : A → Set ω) (p : Prog A R α) (g : α → Prog A R β) :
    p.owed due ⊆ (p >>= g).owed due := fun _ h => h.bind g

def owedBy (due : A → Set ω) (ts : List (Thread L A R Res)) : Set ω :=
  {w | ∃ t ∈ ts, w ∈ t.rest.owed due}

theorem owedBy_mid (due : A → Set ω) (us vs : List (Thread L A R Res)) (t : Thread L A R Res) :
    owedBy due (us ++ t :: vs) = owedBy due (us ++ vs) ∪ t.rest.owed due := by
  ext w
  simp only [owedBy,List.mem_append,List.mem_cons,Set.mem_union,Set.mem_ofPred_eq]
  constructor
  · rintro ⟨u,hu | rfl | hu,hw⟩
    · exact .inl ⟨u,.inl hu,hw⟩
    · exact .inr hw
    · exact .inl ⟨u,.inr hu,hw⟩
  · rintro (⟨u,hu | hu,hw⟩ | hw)
    · exact ⟨u,.inl hu,hw⟩
    · exact ⟨u,.inr (.inr hu),hw⟩
    · exact ⟨t,.inr (.inl rfl),hw⟩

/-- One step of a pool, in which only actions that pass the guard are taken. -/
inductive Step (S : System L A R Res σ) (due : A → Set ω) (ok : σ → Set ω → A → Prop) :
    Config L A R Res σ → Config L A R Res σ → Prop
  | start {s s' : σ} {ts : List (Thread L A R Res)} {l : L} {p : Prog A R (Res l)} :
      S.start (busy ts) s l p s' → Step S due ok ⟨s,ts⟩ ⟨s',ts ++ [⟨l,p⟩]⟩
  | act {s s' : σ} {us vs : List (Thread L A R Res)} {l : L} {a : A}
      {k : R a → Prog A R (Res l)} {r : R a} :
      ok s (owedBy due (us ++ ⟨l,.act a k⟩ :: vs)) a → S.sem l a s r s' →
      Step S due ok ⟨s,us ++ ⟨l,.act a k⟩ :: vs⟩ ⟨s',us ++ ⟨l,k r⟩ :: vs⟩
  | env {s s' : σ} {ts : List (Thread L A R Res)} :
      S.env (busy ts) s s' → Step S due ok ⟨s,ts⟩ ⟨s',ts⟩
  | restart {s s' : σ} {ts : List (Thread L A R Res)} :
      S.restart s s' → Step S due ok ⟨s,ts⟩ ⟨s',[]⟩

/-- Reached from the state `s₀` with no call in progress. -/
def Reachable (S : System L A R Res σ) (due : A → Set ω) (ok : σ → Set ω → A → Prop) (s₀ : σ) :
    Config L A R Res σ → Prop :=
  Relation.ReflTransGen (Step S due ok) ⟨s₀,[]⟩

namespace Reachable
variable {S : System L A R Res σ} {due : A → Set ω} {ok : σ → Set ω → A → Prop} {s₀ s s' : σ}
  {ts vs : List (Thread L A R Res)} {l : L}

theorem start {p : Prog A R (Res l)} (h : Reachable S due ok s₀ ⟨s,ts⟩)
    (hs : S.start (busy ts) s l p s') : Reachable S due ok s₀ ⟨s',ts ++ [⟨l,p⟩]⟩ :=
  h.tail (.start hs)

theorem act (us : List (Thread L A R Res)) {p : Prog A R (Res l)} {a : A}
    {k : R a → Prog A R (Res l)} {r : R a} (h : Reachable S due ok s₀ ⟨s,us ++ ⟨l,p⟩ :: vs⟩)
    (hp : p = .act a k) (hok : ok s (owedBy due (us ++ ⟨l,.act a k⟩ :: vs)) a)
    (hs : S.sem l a s r s') : Reachable S due ok s₀ ⟨s',us ++ ⟨l,k r⟩ :: vs⟩ := by
  subst hp
  exact h.tail (.act hok hs)

theorem env (h : Reachable S due ok s₀ ⟨s,ts⟩) (hs : S.env (busy ts) s s') :
    Reachable S due ok s₀ ⟨s',ts⟩ := h.tail (.env hs)

end Reachable

/-- The guard that excludes nothing. -/
def anyAction : σ → Set ω → A → Prop := fun _ _ _ => True

structure Discipline (S : System L A R Res σ) (ω : Type) where
  /-- What an action discharges for the invariant. -/
  due : A → Set ω
  guard : σ → Set ω → A → Prop
  /-- The invariant, given what the calls in progress will still discharge. -/
  inv : σ → Set ω → Prop
  may : L → A → Prop
  post : (l : L) → Res l → Prop
  guard_mono : ∀ {s C D a}, C ⊆ D → guard s C a → guard s D a
  inv_mono : ∀ {s C D}, C ⊆ D → inv s C → inv s D
  inv_env : ∀ {b s s' C}, S.env b s s' → inv s C → inv s' C
  inv_restart : ∀ {s s' C}, S.restart s s' → inv s C → inv s' ∅

namespace Discipline
variable {S : System L A R Res σ} (D : Discipline S ω)

/-- A fact that call `l` may rely on while it is in progress. -/
structure Stable (l : L) (F : σ → Prop) : Prop where
  act : ∀ {l' a s r s' C}, D.inv s C → D.guard s C a → S.sem l' a s r s' → F s → F s'
  start : ∀ {b s l' p s' C}, D.inv s C → S.start b s l' p s' → F s → F s'
  env : ∀ {b s s' C}, b l → D.inv s C → S.env b s s' → F s → F s'

theorem Stable.const (l : L) (P : Prop) : D.Stable l fun _ => P :=
  ⟨fun _ _ _ h => h,fun _ _ h => h,fun _ _ _ h => h⟩

/-- Call `l` does what it may, each of its actions keeps the invariant whatever
happened since the action before, and it ends with `Q`. -/
def Keeps (l : L) (Q : α → σ → Prop) : (σ → Prop) → Prog A R α → Prop
  | F, .ret a => ∀ s, F s → Q a s
  | F, .act a k => (∀ s, F s → D.may l a) ∧ ∀ s r s' C, F s → D.inv s (C ∪ (Prog.act a k).owed D.due) →
      D.guard s (C ∪ (Prog.act a k).owed D.due) a → S.sem l a s r s' →
      D.inv s' (C ∪ (k r).owed D.due) ∧ ∃ F', D.Stable l F' ∧ F' s' ∧ Keeps l Q F' (k r)

/-- An action that keeps the invariant on its own. -/
def Neutral (l : L) (F : σ → Prop) (a : A) : Prop :=
  ∀ s r s' C, F s → D.inv s (C ∪ D.due a) → D.guard s (C ∪ D.due a) a → S.sem l a s r s' →
    D.inv s' C

variable {D} {l : L} {F : σ → Prop} {Q : α → σ → Prop}

theorem Keeps.strengthen {F' : σ → Prop} {p : Prog A R α} (hF : ∀ s, F' s → F s)
    (h : D.Keeps l Q F p) : D.Keeps l Q F' p := by
  cases p with
  | ret a => exact fun s hs => h s (hF s hs)
  | act a k => exact ⟨fun s hs => h.1 s (hF s hs),fun s r s' C hs => h.2 s r s' C (hF s hs)⟩

/-- What the facts imply whatever the state may be assumed. -/
theorem Keeps.assuming {P : Prop} {p : Prog A R α} (hP : ∀ s, F s → P)
    (h : P → D.Keeps l Q F p) : D.Keeps l Q F p := by
  cases p with
  | ret a => exact fun s hs => h (hP s hs) s hs
  | act a k =>
      exact ⟨fun s hs => (h (hP s hs)).1 s hs,fun s r s' C hs => (h (hP s hs)).2 s r s' C hs⟩

/-- What an action owes on its own, with what its continuation owes set aside. -/
theorem owed_act_aside (due : A → Set ω) (C : Set ω) (a : A) (k : R a → Prog A R α) :
    C ∪ (Prog.act a k).owed due ⊆ (C ∪ {w | ∀ r, w ∈ (k r).owed due}) ∪ due a := by
  rw [Prog.owed_act]
  rintro w (hw | hw | hw)
  · exact .inl (.inl hw)
  · exact .inr hw
  · exact .inl (.inr hw)

theorem aside_owed (due : A → Set ω) (C : Set ω) {a : A} (k : R a → Prog A R α) (r : R a) :
    C ∪ {w | ∀ r, w ∈ (k r).owed due} ⊆ C ∪ (k r).owed due :=
  Set.union_subset_union_right C fun _ hw => hw r

/-- The rule for an action that keeps the invariant on its own and teaches
the call the fact `F'`. -/
theorem Keeps.learn {a : A} {k : R a → Prog A R α} {F' : R a → σ → Prop} (hm : D.may l a)
    (ha : D.Neutral l F a) (hF' : ∀ r, D.Stable l (F' r))
    (hk : ∀ s r s' C, F s → D.inv s C → D.guard s C a → S.sem l a s r s' →
      F' r s' ∧ D.Keeps l Q (F' r) (k r)) :
    D.Keeps l Q F (.act a k) := by
  refine ⟨fun _ _ => hm,fun s r s' C hF hJ hg hs => ⟨D.inv_mono (aside_owed D.due C k r) ?_,F' r,hF' r,?_⟩⟩
  · have hsub := owed_act_aside D.due C a k
    exact ha s r s' _ hF (D.inv_mono hsub hJ) (D.guard_mono hsub hg) hs
  · exact hk s r s' _ hF hJ hg hs

theorem Keeps.neutral {a : A} {k : R a → Prog A R α} (hm : D.may l a) (hF : D.Stable l F)
    (ha : D.Neutral l F a)
    (hk : ∀ s r s' C, F s → D.inv s C → D.guard s C a → S.sem l a s r s' → D.Keeps l Q F (k r)) :
    D.Keeps l Q F (.act a k) :=
  .learn hm ha (fun _ => hF) fun s r s' C hs hJ hg hsem =>
    ⟨hF.act hJ hg hsem hs,hk s r s' C hs hJ hg hsem⟩

theorem Keeps.perform {a : A} (hm : D.may l a) (hF : D.Stable l F) (ha : D.Neutral l F a) :
    D.Keeps l (fun _ s => F s) F (Prog.perform a) :=
  .neutral hm hF ha fun _ _ _ _ _ _ _ _ _ h => h

theorem Keeps.of_every {P : A → Prop} {Q₀ : α → Prop} (hF : D.Stable l F)
    (hP : ∀ a, P a → D.may l a ∧ D.Neutral l F a) {p : Prog A R α} (h : p.Every P Q₀) :
    D.Keeps l (fun a s => Q₀ a ∧ F s) F p := by
  induction p with
  | ret a => exact fun s hs => ⟨h,hs⟩
  | act a k ih =>
      obtain ⟨hm,ha⟩ := hP a h.1
      exact .neutral hm hF ha fun _ r _ _ _ _ _ _ => ih r (h.2 r)

theorem Keeps.mono {Q' : α → σ → Prop} (hQ : ∀ a s, Q a s → Q' a s) {p : Prog A R α}
    (h : D.Keeps l Q F p) : D.Keeps l Q' F p := by
  induction p generalizing F with
  | ret a => exact fun s hs => hQ a s (h s hs)
  | act a k ih =>
      refine ⟨h.1,fun s r s' C hF hJ hg hs => ?_⟩
      obtain ⟨hJ',F',hF',hs',hk⟩ := h.2 s r s' C hF hJ hg hs
      exact ⟨hJ',F',hF',hs',ih r hk⟩

theorem Keeps.bind {Q' : β → σ → Prop} {p : Prog A R α} {g : α → Prog A R β}
    (h : D.Keeps l Q F p) (hg : ∀ a, D.Keeps l Q' (Q a) (g a)) :
    D.Keeps l Q' F (p >>= g) := by
  induction p generalizing F with
  | ret a => exact (hg a).strengthen h
  | act a k ih =>
      refine ⟨h.1,fun s r s' C hF hJ hok hs => ?_⟩
      -- What the continuation still owes on every path stands beside `C`.
      let E := C ∪ {w | ∀ r, w ∈ (k r >>= g).owed D.due}
      have hE : C ∪ (Prog.act a k >>= g).owed D.due ⊆ E ∪ (Prog.act a k).owed D.due := by
        refine (owed_act_aside D.due C a fun r => k r >>= g).trans ?_
        exact Set.union_subset_union_right E Set.subset_union_left
      obtain ⟨hJ',F',hF',hs',hk⟩ := h.2 s r s' E hF (D.inv_mono hE hJ) (D.guard_mono hE hok) hs
      refine ⟨D.inv_mono ?_ hJ',F',hF',hs',ih r hk⟩
      refine Set.union_subset (aside_owed D.due C (fun r => k r >>= g) r) ?_
      exact (Prog.owed_bind D.due (k r) g).trans Set.subset_union_right

/-- The rule for programs that may fail. -/
theorem Keeps.exceptBind {ε : Type} {x : ExceptT ε (Prog A R) α} {f : α → ExceptT ε (Prog A R) β}
    {P : Except ε α → σ → Prop} {Q' : Except ε β → σ → Prop} (h : D.Keeps l P F x.run)
    (hok : ∀ a, D.Keeps l Q' (P (.ok a)) (f a).run)
    (herr : ∀ e s, P (.error e) s → Q' (.error e) s) : D.Keeps l Q' F (x >>= f).run := by
  rw [ExceptT.run_bind]
  refine h.bind fun r => ?_
  cases r with
  | ok a => exact hok a
  | error e => exact herr e

theorem Keeps.bind_ret {Q' : β → σ → Prop} {g : α → β} {p : Prog A R α} (h : D.Keeps l Q F p)
    (hg : ∀ a s, Q a s → Q' (g a) s) : D.Keeps l Q' F (p >>= fun a => .ret (g a)) :=
  h.bind hg

variable (D)

/-- A thread has answered well, or has facts from which it will keep the discipline. -/
def Sound (s : σ) : (l : L) → Prog A R (Res l) → Prop
  | l, .ret a => D.post l a
  | l, .act a k => ∃ F, D.Stable l F ∧ F s ∧ D.Keeps l (fun a _ => D.post l a) F (.act a k)

def Holds (c : Config L A R Res σ) : Prop :=
  D.inv c.state (owedBy D.due c.threads) ∧ ∀ t ∈ c.threads, D.Sound c.state t.call t.rest

/-- What has to be shown of a call when it starts. -/
def Starts : Prop :=
  ∀ b s l p s' C, D.inv s C → S.start b s l p s' →
    D.inv s' C ∧ ∃ F, D.Stable l F ∧ F s' ∧ D.Keeps l (fun a _ => D.post l a) F p

variable {D}

theorem Sound.of_keeps {s : σ} {p : Prog A R (Res l)} (hF : D.Stable l F) (hs : F s)
    (h : D.Keeps l (fun a _ => D.post l a) F p) : D.Sound s l p := by
  cases p with
  | ret a => exact h s hs
  | act a k => exact ⟨F,hF,hs,h⟩

theorem Sound.transport {s s' : σ} {p : Prog A R (Res l)} (h : D.Sound s l p)
    (ht : ∀ a k F, p = .act a k → D.Stable l F → F s → F s') : D.Sound s' l p := by
  cases p with
  | ret a => exact h
  | act a k =>
      obtain ⟨F,hF,hs,hk⟩ := h
      exact ⟨F,hF,ht a k F rfl hF hs,hk⟩

theorem Holds.step (hstart : D.Starts) {c c' : Config L A R Res σ} (h : D.Holds c)
    (hs : Step S D.due D.guard c c') : D.Holds c' := by
  cases hs with
  | @start s s' ts l p hp =>
      obtain ⟨hJ,F,hF,hFs,hk⟩ := hstart _ s l p s' _ h.1 hp
      refine ⟨D.inv_mono ?_ hJ,?_⟩
      · rintro w ⟨t,ht,hw⟩
        exact ⟨t,List.mem_append_left _ ht,hw⟩
      · intro t ht
        rcases List.mem_append.mp ht with ht | ht
        · exact (h.2 t ht).transport fun _ _ _ _ hG => hG.start h.1 hp
        · rw [List.mem_singleton] at ht
          subst ht
          exact .of_keeps hF hFs hk
  | @act s s' us vs l a k r hok hsem =>
      obtain ⟨F,hF,hFs,hk⟩ := h.2 ⟨l,.act a k⟩ (by simp)
      have hJ := h.1
      have hg := hok
      rw [owedBy_mid] at hJ hg
      obtain ⟨hJ',F',hF',hFs',hk'⟩ := hk.2 s r s' _ hFs hJ hg hsem
      refine ⟨?_,?_⟩
      · rw [owedBy_mid]
        exact hJ'
      · intro t ht
        have hold : t ∈ us ++ ⟨l,.act a k⟩ :: vs → D.Sound s' t.call t.rest :=
          fun ht => (h.2 t ht).transport fun _ _ _ _ hG => hG.act h.1 hok hsem
        simp only [List.mem_append,List.mem_cons] at ht
        rcases ht with ht | rfl | ht
        · exact hold (by simp [ht])
        · exact .of_keeps hF' hFs' hk'
        · exact hold (by simp [ht])
  | @env s s' ts he =>
      refine ⟨D.inv_env he h.1,?_⟩
      rintro ⟨l,p⟩ ht
      exact (h.2 _ ht).transport fun a k _ hp hG => hG.env ⟨a,k,hp ▸ ht⟩ h.1 he
  | restart he =>
      refine ⟨D.inv_mono (Set.empty_subset _) (D.inv_restart he h.1),?_⟩
      intro t ht
      simp at ht

/-- The invariant rule: what holds initially and is kept by every call that
may start holds in every reachable configuration. -/
theorem Holds.reachable (hstart : D.Starts) {s₀ : σ} (hinit : D.inv s₀ ∅)
    {c : Config L A R Res σ} (h : Reachable S D.due D.guard s₀ c) : D.Holds c := by
  induction h with
  | refl => exact ⟨D.inv_mono (Set.empty_subset _) hinit,fun t ht => by simp at ht⟩
  | tail _ hs ih => exact ih.step hstart hs

/-- What a call that has ended is known to have answered. -/
theorem Holds.result {c : Config L A R Res σ} (h : D.Holds c) {a : Res l}
    (ht : (⟨l,.ret a⟩ : Thread L A R Res) ∈ c.threads) : D.post l a :=
  h.2 _ ht

/-- What a call is about to do is what it may. -/
theorem Holds.next {c : Config L A R Res σ} (h : D.Holds c) {a : A}
    {k : R a → Prog A R (Res l)} (ht : (⟨l,.act a k⟩ : Thread L A R Res) ∈ c.threads) :
    D.may l a := by
  obtain ⟨_,_,hs,hk⟩ := h.2 _ ht
  exact hk.1 _ hs

/-- Once every call has ended, nothing is owed any more. -/
theorem Holds.quiescent {c : Config L A R Res σ} (h : D.Holds c)
    (hq : ∀ l, ¬ busy c.threads l) : D.inv c.state ∅ := by
  refine D.inv_mono ?_ h.1
  rintro w ⟨⟨l,p⟩,ht,hw⟩
  cases p with
  | ret a => exact hw
  | act a k => exact (hq l ⟨a,k,ht⟩).elim

end Discipline
end Concurrent
