import EmentE2ee.Concurrent.Pool

/-!
# Phases of programs

What a program may do next can depend on what it has done: before and after it takes a
lock, or while it owes something. A program follows such phases if in each it takes only
actions that are allowed there. Of a pool of such programs, any of which can be abandoned
where it waits, an invariant need only speak about the state and the phases.
-/
namespace Concurrent

variable {A B L Q α β σ : Type} {R : A → Type} {S : B → Type} {Res : L → Type}

/-- Which actions may be taken in a phase, which answers they are counted on to get, and
the phase that an answer leads to. -/
structure Phases (A : Type) (R : A → Type) (Q : Type) where
  may : Q → A → Prop
  expects : Q → (a : A) → R a → Prop
  next : Q → (a : A) → R a → Q

/-- The phases of programs over some of the actions. -/
def Phases.left (P : Phases (A ⊕ B) (Sum.elim R S) Q) : Phases A R Q where
  may q a := P.may q (.inl a)
  expects q a r := P.expects q (.inl a) r
  next q a r := P.next q (.inl a) r

/-- Two kinds of phases side by side. -/
def Phases.both {Q' : Type} (P : Phases A R Q) (P' : Phases A R Q') : Phases A R (Q × Q') where
  may q a := P.may q.1 a ∧ P'.may q.2 a
  expects q a r := P.expects q.1 a r ∧ P'.expects q.2 a r
  next q a r := (P.next q.1 a r,P'.next q.2 a r)

namespace Prog
variable {P : Phases A R Q} {D D' : α → Q → Prop} {J : Q → Prop} {q : Q}

/-- From the phase on, every action is allowed, and the program ends as `D` says. -/
def Follows (P : Phases A R Q) (D : α → Q → Prop) : Q → Prog A R α → Prop
  | q, .ret a => D a q
  | q, .act a k => P.may q a ∧ ∀ r, P.expects q a r → (k r).Follows P D (P.next q a r)

theorem Follows.mono (hD : ∀ a q, D a q → D' a q) {p : Prog A R α} (h : p.Follows P D q) :
    p.Follows P D' q := by
  induction p generalizing q with
  | ret a => exact hD a q h
  | act a k ih => exact ⟨h.1,fun r hr => ih r (h.2 r hr)⟩

theorem Follows.bind {E : β → Q → Prop} {p : Prog A R α} {g : α → Prog A R β}
    (h : p.Follows P D q) (hg : ∀ a q', D a q' → (g a).Follows P E q') :
    (p >>= g).Follows P E q := by
  induction p generalizing q with
  | ret a => exact hg a q h
  | act a k ih => exact ⟨h.1,fun r hr => ih r (h.2 r hr)⟩

/-- Actions that keep to the phases `J`. -/
theorem Follows.of_does {T : A → Prop}
    (hT : ∀ a, T a → ∀ q, J q → P.may q a ∧ ∀ r, P.expects q a r → J (P.next q a r))
    {p : Prog A R α} (h : p.Does T) (hq : J q) : p.Follows P (fun _ => J) q := by
  induction p generalizing q with
  | ret a => exact hq
  | act a k ih =>
      obtain ⟨hmay,hnext⟩ := hT a h.1 q hq
      exact ⟨hmay,fun r hr => ih r (h.2 r) (hnext r hr)⟩

/-- The rule for programs that may fail. -/
theorem Follows.exceptBind {ε : Type} {D : Except ε α → Q → Prop} {E : Except ε β → Q → Prop}
    {x : ExceptT ε (Prog A R) α} {f : α → ExceptT ε (Prog A R) β} (hx : x.run.Follows P D q)
    (hok : ∀ a q', D (.ok a) q' → (f a).run.Follows P E q')
    (herr : ∀ e q', D (.error e) q' → E (.error e) q') : (x >>= f).run.Follows P E q := by
  rw [ExceptT.run_bind]
  refine hx.bind fun r q' hr => ?_
  cases r with
  | ok a => exact hok a q' hr
  | error e => exact herr e q' hr

/-- The same for programs that keep to the phases `J`, however they end. -/
theorem Follows.andThen {ε : Type} {x : ExceptT ε (Prog A R) α} {f : α → ExceptT ε (Prog A R) β}
    (hx : x.run.Follows P (fun _ => J) q)
    (hf : ∀ a q', J q' → (f a).run.Follows P (fun _ => J) q') :
    (x >>= f).run.Follows P (fun _ => J) q :=
  hx.exceptBind hf fun _ _ h => h

/-- A program that cannot fail, among those that may. -/
theorem Follows.liftBind {ε : Type} {E : Except ε β → Q → Prop} {p : Prog A R α}
    {f : α → ExceptT ε (Prog A R) β} (hp : p.Follows P D q)
    (hf : ∀ a q', D a q' → (f a).run.Follows P E q') : (ExceptT.lift p >>= f).run.Follows P E q := by
  refine exceptBind (D := fun r q' => ∃ a, r = .ok a ∧ D a q') ?_ ?_ ?_
  · rw [ExceptT.run_lift,← bind_pure_comp]
    exact hp.bind fun a q' h => show (_ : Prop) from ⟨a,rfl,h⟩
  · rintro a q' ⟨_,he,h⟩
    cases he
    exact hf a q' h
  · rintro e q' ⟨_,he,_⟩
    cases he

theorem Follows.widen {P : Phases (A ⊕ B) (Sum.elim R S) Q} {p : Prog A R α}
    (h : p.Follows P.left D q) :
    (p.widen : Prog (A ⊕ B) (Sum.elim R S) α).Follows P D q := by
  induction p generalizing q with
  | ret a => exact h
  | act a k ih => exact ⟨h.1,fun r hr => ih r (h.2 r hr)⟩

theorem Follows.both {Q' : Type} {P' : Phases A R Q'} {E : α → Q' → Prop} {q' : Q'} {p : Prog A R α}
    (h : p.Follows P D q) (h' : p.Follows P' E q') :
    p.Follows (P.both P') (fun a x => D a x.1 ∧ E a x.2) (q,q') := by
  induction p generalizing q q' with
  | ret a => exact ⟨h,h'⟩
  | act a k ih => exact ⟨⟨h.1,h'.1⟩,fun r hr => ih r (h.2 r hr.1) (h'.2 r hr.2)⟩

/-- The same program, where its actions are some of others. -/
def via (f : A → B) (g : (a : A) → S (f a) → R a) : Prog A R α → Prog B S α
  | .ret a => .ret a
  | .act a k => .act (f a) fun r => (k (g a r)).via f g

theorem widen_eq_via (p : Prog A R α) :
    (p.widen : Prog (A ⊕ B) (Sum.elim R S) α) = p.via Sum.inl fun _ r => r := by
  induction p with
  | ret a => rfl
  | act a k ih => exact congrArg _ (funext ih)

theorem Follows.via {P' : Phases B S Q} {f : A → B} {g : (a : A) → S (f a) → R a}
    (hmay : ∀ q a, P.may q a → P'.may q (f a))
    (hexpects : ∀ q a r, P'.expects q (f a) r → P.expects q a (g a r))
    (hnext : ∀ q a r, P'.next q (f a) r = P.next q a (g a r)) {p : Prog A R α}
    (h : p.Follows P D q) : (p.via f g).Follows P' D q := by
  induction p generalizing q with
  | ret a => exact h
  | act a k ih =>
      refine ⟨hmay q a h.1,fun r hr => ?_⟩
      rw [hnext]
      exact ih _ (h.2 _ (hexpects q a r hr))

end Prog

/-- The phase that answers lead to. -/
def Phases.after (P : Phases A R Q) (q : Q) (es : List (Sigma R)) : Q :=
  es.foldl (fun q e => P.next q e.1 e.2) q

theorem Phases.after_concat (P : Phases A R Q) (q : Q) (es : List (Sigma R)) (e : Sigma R) :
    P.after q (es ++ [e]) = P.next (P.after q es) e.1 e.2 := by
  simp [Phases.after]

/-- What is left of a program follows the phase it has come to. -/
theorem Prog.Follows.did {P : Phases A R Q} {D : α → Q → Prop} (hP : ∀ q a r, P.expects q a r)
    {p p' : Prog A R α} {es : List (Sigma R)} (hd : p.Did es p') {q : Q} (h : p.Follows P D q) :
    p'.Follows P D (P.after q es) := by
  induction hd generalizing q with
  | nil p => exact h
  | cons _ ih => exact ih (h.2 _ (hP ..))

/-- The action that comes next, if any. -/
def Prog.head : Prog A R α → Option A
  | .ret _ => none
  | .act a _ => some a

/-- What actions do, whose answer the caller may no longer be there to learn, where a
call can be abandoned, and what it then gives back. -/
structure Phased (L A : Type) (R : A → Type) (Res : L → Type) (σ Q : Type) extends
    Phases A R Q where
  sem : (a : A) → R a → Bool → σ → σ → Prop
  /-- What else happens, given the phases of all calls. -/
  env : List Q → σ → σ → Prop
  start : σ → (l : L) → Prog A R (Res l) → Prop
  /-- All calls are gone. -/
  restart : σ → σ → Prop
  /-- The phase a call starts in, and the phases it may end in. -/
  first : L → Q
  final : Q → Prop
  waits : A → Prop
  release : Q → σ → σ

namespace Phased

/-- Each call in progress is in a phase. -/
structure Config (L A : Type) (R : A → Type) (Res : L → Type) (σ Q : Type) where
  state : σ
  tasks : List (Thread L A R Res × Q)

def Config.phases (c : Config L A R Res σ Q) : List Q := c.tasks.map Prod.snd

/-- One step of a pool, in which only actions that pass the guard are taken. -/
inductive Step (S : Phased L A R Res σ Q) (ok : σ → Q → A → Prop) :
    Config L A R Res σ Q → Config L A R Res σ Q → Prop
  | start {s : σ} {ts : List (Thread L A R Res × Q)} {l : L} {p : Prog A R (Res l)} :
      S.start s l p → Step S ok ⟨s,ts⟩ ⟨s,ts ++ [(⟨l,p⟩,S.first l)]⟩
  | act {s s' : σ} {us vs : List (Thread L A R Res × Q)} {l : L} {a : A}
      {k : R a → Prog A R (Res l)} {q : Q} {r : R a} : ok s q a → S.sem a r true s s' →
      Step S ok ⟨s,us ++ (⟨l,.act a k⟩,q) :: vs⟩ ⟨s',us ++ (⟨l,k r⟩,S.next q a r) :: vs⟩
  /-- Abandoned before the action. -/
  | leave {s : σ} {us vs : List (Thread L A R Res × Q)} {l : L} {a : A}
      {k : R a → Prog A R (Res l)} {q : Q} : S.waits a →
      Step S ok ⟨s,us ++ (⟨l,.act a k⟩,q) :: vs⟩ ⟨S.release q s,us ++ vs⟩
  /-- Abandoned before its answer. -/
  | lose {s s' : σ} {us vs : List (Thread L A R Res × Q)} {l : L} {a : A}
      {k : R a → Prog A R (Res l)} {q : Q} {r : R a} : S.waits a → ok s q a → S.sem a r false s s' →
      Step S ok ⟨s,us ++ (⟨l,.act a k⟩,q) :: vs⟩ ⟨S.release (S.next q a r) s',us ++ vs⟩
  | env {s s' : σ} {ts : List (Thread L A R Res × Q)} :
      S.env (ts.map Prod.snd) s s' → Step S ok ⟨s,ts⟩ ⟨s',ts⟩
  | restart {s s' : σ} {ts : List (Thread L A R Res × Q)} : S.restart s s' → Step S ok ⟨s,ts⟩ ⟨s',[]⟩

/-- Reached from the state `s₀` with no call in progress. -/
def Reachable (S : Phased L A R Res σ Q) (ok : σ → Q → A → Prop) (s₀ : σ) :
    Config L A R Res σ Q → Prop :=
  Relation.ReflTransGen (Step S ok) ⟨s₀,[]⟩

/-- What each step has to keep of the state and the phases. -/
structure Preserves (S : Phased L A R Res σ Q) (ok : σ → Q → A → Prop) (I : σ → List Q → Prop) :
    Prop where
  start : ∀ {s qs l p}, S.start s l p → I s qs → I s (qs ++ [S.first l])
  act : ∀ {s s' qs rs q a r}, S.may q a → ok s q a → S.sem a r true s s' → I s (qs ++ q :: rs) →
    I s' (qs ++ S.next q a r :: rs)
  leave : ∀ {s qs rs q a}, S.may q a → S.waits a → I s (qs ++ q :: rs) →
    I (S.release q s) (qs ++ rs)
  lose : ∀ {s s' qs rs q a r}, S.may q a → S.waits a → ok s q a → S.sem a r false s s' →
    I s (qs ++ q :: rs) → I (S.release (S.next q a r) s') (qs ++ rs)
  env : ∀ {s s' qs}, S.env qs s s' → I s qs → I s' qs
  restart : ∀ {s s' qs}, S.restart s s' → I s qs → I s' []

/-- That, and that answers are as they are expected. -/
structure Keeps (S : Phased L A R Res σ Q) (ok : σ → Q → A → Prop) (I : σ → List Q → Prop) : Prop
    extends Preserves S ok I where
  expects : ∀ {s s' qs rs q a r}, S.may q a → ok s q a → S.sem a r true s s' →
    I s (qs ++ q :: rs) → S.expects q a r

variable {S : Phased L A R Res σ Q} {ok : σ → Q → A → Prop} {I : σ → List Q → Prop}
  {c c' : Config L A R Res σ Q}

/-- Invariants of the state, and of each phase by itself, beside one that keeps phases
apart from each other. -/
theorem Keeps.beside {J : σ → Prop} {F : σ → Q → Prop} {C : σ → List Q → Prop} {D : Q → Q → Prop}
    (hC : S.Preserves ok C) (apart : ∀ {s qs q rs}, C s (qs ++ q :: rs) → ∀ q' ∈ qs ++ rs, D q q')
    (start : ∀ {s l p}, S.start s l p → J s → F s (S.first l))
    (step : ∀ {s s' q a r b}, S.may q a → ok s q a → S.sem a r b s s' → J s → F s q →
      S.expects q a r ∧ J s' ∧ F s' (S.next q a r) ∧ ∀ q', D q q' → F s q' → F s' q')
    (release : ∀ {s q}, J s → J (S.release q s) ∧ ∀ q', F s q' → F (S.release q s) q')
    (env : ∀ {s s' qs}, S.env qs s s' → J s → (∀ q ∈ qs, F s q) → J s' ∧ ∀ q ∈ qs, F s' q)
    (restart : ∀ {s s'}, S.restart s s' → J s') :
    S.Keeps ok fun s qs => (J s ∧ ∀ q ∈ qs, F s q) ∧ C s qs := by
  have hmid : ∀ {s q} {qs rs : List Q}, (∀ x ∈ qs ++ q :: rs, F s x) →
      F s q ∧ ∀ x ∈ qs ++ rs, F s x := fun h => by
    refine ⟨h _ (by simp),fun x hx => h x ?_⟩
    simp only [List.mem_append,List.mem_cons] at hx ⊢
    exact hx.imp_right Or.inr
  refine ⟨⟨?_,?_,?_,?_,?_,?_⟩,?_⟩
  · rintro s qs l p hp ⟨h,hc⟩
    refine ⟨⟨h.1,fun q hq => ?_⟩,hC.start hp hc⟩
    rcases List.mem_append.mp hq with hq | hq
    · exact h.2 q hq
    · rw [List.mem_singleton.mp hq]
      exact start hp h.1
  · rintro s s' qs rs q a r hmay hok hsem ⟨h,hc⟩
    obtain ⟨hq,hothers⟩ := hmid h.2
    obtain ⟨-,hJ,hnext,hkeep⟩ := step hmay hok hsem h.1 hq
    have hkept : ∀ x ∈ qs ++ rs, F s' x := fun x hx => hkeep x (apart hc x hx) (hothers x hx)
    refine ⟨⟨hJ,fun x hx => ?_⟩,hC.act hmay hok hsem hc⟩
    simp only [List.mem_append,List.mem_cons] at hx
    rcases hx with hx | rfl | hx
    · exact hkept x (by simp [hx])
    · exact hnext
    · exact hkept x (by simp [hx])
  · rintro s qs rs q a hmay hw ⟨h,hc⟩
    have hr := release (q := q) h.1
    exact ⟨⟨hr.1,fun x hx => hr.2 x ((hmid h.2).2 x hx)⟩,hC.leave hmay hw hc⟩
  · rintro s s' qs rs q a r hmay hw hok hsem ⟨h,hc⟩
    obtain ⟨hq,hothers⟩ := hmid h.2
    obtain ⟨-,hJ,-,hkeep⟩ := step hmay hok hsem h.1 hq
    have hr := release (q := S.next q a r) hJ
    exact ⟨⟨hr.1,fun x hx => hr.2 x (hkeep x (apart hc x hx) (hothers x hx))⟩,
      hC.lose hmay hw hok hsem hc⟩
  · exact fun he h => ⟨env he h.1.1 h.1.2,hC.env he h.2⟩
  · exact fun he h => ⟨⟨restart he,nofun⟩,hC.restart he h.2⟩
  · exact fun hmay hok hsem h => (step hmay hok hsem h.1.1 (hmid h.1.2).1).1

/-- Every call that may start follows the phases. -/
def Starts (S : Phased L A R Res σ Q) : Prop :=
  ∀ s l p, S.start s l p → p.Follows S.toPhases (fun _ => S.final) (S.first l)

/-- The invariant holds, and each call in progress follows its phase. -/
def Holds (S : Phased L A R Res σ Q) (I : σ → List Q → Prop) (c : Config L A R Res σ Q) : Prop :=
  I c.state c.phases ∧ ∀ t ∈ c.tasks, t.1.rest.Follows S.toPhases (fun _ => S.final) t.2

theorem Holds.step (hI : S.Keeps ok I) (hstart : S.Starts) (h : S.Holds I c)
    (hs : Step S ok c c') : S.Holds I c' := by
  have hmid : ∀ {us vs : List (Thread L A R Res × Q)} {t : Thread L A R Res × Q} {s : σ},
      I s (us ++ t :: vs |>.map Prod.snd) →
        I s (us.map Prod.snd ++ t.2 :: vs.map Prod.snd) := fun h => by
    rwa [List.map_append,List.map_cons] at h
  cases hs with
  | @start s ts l p hp =>
      refine ⟨?_,fun t ht => ?_⟩
      · change I s (List.map Prod.snd (ts ++ [(⟨l,p⟩,S.first l)]))
        rw [List.map_append]
        exact hI.start hp h.1
      · rcases List.mem_append.mp ht with ht | ht
        · exact h.2 t ht
        · rw [List.mem_singleton.mp ht]
          exact hstart _ l p hp
  | @act s s' us vs l a k q r hok hsem =>
      have hfollows := h.2 (⟨l,.act a k⟩,q) (by simp)
      refine ⟨?_,fun t ht => ?_⟩
      · change I s' (List.map Prod.snd (us ++ (⟨l,k r⟩,S.next q a r) :: vs))
        rw [List.map_append,List.map_cons]
        exact hI.act hfollows.1 hok hsem (hmid h.1)
      · simp only [List.mem_append,List.mem_cons] at ht
        rcases ht with ht | rfl | ht
        · exact h.2 t (by simp [ht])
        · exact hfollows.2 r (hI.expects hfollows.1 hok hsem (hmid h.1))
        · exact h.2 t (by simp [ht])
  | @leave s us vs l a k q hw =>
      have hfollows := h.2 (⟨l,.act a k⟩,q) (by simp)
      refine ⟨?_,fun t ht => h.2 t ?_⟩
      · change I _ (List.map Prod.snd (us ++ vs))
        rw [List.map_append]
        exact hI.leave hfollows.1 hw (hmid h.1)
      · simp only [List.mem_append,List.mem_cons] at ht ⊢
        exact ht.imp_right Or.inr
  | @lose s s' us vs l a k q r hw hok hsem =>
      have hfollows := h.2 (⟨l,.act a k⟩,q) (by simp)
      refine ⟨?_,fun t ht => h.2 t ?_⟩
      · change I _ (List.map Prod.snd (us ++ vs))
        rw [List.map_append]
        exact hI.lose hfollows.1 hw hok hsem (hmid h.1)
      · simp only [List.mem_append,List.mem_cons] at ht ⊢
        exact ht.imp_right Or.inr
  | env he => exact ⟨hI.env he h.1,h.2⟩
  | restart he => exact ⟨hI.restart he h.1,fun t ht => absurd ht List.not_mem_nil⟩

theorem Holds.reachable (hI : S.Keeps ok I) (hstart : S.Starts) {s₀ : σ} (h₀ : I s₀ [])
    (h : S.Reachable ok s₀ c) : S.Holds I c := by
  induction h with
  | refl => exact ⟨h₀,fun t ht => absurd ht List.not_mem_nil⟩
  | tail _ hs ih => exact ih.step hI hstart hs

namespace Reachable
variable {s₀ s t : σ} {us vs : List (Thread L A R Res × Q)} {l : L}

/-- What is reached under a guard is reached under a weaker one. -/
theorem mono {ok' : σ → Q → A → Prop} (hok : ∀ s q a, ok s q a → ok' s q a) (h : S.Reachable ok s₀ c) :
    S.Reachable ok' s₀ c := by
  refine Relation.ReflTransGen.mono (fun _ _ hs => ?_) _ _ h
  cases hs with
  | start hp => exact .start hp
  | act ha hsem => exact .act (hok _ _ _ ha) hsem
  | leave hw => exact .leave hw
  | lose hw ha hsem => exact .lose hw (hok _ _ _ ha) hsem
  | env he => exact .env he
  | restart he => exact .restart he

theorem start {p : Prog A R (Res l)} {ts : List (Thread L A R Res × Q)}
    (h : S.Reachable ok s₀ ⟨s,ts⟩) (hs : S.start s l p) :
    S.Reachable ok s₀ ⟨s,ts ++ [(⟨l,p⟩,S.first l)]⟩ := h.tail (.start hs)

theorem act (us : List (Thread L A R Res × Q)) {p : Prog A R (Res l)} {q : Q} {a : A}
    {k : R a → Prog A R (Res l)} {r : R a}
    (h : S.Reachable ok s₀ ⟨s,us ++ (⟨l,p⟩,q) :: vs⟩) (hp : p = .act a k) (hok : ok s q a)
    (hs : S.sem a r true s t) : S.Reachable ok s₀ ⟨t,us ++ (⟨l,k r⟩,S.next q a r) :: vs⟩ := by
  subst hp
  exact h.tail (.act hok hs)

end Reachable
end Phased
end Concurrent
