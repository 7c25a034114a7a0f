import EmentE2ee.Concurrent.Phases
import Mathlib.Data.List.Count
import Mathlib.Logic.Function.Basic

/-!
# Locks in order

Programs that take a lock only while all they hold has a lower rank, and give back what
they took last. No two of them ever hold the same lock, whatever they hold is given back
at their end or where they are abandoned, and as long as one of them has not ended, one
of them is not waiting for a lock.
-/
namespace Concurrent

variable {A B Λ α β : Type} {R : A → Type} {S : B → Type}

/-- What an action is to the locks. -/
inductive LockUse (Λ : Type) where
  | take (l : Λ)
  | give (l : Λ)
  /-- Waits for the lock where another holds it, but does not take it. -/
  | need (l : Λ)
  | free

namespace LockUse

def allowed (rank : Λ → Nat) (held : List Λ) : LockUse Λ → Prop
  | take l => ∀ h ∈ held, rank h < rank l
  | give l => held.head? = some l
  | need l => l ∈ held ∨ ∀ h ∈ held, rank h < rank l
  | free => True

def after (held : List Λ) : LockUse Λ → List Λ
  | take l => l :: held
  | give _ => held.tail
  | _ => held

/-- Another holds the lock. -/
def blocked (locked : Λ → Bool) (held : List Λ) : LockUse Λ → Prop
  | take l => locked l = true
  | need l => locked l = true ∧ l ∉ held
  | _ => False

variable [DecidableEq Λ]

def effect (locked locked' : Λ → Bool) : LockUse Λ → Prop
  | take l => locked l = false ∧ locked' = Function.update locked l true
  | give l => locked' = Function.update locked l false
  | _ => locked' = locked

end LockUse

section
variable [DecidableEq Λ] {locked locked' : Λ → Bool} {hs hs' : List (List Λ)} {held : List Λ}
  {rank : Λ → Nat} {u : LockUse Λ}

/-- Each lock that is taken is held once, and no other is. -/
def Counted (locked : Λ → Bool) (hs : List (List Λ)) : Prop :=
  ∀ l, hs.flatten.count l = if locked l then 1 else 0

theorem count_mid (l : Λ) : (hs ++ held :: hs').flatten.count l =
    held.count l + (hs ++ hs').flatten.count l := by
  simp only [List.flatten_append,List.flatten_cons,List.count_append]
  omega

theorem Counted.holder (h : Counted locked hs) {l : Λ} (hl : locked l = true) :
    ∃ held ∈ hs, l ∈ held := by
  have hcount := h l
  rw [if_pos hl] at hcount
  have hmem : l ∈ hs.flatten := List.count_pos_iff.mp (by omega)
  exact List.mem_flatten.mp hmem

/-- No lock is held by two. -/
theorem Counted.apart (h : Counted locked (hs ++ held :: hs')) {l : Λ} (hl : l ∈ held) :
    locked l = true ∧ held.count l = 1 ∧ l ∉ (hs ++ hs').flatten := by
  have hcount := h l
  have hpos := List.count_pos_iff.mpr hl
  rw [count_mid] at hcount
  split_ifs at hcount with hlocked
  · exact ⟨hlocked,by omega,List.count_eq_zero.mp (by omega)⟩
  · omega

theorem Counted.start (h : Counted locked hs) : Counted locked (hs ++ [[]]) := by
  intro l
  rw [List.flatten_append]
  simpa using h l

theorem Counted.act (h : Counted locked (hs ++ held :: hs')) (ha : u.allowed rank held)
    (he : u.effect locked locked') : Counted locked' (hs ++ u.after held :: hs') := by
  intro l
  have hcount := h l
  rw [count_mid] at hcount ⊢
  cases u with
  | take m =>
      obtain ⟨hm,rfl⟩ := he
      simp only [LockUse.after,List.count_cons,Function.update_apply]
      by_cases hl : l = m
      · subst hl
        rw [hm,if_neg Bool.false_ne_true] at hcount
        simp only [beq_self_eq_true,if_true]
        omega
      · simpa [hl,Ne.symm hl] using hcount
  | give m =>
      subst he
      obtain ⟨rest,rfl⟩ : ∃ rest, held = m :: rest := by
        cases held with
        | nil => cases ha
        | cons x rest =>
            cases ha
            exact ⟨rest,rfl⟩
      simp only [LockUse.after,List.tail_cons,Function.update_apply]
      rw [List.count_cons] at hcount
      by_cases hl : l = m
      · subst hl
        obtain ⟨hlocked,_⟩ := h.apart List.mem_cons_self
        simp only [hlocked,beq_self_eq_true,if_true] at hcount
        simp only [if_true,Bool.false_eq_true,if_false]
        omega
      · simpa [hl,Ne.symm hl] using hcount
  | need m => exact he ▸ hcount
  | free => exact he ▸ hcount

/-- What one that is abandoned held is given back. -/
theorem Counted.drop (h : Counted locked (hs ++ held :: hs')) :
    Counted (fun l => if l ∈ held then false else locked l) (hs ++ hs') := by
  intro l
  dsimp only
  split_ifs with hmem hlocked hlocked
  · cases hlocked
  · exact List.count_eq_zero.mpr (h.apart hmem).2.2
  · have hcount := h l
    rw [count_mid,List.count_eq_zero.mpr hmem,if_pos hlocked] at hcount
    omega
  · have hcount := h l
    rw [count_mid,if_neg hlocked] at hcount
    omega

omit [DecidableEq Λ] in
/-- Where ranks are bounded and every taken lock is held by one that has not ended, not
all that have not ended wait for locks. -/
theorem exists_unblocked {T : Type} {ts : List T} {held : T → List Λ}
    (wants : T → Option (LockUse Λ)) {top : Nat} (htop : ∀ l, rank l ≤ top)
    (hended : ∀ t ∈ ts, wants t = none → held t = [])
    (hallowed : ∀ t ∈ ts, ∀ u, wants t = some u → u.allowed rank (held t))
    (hheld : ∀ l, locked l = true → ∃ t ∈ ts, l ∈ held t) {t : T} (ht : t ∈ ts) {u : LockUse Λ}
    (hu : wants t = some u) : ∃ t ∈ ts, ∃ u, wants t = some u ∧ ¬ u.blocked locked (held t) := by
  -- Whoever holds the lock that is waited for waits for one of higher rank, if for any.
  have hholder : ∀ n l, locked l = true → top - rank l < n →
      ∃ t ∈ ts, ∃ u, wants t = some u ∧ ¬ u.blocked locked (held t) := by
    intro n
    induction n with
    | zero => exact fun l _ hn => absurd hn (Nat.not_lt_zero _)
    | succ n ih =>
        intro l hl hn
        obtain ⟨t,ht,hmem⟩ := hheld l hl
        cases hu : wants t with
        | none =>
            rw [hended t ht hu] at hmem
            cases hmem
        | some u =>
            by_cases hblocked : u.blocked locked (held t)
            · have hhigher : ∀ m, locked m = true → rank l < rank m →
                  ∃ t ∈ ts, ∃ u, wants t = some u ∧ ¬ u.blocked locked (held t) := by
                intro m hm hrank
                have hbound := htop m
                exact ih m hm (by omega)
              have hallow := hallowed t ht u hu
              cases u with
              | take m => exact hhigher m hblocked (hallow l hmem)
              | need m =>
                  exact hhigher m hblocked.1 (hallow.resolve_left hblocked.2 l hmem)
              | give m => exact hblocked.elim
              | free => exact hblocked.elim
            · exact ⟨t,ht,u,hu,hblocked⟩
  by_cases hblocked : u.blocked locked (held t)
  · cases u with
    | take l => exact hholder _ l hblocked (Nat.lt_succ_self _)
    | need l => exact hholder _ l hblocked.1 (Nat.lt_succ_self _)
    | give l => exact hblocked.elim
    | free => exact hblocked.elim
  · exact ⟨t,ht,u,hu,hblocked⟩

end

/-- How the actions use the locks, which are taken in the order of their ranks. -/
structure Locking (A Λ : Type) where
  use : A → LockUse Λ
  rank : Λ → Nat

namespace Locking

/-- Programs that do what satisfies `T`, counting on answers that satisfy `N`; the phases
are the locks they hold. -/
def phases (L : Locking A Λ) (N : (a : A) → R a → Prop) (T : A → Prop) : Phases A R (List Λ) where
  may held a := T a ∧ (L.use a).allowed L.rank held
  expects _ a r := N a r
  next held a _ := (L.use a).after held

/-- All that is held has a rank below `n`. -/
def below (L : Locking A Λ) (n : Nat) (held : List Λ) : Prop := ∀ h ∈ held, L.rank h < n

/-- The program can be run while what is held satisfies `K`, leaves it as it is, and its
result satisfies `E`. -/
def Within (L : Locking A Λ) (N : (a : A) → R a → Prop) (T : A → Prop) (K : List Λ → Prop)
    (E : α → Prop) (p : Prog A R α) : Prop :=
  ∀ held, K held → p.Follows (L.phases N T) (fun x held' => E x ∧ held' = held) held

section
variable {L : Locking A Λ} {N : (a : A) → R a → Prop} {T : A → Prop} {K K' : List Λ → Prop}
  {E : α → Prop} {E' : β → Prop}

theorem Within.ret {x : α} (hx : E x) : L.Within N T K E (.ret x : Prog A R α) :=
  fun _ _ => ⟨hx,rfl⟩

theorem Within.mono (hK : ∀ held, K' held → K held) {p : Prog A R α} (h : L.Within N T K E p) :
    L.Within N T K' E p := fun held hheld => h held (hK held hheld)

/-- More may be permitted, and more counted on. -/
theorem Within.weaken {N' : (a : A) → R a → Prop} {T' : A → Prop} (hT : ∀ a, T a → T' a)
    (hN : ∀ a r, N' a r → N a r) {p : Prog A R α} (h : L.Within N T K E p) :
    L.Within N' T' K E p := by
  have hweaken : ∀ {D : α → List Λ → Prop} {held : List Λ} {p : Prog A R α},
      p.Follows (L.phases N T) D held → p.Follows (L.phases N' T') D held := by
    intro D held p hp
    induction p generalizing held with
    | ret a => exact hp
    | act a k ih => exact ⟨⟨hT a hp.1.1,hp.1.2⟩,fun r hr => ih r (hp.2 r (hN a r hr))⟩
  exact fun held hheld => hweaken (h held hheld)

theorem Within.lower {m n : Nat} (hm : m ≤ n) {p : Prog A R α} (h : L.Within N T (L.below n) E p) :
    L.Within N T (L.below m) E p :=
  h.mono fun _ hheld l hl => Nat.lt_of_lt_of_le (hheld l hl) hm

theorem Within.bind {p : Prog A R α} {g : α → Prog A R β} (h : L.Within N T K E p)
    (hg : ∀ x, E x → L.Within N T K E' (g x)) : L.Within N T K E' (p >>= g) :=
  fun held hheld => (h held hheld).bind fun x q hq => by
    rw [hq.2]
    exact hg x hq.1 held hheld

/-- The rule for programs that may fail. -/
theorem Within.exceptBind {ε : Type} {E : Except ε α → Prop} {E' : Except ε β → Prop}
    {x : ExceptT ε (Prog A R) α} {f : α → ExceptT ε (Prog A R) β} (hx : L.Within N T K E x.run)
    (hf : ∀ a, E (.ok a) → L.Within N T K E' (f a).run) (he : ∀ e, E' (.error e)) :
    L.Within N T K E' (x >>= f).run := by
  rw [ExceptT.run_bind]
  refine hx.bind fun r hr => ?_
  cases r with
  | ok a => exact hf a hr
  | error e => exact .ret (he e)

/-- An action that leaves the locks as they are. -/
theorem Within.act {a : A} {k : R a → Prog A R α} (ha : T a)
    (huse : ∀ held, K held → (L.use a).allowed L.rank held ∧ (L.use a).after held = held)
    (hk : ∀ r, N a r → L.Within N T K E (k r)) : L.Within N T K E (.act a k) := by
  intro held hheld
  obtain ⟨hallowed,hafter⟩ := huse held hheld
  refine ⟨⟨ha,hallowed⟩,fun r hr => ?_⟩
  change (k r).Follows _ _ ((L.use a).after held)
  rw [hafter]
  exact hk r hr held hheld

theorem Within.free {a : A} {k : R a → Prog A R α} (ha : T a) (hfree : L.use a = .free)
    (hk : ∀ r, N a r → L.Within N T K E (k r)) : L.Within N T K E (.act a k) :=
  .act ha (fun _ _ => by rw [hfree]; exact ⟨trivial,rfl⟩) hk

/-- An action that waits for the lock where another holds it. -/
theorem Within.need {l : Λ} {a : A} {k : R a → Prog A R α} (ha : T a) (huse : L.use a = .need l)
    (hl : ∀ held, K held → l ∈ held ∨ ∀ h ∈ held, L.rank h < L.rank l)
    (hk : ∀ r, N a r → L.Within N T K E (k r)) : L.Within N T K E (.act a k) :=
  .act ha (fun held hheld => by rw [huse]; exact ⟨hl held hheld,rfl⟩) hk

theorem Within.of_every {P : A → Prop} (hP : ∀ a, P a → T a ∧ L.use a = .free) {p : Prog A R α}
    (h : p.Every P E) : L.Within N T K E p := by
  induction p with
  | ret a => exact .ret h
  | act a k ih => exact .free (hP a h.1).1 (hP a h.1).2 fun r _ => ih r (h.2 r)

/-- A section under a lock, in which locks of higher ranks may be taken. -/
theorem Within.locked {l : Λ} {take give : A} {p : R take → Prog A R α}
    {g : α → R give → Prog A R β} (htake : L.use take = .take l) (hgive : L.use give = .give l)
    (hl : ∀ held, K held → (∀ h ∈ held, L.rank h < L.rank l) ∧ K' (l :: held)) (ht : T take)
    (hg : T give) (hp : ∀ r, L.Within N T K' E (p r))
    (hend : ∀ x r, E x → L.Within N T K E' (g x r)) :
    L.Within N T K E' (.act take fun r => p r >>= fun x => .act give (g x)) := by
  intro held hheld
  obtain ⟨hallowed,hinner⟩ := hl held hheld
  refine ⟨⟨ht,by rw [htake]; exact hallowed⟩,fun r _ => ?_⟩
  change Prog.Follows _ _ ((L.use take).after held) _
  rw [htake]
  refine (hp r (l :: held) hinner).bind fun x q hq => ?_
  rw [hq.2]
  refine ⟨⟨hg,by rw [hgive]; rfl⟩,fun r' _ => ?_⟩
  change Prog.Follows _ _ ((L.use give).after (l :: held)) _
  rw [hgive]
  exact hend x r' hq.1 held hheld

/-- What is held in such a section, where all that was held had a lower rank. -/
theorem below_cons {l : Λ} {n : Nat} (hl : L.rank l = n) {held : List Λ} (h : L.below n held) :
    (∀ h ∈ held, L.rank h < L.rank l) ∧ L.below (n + 1) (l :: held) := by
  refine ⟨fun m hm => by rw [hl]; exact h m hm,?_⟩
  rintro m (_ | ⟨_,hm⟩)
  · omega
  · exact Nat.lt_succ_of_lt (h m hm)

/-- The same program among further actions. -/
theorem Within.via {L' : Locking B Λ} {N' : (b : B) → S b → Prop} {T' : B → Prop} {f : A → B}
    {g : (a : A) → S (f a) → R a} (hT : ∀ a, T a → T' (f a)) (huse : ∀ a, L'.use (f a) = L.use a)
    (hrank : L'.rank = L.rank) (hN : ∀ a r, N' (f a) r → N a (g a r)) {p : Prog A R α}
    (h : L.Within N T K E p) : L'.Within N' T' K E (p.via f g) := by
  refine fun held hheld => (h held hheld).via ?_ (fun held a r hr => hN a r hr) ?_
  · exact fun held a ha => ⟨hT a ha.1,by rw [huse,hrank]; exact ha.2⟩
  · exact fun held a r => by simp only [phases,huse]

/-- The same program, where there are other actions too. -/
theorem Within.widen {L' : Locking (A ⊕ B) Λ} {N' : (b : A ⊕ B) → Sum.elim R S b → Prop}
    {T' : A ⊕ B → Prop} (hT : ∀ a, T a → T' (.inl a)) (huse : ∀ a, L'.use (.inl a) = L.use a)
    (hrank : L'.rank = L.rank) (hN : ∀ a r, N' (.inl a) r → N a r) {p : Prog A R α}
    (h : L.Within N T K E p) :
    L'.Within N' T' K E (p.widen : Prog (A ⊕ B) (Sum.elim R S) α) := by
  rw [Prog.widen_eq_via]
  exact h.via hT huse hrank hN

end
end Locking

/-- What a call may do, and what it holds. -/
structure Stand (A Λ : Type) where
  permitted : A → Prop
  held : List Λ

namespace Locking

/-- Each call has actions of its own that it may take. -/
def stands (L : Locking A Λ) (N : (a : A) → R a → Prop) : Phases A R (Stand A Λ) where
  may q a := q.permitted a ∧ (L.use a).allowed L.rank q.held
  expects _ a r := N a r
  next q a _ := ⟨q.permitted,(L.use a).after q.held⟩

theorem Within.stand {L : Locking A Λ} {N : (a : A) → R a → Prop} {T : A → Prop}
    {K : List Λ → Prop} {E : α → Prop} {p : Prog A R α} (h : L.Within N T K E p) (hK : K []) :
    p.Follows (L.stands N) (fun _ q => q.held = []) ⟨T,[]⟩ := by
  have hstand : ∀ {D : α → List Λ → Prop} {held : List Λ} {p : Prog A R α},
      p.Follows (L.phases N T) D held → p.Follows (L.stands N) (fun a q => D a q.held) ⟨T,held⟩ := by
    intro D held p hp
    induction p generalizing held with
    | ret a => exact hp
    | act a k ih => exact ⟨hp.1,fun r hr => ih r (hp.2 r hr)⟩
  exact (hstand (h [] hK)).mono fun _ _ hq => hq.2

end Locking

/-- A pool whose calls hold locks, which its state has. -/
structure Locked {L σ Q : Type} {Res : L → Type} [DecidableEq Λ] (S : Phased L A R Res σ Q)
    (K : Locking A Λ) (held : Q → List Λ) (locked : σ → Λ → Bool) : Prop where
  may : ∀ {q a}, S.may q a → (K.use a).allowed K.rank (held q)
  next : ∀ q a r, held (S.next q a r) = (K.use a).after (held q)
  first : ∀ l, held (S.first l) = []
  final : ∀ {q}, S.final q → held q = []
  sem : ∀ {a r seen s s'}, S.sem a r seen s s' → (K.use a).effect (locked s) (locked s')
  env : ∀ {qs s s'}, S.env qs s s' → locked s' = locked s
  restart : ∀ {s s'}, S.restart s s' → ∀ l, locked s' l = false
  release : ∀ q s, locked (S.release q s) = fun l => if l ∈ held q then false else locked s l

namespace Locked
variable {L σ Q : Type} {Res : L → Type} [DecidableEq Λ] {S : Phased L A R Res σ Q}
  {K : Locking A Λ} {held : Q → List Λ} {locked : σ → Λ → Bool} {ok : σ → Q → A → Prop}
  {I : σ → List Q → Prop} {c : Phased.Config L A R Res σ Q}

/-- What holds anyway, and that every lock that is taken is held once. -/
def With (held : Q → List Λ) (locked : σ → Λ → Bool) (I : σ → List Q → Prop) (s : σ)
    (qs : List Q) : Prop := I s qs ∧ Counted (locked s) (qs.map held)

theorem preserves (h : Locked S K held locked) :
    S.Preserves ok fun s qs => Counted (locked s) (qs.map held) where
  start hp hs := by
    rw [List.map_append,List.map_singleton,h.first]
    exact hs.start
  act {s s' qs rs q a r} hmay hok hsem hs := by
    rw [List.map_append,List.map_cons] at hs ⊢
    rw [h.next]
    exact hs.act (h.may hmay) (h.sem hsem)
  leave {s qs rs q a} hmay hw hs := by
    rw [List.map_append,List.map_cons] at hs
    rw [h.release,List.map_append]
    exact hs.drop
  lose {s s' qs rs q a r} hmay hw hok hsem hs := by
    rw [List.map_append,List.map_cons] at hs
    rw [h.release,List.map_append,h.next]
    exact (hs.act (h.may hmay) (h.sem hsem)).drop
  env {s s' qs} he hs := by
    rw [h.env he]
    exact hs
  restart he hs l := by
    rw [h.restart he]
    rfl

/-- Calls share no lock. -/
theorem disjoint {s : σ} {qs rs : List Q} {q : Q} (h : Counted (locked s) ((qs ++ q :: rs).map held)) :
    ∀ q' ∈ qs ++ rs, ∀ l ∈ held q, l ∉ held q' := by
  intro q' hq' l hl hl'
  rw [List.map_append,List.map_cons] at h
  obtain ⟨_,_,hothers⟩ := h.apart hl
  rw [← List.map_append] at hothers
  exact hothers (List.mem_flatten.mpr ⟨held q',List.mem_map_of_mem hq',hl'⟩)

/-- Each lock that is taken is held by a call in progress, and by one only. -/
theorem holder (h : S.Holds (With held locked I) c) {l : Λ} (hl : locked c.state l = true) :
    ∃ us t vs, c.tasks = us ++ t :: vs ∧ l ∈ held t.2 ∧ ∀ u ∈ us ++ vs, l ∉ held u.2 := by
  have hcounted : Counted (locked c.state) (c.tasks.map fun t => held t.2) := by
    have hstate := h.1.2
    rwa [Phased.Config.phases,List.map_map] at hstate
  obtain ⟨_,hmem,hheld⟩ := hcounted.holder hl
  obtain ⟨t,ht,rfl⟩ := List.mem_map.mp hmem
  obtain ⟨us,vs,hsplit⟩ := List.append_of_mem ht
  rw [hsplit,List.map_append,List.map_cons] at hcounted
  obtain ⟨_,_,hothers⟩ := hcounted.apart hheld
  refine ⟨us,t,vs,hsplit,hheld,fun u hu hmem => hothers ?_⟩
  rw [← List.map_append]
  exact List.mem_flatten.mpr ⟨held u.2,List.mem_map_of_mem hu,hmem⟩

/-- A call that has ended holds nothing. -/
theorem ended (hS : Locked S K held locked) (h : S.Holds (With held locked I) c)
    {t : Thread L A R Res × Q} (ht : t ∈ c.tasks) (hend : t.1.rest.head = none) :
    held t.2 = [] := by
  have hfollows := h.2 t ht
  cases hrest : t.1.rest with
  | ret a =>
      rw [hrest] at hfollows
      exact hS.final hfollows
  | act a k =>
      rw [hrest] at hend
      cases hend

/-- While some call has not ended, some call that has not ended waits for no lock. -/
theorem unblocked (hS : Locked S K held locked) {top : Nat} (htop : ∀ l, K.rank l ≤ top)
    (h : S.Holds (With held locked I) c) {t : Thread L A R Res × Q} (ht : t ∈ c.tasks)
    (hrest : t.1.rest.head ≠ none) : ∃ t ∈ c.tasks, ∃ a, t.1.rest.head = some a ∧
      ¬ (K.use a).blocked (locked c.state) (held t.2) := by
  obtain ⟨a,ha⟩ := Option.ne_none_iff_exists'.mp hrest
  have hallowed : ∀ t ∈ c.tasks, ∀ u, t.1.rest.head.map K.use = some u →
      u.allowed K.rank (held t.2) := by
    intro t ht u hu
    have hfollows := h.2 t ht
    cases hrest : t.1.rest with
    | ret a =>
        rw [hrest] at hu
        cases hu
    | act a k =>
        rw [hrest] at hu hfollows
        cases hu
        exact hS.may hfollows.1
  obtain ⟨t,ht,u,hu,hfree⟩ := exists_unblocked (fun t => t.1.rest.head.map K.use) htop
    (fun t ht hnone => hS.ended h ht (Option.map_eq_none_iff.mp hnone)) hallowed
    (fun l hl => by
      obtain ⟨us,t,vs,hsplit,hheld,_⟩ := holder h hl
      exact ⟨t,by simp [hsplit],hheld⟩) ht (Option.map_eq_some_iff.mpr ⟨a,ha,rfl⟩)
  obtain ⟨b,hb,rfl⟩ := Option.map_eq_some_iff.mp hu
  exact ⟨t,ht,b,hb,hfree⟩

end Locked
end Concurrent
