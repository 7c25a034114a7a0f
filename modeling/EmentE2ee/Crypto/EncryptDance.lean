import EmentE2ee.Concurrent.Run
import EmentE2ee.Crypto.Encrypt
import Mathlib.Data.Set.Basic

/-!
# Every step before an event is sent

An event is forwarded once every step of its encryption has succeeded, but for one:
a pump that gives up at a request leaves those behind it in the queue and says
nothing, and the room key is shared without the device lists that were to be asked for.
-/
namespace EmentE2ee.EncryptDance

open Concurrent
open Json (Value)

/-- Users whose device lists are outdated, and whom each listed query asks about. -/
structure Queries where
  outdated : Set UserId
  asked : String → Set UserId

def Names (r : OutgoingRequest) (u : UserId) : Prop :=
  ∃ q, r.request = .keysQuery q ∧ (q.device_keys.get u).isSome = true

section
variable [Codec]

/-- The queue lists a query for everyone whose list is outdated until the query is
marked as sent; any users may become outdated when they are tracked. IDs are fresh. -/
def querying : Sem Act Act.Ans Queries
  | .olm _ (.updateTrackedUsers _),_,_,_ => True
  | .olm _ .outgoingRequests,s,.ok rs,s' =>
      s'.outdated = s.outdated ∧ (rs.map OutgoingRequest.request_id).Nodup ∧
        (∀ u ∈ s.outdated, ∃ r ∈ rs, Names r u) ∧
        ∀ r ∈ rs, ∀ u, u ∈ s'.asked r.request_id ↔ Names r u
  | .olm _ (.markRequestAsSent id _),s,.ok (),s' =>
      s'.outdated = s.outdated \ s.asked id ∧ s'.asked = s.asked
  | .olm _ (.getMissingSessions _),s,r,s' => s' = s ∧ ∀ m, r = .ok (some m) → s.asked m.1 = ∅
  | _,s,_,s' => s' = s

def Step (s : Queries) (x : Sigma Act.Ans) (s' : Queries) : Prop := querying x.1 s x.2 s'

/-- The request with this ID was sent, and its answer was taken. -/
def Marked (es : List (Sigma Act.Ans)) (id : String) : Prop :=
  ∃ ctx body, (⟨.olm ctx (.markRequestAsSent id body),(.ok () : Except String Unit)⟩ :
    Sigma Act.Ans) ∈ es

/-- Actions that neither track users nor list the queue. -/
def calm : Act → Prop
  | .olm _ (.updateTrackedUsers _) | .olm _ .outgoingRequests => False
  | _ => True

def tracks : Act → Prop
  | .olm _ (.updateTrackedUsers _) => True
  | _ => False

theorem marked_append {es es' : List (Sigma Act.Ans)} {id : String} :
    Marked (es ++ es') id ↔ Marked es id ∨ Marked es' id := by
  simp only [Marked,List.mem_append]
  constructor
  · rintro ⟨ctx,body,h | h⟩
    · exact .inl ⟨ctx,body,h⟩
    · exact .inr ⟨ctx,body,h⟩
  · rintro (⟨ctx,body,h⟩ | ⟨ctx,body,h⟩)
    · exact ⟨ctx,body,.inl h⟩
    · exact ⟨ctx,body,.inr h⟩

@[simp] theorem not_marked_nil (id : String) : ¬ Marked [] id := by
  rintro ⟨_,_,h⟩
  cases h

theorem not_marked {es : List (Sigma Act.Ans)}
    (h : ∀ x ∈ es, ∀ ctx id body, x.1 ≠ .olm ctx (.markRequestAsSent id body)) (id : String) :
    ¬ Marked es id := by
  rintro ⟨ctx,body,hmem⟩
  exact h _ hmem ctx id body rfl

/-- An action neither tracks nor lists: at most it marks a request as sent. -/
theorem step_calm {s s' : Queries} {x : Sigma Act.Ans} (hx : calm x.1) (h : Step s x s') :
    s'.asked = s.asked ∧
      ∀ u, u ∈ s'.outdated ↔ u ∈ s.outdated ∧ ∀ id, Marked [x] id → u ∉ s.asked id := by
  have hkept : s' = s → (∀ id, ¬ Marked [x] id) → s'.asked = s.asked ∧
      ∀ u, u ∈ s'.outdated ↔ u ∈ s.outdated ∧ ∀ id, Marked [x] id → u ∉ s.asked id := by
    rintro rfl hno
    exact ⟨rfl,fun u => ⟨fun hu => ⟨hu,fun id hid => (hno id hid).elim⟩,fun hu => hu.1⟩⟩
  obtain ⟨a,r⟩ := x
  have hother : (∀ ctx id body, a ≠ .olm ctx (.markRequestAsSent id body)) →
      ∀ id, ¬ Marked [⟨a,r⟩] id := by
    intro ha id
    refine not_marked (fun x hx => ?_) id
    rw [List.mem_singleton.mp hx]
    exact ha
  cases a with
  | olm ctx a =>
      cases a with
      | updateTrackedUsers users => exact hx.elim
      | outgoingRequests => exact hx.elim
      | getMissingSessions users => exact hkept h.1 (hother fun _ _ _ ha => by cases ha)
      | markRequestAsSent id body =>
          cases r with
          | ok v =>
              obtain ⟨houtdated,hasked⟩ := h
              refine ⟨hasked,fun u => ?_⟩
              rw [houtdated,Set.mem_sdiff]
              refine and_congr_right fun _ => ⟨?_,fun hu => hu id ⟨ctx,body,by simp⟩⟩
              rintro hu id' ⟨ctx',body',hmem⟩
              rw [List.mem_singleton] at hmem
              cases hmem
              exact hu
          | error e =>
              refine hkept h ?_
              rintro id' ⟨ctx',body',hmem⟩
              rw [List.mem_singleton] at hmem
              cases hmem
      | _ => exact hkept h (hother fun _ _ _ ha => by cases ha)
  | _ => exact hkept h (hother fun _ _ _ ha => by cases ha)

theorem run_calm {s s' : Queries} {es : List (Sigma Act.Ans)} (hes : ∀ x ∈ es, calm x.1)
    (h : Run Step s es s') : s'.asked = s.asked ∧
      ∀ u, u ∈ s'.outdated ↔ u ∈ s.outdated ∧ ∀ id, Marked es id → u ∉ s.asked id := by
  induction h with
  | nil => simp
  | @snoc es m s' x _ hs ih =>
      obtain ⟨hasked,houtdated⟩ := ih fun y hy => hes y (List.mem_append_left _ hy)
      obtain ⟨hasked',houtdated'⟩ := step_calm (hes x (by simp)) hs
      refine ⟨hasked'.trans hasked,fun u => ?_⟩
      rw [houtdated',houtdated,hasked]
      simp only [marked_append,or_imp,forall_and,and_assoc]

/-- Where no query is marked the outdated lists stay as they are. -/
theorem run_unmarked {s s' : Queries} {es : List (Sigma Act.Ans)} (hes : ∀ x ∈ es, calm x.1)
    (hno : ∀ id, ¬ Marked es id) (h : Run Step s es s') (u : UserId) :
    u ∈ s'.outdated ↔ u ∈ s.outdated := by
  rw [(run_calm hes h).2 u]
  exact ⟨fun hu => hu.1,fun hu => ⟨hu,fun id hid => (hno id hid).elim⟩⟩

/-- Once everyone is tracked the outdated lists only get fewer. -/
theorem run_shrinks {s s' : Queries} {es : List (Sigma Act.Ans)} (hes : ∀ x ∈ es, ¬ tracks x.1)
    (h : Run Step s es s') : s'.outdated ⊆ s.outdated := by
  induction h with
  | nil => exact fun _ hu => hu
  | @snoc es m s' x _ hs ih =>
      refine fun u hu => ih (fun y hy => hes y (List.mem_append_left _ hy)) ?_
      obtain ⟨a,r⟩ := x
      by_cases hcalm : calm a
      · exact (((step_calm hcalm hs).2 u).mp hu).1
      · unfold calm at hcalm
        split at hcalm
        · next ctx users => exact (hes ⟨.olm ctx (.updateTrackedUsers users),r⟩ (by simp) trivial).elim
        · cases r with
          | ok rs => exact hs.1 ▸ hu
          | error e =>
              have hsame : s' = m := hs
              rwa [hsame] at hu
        · exact (hcalm trivial).elim

variable {ctx : AccountContext} {es : List (Sigma Act.Ans)}

omit [Codec] in
/-- What no pump does. -/
theorem tending_tracks {a : Act} (h : a.tending) : ¬ tracks a := by
  unfold tracks
  split
  · exact h.2.elim
  · exact id

theorem mark_request_as_sent_did {id : String} {kind : ResponseKind} {body : Value}
    {x : Except Error Unit} (h : (mark_request_as_sent ctx id kind body).run.Did es (.ret x)) :
    x = .ok () ∧ es = [⟨.olm ctx (.markRequestAsSent id body),(.ok () : Except String Unit)⟩] ∨
      (∃ e, x = .error e) ∧ ∀ id, ¬ Marked es id := by
  unfold mark_request_as_sent parse_response at h
  split_ifs at h
  · cases h with
    | @cons _ _ r _ _ h =>
        cases r with
        | ok v =>
            cases h
            exact .inl ⟨rfl,rfl⟩
        | error e =>
            cases h
            refine .inr ⟨⟨_,rfl⟩,?_⟩
            rintro id' ⟨_,_,hmem⟩
            rw [List.mem_singleton] at hmem
            cases hmem
  · cases h
    exact .inr ⟨⟨_,rfl⟩,not_marked_nil⟩

/-- Sending a request succeeds exactly if its answer is taken. -/
theorem send_and_mark_did {request : OutgoingRequest} {x : Except Error Unit}
    (h : (send_and_mark ctx request).run.Did es (.ret x)) :
    (∀ y ∈ es, calm y.1) ∧ (x = .ok () ∧ (∀ id, Marked es id ↔ id = request.request_id) ∨
      (∃ e, x = .error e) ∧ ∀ id, ¬ Marked es id) := by
  have hrequest : ∀ {es₁ : List (Sigma Act.Ans)} {q : M (Except Error (Nat × Value))},
      (json_request ctx.token request.request.wire.1 (some request.request.wire.2)).run.Did es₁ q →
        (∀ y ∈ es₁, calm y.1) ∧ ∀ id, ¬ Marked es₁ id := by
    intro es₁ q hq
    have hall := Prog.Does.did_mem (P := fun a => ∃ t e b, a = .request t e b)
      (by simp) hq
    refine ⟨fun y hy => ?_,not_marked fun y hy ctx' id body hmark => ?_⟩
    · obtain ⟨t,e,b,hy'⟩ := hall y hy
      rw [hy']
      trivial
    · obtain ⟨t,e,b,hy'⟩ := hall y hy
      rw [hmark] at hy'
      cases hy'
  obtain ⟨es₁,es₂,answer,rfl,h₁,h₂⟩ | ⟨e,h₁,rfl⟩ := Prog.did_exceptBind h
  · obtain ⟨hcalm,hno⟩ := hrequest h₁
    dsimp only at h₂
    split_ifs at h₂
    · obtain ⟨rfl,rfl⟩ | ⟨he,hno'⟩ := mark_request_as_sent_did h₂
      · refine ⟨?_,.inl ⟨rfl,fun id => ?_⟩⟩
        · simp only [List.mem_append,List.mem_singleton]
          rintro y (hy | rfl)
          · exact hcalm y hy
          · trivial
        · rw [marked_append,or_iff_right (hno id)]
          constructor
          · rintro ⟨_,_,hmem⟩
            rw [List.mem_singleton] at hmem
            cases hmem
            rfl
          · rintro rfl
            exact ⟨_,_,List.mem_singleton_self _⟩
      · refine ⟨?_,.inr ⟨he,fun id => ?_⟩⟩
        · have hmark : (mark_as_sent ctx request answer.2).run.Does calm :=
            mark_request_as_sent_does ctx trivial _
          simp only [List.mem_append]
          rintro y (hy | hy)
          · exact hcalm y hy
          · exact hmark.did_mem h₂ y hy
        · rw [marked_append,not_or]
          exact ⟨hno id,hno' id⟩
    · cases h₂
      rw [List.append_nil]
      exact ⟨hcalm,.inr ⟨⟨_,rfl⟩,hno⟩⟩
  · obtain ⟨hcalm,hno⟩ := hrequest h₁
    exact ⟨hcalm,.inr ⟨⟨e,rfl⟩,hno⟩⟩

/-- What is sent of a listed queue: its first requests, all of them unless one fails. -/
theorem send_all_did {requests : List OutgoingRequest} {x : Except Error Unit}
    (h : (send_all ctx requests).run.Did es (.ret x)) :
    (∀ y ∈ es, calm y.1) ∧ ∃ n ≤ requests.length,
      (∀ id, Marked es id ↔ id ∈ (requests.take n).map OutgoingRequest.request_id) ∧
      (x = .ok () → n = requests.length) := by
  induction requests generalizing es with
  | nil =>
      cases h
      exact ⟨by simp,0,le_rfl,by simp,fun _ => rfl⟩
  | cons request requests ih =>
      obtain ⟨es₁,es₂,u,rfl,h₁,h₂⟩ | ⟨e,h₁,rfl⟩ := Prog.did_exceptBind h
      · obtain ⟨hcalm₁,⟨_,hmarked₁⟩ | ⟨⟨e,he⟩,_⟩⟩ := send_and_mark_did h₁
        · obtain ⟨hcalm₂,n,hn,hmarked₂,hall⟩ := ih h₂
          refine ⟨?_,n + 1,Nat.succ_le_succ hn,fun id => ?_,fun hx => by rw [hall hx]; rfl⟩
          · simp only [List.mem_append]
            rintro y (hy | hy)
            · exact hcalm₁ y hy
            · exact hcalm₂ y hy
          · rw [marked_append,hmarked₁,hmarked₂]
            simp
        · cases he
      · obtain ⟨hcalm₁,⟨he,_⟩ | ⟨_,hno⟩⟩ := send_and_mark_did h₁
        · cases he
        · exact ⟨hcalm₁,0,Nat.zero_le _,by simpa using hno,fun hx => by cases hx⟩

/-- What a pump does with the queue as it is listed first. -/
inductive Pass (ctx : AccountContext) : List (Sigma Act.Ans) → Prop
  /-- Nothing could be listed. -/
  | unlisted {es : List (Sigma Act.Ans)} : (∀ x ∈ es, x.1 ≠ .olm ctx .outgoingRequests ∧ calm x.1) →
      (∀ id, ¬ Marked es id) → Pass ctx es
  | failed {e : String} {tail : List (Sigma Act.Ans)} : (∀ x ∈ tail, calm x.1) →
      (∀ id, ¬ Marked tail id) → Pass ctx (⟨.olm ctx .outgoingRequests,.error e⟩ :: tail)
  /-- The first `n` requests went through, and nothing else was sent unless all did. -/
  | listed {rs : List OutgoingRequest} {sent rest : List (Sigma Act.Ans)} {n : Nat} :
      n ≤ rs.length → (∀ x ∈ sent, calm x.1) →
      (∀ id, Marked sent id ↔ id ∈ (rs.take n).map OutgoingRequest.request_id) →
      (∀ x ∈ rest, ¬ tracks x.1) →
      (n ≠ rs.length → (∀ x ∈ rest, calm x.1) ∧ ∀ id, ¬ Marked rest id) →
      Pass ctx (⟨.olm ctx .outgoingRequests,.ok rs⟩ :: (sent ++ rest))

/-- The first requests of the queue, when the pump has released its lock. -/
theorem pump_did {fuel : Nat} (h : (pump fuel ctx).Did es (.ret ())) :
    ∃ pass, es = ⟨.lock (.pump ctx),()⟩ :: pass ∧ Pass ctx pass := by
  obtain ⟨es',rfl,hbody⟩ := withLock_did h
  refine ⟨_,rfl,?_⟩
  obtain ⟨d,t,drained,rfl,hdrain,hbackup⟩ := Prog.did_bind hbody
  have hunlock : ∀ x ∈ ([⟨.unlock (.pump ctx),()⟩] : List (Sigma Act.Ans)),
      x.1 ≠ .olm ctx .outgoingRequests ∧ calm x.1 := by
    intro x hx
    rw [List.mem_singleton.mp hx]
    exact ⟨nofun,trivial⟩
  have hnomark : ∀ id, ¬ Marked ([⟨.unlock (.pump ctx),()⟩] : List (Sigma Act.Ans)) id :=
    not_marked fun x hx _ _ _ => by
      rw [List.mem_singleton.mp hx]
      exact nofun
  have hback : ∀ x ∈ t ++ [⟨.unlock (.pump ctx),()⟩], ¬ tracks x.1 := by
    have hdoes : (if drained then do
        let _ ← (upload_pending_backups ctx).run
        pure ()
      else pure () : M Unit).Does Act.tending := by
      split_ifs
      · exact .bind (upload_pending_backups_does ctx) fun _ => by simp
      · simp
    intro x hx
    rcases List.mem_append.mp hx with hx | hx
    · exact tending_tracks (hdoes.did_mem hbackup x hx)
    · rw [List.mem_singleton.mp hx]
      exact id
  have hquit : drained = false → t = [] := by
    rintro rfl
    cases hbackup
    rfl
  cases fuel with
  | zero =>
      cases hdrain
      rw [hquit rfl]
      exact .unlisted hunlock hnomark
  | succ fuel =>
      cases hdrain with
      | @cons _ _ queued d _ hdrain =>
          cases queued with
          | error e =>
              cases hdrain
              rw [hquit rfl]
              exact .failed (fun x hx => (hunlock x hx).2) hnomark
          | ok requests =>
              cases requests with
              | nil =>
                  cases hdrain
                  exact @Pass.listed _ ctx [] [] _ 0 (Nat.zero_le _) (by simp) (by simp) hback
                    fun hn => (hn rfl).elim
              | cons request requests =>
                  change Prog.Did ((send_all ctx (request :: requests)).run >>= _) _ _ at hdrain
                  obtain ⟨sent,d',x,rfl,hsent,hdrain⟩ := Prog.did_bind hdrain
                  obtain ⟨hcalm,n,hn,hmarked,hall⟩ := send_all_did hsent
                  cases x with
                  | error e =>
                      cases hdrain
                      rw [hquit rfl,List.append_nil,List.append_nil]
                      refine .listed hn hcalm hmarked (fun x hx => ?_) fun _ => ?_
                      · rw [List.mem_singleton.mp hx]
                        exact id
                      · exact ⟨fun x hx => (hunlock x hx).2,hnomark⟩
                  | ok u =>
                      rw [List.append_assoc,List.cons_append,List.append_assoc]
                      refine .listed hn hcalm hmarked (fun x hx => ?_) fun hne => (hne (hall rfl)).elim
                      rcases List.mem_append.mp hx with hx | hx
                      · exact tending_tracks ((drain_does ctx fuel).did_mem hdrain x hx)
                      · exact hback x hx

/-- A query that names the user stands in the queue as it is listed first, and
neither it nor a request before it fails. -/
def GoesThrough (ctx : AccountContext) (flush : List (Sigma Act.Ans)) (u : UserId) : Prop :=
  ∃ pre r post rest,
    flush = ⟨.lock (.pump ctx),()⟩ :: ⟨.olm ctx .outgoingRequests,.ok (pre ++ r :: post)⟩ :: rest ∧
    Names r u ∧ ∀ r' ∈ pre ++ [r], Marked rest r'.request_id

/-- Whose list is outdated still once the queue was flushed. -/
theorem flush_iff {s s' : Queries} {fuel : Nat} {u : UserId} (hrun : Run Step s es s')
    (hpump : (pump fuel ctx).Did es (.ret ())) (hu : u ∈ s.outdated) :
    u ∉ s'.outdated ↔ GoesThrough ctx es u := by
  obtain ⟨pass,rfl,hpass⟩ := pump_did hpump
  obtain ⟨_,rfl,hpassed⟩ := Run.cons.mp hrun
  cases hpass with
  | unlisted hcalm hno =>
      have hkept : u ∈ s'.outdated :=
        (run_unmarked (fun x hx => (hcalm x hx).2) hno hpassed u).mpr hu
      refine ⟨fun h => (h hkept).elim,?_⟩
      rintro ⟨pre,r,post,rest,heq,_⟩
      injection heq with _ heq
      exact ((hcalm _ (by rw [heq]; exact List.mem_cons_self)).1 rfl).elim
  | @failed e tail hcalm hno =>
      obtain ⟨_,rfl,htail⟩ := Run.cons.mp hpassed
      have hkept : u ∈ s'.outdated := (run_unmarked hcalm hno htail u).mpr hu
      refine ⟨fun h => (h hkept).elim,?_⟩
      rintro ⟨pre,r,post,rest,heq,_⟩
      injection heq with _ heq
      injection heq with heq _
      injection heq with _ heq
      cases heq
  | @listed rs sent rest n hn hcalm hmarked hrest hstopped =>
      obtain ⟨m₁,⟨houtdated,hnodup,hnamed,hasked⟩,hboth⟩ := Run.cons.mp hpassed
      obtain ⟨m₂,hsent,hafter⟩ := Run.append.mp hboth
      obtain ⟨hasked₂,houtdated₂⟩ := run_calm hcalm hsent
      have hu₁ : u ∈ m₁.outdated := houtdated ▸ hu
      have hsent_iff : u ∉ m₂.outdated ↔ ∃ r ∈ rs.take n, Names r u := by
        rw [houtdated₂ u]
        constructor
        · intro h
          by_contra hno
          refine h ⟨hu₁,fun id hid hask => hno ?_⟩
          obtain ⟨r,hr,rfl⟩ := List.mem_map.mp ((hmarked id).mp hid)
          exact ⟨r,hr,(hasked r (List.mem_of_mem_take hr) u).mp hask⟩
        · rintro ⟨r,hr,hnames⟩ ⟨_,hall⟩
          refine hall r.request_id ((hmarked _).mpr (List.mem_map_of_mem hr)) ?_
          exact (hasked r (List.mem_of_mem_take hr) u).mpr hnames
      have hupto : ∀ {pre post : List OutgoingRequest} {r r' : OutgoingRequest},
          r' ∈ pre ++ [r] → r' ∈ pre ++ r :: post := by
        intro pre post r r' hr'
        simp only [List.mem_append,List.mem_cons] at hr' ⊢
        tauto
      by_cases hall : n = rs.length
      · -- All of the queue went through, and its queries name everyone.
        obtain ⟨r,hr,hnames⟩ := hnamed u hu
        have htake : rs.take n = rs := by rw [hall,List.take_length]
        have hgone : u ∉ s'.outdated := fun h =>
          hsent_iff.mpr ⟨r,by rwa [htake],hnames⟩ (run_shrinks hrest hafter h)
        refine iff_of_true hgone ?_
        obtain ⟨pre,post,hsplit⟩ := List.append_of_mem hr
        subst hsplit
        refine ⟨pre,r,post,_,rfl,hnames,fun r' hr' => marked_append.mpr (.inl ((hmarked _).mpr ?_))⟩
        rw [htake]
        exact List.mem_map_of_mem (hupto hr')
      · obtain ⟨hcalm',hno⟩ := hstopped hall
        rw [run_unmarked hcalm' hno hafter u,hsent_iff]
        constructor
        · rintro ⟨r,hr,hnames⟩
          obtain ⟨pre,post,hsplit⟩ := List.append_of_mem hr
          have hrs : rs = pre ++ r :: (post ++ rs.drop n) := by
            have h := (List.take_append_drop n rs).symm
            rwa [hsplit,List.append_assoc,List.cons_append] at h
          refine ⟨pre,r,post ++ rs.drop n,sent ++ rest,by rw [← hrs],hnames,fun r' hr' => ?_⟩
          refine marked_append.mpr (.inl ((hmarked _).mpr ?_))
          rw [hsplit]
          exact List.mem_map_of_mem (hupto hr')
        · rintro ⟨pre,r,post,rest',heq,hnames,hthrough⟩
          injection heq with _ heq
          injection heq with hhead htail
          injection hhead with _ hans
          injection hans with hrs
          subst hrs
          subst htail
          have hmark := (marked_append.mp (hthrough r (by simp))).resolve_right (hno _)
          obtain ⟨r₂,hr₂,hid⟩ := List.mem_map.mp ((hmarked _).mp hmark)
          have hsame := List.inj_on_of_nodup_map hnodup (List.mem_of_mem_take hr₂) (by simp) hid
          exact ⟨r,hsame ▸ hr₂,hnames⟩

variable {fuel : Nat} {room_id : RoomId} {event_type : String} {content : Value}

/-- The homeserver has accepted a request, and the machine its answer. -/
def Accepted (ctx : AccountContext) (endpoint : Endpoint) (id : String)
    (es : List (Sigma Act.Ans)) : Prop :=
  ∃ body status response, isSuccess status = true ∧
    es = [⟨.request ctx.token endpoint (some body),.ok (status,response)⟩,
      ⟨.olm ctx (.markRequestAsSent id response),(.ok () : Except String Unit)⟩]

/-- Where the members are from: what is cached, or what the homeserver has listed. -/
inductive Members (ctx : AccountContext) (room_id : RoomId) (members : List UserId) :
    List (Sigma Act.Ans) → Prop
  | cached {t : Nat} : Members ctx room_id members
      [⟨.now,t⟩,⟨.rooms ctx (.cachedMembers room_id t),some members⟩]
  | fetched {t t' status : Nat} {body : Value} : isSuccess status = true →
      members = memberIds body → members ≠ [] → Members ctx room_id members
        [⟨.now,t⟩,⟨.rooms ctx (.cachedMembers room_id t),none⟩,
          ⟨.request ctx.token (.joinedMembers room_id) none,.ok (status,body)⟩,⟨.now,t'⟩,
          ⟨.rooms ctx (.cacheMembers room_id members t'),()⟩]

/-- What has succeeded when the room key is shared: the members are known and tracked,
the queue was pumped, one-time keys were claimed and the settings are known. -/
structure Prepared (ctx : AccountContext) (fuel : Nat) (room_id : RoomId) (members : List UserId)
    (settings : EncryptionSettings) (tracked flush rest : List (Sigma Act.Ans)) : Prop where
  tracked : ∃ listed, Members ctx room_id members listed ∧
    tracked = listed ++ [⟨.lock (.share ctx),()⟩,
      ⟨.olm ctx (.updateTrackedUsers members),(.ok () : Except String Unit)⟩]
  flushed : (pump fuel ctx).Did flush (.ret ())
  claimed : ∃ missing claim visibility,
    rest = ⟨.olm ctx (.getMissingSessions members),.ok missing⟩ :: (claim ++ visibility) ∧
    (∀ m, missing = some m → Accepted ctx .keysClaim m.1 claim) ∧
    (missing = none → claim = []) ∧
    (encryption_settings ctx room_id).run.Did visibility (.ret (.ok settings))

/-- Every step has succeeded, each of the shares too. -/
structure Danced (ctx : AccountContext) (fuel : Nat) (room_id : RoomId) (event_type : String)
    (content value : Value) (members : List UserId) (tracked flush rest after : List (Sigma Act.Ans)) :
    Prop where
  shared : ∃ settings requests sends, Prepared ctx fuel room_id members settings tracked flush rest ∧
    (∀ request ∈ requests, ∃ sent, sent <:+: sends ∧
      Accepted ctx (.sendToDevice request.event_type request.txn_id) request.txn_id sent) ∧
    ∃ raw encrypted, Codec.toRaw content = some raw ∧ Codec.fromRaw encrypted = some value ∧
      after = ⟨.olm ctx (.shareRoomKey room_id members settings),.ok requests⟩ :: (sends ++
        [⟨.olm ctx (.encryptRoomEventRaw room_id event_type raw),.ok encrypted⟩,
          ⟨.unlock (.share ctx),()⟩])

theorem accepted_of_did {endpoint : Endpoint} {body : Value} {id : String} {kind : ResponseKind}
    {failed : Nat → Value → String}
    (h : (do
      let (status,response) ← json_request ctx.token endpoint (some body)
      if isSuccess status then mark_request_as_sent ctx id kind response
      else fail (failed status response) : Fallible Unit).run.Did es (.ret (.ok ()))) :
    Accepted ctx endpoint id es := by
  obtain ⟨es₁,es₂,⟨status,response⟩,rfl,h₁,h₂⟩ | ⟨_,_,he⟩ := Prog.did_exceptBind h
  · obtain ⟨r,hr,rfl⟩ := call_did h₁
    cases hr
    dsimp only at h₂
    split_ifs at h₂ with hsuccess
    · obtain ⟨-,rfl⟩ | ⟨⟨_,he⟩,-⟩ := mark_request_as_sent_did h₂
      · exact ⟨body,status,response,hsuccess,rfl⟩
      · cases he
    · cases h₂
  · cases he

theorem joined_members_did {room_id : RoomId} {members : List UserId}
    (h : (joined_members ctx room_id).run.Did es (.ret (.ok members))) :
    Members ctx room_id members es := by
  cases h with
  | @cons _ _ t _ _ h =>
  cases h with
  | @cons _ _ cached _ _ h =>
  cases cached with
  | some members' =>
      cases h
      exact .cached
  | none =>
      obtain ⟨es₁,es₂,⟨status,body⟩,rfl,h₁,h₂⟩ | ⟨_,_,he⟩ := Prog.did_exceptBind h
      · obtain ⟨r,hr,rfl⟩ := call_did h₁
        cases hr
        dsimp only at h₂
        split_ifs at h₂ with hsuccess hempty
        · cases h₂
        · cases h₂ with
          | @cons _ _ t' _ _ h₂ =>
          cases h₂ with
          | cons h₂ =>
          cases h₂
          exact .fetched hsuccess rfl fun he => hempty (by rw [he]; rfl)
        · cases h₂
      · cases he

/-- Whether an action shares a room key. -/
def shares : Act → Prop
  | .olm _ (.shareRoomKey ..) => True
  | _ => False

omit [Codec] in
theorem preparing_shares {a : Act} (h : a.preparing) : ¬ shares a := by
  unfold shares
  split
  · exact h.elim
  · exact id

theorem send_shares_did {requests : List ToDeviceRequest}
    (h : (send_shares ctx requests).run.Did es (.ret (.ok ()))) :
    ∀ request ∈ requests, ∃ sent, sent <:+: es ∧
      Accepted ctx (.sendToDevice request.event_type request.txn_id) request.txn_id sent := by
  induction requests generalizing es with
  | nil => simp
  | cons request requests ih =>
      obtain ⟨es₁,es₂,u,rfl,h₁,h₂⟩ | ⟨e,_,he⟩ := Prog.did_exceptBind h
      · rintro r (_ | ⟨_,hr⟩)
        · exact ⟨es₁,List.infix_append' [] es₁ es₂,accepted_of_did (withContext_did h₁)⟩
        · obtain ⟨sent,hsub,hsent⟩ := ih h₂ r hr
          exact ⟨sent,hsub.trans (List.suffix_append es₁ es₂).isInfix,hsent⟩
      · cases he

/-- The dance from the share on. -/
def shareEncrypt (ctx : AccountContext) (room_id : RoomId) (event_type : String) (content : Value)
    (members : List UserId) (settings : EncryptionSettings) : Fallible Value := do
  let to_device_requests ← withContext "share_room_key failed"
    (call (act (.olm ctx (.shareRoomKey room_id members settings))))
  send_shares ctx to_device_requests
  match Codec.toRaw content with
  | none => fail "invalid event content"
  | some raw_content =>
      let encrypted ← withContext "encrypt_room_event_raw failed"
        (call (act (.olm ctx (.encryptRoomEventRaw room_id event_type raw_content))))
      match Codec.fromRaw encrypted with
      | none => fail "encrypted content is not valid JSON"
      | some value => pure value

/-- A dance that gets to the share has pumped, claimed and looked up the settings. -/
theorem claim_share_encrypt_did {members : List UserId} {q : M (Except Error Value)}
    (hq : Prog.Past shares q)
    (h : (claim_share_encrypt fuel ctx room_id event_type content members).run.Did es q) :
    ∃ flush missing claim visibility settings es',
      es = ⟨.olm ctx (.updateTrackedUsers members),(.ok () : Except String Unit)⟩ ::
        (flush ++ (⟨.olm ctx (.getMissingSessions members),.ok missing⟩ ::
          (claim ++ visibility) ++ es')) ∧
      (pump fuel ctx).Did flush (.ret ()) ∧
      (∀ m, missing = some m → Accepted ctx .keysClaim m.1 claim) ∧
      (missing = none → claim = []) ∧
      (encryption_settings ctx room_id).run.Did visibility (.ret (.ok settings)) ∧
      (shareEncrypt ctx room_id event_type content members settings).run.Did es' q := by
  have htends : ∀ {a : Act}, a.tending → ¬ shares a := fun h => preparing_shares h.2
  have hquery : ∀ {a : OlmAct} {m : String} {α : Type} {f : (Act.olm ctx a).Ans → Except String α},
      ¬ shares (.olm ctx a) →
      (withContext m (call (.act (.olm ctx a) fun r => .ret (f r)))).run.Does fun a => ¬ shares a := by
    intro a m α f ha
    rw [withContext_does,call_does]
    exact ⟨ha,fun _ => trivial⟩
  obtain ⟨es₁,es₂,_,rfl,h₁,h₂⟩ := Prog.did_past (hquery id) hq h
  obtain ⟨r,hr,rfl⟩ := call_did (withContext_did h₁)
  cases hr
  obtain ⟨es₃,es₄,_,rfl,h₃,h₄⟩ := Prog.did_past
    ((lift_does _).mpr ((pump_does ctx fuel).mono fun _ => htends)) hq h₂
  obtain ⟨_,_,hpump⟩ := Prog.did_lift h₃
  obtain ⟨es₅,es₆,missing,rfl,h₅,h₆⟩ := Prog.did_past (hquery id) hq h₄
  obtain ⟨r,hr,rfl⟩ := call_did (withContext_did h₅)
  cases hr
  have hclaim : (missing.elim (pure ()) fun m =>
      withContext "keys/claim for missing sessions failed"
        (send_keys_claim ctx m.1 m.2) : Fallible Unit).run.Does fun a => ¬ shares a := by
    cases missing with
    | none => simp
    | some m =>
        exact (withContext_does ..).mpr ((send_keys_claim_does ctx m.1 m.2).mono fun _ => htends)
  obtain ⟨es₇,es₈,_,rfl,h₇,h₈⟩ := Prog.did_past hclaim hq h₆
  obtain ⟨es₉,es',settings,rfl,h₉,hend⟩ := Prog.did_past
    ((encryption_settings_does ctx room_id).mono fun _ => htends) hq h₈
  refine ⟨es₃,missing,es₇,es₉,settings,es',by simp,hpump,?_,?_,h₉,hend⟩
  · rintro m rfl
    exact accepted_of_did (withContext_did h₇)
  · rintro rfl
    cases h₇
    rfl

/-- From the share on, the key is shared once, and everyone gets their share. -/
theorem shareEncrypt_did {members : List UserId} {settings : EncryptionSettings} {value : Value}
    (h : (shareEncrypt ctx room_id event_type content members settings).run.Did es (.ret (.ok value))) :
    ∃ requests sends raw encrypted, Codec.toRaw content = some raw ∧
      Codec.fromRaw encrypted = some value ∧ (send_shares ctx requests).run.Did sends (.ret (.ok ())) ∧
      es = ⟨.olm ctx (.shareRoomKey room_id members settings),.ok requests⟩ :: (sends ++
        [⟨.olm ctx (.encryptRoomEventRaw room_id event_type raw),.ok encrypted⟩]) := by
  obtain ⟨es₁,es₂,requests,rfl,h₁,h₂⟩ | ⟨_,_,he⟩ := Prog.did_exceptBind h
  swap
  · cases he
  obtain ⟨r,hr,rfl⟩ := call_did (withContext_did h₁)
  cases hr
  obtain ⟨sends,es₄,_,rfl,hsends,h₄⟩ | ⟨_,_,he⟩ := Prog.did_exceptBind h₂
  swap
  · cases he
  cases hraw : Codec.toRaw content with
  | none =>
      simp only [hraw] at h₄
      cases h₄
  | some raw =>
      simp only [hraw] at h₄
      obtain ⟨es₅,es₆,encrypted,rfl,h₅,h₆⟩ | ⟨_,_,he⟩ := Prog.did_exceptBind h₄
      swap
      · cases he
      obtain ⟨r,hr,rfl⟩ := call_did (withContext_did h₅)
      cases hr
      cases hvalue : Codec.fromRaw encrypted with
      | none =>
          simp only [hvalue] at h₆
          cases h₆
      | some v =>
          simp only [hvalue] at h₆
          cases h₆
          exact ⟨requests,sends,raw,encrypted,rfl,hvalue,hsends,rfl⟩

theorem shareEncrypt_did_act {members : List UserId} {settings : EncryptionSettings} {a : Act}
    {k : a.Ans → M (Except Error Value)} (ha : shares a)
    (h : (shareEncrypt ctx room_id event_type content members settings).run.Did es (.act a k)) :
    es = [] ∧ a = .olm ctx (.shareRoomKey room_id members settings) := by
  obtain ⟨_,h⟩ | ⟨es₁,es₂,requests,rfl,_,h⟩ := Prog.did_exceptBind_act h
  · obtain ⟨_,h⟩ := withContext_did_act h
    cases h with
    | nil => exact ⟨rfl,rfl⟩
    | @cons _ _ r _ _ h => cases r <;> cases h
  · have hrest : ∀ (requests : List ToDeviceRequest), (do
        send_shares ctx requests
        match Codec.toRaw content with
        | none => fail "invalid event content"
        | some raw_content =>
            let encrypted ← withContext "encrypt_room_event_raw failed"
              (call (act (.olm ctx (.encryptRoomEventRaw room_id event_type raw_content))))
            match Codec.fromRaw encrypted with
            | none => fail "encrypted content is not valid JSON"
            | some value => pure value : Fallible Value).run.Does fun a => ¬ shares a := by
      intro requests
      refine .exceptBind ((send_shares_does ctx requests).mono fun _ h => preparing_shares h.2)
        fun _ => ?_
      split
      · simp
      · refine .exceptBind (by simp [shares]) fun encrypted => ?_
        split <;> simp
    exact ((hrest requests).did h ha).elim

theorem encrypt_content_share {a : Act} {k : a.Ans → M (Except Error Value)} (ha : shares a)
    (h : (encrypt_content fuel ctx room_id event_type content).run.Did es (.act a k)) :
    ∃ members settings tracked flush rest, a = .olm ctx (.shareRoomKey room_id members settings) ∧
      es = tracked ++ (flush ++ rest) ∧
      Prepared ctx fuel room_id members settings tracked flush rest := by
  obtain ⟨listed,es₂,members,rfl,hlisted,h₂⟩ := Prog.did_past (P := shares) (q := .act a k)
    ((joined_members_preparing ctx room_id).mono fun _ => preparing_shares) ha h
  obtain ⟨es₃,k',rfl,h₃⟩ := withLock_did_act (by rintro rfl; exact ha) (by rintro rfl; exact ha) h₂
  obtain ⟨flush,missing,claim,visibility,settings,es',rfl,hflush,hclaim,hnone,hvisibility,h₄⟩ :=
    claim_share_encrypt_did (q := .act a k') ha h₃
  obtain ⟨rfl,hshare⟩ := shareEncrypt_did_act ha h₄
  exact ⟨members,settings,_,flush,_,hshare,by simp,⟨listed,joined_members_did hlisted,rfl⟩,hflush,missing,claim,
    visibility,rfl,hclaim,hnone,hvisibility⟩

theorem encrypt_content_danced {value : Value}
    (h : (encrypt_content fuel ctx room_id event_type content).run.Did es (.ret (.ok value))) :
    ∃ members tracked flush rest after, es = tracked ++ (flush ++ (rest ++ after)) ∧
      Danced ctx fuel room_id event_type content value members tracked flush rest after := by
  obtain ⟨listed,es₂,members,rfl,hlisted,h₂⟩ := Prog.did_past (P := shares) (q := .ret (.ok value))
    ((joined_members_preparing ctx room_id).mono fun _ => preparing_shares) trivial h
  obtain ⟨es₃,rfl,h₃⟩ := withLock_did h₂
  obtain ⟨flush,missing,claim,visibility,settings,es',rfl,hflush,hclaim,hnone,hvisibility,h₄⟩ :=
    claim_share_encrypt_did (q := .ret (.ok value)) trivial h₃
  obtain ⟨requests,sends,raw,encrypted,hraw,hvalue,hsends,rfl⟩ := shareEncrypt_did h₄
  refine ⟨members,_,flush,_,_,by simp,⟨settings,requests,sends,⟨⟨listed,joined_members_did hlisted,rfl⟩,hflush,missing,
    claim,visibility,rfl,hclaim,hnone,hvisibility⟩,send_shares_did hsends,raw,encrypted,hraw,hvalue,
    rfl⟩⟩

theorem encryption_settings_marks (room_id : RoomId) :
    (encryption_settings ctx room_id).run.Does fun a => calm a ∧
      ∀ c id body, a ≠ .olm c (.markRequestAsSent id body) := by
  refine .exceptBind (by simp [calm]) fun settings => ?_
  refine .exceptBind ((lift_does _).mpr ?_) fun _ => by simp
  unfold history_visibility_or_fetch
  refine .bind (by simp [calm]) fun tracked => ?_
  cases tracked with
  | some v => simp
  | none => simp [calm]

variable {members : List UserId} {settings : EncryptionSettings}
  {tracked flush rest : List (Sigma Act.Ans)}

/-- Claiming one-time keys and looking up the settings leave the key queries alone. -/
theorem Prepared.rest_keeps (h : Prepared ctx fuel room_id members settings tracked flush rest)
    {s s' : Queries} (hrun : Run Step s rest s') (u : UserId) :
    u ∈ s'.outdated ↔ u ∈ s.outdated := by
  obtain ⟨missing,claim,visibility,rfl,hclaim,hnone,hvisibility⟩ := h.claimed
  obtain ⟨_,⟨rfl,hfresh⟩,hrest⟩ := Run.cons.mp hrun
  have hvisible := (encryption_settings_marks room_id).did_mem hvisibility
  have hclaimed : ∀ x ∈ claim, calm x.1 ∧ ∀ c id body, x.1 = .olm c (.markRequestAsSent id body) →
      ∃ m, missing = some m ∧ id = m.1 := by
    intro x hx
    cases missing with
    | none =>
        rw [hnone rfl] at hx
        cases hx
    | some m =>
        obtain ⟨body,status,response,-,rfl⟩ := hclaim m rfl
        simp only [List.mem_cons,List.not_mem_nil,or_false] at hx
        rcases hx with rfl | rfl
        · exact ⟨trivial,nofun⟩
        · exact ⟨trivial,fun c id body he => ⟨m,rfl,by cases he; rfl⟩⟩
  have hcalm : ∀ x ∈ claim ++ visibility, calm x.1 := by
    intro x hx
    rcases List.mem_append.mp hx with hx | hx
    · exact (hclaimed x hx).1
    · exact (hvisible x hx).1
  rw [(run_calm hcalm hrest).2 u]
  refine ⟨fun hu => hu.1,fun hu => ⟨hu,fun id hid => ?_⟩⟩
  rcases marked_append.mp hid with ⟨c,body,hx⟩ | hid
  · obtain ⟨m,hm,rfl⟩ := (hclaimed _ hx).2 c id body rfl
    rw [hfresh m (by rw [hm])]
    exact Set.notMem_empty u
  · exact (not_marked (fun x hx => (hvisible x hx).2) id hid).elim

/-- No member's list is outdated when the key is shared exactly if the query for each
outdated one stood before every request that failed. -/
theorem Prepared.flushed_iff (h : Prepared ctx fuel room_id members settings tracked flush rest)
    {s s' : Queries} (hrun : Run Step s (flush ++ rest) s') :
    (∀ u ∈ members, u ∉ s'.outdated) ↔
      ∀ u ∈ members, u ∈ s.outdated → GoesThrough ctx flush u := by
  obtain ⟨m,hflush,hrest⟩ := Run.append.mp hrun
  refine forall₂_congr fun u _ => ?_
  rw [h.rest_keeps hrest]
  constructor
  · exact fun hgone hu => (flush_iff hflush h.flushed hu).mp hgone
  · intro hthrough hu
    have htracks : ∀ x ∈ flush, ¬ tracks x.1 := fun x hx =>
      tending_tracks ((pump_does ctx fuel).did_mem h.flushed x hx)
    have hu₀ := run_shrinks htracks hflush hu
    exact (flush_iff hflush h.flushed hu₀).mpr (hthrough hu₀) hu

/-- No member's list is outdated after the flush exactly if the query for each that was
goes through. -/
def FlushedIff (ctx : AccountContext) (members : List UserId)
    (before flush rest : List (Sigma Act.Ans)) : Prop :=
  ∀ s₀ s₁ s, Run Step s₀ before s₁ → Run Step s₁ (flush ++ rest) s →
    ((∀ u ∈ members, u ∉ s.outdated) ↔ ∀ u ∈ members, u ∈ s₁.outdated → GoesThrough ctx flush u)

theorem send_keys_claim_sends (id : String) (request : KeysClaimRequest) :
    (send_keys_claim ctx id request).run.Does fun a => ¬ a.sends := by
  refine .exceptBind (by simp [Act.sends]) fun answer => ?_
  dsimp only
  split_ifs
  · exact mark_request_as_sent_does ctx not_false _
  · simp

theorem send_shares_sends (requests : List ToDeviceRequest) :
    (send_shares ctx requests).run.Does fun a => ¬ a.sends := by
  induction requests with
  | nil => simp [send_shares]
  | cons request requests ih =>
      refine .exceptBind ((withContext_does ..).mpr ?_) fun _ => ih
      refine .exceptBind (by simp [Act.sends]) fun answer => ?_
      dsimp only
      split_ifs
      · exact mark_request_as_sent_does ctx not_false _
      · simp

theorem encryption_settings_sends (room_id : RoomId) :
    (encryption_settings ctx room_id).run.Does fun a => ¬ a.sends := by
  refine .exceptBind (by simp [Act.sends]) fun settings => ?_
  refine .exceptBind ((lift_does _).mpr ?_) fun _ => by simp
  unfold history_visibility_or_fetch
  refine .bind (by simp [Act.sends]) fun tracked => ?_
  cases tracked with
  | some v => simp
  | none => simp [Act.sends]

/-- Of the dance itself only the flush sends events, those that are queued. -/
theorem claim_share_encrypt_sends {members : List UserId} {a : Act} {k : a.Ans → M (Except Error Value)}
    (ha : a.sends)
    (h : (claim_share_encrypt fuel ctx room_id event_type content members).run.Did es (.act a k)) :
    ∃ before flush k', es = before ++ flush ∧ (pump fuel ctx).Did flush (.act a k') := by
  have hquery : ∀ {a : OlmAct} {m : String} {α : Type} {f : (Act.olm ctx a).Ans → Except String α},
      (withContext m (call (.act (.olm ctx a) fun r => .ret (f r)))).run.Does fun a => ¬ a.sends := by
    intro a m α f
    rw [withContext_does,call_does]
    exact ⟨id,fun _ => trivial⟩
  obtain ⟨es₁,es₂,_,rfl,h₁,h₂⟩ := Prog.did_past (P := Act.sends) (q := .act a k) hquery ha h
  obtain ⟨_,h₃⟩ | ⟨es₃,es₄,_,rfl,_,h₄⟩ := Prog.did_exceptBind_act h₂
  · obtain ⟨k',h₃⟩ := Prog.did_lift_act h₃
    exact ⟨es₁,es₂,k',rfl,h₃⟩
  · refine (Prog.Does.did (P := fun a => ¬ a.sends) ?_ h₄ ha).elim
    refine .exceptBind hquery fun missing => .exceptBind ?_ fun _ =>
      .exceptBind (encryption_settings_sends room_id) fun settings => .exceptBind hquery fun requests =>
        .exceptBind (send_shares_sends requests) fun _ => ?_
    · cases missing with
      | none => simp
      | some m => exact (withContext_does ..).mpr (send_keys_claim_sends m.1 m.2)
    · split
      · simp
      · refine .exceptBind hquery fun encrypted => ?_
        split <;> simp

theorem joined_members_sends (room_id : RoomId) :
    (joined_members ctx room_id).run.Does fun a => ¬ a.sends := by
  refine .exceptBind (by simp [Act.sends]) fun t => .exceptBind (by simp [Act.sends]) fun cached => ?_
  cases cached with
  | some members => simp
  | none =>
      refine .exceptBind (by simp [Act.sends]) fun answer => ?_
      dsimp only
      split_ifs <;> simp [Act.sends]

theorem encrypt_content_sends {a : Act} {k : a.Ans → M (Except Error Value)} (ha : a.sends)
    (h : (encrypt_content fuel ctx room_id event_type content).run.Did es (.act a k)) :
    ∃ before flush k', es = before ++ flush ∧ (pump fuel ctx).Did flush (.act a k') := by
  obtain ⟨listed,es₂,members,rfl,-,h₂⟩ := Prog.did_past (P := Act.sends) (q := .act a k)
    (joined_members_sends room_id) ha h
  obtain ⟨es₃,k',rfl,h₃⟩ := withLock_did_act (by rintro rfl; exact ha) (by rintro rfl; exact ha) h₂
  obtain ⟨before,flush,k'',rfl,hpump⟩ := claim_share_encrypt_sends ha h₃
  exact ⟨listed ++ ⟨.lock (.share ctx),()⟩ :: before,flush,k'',by simp,hpump⟩

/-- How an event is sent on. -/
inductive Forward (ctx : AccountContext) (fuel : Nat) (req : Request)
    (room_id event_type txn_id : String) (es : List (Sigma Act.Ans)) : Act → Prop
  /-- As it came, for no room or encrypted already. -/
  | passed : parseRoomId room_id = none ∨ event_type = "m.room.encrypted" →
      Forward ctx fuel req room_id event_type txn_id es (.passthrough (forwarded req))
  /-- In clear, for a room that has been found not to be encrypted. -/
  | clear {room : RoomId} {asked rest : List (Sigma Act.Ans)} {body : Option Value} :
      parseRoomId room_id = some room → es = asked ++ rest →
      (is_room_encrypted ctx room).run.Did asked (.ret (.ok false)) →
      Forward ctx fuel req room_id event_type txn_id es
        (.request ctx.token (.original req.path_and_query) body)
  /-- One of the machine's queue, as the queries are flushed. -/
  | queued {a : Act} {k : a.Ans → M Unit} {before flush : List (Sigma Act.Ans)} :
      es = before ++ flush → (pump fuel ctx).Did flush (.act a k) →
      Forward ctx fuel req room_id event_type txn_id es a
  /-- Encrypted, after every step has succeeded. -/
  | danced {room : RoomId} {content value : Value} {members : List UserId}
      {before tracked flush rest after : List (Sigma Act.Ans)} : parseRoomId room_id = some room →
      es = before ++ (tracked ++ (flush ++ (rest ++ after))) →
      Danced ctx fuel room event_type content value members tracked flush rest after →
      FlushedIff ctx members (before ++ tracked) flush rest →
      Forward ctx fuel req room_id event_type txn_id es
        (.request ctx.token (.sendEvent room "m.room.encrypted" txn_id) (some value))

/-- The room key is not shared past an outdated list, and no event forwarded, exactly
if the key query for each member whose list is outdated goes through; every other step
has succeeded whenever an event is forwarded. -/
theorem dance_fails_closed_iff {req : Request} {room_id event_type txn_id : String} {a : Act}
    {k : a.Ans → M (Except Abort Response)}
    (h : (handle_send fuel ctx req room_id event_type txn_id).run.Did es (.act a k)) :
    (shares a → ∃ room members settings before tracked flush rest,
      a = .olm ctx (.shareRoomKey room members settings) ∧
      es = before ++ (tracked ++ (flush ++ rest)) ∧
      Prepared ctx fuel room members settings tracked flush rest ∧
      FlushedIff ctx members (before ++ tracked) flush rest) ∧
    (a.sends → Forward ctx fuel req room_id event_type txn_id es a) := by
  refine ⟨fun ha => ?_,fun ha => ?_⟩
  · cases handle_send_did h with
    | preparing hp => exact (preparing_shares hp.1 ha).elim
    | passed _ => exact ha.elim
    | clear => exact ha.elim
    | @encrypting room content content' before rewriting es' _ k' _ _ hes _ hencrypt =>
        obtain ⟨members,settings,tracked,flush,rest,hshare,rfl,hprepared⟩ :=
          encrypt_content_share ha hencrypt
        refine ⟨room,members,settings,before ++ rewriting,tracked,flush,rest,hshare,?_,hprepared,?_⟩
        · rw [hes,List.append_assoc]
        · exact fun _ s₁ s _ hrun => hprepared.flushed_iff hrun
    | encrypted => exact ha.elim
  · cases handle_send_did h with
    | preparing hp => exact (hp.2 ha).elim
    | passed hwhy => exact .passed hwhy
    | clear hroom hes hasked => exact .clear hroom hes hasked
    | @encrypting room content content' before rewriting es' _ k' _ _ hes _ hencrypt =>
        obtain ⟨before',flush,k'',rfl,hpump⟩ := encrypt_content_sends ha hencrypt
        refine .queued (?_ : es = (before ++ (rewriting ++ before')) ++ flush) hpump
        rw [hes,List.append_assoc,List.append_assoc]
    | @encrypted room content content' value before rewriting es' hroom _ hes _ hencrypt =>
        obtain ⟨members,tracked,flush,rest,after,rfl,hdanced⟩ := encrypt_content_danced hencrypt
        obtain ⟨settings,requests,sends,hprepared,_⟩ := hdanced.shared
        refine .danced hroom (?_ : es = (before ++ rewriting) ++ _) hdanced ?_
        · rw [hes,List.append_assoc]
        · exact fun _ s₁ s _ hrun => hprepared.flushed_iff hrun

end

local instance : Codec := Codec.plain (fun _ => some (.object [("body",.string "hello")])) some
  fun _ _ => 0

def alice : AccountContext := ⟨"@alice:x","DEVICE","token",⟨0,"key"⟩⟩
def message : Request := ⟨.put,"/send",none,[],[]⟩

def upload : OutgoingRequest := ⟨"u1",.keysUpload ⟨none,[],[]⟩⟩
def query : OutgoingRequest :=
  ⟨"q1",.keysQuery ⟨.object [("@bob:x",.array [])],none⟩⟩

/-- A send to Bob, whose list is outdated, with what the pump is answered. -/
def answers (flush : List (Sigma Act.Ans)) : List (Sigma Act.Ans) :=
  ⟨.rooms alice (.isKnownUnencrypted "!r"),false⟩ ::
    ⟨.olm alice (.roomSettings "!r"),.ok (some ⟨"m.megolm.v1.aes-sha2",false,none,none⟩)⟩ ::
    ⟨.now,0⟩ ::
    ⟨.rooms alice (.cachedMembers "!r" 0),some ["@bob:x"]⟩ ::
    ⟨.lock (.share alice),()⟩ ::
    ⟨.olm alice (.updateTrackedUsers ["@bob:x"]),(.ok () : Except String Unit)⟩ ::
    ⟨.lock (.pump alice),()⟩ :: (flush ++
      [⟨.unlock (.pump alice),()⟩,
        ⟨.olm alice (.getMissingSessions ["@bob:x"]),.ok none⟩,
        ⟨.olm alice (.roomSettings "!r"),.ok (some ⟨"m.megolm.v1.aes-sha2",false,none,none⟩)⟩,
        ⟨.rooms alice (.historyVisibility "!r"),some "shared"⟩])

/-- The query is queued behind an upload that the homeserver fails. -/
def failing : List (Sigma Act.Ans) :=
  [⟨.olm alice .outgoingRequests,.ok [upload,query]⟩,
    ⟨.request "token" .keysUpload (some upload.request.wire.2),.ok (500,.object [])⟩]

/-- The query goes through. -/
def working : List (Sigma Act.Ans) :=
  [⟨.olm alice .outgoingRequests,.ok [query]⟩,
    ⟨.request "token" .keysQuery (some query.request.wire.2),.ok (200,.object [])⟩,
    ⟨.olm alice (.markRequestAsSent "q1" (.object [])),(.ok () : Except String Unit)⟩,
    ⟨.olm alice .outgoingRequests,.ok []⟩,
    ⟨.olm alice .backupEnabled,false⟩]

def settings : EncryptionSettings := ⟨"m.megolm.v1.aes-sha2","shared",none,none⟩

abbrev sharing : Act := .olm alice (.shareRoomKey "!r" ["@bob:x"] settings)

/-- From the share to the end. -/
def shared : List (Sigma Act.Ans) :=
  [⟨sharing,.ok []⟩,
    ⟨.olm alice (.encryptRoomEventRaw "!r" "m.room.message" (.object [("body",.string "hello")])),
      .ok (.object [("ciphertext",.string "...")])⟩,
    ⟨.unlock (.share alice),()⟩]

abbrev forwarding : Act := .request "token" (.sendEvent "!r" "m.room.encrypted" "txn")
  (some (.object [("ciphertext",.string "...")]))

abbrev sending : M (Except Abort Response) :=
  (handle_send 2 alice message "!r" "m.room.message" "txn").run

theorem failing_share : ∃ k, sending.Did (answers failing) (.act sharing k) :=
  ⟨_,.cons (.cons (.cons (.cons (.cons (.cons (.cons (.cons (.cons (.cons (.cons (.cons (.cons
    (.nil _)))))))))))))⟩

theorem failing_forward : ∃ k, sending.Did (answers failing ++ shared) (.act forwarding k) :=
  ⟨_,.cons (.cons (.cons (.cons (.cons (.cons (.cons (.cons (.cons (.cons (.cons (.cons (.cons
    (.cons (.cons (.cons (.nil _))))))))))))))))⟩

theorem working_forward : ∃ k, sending.Did (answers working ++ shared) (.act forwarding k) :=
  ⟨_,.cons (.cons (.cons (.cons (.cons (.cons (.cons (.cons (.cons (.cons (.cons (.cons (.cons
    (.cons (.cons (.cons (.cons (.cons (.cons (.nil _)))))))))))))))))))⟩

theorem dance_fails_closed_iff_bob :
    (∃ members settings before tracked flush rest,
      answers failing = before ++ (tracked ++ (flush ++ rest)) ∧
      Prepared alice 2 "!r" members settings tracked flush rest ∧
      FlushedIff alice members (before ++ tracked) flush rest) ∧
    Forward alice 2 message "!r" "m.room.message" "txn" (answers working ++ shared) forwarding := by
  obtain ⟨_,hshare⟩ := failing_share
  obtain ⟨_,hforward⟩ := working_forward
  obtain ⟨room,members,settings,before,tracked,flush,rest,ha,hanswers,hprepared,hflushed⟩ :=
    (dance_fails_closed_iff hshare).1 trivial
  cases ha
  exact ⟨⟨_,_,before,tracked,flush,rest,hanswers,hprepared,hflushed⟩,
    (dance_fails_closed_iff hforward).2 trivial⟩

/-- Bob's list is outdated, and the listed query asks about him. -/
def stale : Queries := ⟨{"@bob:x"},fun id => if id = "q1" then {"@bob:x"} else ∅⟩

theorem stale_run : Run Step ⟨∅,fun _ => ∅⟩ (answers failing) stale := by
  have hnames : ∀ u, Names query u ↔ u = "@bob:x" := by
    intro u
    constructor
    · rintro ⟨q,hq,hu⟩
      cases hq
      by_contra hne
      simp [Value.get,Json.Map.lookup,Ne.symm hne] at hu
    · rintro rfl
      exact ⟨_,rfl,rfl⟩
  have hupload : ∀ u, ¬ Names upload u := by
    rintro u ⟨q,hq,_⟩
    cases hq
  have hlisted : Step ⟨{"@bob:x"},fun _ => ∅⟩ ⟨.olm alice .outgoingRequests,.ok [upload,query]⟩
      stale := by
    refine ⟨rfl,by decide,?_,?_⟩
    · rintro u rfl
      exact ⟨query,by simp,(hnames _).mpr rfl⟩
    · intro r hr u
      simp only [List.mem_cons,List.not_mem_nil,or_false] at hr
      rcases hr with rfl | rfl
      · simpa [stale,upload] using hupload u
      · rw [hnames]
        simp [stale,query]
  refine Run.cons.mpr ⟨_,rfl,Run.cons.mpr ⟨_,rfl,Run.cons.mpr ⟨_,rfl,Run.cons.mpr ⟨_,rfl,
    Run.cons.mpr ⟨_,rfl,Run.cons.mpr ⟨⟨{"@bob:x"},fun _ => ∅⟩,trivial,Run.cons.mpr ⟨_,rfl,
    Run.cons.mpr ⟨_,hlisted,Run.cons.mpr ⟨_,rfl,Run.cons.mpr ⟨_,rfl,Run.cons.mpr ⟨_,⟨rfl,?_⟩,
    Run.cons.mpr ⟨_,rfl,Run.cons.mpr ⟨_,rfl,.nil⟩⟩⟩⟩⟩⟩⟩⟩⟩⟩⟩⟩⟩
  rintro m ⟨⟩

/-- The key is shared while the query is queued, and the event forwarded. -/
theorem queued_query_is_skipped :
    (∃ k, sending.Did (answers failing) (.act sharing k)) ∧
    Run Step ⟨∅,fun _ => ∅⟩ (answers failing) stale ∧ "@bob:x" ∈ stale.outdated ∧
    ∃ k, sending.Did (answers failing ++ shared) (.act forwarding k) :=
  ⟨failing_share,stale_run,rfl,failing_forward⟩

end EmentE2ee.EncryptDance
