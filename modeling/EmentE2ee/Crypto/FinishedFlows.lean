import EmentE2ee.Crypto.Verify
import Mathlib.Logic.Relation

/-!
# Who is told how a flow ended

Live flows are looked up by user and flow ID, outcomes in the log by flow ID alone.
A history of the log and of the flows the machine holds, with every other task at
work around the actions of `show_flow`, says whose outcome an answer is.
-/
namespace EmentE2ee.Verify

open Concurrent
open Json (Value)

namespace VerificationLog

/-- Outcomes are there for the IDs in the order, each once and no more than fit. -/
structure Kept (log : VerificationLog) : Prop where
  nodup : log.order.Nodup
  keys : ∀ id, (log.get id).isSome ↔ id ∈ log.order
  room : log.order.length ≤ MAX_FINISHED

/-- The oldest outcome gives way to a new one in a full log. -/
def Evicts (log log' : VerificationLog) (id : String) : Prop :=
  log'.get id = none ∧ ∃ rest new, log.order = id :: rest ∧ log'.order = rest ++ [new] ∧
    (rest ++ [new]).length = MAX_FINISHED

theorem Kept.default : Kept .default := by
  refine ⟨List.nodup_nil,?_,Nat.zero_le _⟩
  intro id
  simp [VerificationLog.default,get]

theorem watch_get (log : VerificationLog) (user : UserId) (id : String) :
    (log.watch user).get id = log.get id := by
  unfold watch
  split_ifs
  · rfl
  · rfl

theorem watch_order (log : VerificationLog) (user : UserId) : (log.watch user).order = log.order := by
  unfold watch
  split_ifs
  · rfl
  · rfl

theorem Kept.watch {log : VerificationLog} (h : log.Kept) (user : UserId) :
    (log.watch user).Kept := by
  refine ⟨by simpa [watch_order] using h.nodup,?_,by simpa [watch_order] using h.room⟩
  intro id
  rw [watch_get,watch_order]
  exact h.keys id

/-- A new outcome under an ID that the log has. -/
theorem record_known {log : VerificationLog} {id : String} (h : id ∈ log.order) (hkept : log.Kept)
    (v : Value) : (log.record id v).order = log.order ∧
      ∀ id', (log.record id v).get id' = if id' = id then some v else log.get id' := by
  have hsome : (log.finished.lookup id).isSome := (hkept.keys id).mpr h
  unfold record
  rw [if_pos hsome]
  refine ⟨rfl,fun id' => ?_⟩
  split_ifs with heq
  · subst heq
    exact AList.lookup_insert _
  · exact AList.lookup_insert_ne heq

/-- A first outcome under an ID, while there is room. -/
theorem record_new {log : VerificationLog} {id : String} (h : id ∉ log.order) (hkept : log.Kept)
    (hroom : log.order.length < MAX_FINISHED) (v : Value) :
    (log.record id v).order = log.order ++ [id] ∧
      ∀ id', (log.record id v).get id' = if id' = id then some v else log.get id' := by
  have hnone : ¬ (log.finished.lookup id).isSome := fun hs => h ((hkept.keys id).mp hs)
  have hlength : ¬ MAX_FINISHED < (log.order ++ [id]).length := by
    rw [List.length_append,List.length_singleton]
    omega
  have hlookup : ∀ id', (log.finished.insert id v).lookup id' =
      if id' = id then some v else log.get id' := by
    intro id'
    split_ifs with heq
    · subst heq
      exact AList.lookup_insert _
    · exact AList.lookup_insert_ne heq
  unfold record
  rw [if_neg hnone]
  split
  next he => simp at he
  next oldest rest he =>
    rw [he] at hlength
    rw [if_neg hlength]
    exact ⟨he.symm,hlookup⟩

/-- A first outcome under an ID, when the log is full. -/
theorem record_full {log : VerificationLog} {id oldest : String} {rest : List String}
    (h : id ∉ log.order) (hkept : log.Kept) (horder : log.order = oldest :: rest)
    (hfull : log.order.length = MAX_FINISHED) (v : Value) :
    (log.record id v).order = rest ++ [id] ∧ ∀ id', (log.record id v).get id' =
      if id' = oldest then none else if id' = id then some v else log.get id' := by
  have hnone : ¬ (log.finished.lookup id).isSome := fun hs => h ((hkept.keys id).mp hs)
  have hlength : MAX_FINISHED < (oldest :: (rest ++ [id])).length := by
    rw [horder] at hfull
    simp only [List.length_cons,List.length_append,List.length_nil] at hfull ⊢
    omega
  unfold record
  rw [if_neg hnone,horder,List.cons_append]
  dsimp only
  rw [if_pos hlength]
  refine ⟨rfl,fun id' => ?_⟩
  change ((log.finished.insert id v).erase oldest).lookup id' = _
  split_ifs with hold hid
  · subst hold
    exact AList.lookup_erase _ _
  · subst hid
    rw [AList.lookup_erase_ne hold,AList.lookup_insert]
  · rw [AList.lookup_erase_ne hold,AList.lookup_insert_ne hid]
    rfl

/-- What one outcome does to the log: its ID has it, and of the others at most the
oldest is lost, to a log that stays full. -/
theorem Kept.record {log : VerificationLog} (h : log.Kept) (id : String) (v : Value) :
    (log.record id v).Kept ∧ (log.record id v).get id = some v ∧
      ∀ id', id' ≠ id → (log.record id v).get id' = log.get id' ∨
        Evicts log (log.record id v) id' := by
  have hkeys : ∀ {log' : VerificationLog}, log'.order = log.order ++ [id] →
      (∀ id', log'.get id' = if id' = id then some v else log.get id') →
      ∀ id', (log'.get id').isSome ↔ id' ∈ log'.order := by
    intro log' horder hget id'
    rw [horder,hget id',List.mem_append,List.mem_singleton]
    split_ifs with hid
    · simp [hid]
    · simp [hid,h.keys id']
  by_cases hmem : id ∈ log.order
  · obtain ⟨horder,hget⟩ := record_known hmem h v
    refine ⟨⟨by rw [horder]; exact h.nodup,fun id' => ?_,by rw [horder]; exact h.room⟩,
      (hget id).trans (if_pos rfl),fun id' hne => .inl ((hget id').trans (if_neg hne))⟩
    rw [horder,hget id']
    split_ifs with hid
    · simp [hid,hmem]
    · exact h.keys id'
  · have hnodup : (log.order ++ [id]).Nodup := by
      rw [List.nodup_append_comm]
      exact List.nodup_cons.mpr ⟨hmem,h.nodup⟩
    rcases Nat.lt_or_ge log.order.length MAX_FINISHED with hroom | hfull
    · obtain ⟨horder,hget⟩ := record_new hmem h hroom v
      refine ⟨⟨by rw [horder]; exact hnodup,hkeys horder hget,?_⟩,(hget id).trans (if_pos rfl),
        fun id' hne => .inl ((hget id').trans (if_neg hne))⟩
      rw [horder,List.length_append,List.length_singleton]
      omega
    · have hlength : log.order.length = MAX_FINISHED := Nat.le_antisymm h.room hfull
      cases horder₀ : log.order with
      | nil =>
          rw [horder₀] at hlength
          cases hlength
      | cons oldest rest =>
          obtain ⟨horder,hget⟩ := record_full hmem h horder₀ hlength v
          have hrest : oldest ∉ rest ∧ rest.Nodup := List.nodup_cons.mp (horder₀ ▸ h.nodup)
          have hold : id ≠ oldest := by
            rintro rfl
            exact hmem (by rw [horder₀]; exact List.mem_cons_self)
          have hfull' : (rest ++ [id]).length = MAX_FINISHED := by
            rw [horder₀,List.length_cons] at hlength
            rw [List.length_append,List.length_singleton]
            exact hlength
          refine ⟨⟨?_,fun id' => ?_,by rw [horder]; exact hfull'.le⟩,?_,fun id' hne => ?_⟩
          · rw [horder]
            rw [horder₀,List.cons_append] at hnodup
            exact (List.nodup_cons.mp hnodup).2
          · rw [horder,hget id',List.mem_append,List.mem_singleton]
            split_ifs with ho hid
            · subst ho
              simp [hrest.1,Ne.symm hold]
            · simp [hid]
            · rw [h.keys id',horder₀]
              simp [ho,hid]
          · rw [hget id,if_neg hold,if_pos rfl]
          · by_cases ho : id' = oldest
            · subst ho
              exact .inr ⟨(hget _).trans (if_pos rfl),rest,id,horder₀,horder,hfull'⟩
            · exact .inl (by rw [hget id',if_neg ho,if_neg hne])

end VerificationLog

/-- What the log has of a flow that has ended. -/
def outcome (flow : Flow) : Value :=
  .object (Json.Map.insert "finished" (.bool true) flow.fields)

/-- The log, the flows the machine holds for each user, and those noted down so far. -/
structure History where
  log : VerificationLog
  flows : UserId → List Flow
  noted : List Flow

namespace History

def start (flows : UserId → List Flow) : History := ⟨.default,flows,[]⟩

def note (h : History) (flow : Flow) : History :=
  { h with log := h.log.note flow, noted := h.noted ++ [flow] }

/-- Flows that `record_finished` notes down, in its order. -/
def finishing (h : History) (own : UserId) : List Flow :=
  (h.log.users ++ [own]).flatMap fun user => (h.flows user).filter Flow.ended

def record_finished (h : History) (own : UserId) : History :=
  { h with log := h.log.record_finished own h.flows, noted := h.noted ++ h.finishing own }

/-- One step of any task: a user is watched, a flow that has ended is noted down, or
the machine starts flows, moves them on, ends and forgets them. -/
inductive Step : History → History → Prop
  | watch (h : History) (user : UserId) : Step h { h with log := h.log.watch user }
  | note (h : History) {flow : Flow} : flow.ended = true → Step h (h.note flow)
  /-- The machine holds each flow under the user it is with. -/
  | machine (h : History) {flows : UserId → List Flow} :
      (∀ user, ∀ flow ∈ flows user, flow.request.other_user = user) →
      Step h { h with flows := flows }

abbrev Steps : History → History → Prop := Relation.ReflTransGen Step

theorem Steps.note_all (h : History) (flows : List Flow)
    (hended : ∀ flow ∈ flows, flow.ended = true) :
    Steps h { h with log := flows.foldl .note h.log, noted := h.noted ++ flows } := by
  induction flows generalizing h with
  | nil =>
      rw [List.append_nil]
      exact .refl
  | cons flow flows ih =>
      have htail := ih (h.note flow) fun f hf => hended f (List.mem_cons_of_mem flow hf)
      rw [note,List.append_assoc] at htail
      exact .head (.note h (hended flow List.mem_cons_self)) htail

theorem foldl_note (log : VerificationLog) (flows : List Flow) :
    flows.foldl .note log = (flows.filter Flow.ended).foldl .note log := by
  induction flows generalizing log with
  | nil => rfl
  | cons flow flows ih =>
      by_cases h : flow.ended = true
      · rw [List.filter_cons_of_pos h,List.foldl_cons,List.foldl_cons,ih]
      · rw [List.filter_cons_of_neg h,List.foldl_cons,VerificationLog.note,if_neg h,ih]

/-- Noting everything down is noting one flow after the other. -/
theorem record_finished_steps (h : History) (own : UserId) : Steps h (h.record_finished own) := by
  have hlog : h.log.record_finished own h.flows = (h.finishing own).foldl .note h.log := by
    unfold VerificationLog.record_finished finishing
    generalize h.log.users ++ [own] = users
    generalize h.log = log
    induction users generalizing log with
    | nil => rfl
    | cons user users ih =>
        rw [List.foldl_cons,List.flatMap_cons,List.foldl_append,ih,foldl_note log (h.flows user)]
  have hsteps := Steps.note_all h (h.finishing own) fun flow hmem => by
    obtain ⟨user,_,hflow⟩ := List.mem_flatMap.mp hmem
    exact (List.mem_filter.mp hflow).2
  rw [← hlog] at hsteps
  exact hsteps

/-- Reached from an empty log. -/
def Reached (h : History) : Prop :=
  ∃ flows, (∀ user, ∀ flow ∈ flows user, flow.request.other_user = user) ∧ Steps (start flows) h

def lastNoted (h : History) (id : String) : Option Flow :=
  h.noted.reverse.find? fun flow => flow.request.flow_id = id

/-- The log has an outcome under the ID, and this flow was the last noted under it. -/
def Remembers (h : History) (id : String) (flow : Flow) : Prop :=
  (h.log.get id).isSome ∧ h.lastNoted id = some flow

/-- The log tells the last outcome noted under an ID, or nothing. -/
structure Told (h : History) : Prop where
  kept : h.log.Kept
  last : ∀ id v, h.log.get id = some v → ∃ flow, h.lastNoted id = some flow ∧ v = outcome flow
  keyed : ∀ user, ∀ flow ∈ h.flows user, flow.request.other_user = user

theorem lastNoted_note (h : History) (flow : Flow) (id : String) :
    (h.note flow).lastNoted id =
      if flow.request.flow_id = id then some flow else h.lastNoted id := by
  simp only [lastNoted,note,List.reverse_append,List.reverse_cons,List.reverse_nil,List.nil_append,
    List.singleton_append,List.find?_cons]
  split_ifs with heq
  · simp [heq]
  · simp [heq]

theorem note_log (h : History) {flow : Flow} (hended : flow.ended = true) :
    (h.note flow).log = h.log.record flow.request.flow_id (outcome flow) := if_pos hended

theorem Told.step {h h' : History} (ht : h.Told) (hs : Step h h') : h'.Told := by
  cases hs with
  | watch user =>
      refine ⟨ht.kept.watch user,?_,ht.keyed⟩
      intro id v hv
      rw [VerificationLog.watch_get] at hv
      exact ht.last id v hv
  | @note flow hended =>
      obtain ⟨hkept,hself,hothers⟩ := ht.kept.record flow.request.flow_id (outcome flow)
      rw [← note_log h hended] at hkept hself hothers
      refine ⟨hkept,fun id v hv => ?_,ht.keyed⟩
      rw [lastNoted_note]
      split_ifs with hid
      · subst hid
        rw [hself] at hv
        exact ⟨flow,rfl,(Option.some.inj hv).symm⟩
      · rcases hothers id (Ne.symm hid) with hsame | hevicted
        · rw [hsame] at hv
          exact ht.last id v hv
        · rw [hevicted.1] at hv
          cases hv
  | machine hkeyed => exact ⟨ht.kept,ht.last,hkeyed⟩

theorem Told.steps {h h' : History} (ht : h.Told) (hs : Steps h h') : h'.Told := by
  induction hs with
  | refl => exact ht
  | tail _ hs ih => exact ih.step hs

theorem Reached.told {h : History} (hr : h.Reached) : h.Told := by
  obtain ⟨flows,hkeyed,hs⟩ := hr
  refine Told.steps ⟨.default,?_,hkeyed⟩ hs
  intro id v hv
  simp [start,VerificationLog.default,VerificationLog.get] at hv

/-- Outcomes of flows with other users stay when the flow is noted down, up to the
one that the bound takes. -/
def Spares (h : History) (flow : Flow) : Prop :=
  ∀ id other, h.Remembers id other → other.request.other_user ≠ flow.request.other_user →
    (h.note flow).Remembers id other ∨ h.log.Evicts (h.note flow).log id

end History

/-- What may be told about a flow with the user, by the log and the flows at the time. -/
inductive Rightly (h : History) (with_user : UserId) (flow_id : String) : Except Error Value → Prop
  | live {flow : Flow} (view : RequestView) (sas : Option SasView) : flow ∈ h.flows with_user →
      flow.request.flow_id = flow_id → flow.request.other_user = with_user →
      Rightly h with_user flow_id (.ok (.object (Flow.fields ⟨flow.request,view,sas⟩)))
  | last {flow : Flow} : h.Remembers flow_id flow → flow.request.other_user = with_user →
      Rightly h with_user flow_id (.ok (outcome flow))
  | unknown (e : Error) : Rightly h with_user flow_id (.error e)

/-- Stage and SAS stand beside the fields of the request. -/
theorem fields_lookup {k : String} (hstage : "stage" ≠ k) (hsas : "sas" ≠ k)
    (hdevice : "other_device" ≠ k) (flow : Flow) :
    flow.fields.lookup k = (request_summary flow.request flow.view).lookup k := by
  unfold Flow.fields
  cases flow.sas with
  | none => exact Json.Map.lookup_insert_ne hstage _ _
  | some sas =>
      dsimp only
      split_ifs
      · rw [Json.Map.lookup_insert_ne hdevice,Json.Map.lookup_insert_ne hsas,
          Json.Map.lookup_insert_ne hstage]
      · rw [Json.Map.lookup_insert_ne hsas,Json.Map.lookup_insert_ne hstage]

theorem outcome_user (flow : Flow) :
    (outcome flow).get "other_user" = some (.string flow.request.other_user) := by
  change (Json.Map.insert _ _ flow.fields).lookup "other_user" = _
  rw [Json.Map.lookup_insert_ne (by decide),fields_lookup (by decide) (by decide) (by decide)]
  rfl

theorem outcome_finished (flow : Flow) : (outcome flow).get "finished" = some (.bool true) :=
  Json.Map.lookup_insert_self _ _ _

theorem live_unfinished (flow : Flow) : (Value.object flow.fields).get "finished" = none := by
  change flow.fields.lookup "finished" = none
  rw [fields_lookup (by decide) (by decide) (by decide)]
  rfl

/-- An outcome is told rightly to the user it names only. -/
theorem Rightly.user {h : History} {with_user : UserId} {flow_id : String} {flow : Flow}
    (hr : Rightly h with_user flow_id (.ok (outcome flow))) :
    flow.request.other_user = with_user := by
  generalize hv : (Except.ok (outcome flow) : Except Error Value) = r at hr
  cases hr with
  | live view sas _ _ _ =>
      have hfinished := outcome_finished flow
      rw [Except.ok.inj hv,live_unfinished] at hfinished
      cases hfinished
  | last _ hother =>
      have huser := outcome_user flow
      rw [Except.ok.inj hv,outcome_user,hother] at huser
      exact (Value.string.inj (Option.some.inj huser)).symm
  | unknown => cases hv

section
variable [Codec]

/-- What an action does to the log, and answers of it and of the machine's flows. -/
def does : (a : Act ⊕ VerifyAct) → History → Sum.elim Act.Ans VerifyAct.Ans a → History → Prop
  | .inl (.recordFinished ctx),h,_,h' => h' = h.record_finished ctx.user_id
  | .inr (.watch _ user),h,_,h' => h' = { h with log := h.log.watch user }
  | .inr (.logged _ flow_id),h,r,h' => r = h.log.get flow_id ∧ h' = h
  | .inr (.allLogged _),h,r,h' => r = h.log.all ∧ h' = h
  | .inr (.getVerificationRequest _ user flow_id),h,r,h' =>
      r = ((h.flows user).find? fun flow => flow.request.flow_id = flow_id).map Flow.request ∧ h' = h
  | .inr (.getVerificationRequests _ user),h,r,h' => r = (h.flows user).map Flow.request ∧ h' = h
  | _,h,_,h' => h' = h

/-- The state, and what a call has looked at: the states in which it has looked flows up,
and read what the log has of one. -/
structure Observed where
  now : History
  looked : List (UserId × String × History)
  read : List (String × History)

def Observed.start (h : History) : Observed := ⟨h,[],[]⟩

/-- An action in a state, and the state that it leaves. -/
def Observed.after (o : Observed) (t h' : History) : Act ⊕ VerifyAct → Observed
  | .inr (.getVerificationRequest _ user flow_id) => ⟨h',o.looked ++ [(user,flow_id,t)],o.read⟩
  | .inr (.logged _ flow_id) => ⟨h',o.looked,o.read ++ [(flow_id,t)]⟩
  | _ => { o with now := h' }

end

section
local instance : Codec := .plain (fun _ => none) some fun _ _ => 0

end
end EmentE2ee.Verify
