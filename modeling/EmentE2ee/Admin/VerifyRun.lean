import EmentE2ee.Admin.Client
import EmentE2ee.Concurrent.Trace

/-!
# One verification from request to result

`ctl verify` without a subcommand polls the flow until it ends, asks the user once
both devices show their emoji, and reports the answer. What it does is a sequence
of requests, questions and clock readings; the loops run on fuel.
-/
namespace EmentE2ee.Ctl

open Concurrent
open Json (Value)

/-- Nanoseconds on a monotonic clock. -/
abbrev Instant := Nat

inductive ClientAct where
  | post (path : String) (body : Value)
  | get (path : String)
  | status (message : String)
  | confirm_match (sas : Value)
  | now
  | sleep (duration : Duration)

abbrev ClientAct.Ans : ClientAct → Type
  | post .. | get _ => Except Error Value
  | confirm_match _ => Except Error Bool
  | now => Instant
  | status _ | sleep _ => Unit

abbrev ClientM := Prog ClientAct ClientAct.Ans

def ask (a : ClientAct) : ClientM a.Ans := .perform a

/-- How a run ends without a finished flow. -/
inductive Exit where
  | failed (e : Error)
  /-- The fuel is used up; the loop goes on. -/
  | unfinished

/-- Go on with the answer, or leave with the error. -/
def orFail {α β : Type} (answer : Except Error α) (k : α → ClientM (Except Exit β)) :
    ClientM (Except Exit β) :=
  match answer with
  | .ok a => k a
  | .error e => pure (.error (.failed e))

def bail {β : Type} (message : String) : ClientM (Except Exit β) :=
  pure (.error (.failed (.text message)))

def START_SAS_AFTER : Duration := 5 * 1000000000

def NEEDS_SYNC : String :=
  " (verification messages only travel while ement is connected and syncing through the proxy)"

def asSecs (d : Duration) : String := toString (d / 1000000000)

def stageOf (flow : Value) : String := ((flow.get "stage").bind Value.asStr).getD ""

def other_device (flow : Value) : String :=
  ((flow.get "other_device").bind Value.asStr).getD "the other device"

/-- The first request that has not ended yet. -/
def incomingFlow (list : Value) : Option String :=
  ((((list.get "requests").bind Value.asArray).getD []).find? fun flow =>
    (flow.get "stage").bind Value.asStr ∉ [some "done",some "cancelled"]).bind fun flow =>
      (flow.get "flow_id").bind Value.asStr

def wait_for_request (options : Options) (deadline : Instant) :
    Nat → ClientM (Except Exit String)
  | 0 => pure (.error .unfinished)
  | fuel + 1 => do
      let answer ← ask (.get ("verify" ++ options.query))
      orFail answer fun list =>
        match incomingFlow list with
        | some flow_id => pure (.ok flow_id)
        | none => do
            let now ← ask .now
            if deadline ≤ now then
              bail ("no verification request arrived within " ++ asSecs options.timeout ++ " s" ++
                NEEDS_SYNC)
            else do
              ask (.sleep options.poll)
              wait_for_request options deadline fuel

/-- The flow to work on: one that is requested here, or the first to come in. -/
def learn_flow (fuel : Nat) (options : Options) (deadline : Instant) :
    ClientM (Except Exit String) :=
  match options.device with
  | some device => do
      let answer ← ask (.post "verify/start"
        (.object (Json.Map.insert "device_id" (.string device) options.params)))
      orFail answer fun flow => do
        ask (.status ("Verification requested. Accept it on " ++ device ++
          " and choose emoji verification."))
        match (flow.get "flow_id").bind Value.asStr with
        | some flow_id => pure (.ok flow_id)
        | none => bail "the proxy returned no flow ID"
  | none => do
      ask (.status ("Waiting for a verification request. Start one from your other " ++
        "device (in Element: Settings → Sessions → this session → Verify)."))
      wait_for_request options deadline fuel

/-- Whether to start emoji verification without waiting for the other side any longer. -/
def startSas : Option Instant → ClientM Bool
  | none => pure false
  | some since => do
      let now ← ask .now
      pure (decide (START_SAS_AFTER ≤ now - since))

def readySince : Option Instant → ClientM Instant
  | some since => pure since
  | none => ask .now

/-- What the user is told of a stage that is waited in, and since when both are ready. -/
def announce (flow : Value) (stage_changed : Bool) (ready_since : Option Instant) :
    ClientM (Option Instant) :=
  match stageOf flow,stage_changed with
  | "incoming",true => do
      ask (.status ("Accepting the request from " ++ other_device flow ++ "…"))
      pure ready_since
  | "ready",changed => do
      let since ← readySince ready_since
      if changed then
        ask (.status "Both devices are ready; starting emoji verification…")
      else pure ()
      pure (some since)
  | "sas_incoming",true | "key_exchange",true => do
      ask (.status "Exchanging keys…")
      pure ready_since
  | "confirmed",true => do
      ask (.status "Confirmed here. Waiting for the other device to confirm…")
      pure ready_since
  | _,_ => pure ready_since

def cancelReason (flow : Value) : String :=
  (((flow.pointer ["cancel_info","reason"]).or (flow.pointer ["sas","cancel_info","reason"])).bind
    Value.asStr).getD "no reason given"

def drive (options : Options) (deadline : Instant) (flow_id : String) :
    Nat → String → Option Instant → ClientM (Except Exit Value)
  | 0,_,_ => pure (.error .unfinished)
  | fuel + 1,last_stage,ready_since => do
      let start_sas ← startSas ready_since
      let answer ← ask (.post (flowPath flow_id "advance")
        (.object (Json.Map.insert "start_sas" (.bool start_sas) options.params)))
      orFail answer fun flow =>
        if stageOf flow = "done" then pure (.ok flow)
        else if stageOf flow = "cancelled" then
          bail ("verification was cancelled: " ++ cancelReason flow)
        else if stageOf flow = "compare" then do
          let answer ← ask (.confirm_match ((flow.get "sas").getD .null))
          match answer with
          | .ok true => do
              let answer ← ask (.post (flowPath flow_id "confirm") (.object options.params))
              -- Straight on to see whether the other side already confirmed.
              orFail answer fun _ => drive options deadline flow_id fuel (stageOf flow) ready_since
          | .ok false => do
              let answer ← ask (.post (flowPath flow_id "mismatch") (.object options.params))
              orFail answer fun _ => bail ("the emoji did not match, so nothing was verified. If " ++
                "you compared carefully, someone may be interfering with the connection.")
          | .error e => do
              let _ ← ask (.post (flowPath flow_id "cancel") (.object options.params))
              pure (.error (.failed (.context "verification cancelled" e)))
        else do
          let ready_since ← announce flow (stageOf flow ≠ last_stage) ready_since
          let now ← ask .now
          if deadline ≤ now then do
            let _ ← ask (.post (flowPath flow_id "cancel") (.object options.params))
            bail ("verification did not complete within " ++ asSecs options.timeout ++
              " s and was cancelled" ++ NEEDS_SYNC)
          else do
            ask (.sleep options.poll)
            drive options deadline flow_id fuel (stageOf flow) ready_since

/-- Run one verification to its end; every ending but success is an error. -/
def run (fuel : Nat) (options : Options) : ClientM (Except Exit Value) := do
  let now ← ask .now
  let deadline := now + options.timeout
  let learned ← learn_flow fuel options deadline
  match learned with
  | .ok flow_id => drive options deadline flow_id fuel "" none
  | .error e => pure (.error e)

abbrev Event := Sigma ClientAct.Ans

/-- Readings of the clock, messages to the user and pauses. -/
def ClientAct.idle : ClientAct → Prop
  | now | status _ | sleep _ => True
  | _ => False

theorem did_ask {a : ClientAct} {β : Type} {k : a.Ans → ClientM β} {es : List Event} {y : β}
    (h : (ask a >>= k).Did es (.ret y)) :
    ∃ r es', es = ⟨a,r⟩ :: es' ∧ (k r).Did es' (.ret y) := by
  cases h with
  | cons h => exact ⟨_,_,rfl,h⟩

theorem did_pure {β : Type} {x y : β} {es : List Event}
    (h : (pure x : ClientM β).Did es (.ret y)) : es = [] ∧ y = x := by
  cases h
  exact ⟨rfl,rfl⟩

/-- What is left to do for a flow once its ID is known, as a grammar of events
with the way the run ends. -/
inductive Driven (flow_id : String) : List Event → Except Exit Value → Prop
  | unfinished : Driven flow_id [] (.error .unfinished)
  | idle {e : Event} {es : List Event} {r : Except Exit Value} : e.1.idle → Driven flow_id es r →
      Driven flow_id (e :: es) r
  | refused (body : Value) (e : Error) :
      Driven flow_id [⟨.post (flowPath flow_id "advance") body,.error e⟩] (.error (.failed e))
  | done (body : Value) {flow : Value} : stageOf flow = "done" →
      Driven flow_id [⟨.post (flowPath flow_id "advance") body,.ok flow⟩] (.ok flow)
  | cancelled (body : Value) {flow : Value} (e : Error) : stageOf flow = "cancelled" →
      Driven flow_id [⟨.post (flowPath flow_id "advance") body,.ok flow⟩] (.error (.failed e))
  | waited (body flow : Value) {es : List Event} {r : Except Exit Value} : Driven flow_id es r →
      Driven flow_id (⟨.post (flowPath flow_id "advance") body,.ok flow⟩ :: es) r
  | matched (body body' : Value) {flow : Value} (flow' : Value) {es : List Event}
      {r : Except Exit Value} : stageOf flow = "compare" → Driven flow_id es r →
      Driven flow_id (⟨.post (flowPath flow_id "advance") body,.ok flow⟩ ::
        ⟨.confirm_match ((flow.get "sas").getD .null),.ok true⟩ ::
        ⟨.post (flowPath flow_id "confirm") body',.ok flow'⟩ :: es) r
  | unconfirmed (body body' : Value) {flow : Value} (e : Error) : stageOf flow = "compare" →
      Driven flow_id [⟨.post (flowPath flow_id "advance") body,.ok flow⟩,
        ⟨.confirm_match ((flow.get "sas").getD .null),.ok true⟩,
        ⟨.post (flowPath flow_id "confirm") body',.error e⟩] (.error (.failed e))
  | mismatched (body body' : Value) {flow : Value} (answer : Except Error Value) (e : Error) :
      stageOf flow = "compare" →
      Driven flow_id [⟨.post (flowPath flow_id "advance") body,.ok flow⟩,
        ⟨.confirm_match ((flow.get "sas").getD .null),.ok false⟩,
        ⟨.post (flowPath flow_id "mismatch") body',answer⟩] (.error (.failed e))
  | unanswered (body body' : Value) {flow : Value} (answer : Except Error Value) (e e' : Error) :
      Driven flow_id [⟨.post (flowPath flow_id "advance") body,.ok flow⟩,
        ⟨.confirm_match ((flow.get "sas").getD .null),.error e⟩,
        ⟨.post (flowPath flow_id "cancel") body',answer⟩] (.error (.failed e'))
  | gaveUp (body : Value) (answer : Except Error Value) (e : Error) :
      Driven flow_id [⟨.post (flowPath flow_id "cancel") body,answer⟩] (.error (.failed e))

theorem Driven.idles {flow_id : String} {q es : List Event} {r : Except Exit Value}
    (hq : ∀ e ∈ q, e.1.idle) (h : Driven flow_id es r) : Driven flow_id (q ++ es) r := by
  induction q with
  | nil => exact h
  | cons e q ih =>
      exact .idle (hq e List.mem_cons_self) (ih fun e' he => hq e' (List.mem_cons_of_mem _ he))

theorem startSas_idle (since : Option Instant) : (startSas since).Does ClientAct.idle := by
  cases since with
  | none => trivial
  | some since => exact ⟨trivial,fun _ => trivial⟩

theorem announce_idle (flow : Value) (stage_changed : Bool) (since : Option Instant) :
    (announce flow stage_changed since).Does ClientAct.idle := by
  have hready : (readySince since).Does ClientAct.idle := by
    cases since with
    | none => exact ⟨trivial,fun _ => trivial⟩
    | some since => trivial
  unfold announce
  split
  · exact ⟨trivial,fun _ => trivial⟩
  · refine hready.bind fun since => ?_
    split_ifs
    · exact ⟨trivial,fun _ => trivial⟩
    · trivial
  · exact ⟨trivial,fun _ => trivial⟩
  · exact ⟨trivial,fun _ => trivial⟩
  · exact ⟨trivial,fun _ => trivial⟩
  · trivial

/-- The loop keeps to the grammar. -/
theorem drive_driven {options : Options} {deadline : Instant} {flow_id : String} {fuel : Nat}
    {last_stage : String} {since : Option Instant} {es : List Event} {r : Except Exit Value}
    (h : (drive options deadline flow_id fuel last_stage since).Did es (.ret r)) :
    Driven flow_id es r := by
  induction fuel generalizing last_stage since es with
  | zero =>
      obtain ⟨rfl,rfl⟩ := did_pure h
      exact .unfinished
  | succ fuel ih =>
      obtain ⟨q,es₁,start_sas,rfl,hq,h₁⟩ := Prog.did_bind h
      refine .idles ((startSas_idle since).did_mem hq) ?_
      obtain ⟨answer,es₂,rfl,h₂⟩ := did_ask (a := .post _ _) h₁
      cases answer with
      | error e =>
          obtain ⟨rfl,rfl⟩ := did_pure h₂
          exact .refused _ e
      | ok flow =>
          dsimp only [orFail] at h₂
          split_ifs at h₂ with hdone hcancelled hcompare
          · obtain ⟨rfl,rfl⟩ := did_pure h₂
            exact .done _ hdone
          · obtain ⟨rfl,rfl⟩ := did_pure h₂
            exact .cancelled _ _ hcancelled
          · obtain ⟨answer,es₃,rfl,h₃⟩ := did_ask (a := .confirm_match _) h₂
            match answer with
            | .ok true =>
                obtain ⟨answer,es₄,rfl,h₄⟩ := did_ask (a := .post _ _) h₃
                cases answer with
                | ok flow' => exact .matched _ _ flow' hcompare (ih h₄)
                | error e =>
                    obtain ⟨rfl,rfl⟩ := did_pure h₄
                    exact .unconfirmed _ _ e hcompare
            | .ok false =>
                obtain ⟨answer,es₄,rfl,h₄⟩ := did_ask (a := .post _ _) h₃
                cases answer with
                | ok flow' =>
                    obtain ⟨rfl,rfl⟩ := did_pure h₄
                    exact .mismatched _ _ _ _ hcompare
                | error e =>
                    obtain ⟨rfl,rfl⟩ := did_pure h₄
                    exact .mismatched _ _ _ _ hcompare
            | .error e =>
                obtain ⟨answer,es₄,rfl,h₄⟩ := did_ask (a := .post _ _) h₃
                obtain ⟨rfl,rfl⟩ := did_pure h₄
                exact .unanswered _ _ _ _ _
          · refine .waited _ flow ?_
            obtain ⟨q,es₃,since',rfl,hq,h₃⟩ := Prog.did_bind h₂
            refine .idles ((announce_idle flow _ since).did_mem hq) ?_
            obtain ⟨now,es₄,rfl,h₄⟩ := did_ask (a := .now) h₃
            refine .idle trivial ?_
            split_ifs at h₄
            · obtain ⟨answer,es₅,rfl,h₅⟩ := did_ask (a := .post _ _) h₄
              obtain ⟨rfl,rfl⟩ := did_pure h₅
              exact .gaveUp _ _ _
            · obtain ⟨_,es₅,rfl,h₅⟩ := did_ask (a := .sleep _) h₄
              exact .idle trivial (ih h₅)

/-- The event is a request for an action on the flow, however it is answered. -/
def Posts (flow_id action : String) (e : Event) : Prop :=
  ∃ body, e.1 = .post (flowPath flow_id action) body

/-- The last two events are an answer that shows the emoji, and what the user said of them. -/
def Said (flow_id : String) (matching : Bool) (before : List Event) : Prop :=
  ∃ earlier body flow, stageOf flow = "compare" ∧ before = earlier ++
    [⟨.post (flowPath flow_id "advance") body,.ok flow⟩,
      ⟨.confirm_match ((flow.get "sas").getD .null),.ok matching⟩]

/-- A match is only confirmed, and a mismatch only reported, right after the user said so. -/
def Asked (flow_id : String) (before : List Event) (e : Event) : Prop :=
  (Posts flow_id "confirm" e → Said flow_id true before) ∧
    (Posts flow_id "mismatch" e → Said flow_id false before)

/-- The ID of a flow that an event gives, by starting or listing it. -/
def learned : Event → Option String
  | ⟨.post path _,.ok flow⟩ =>
      if path = "verify/start" then (flow.get "flow_id").bind Value.asStr else none
  | ⟨.get _,.ok list⟩ => incomingFlow list
  | _ => none

/-- The flow was cancelled on the last answer, or a mismatch or a cancellation was sent. -/
def Settled (flow_id : String) (es : List Event) : Prop :=
  (∃ before body flow, es = before ++ [⟨.post (flowPath flow_id "advance") body,.ok flow⟩] ∧
    stageOf flow = "cancelled") ∨
  ∃ e ∈ es, Posts flow_id "mismatch" e ∨ Posts flow_id "cancel" e

structure Tidy (es : List Event) (r : Except Exit Value) : Prop where
  asked : ∀ flow_id, Each (Asked flow_id) es
  done : ∀ flow, r = .ok flow → stageOf flow = "done" ∧
    ∃ flow_id before body, es = before ++ [⟨.post (flowPath flow_id "advance") body,.ok flow⟩]
  settled : ∀ flow_id e, r = .error (.failed e) → (∃ x ∈ es, learned x = some flow_id) →
    Settled flow_id es

/-- A request to advance or to confirm was answered with an error. -/
def Refused (x : Event) : Prop := ∃ flow_id body e,
  x = ⟨.post (flowPath flow_id "advance") body,.error e⟩ ∨
    x = ⟨.post (flowPath flow_id "confirm") body,.error e⟩

def Served (es : List Event) : Prop := ∀ x ∈ es, ¬ Refused x

theorem flowPath_inj {a b k l : String} (hk : '/' ∉ k.toList) (hl : '/' ∉ l.toList)
    (h : flowPath a k = flowPath b l) : a = b ∧ k = l := by
  have hlist := congrArg String.toList h
  simp only [flowPath,String.toList_append,List.append_assoc,List.append_cancel_left_eq] at hlist
  have hslash : "/".toList = ['/'] := rfl
  rw [hslash] at hlist
  have hsplit : ∀ {xs ys us vs : List Char}, '/' ∉ us → '/' ∉ vs →
      xs ++ ('/' :: us) = ys ++ ('/' :: vs) → xs = ys ∧ us = vs := by
    intro xs ys us vs hu hv he
    obtain ⟨mid,hx,ht⟩ | ⟨mid,hx,ht⟩ := List.append_eq_append_iff.mp he
    · cases mid with
      | nil =>
          rw [List.append_nil] at hx
          exact ⟨hx.symm,by simpa using ht⟩
      | cons c mid =>
          rw [List.cons_append,List.cons.injEq] at ht
          exact (hu (by simp [ht.2])).elim
    · cases mid with
      | nil =>
          rw [List.append_nil] at hx
          exact ⟨hx,by simpa using ht.symm⟩
      | cons c mid =>
          rw [List.cons_append,List.cons.injEq] at ht
          exact (hv (by simp [ht.2])).elim
  obtain ⟨ha,hkl⟩ := hsplit hk hl hlist
  exact ⟨String.toList_injective ha,String.toList_injective hkl⟩

theorem posts_iff {a b k l : String} (hk : '/' ∉ k.toList) (hl : '/' ∉ l.toList) (body : Value)
    (answer : Except Error Value) :
    Posts a k ⟨.post (flowPath b l) body,answer⟩ ↔ a = b ∧ k = l := by
  constructor
  · rintro ⟨body',h⟩
    obtain ⟨hb,hl⟩ := flowPath_inj hl hk (ClientAct.post.inj h).1
    exact ⟨hb.symm,hl.symm⟩
  · rintro ⟨rfl,rfl⟩
    exact ⟨body,rfl⟩

theorem start_ne_flowPath (a k : String) : flowPath a k ≠ "verify/start" := by
  intro h
  have hlist := congrArg String.toList h
  have hstart : "verify/start".toList = "verify/".toList ++ "start".toList := rfl
  rw [hstart,flowPath,String.toList_append,String.toList_append,String.toList_append,
    List.append_assoc,List.append_assoc,List.append_cancel_left_eq] at hlist
  have hslash : '/' ∈ "start".toList := by
    rw [← hlist]
    simp
  exact absurd hslash (by decide)

/-- Neither a confirmation nor a report nor a cancellation. -/
def Plain (e : Event) : Prop :=
  ∀ flow_id, ∀ action ∈ ["confirm","mismatch","cancel"], ¬ Posts flow_id action e

theorem idle_plain {e : Event} (h : e.1.idle) : Plain e := by
  rintro flow_id action _ ⟨body,he⟩
  rw [he] at h
  exact h

theorem confirm_match_plain (sas : Value) (answer : Except Error Bool) :
    Plain ⟨.confirm_match sas,answer⟩ := by
  rintro flow_id action _ ⟨body,he⟩
  cases he

theorem advance_plain (flow_id : String) (body : Value) (answer : Except Error Value) :
    Plain ⟨.post (flowPath flow_id "advance") body,answer⟩ := by
  intro id action hmem h
  simp only [List.mem_cons,List.not_mem_nil,or_false] at hmem
  rcases hmem with rfl | rfl | rfl
  · exact absurd ((posts_iff (by decide) (by decide) body answer).mp h).2 (by decide)
  · exact absurd ((posts_iff (by decide) (by decide) body answer).mp h).2 (by decide)
  · exact absurd ((posts_iff (by decide) (by decide) body answer).mp h).2 (by decide)

theorem Plain.asked {e : Event} (h : Plain e) (flow_id : String) (before : List Event) :
    Asked flow_id before e :=
  ⟨fun hp => (h flow_id "confirm" (by decide) hp).elim,
    fun hp => (h flow_id "mismatch" (by decide) hp).elim⟩

theorem asked_extends (flow_id : String) (earlier before : List Event) (e : Event)
    (h : Asked flow_id before e) : Asked flow_id (earlier ++ before) e := by
  have hsaid : ∀ m, Said flow_id m before → Said flow_id m (earlier ++ before) := by
    rintro m ⟨es,body,flow,hstage,rfl⟩
    exact ⟨earlier ++ es,body,flow,hstage,(List.append_assoc ..).symm⟩
  exact ⟨fun hp => hsaid true (h.1 hp),fun hp => hsaid false (h.2 hp)⟩

/-- The three events of an answered question are as asked, whatever the request. -/
theorem question_asked {flow_id : String} {body body' flow : Value} {action : String} {b : Bool}
    (answer : Except Error Value) (hstage : stageOf flow = "compare")
    (haction : action = if b then "confirm" else "mismatch") (id : String) :
    Each (Asked id) [⟨.post (flowPath flow_id "advance") body,.ok flow⟩,
      ⟨.confirm_match ((flow.get "sas").getD .null),.ok b⟩,
      ⟨.post (flowPath flow_id action) body',answer⟩] := by
  have hfirst : Each (Asked id) [⟨.post (flowPath flow_id "advance") body,.ok flow⟩,
      ⟨.confirm_match ((flow.get "sas").getD .null),.ok b⟩] := by
    refine .of_forall fun x hx before => Plain.asked ?_ id before
    simp only [List.mem_cons,List.not_mem_nil,or_false] at hx
    rcases hx with rfl | rfl
    · exact advance_plain _ _ _
    · exact confirm_match_plain _ _
  have hsaid : Said flow_id b [⟨.post (flowPath flow_id "advance") body,.ok flow⟩,
      ⟨.confirm_match ((flow.get "sas").getD .null),.ok b⟩] := ⟨[],body,flow,hstage,rfl⟩
  refine hfirst.snoc ⟨fun hp => ?_,fun hp => ?_⟩
  · cases b with
    | true =>
        obtain ⟨rfl,_⟩ := (posts_iff (by decide) (by rw [haction]; decide) body' answer).mp hp
        exact hsaid
    | false =>
        obtain ⟨_,he⟩ := (posts_iff (by decide) (by rw [haction]; decide) body' answer).mp hp
        rw [haction] at he
        exact absurd he (by decide)
  · cases b with
    | true =>
        obtain ⟨_,he⟩ := (posts_iff (by decide) (by rw [haction]; decide) body' answer).mp hp
        rw [haction] at he
        exact absurd he (by decide)
    | false =>
        obtain ⟨rfl,_⟩ := (posts_iff (by decide) (by rw [haction]; decide) body' answer).mp hp
        exact hsaid

theorem Plain.each {e : Event} (h : Plain e) (id : String) : Each (Asked id) [e] :=
  .of_forall fun x hx before => by
    rw [List.mem_singleton.mp hx]
    exact h.asked id before

theorem cancel_asked (flow_id : String) (body : Value) (answer : Except Error Value) (id : String)
    (before : List Event) : Asked id before ⟨.post (flowPath flow_id "cancel") body,answer⟩ := by
  refine ⟨fun hp => ?_,fun hp => ?_⟩
  · exact absurd ((posts_iff (by decide) (by decide) body answer).mp hp).2 (by decide)
  · exact absurd ((posts_iff (by decide) (by decide) body answer).mp hp).2 (by decide)

theorem Driven.asked {flow_id : String} {es : List Event} {r : Except Exit Value}
    (h : Driven flow_id es r) (id : String) : Each (Asked id) es := by
  have hcons : ∀ {e : Event} {es : List Event}, Plain e → Each (Asked id) es →
      Each (Asked id) (e :: es) := fun he hes => (he.each id).append (asked_extends id) hes
  induction h with
  | unfinished => exact .nil
  | idle he _ ih => exact hcons (idle_plain he) ih
  | refused body e => exact hcons (advance_plain _ _ _) .nil
  | done body _ => exact hcons (advance_plain _ _ _) .nil
  | cancelled body e _ => exact hcons (advance_plain _ _ _) .nil
  | waited body flow _ ih => exact hcons (advance_plain _ _ _) ih
  | matched body body' flow' hstage _ ih =>
      exact (question_asked (b := true) (.ok flow') hstage rfl id).append (asked_extends id) ih
  | unconfirmed body body' e hstage => exact question_asked (b := true) (.error e) hstage rfl id
  | mismatched body body' answer e hstage => exact question_asked (b := false) answer hstage rfl id
  | unanswered body body' answer e e' =>
      refine hcons (advance_plain _ _ _) (hcons (confirm_match_plain _ _) ?_)
      exact Each.snoc .nil (cancel_asked _ _ _ _ _)
  | gaveUp body answer e => exact Each.snoc .nil (cancel_asked _ _ _ _ _)

/-- The request ends no flow for this ID. -/
def Leaves (flow_id : String) (e : Event) : Prop :=
  ¬ Posts flow_id "mismatch" e ∧ ¬ Posts flow_id "cancel" e

theorem Plain.leaves {e : Event} (h : Plain e) (flow_id : String) : Leaves flow_id e :=
  ⟨h flow_id "mismatch" (by decide),h flow_id "cancel" (by decide)⟩

theorem confirm_leaves (flow_id : String) (body : Value) (answer : Except Error Value)
    (id : String) : Leaves id ⟨.post (flowPath flow_id "confirm") body,answer⟩ := by
  constructor
  · intro hp
    exact absurd ((posts_iff (by decide) (by decide) body answer).mp hp).2 (by decide)
  · intro hp
    exact absurd ((posts_iff (by decide) (by decide) body answer).mp hp).2 (by decide)

theorem Settled.append {flow_id : String} {es : List Event} (h : Settled flow_id es)
    (pre : List Event) : Settled flow_id (pre ++ es) := by
  rcases h with ⟨before,body,flow,rfl,hstage⟩ | ⟨e,he,hpost⟩
  · exact .inl ⟨pre ++ before,body,flow,(List.append_assoc ..).symm,hstage⟩
  · exact .inr ⟨e,List.mem_append_right pre he,hpost⟩

/-- Events that end nothing leave it to what follows them. -/
theorem Settled.of_append {flow_id : String} {pre es : List Event}
    (h : Settled flow_id (pre ++ es)) (hpre : ∀ e ∈ pre, Leaves flow_id e) (hes : es ≠ []) :
    Settled flow_id es := by
  rcases h with ⟨before,body,flow,he,hstage⟩ | ⟨e,he,hpost⟩
  · obtain ⟨init,last,rfl⟩ := (List.eq_nil_or_concat es).resolve_left hes
    rw [List.concat_eq_append,← List.append_assoc] at he
    have hlast := (List.append_inj' he rfl).2
    rw [List.concat_eq_append,hlast]
    exact .inl ⟨init,body,flow,rfl,hstage⟩
  · rcases List.mem_append.mp he with he | he
    · rcases hpost with hpost | hpost
      · exact ((hpre e he).1 hpost).elim
      · exact ((hpre e he).2 hpost).elim
    · exact .inr ⟨e,he,hpost⟩

theorem not_settled {flow_id : String} (es : List Event) {x : Event}
    (hes : ∀ e ∈ es ++ [x], Leaves flow_id e)
    (hx : ∀ path body flow, x ≠ ⟨.post path body,.ok flow⟩) : ¬ Settled flow_id (es ++ [x]) := by
  rintro (⟨before,body,flow,he,_⟩ | ⟨e,he,hpost⟩)
  · have hlast := (List.append_inj' he rfl).2
    exact hx _ _ _ (List.cons.inj hlast).1
  · rcases hpost with hpost | hpost
    · exact (hes e he).1 hpost
    · exact (hes e he).2 hpost

theorem Served.tail (es : List Event) {es' : List Event} (h : Served (es ++ es')) : Served es' :=
  fun x hx => h x (List.mem_append_right es hx)

theorem mem_third {α : Type} {a b c : α} : c ∈ [a,b,c] := by simp

/-- A run without a refusal ends its flow before it fails. -/
theorem Driven.settled {flow_id : String} {es : List Event} {r : Except Exit Value}
    (h : Driven flow_id es r) (hserved : Served es) {e : Error} (hr : r = .error (.failed e)) :
    Settled flow_id es := by
  induction h with
  | unfinished => cases hr
  | @idle x es r _ _ ih => exact (ih (Served.tail [x] hserved) hr).append [x]
  | refused body e => exact (hserved _ List.mem_cons_self ⟨flow_id,body,e,.inl rfl⟩).elim
  | done body _ => cases hr
  | cancelled body e hstage => exact .inl ⟨[],body,_,rfl,hstage⟩
  | waited body flow _ ih => exact (ih (Served.tail [_] hserved) hr).append [_]
  | matched body body' flow' _ _ ih =>
      exact (ih (Served.tail [_,_,_] hserved) hr).append [_,_,_]
  | unconfirmed body body' e _ => exact (hserved _ mem_third ⟨flow_id,body',e,.inr rfl⟩).elim
  | mismatched body body' answer e _ => exact .inr ⟨_,mem_third,.inl ⟨body',rfl⟩⟩
  | unanswered body body' answer e e' => exact .inr ⟨_,mem_third,.inr ⟨body',rfl⟩⟩
  | gaveUp body answer e => exact .inr ⟨_,List.mem_cons_self,.inr ⟨body,rfl⟩⟩

theorem refused_answer {x : Event} (h : Refused x) :
    ∃ path body e, x = ⟨.post path body,.error e⟩ := by
  obtain ⟨id,body,e,rfl | rfl⟩ := h
  · exact ⟨_,body,e,rfl⟩
  · exact ⟨_,body,e,rfl⟩

theorem ok_not_refused (path : String) (body flow : Value) :
    ¬ Refused ⟨.post path body,.ok flow⟩ := by
  intro h
  obtain ⟨_,_,_,he⟩ := refused_answer h
  cases he

theorem confirm_match_not_refused (sas : Value) (answer : Except Error Bool) :
    ¬ Refused ⟨.confirm_match sas,answer⟩ := by
  intro h
  obtain ⟨_,_,_,he⟩ := refused_answer h
  cases he

theorem idle_not_refused {x : Event} (hx : x.1.idle) : ¬ Refused x := by
  intro h
  obtain ⟨_,_,_,rfl⟩ := refused_answer h
  exact hx

/-- What ends a flow is not counted as refused. -/
theorem end_not_refused (flow_id : String) {action : String} (body : Value)
    (answer : Except Error Value) (haction : action ∈ ["mismatch","cancel"]) :
    ¬ Refused ⟨.post (flowPath flow_id action) body,answer⟩ := by
  have hslash : '/' ∉ action.toList := by
    simp only [List.mem_cons,List.not_mem_nil,or_false] at haction
    rcases haction with rfl | rfl
    · decide
    · decide
  rintro ⟨id,body',e,he | he⟩
  · obtain ⟨_,rfl⟩ := flowPath_inj hslash (by decide) (ClientAct.post.inj (Sigma.mk.inj he).1).1
    exact absurd haction (by decide)
  · obtain ⟨_,rfl⟩ := flowPath_inj hslash (by decide) (ClientAct.post.inj (Sigma.mk.inj he).1).1
    exact absurd haction (by decide)

/-- The run failed and left the flow as it was. -/
def Dangles (flow_id : String) (es : List Event) (r : Except Exit Value) : Prop :=
  (∃ e, r = .error (.failed e)) ∧ ¬ Settled flow_id es

/-- Events that end nothing and are served leave a flow dangling where what follows does. -/
theorem Dangles.append {flow_id : String} (pre : List Event) {es : List Event}
    {r : Except Exit Value}
    (hpre : ∀ e ∈ pre, Leaves flow_id e ∧ ¬ Refused e) (hserved : ¬ Served (pre ++ es))
    (h : ¬ Served es → Dangles flow_id es r) : Dangles flow_id (pre ++ es) r := by
  have hes : ¬ Served es := by
    intro hes
    refine hserved fun x hx => ?_
    rcases List.mem_append.mp hx with hx | hx
    · exact (hpre x hx).2
    · exact hes x hx
  have hne : es ≠ [] := by
    rintro rfl
    exact hes fun x hx => absurd hx List.not_mem_nil
  obtain ⟨hr,hsettled⟩ := h hes
  exact ⟨hr,fun h => hsettled (h.of_append (fun e he => (hpre e he).1) hne)⟩

theorem waiting_leaves (flow_id : String) (body flow : Value) (id : String) :
    Leaves id ⟨.post (flowPath flow_id "advance") body,.ok flow⟩ ∧
      ¬ Refused ⟨.post (flowPath flow_id "advance") body,.ok flow⟩ :=
  ⟨(advance_plain _ _ _).leaves id,ok_not_refused _ _ _⟩

theorem answered_leaves (sas : Value) (answer : Except Error Bool) (id : String) :
    Leaves id ⟨.confirm_match sas,answer⟩ ∧ ¬ Refused ⟨.confirm_match sas,answer⟩ :=
  ⟨(confirm_match_plain _ _).leaves id,confirm_match_not_refused _ _⟩

/-- The flow of a refused request is left as it is. -/
theorem Driven.dangling {flow_id : String} {es : List Event} {r : Except Exit Value}
    (h : Driven flow_id es r) (hserved : ¬ Served es) : Dangles flow_id es r := by
  have hends : ∀ {body body' flow : Value} {answer : Except Error Bool} {action : String}
      {answer' : Except Error Value} {P : Prop}, action ∈ ["mismatch","cancel"] →
      ¬ Served [⟨.post (flowPath flow_id "advance") body,.ok flow⟩,
        ⟨.confirm_match ((flow.get "sas").getD .null),answer⟩,
        ⟨.post (flowPath flow_id action) body',answer'⟩] → P := by
    intro body body' flow answer action answer' P haction hnot
    refine (hnot fun x hx => ?_).elim
    simp only [List.mem_cons,List.not_mem_nil,or_false] at hx
    rcases hx with rfl | rfl | rfl
    · exact ok_not_refused _ _ _
    · exact confirm_match_not_refused _ _
    · exact end_not_refused flow_id body' answer' haction
  have hone : ∀ {x : Event} {P : Prop}, ¬ Refused x → ¬ Served [x] → P :=
    fun hx hnot => (hnot fun y hy => by rwa [List.mem_singleton.mp hy]).elim
  induction h with
  | unfinished => exact (hserved fun x hx => absurd hx List.not_mem_nil).elim
  | @idle x es r hx _ ih =>
      refine Dangles.append [x] (fun e he => ?_) hserved ih
      rw [List.mem_singleton.mp he]
      exact ⟨(idle_plain hx).leaves flow_id,idle_not_refused hx⟩
  | refused body e =>
      refine ⟨⟨e,rfl⟩,not_settled [] (fun x hx => ?_) (by simp)⟩
      rw [List.mem_singleton.mp hx]
      exact (advance_plain _ _ _).leaves flow_id
  | done body _ => exact hone (ok_not_refused _ _ _) hserved
  | cancelled body e hstage => exact hone (ok_not_refused _ _ _) hserved
  | waited body flow _ ih =>
      refine Dangles.append [_] (fun e he => ?_) hserved ih
      rw [List.mem_singleton.mp he]
      exact waiting_leaves flow_id body flow flow_id
  | matched body body' flow' _ _ ih =>
      refine Dangles.append [_,_,_] (fun e he => ?_) hserved ih
      simp only [List.mem_cons,List.not_mem_nil,or_false] at he
      rcases he with rfl | rfl | rfl
      · exact waiting_leaves _ _ _ _
      · exact answered_leaves _ _ _
      · exact ⟨confirm_leaves _ _ _ _,ok_not_refused _ _ _⟩
  | unconfirmed body body' e _ =>
      refine ⟨⟨e,rfl⟩,not_settled [_,_] (fun x hx => ?_) (by simp)⟩
      simp only [List.cons_append,List.nil_append,List.mem_cons,List.not_mem_nil,or_false] at hx
      rcases hx with rfl | rfl | rfl
      · exact (waiting_leaves _ _ _ _).1
      · exact (answered_leaves _ _ _).1
      · exact confirm_leaves _ _ _ _
  | mismatched body body' answer e _ => exact hends (by decide) hserved
  | unanswered body body' answer e e' => exact hends (by decide) hserved
  | gaveUp body answer e => exact hone (end_not_refused flow_id body answer (by decide)) hserved

theorem Driven.done_last {flow_id : String} {es : List Event} {flow : Value}
    (h : Driven flow_id es (.ok flow)) : stageOf flow = "done" ∧
      ∃ before body, es = before ++ [⟨.post (flowPath flow_id "advance") body,.ok flow⟩] := by
  generalize hr : Except.ok flow = r at h
  induction h with
  | idle _ _ ih =>
      obtain ⟨hdone,before,body,rfl⟩ := ih hr
      exact ⟨hdone,_ :: before,body,rfl⟩
  | done body hdone =>
      cases hr
      exact ⟨hdone,[],body,rfl⟩
  | waited body _ _ ih =>
      obtain ⟨hdone,before,body',rfl⟩ := ih hr
      exact ⟨hdone,_ :: before,body',rfl⟩
  | matched body body' flow' _ _ ih =>
      obtain ⟨hdone,before,body'',rfl⟩ := ih hr
      exact ⟨hdone,_ :: _ :: _ :: before,body'',rfl⟩
  | _ => cases hr

/-- The loop gives no further flow ID. -/
theorem Driven.learned_none {flow_id : String} {es : List Event} {r : Except Exit Value}
    (h : Driven flow_id es r) : ∀ x ∈ es, learned x = none := by
  have hpost : ∀ action body answer,
      learned ⟨.post (flowPath flow_id action) body,answer⟩ = none := by
    intro action body answer
    cases answer with
    | ok flow => exact if_neg (start_ne_flowPath flow_id action)
    | error e => rfl
  have hidle : ∀ {x : Event}, x.1.idle → learned x = none := by
    rintro ⟨a,answer⟩ hx
    cases a with
    | now | status _ | sleep _ => rfl
    | _ => exact hx.elim
  have hmatch : ∀ sas answer, learned ⟨.confirm_match sas,answer⟩ = none := fun _ _ => rfl
  induction h with
  | unfinished => simp
  | idle hx _ ih => simpa [hidle hx] using ih
  | waited body flow _ ih => simpa [hpost] using ih
  | matched body body' flow' _ _ ih => simpa [hpost,hmatch] using ih
  | _ => simp [hpost,hmatch]

/-- Starting and listing concern no flow yet. -/
def Outer (e : Event) : Prop := ∀ flow_id action, ¬ Posts flow_id action e

theorem Outer.plain {e : Event} (h : Outer e) : Plain e := fun flow_id action _ => h flow_id action

theorem Outer.not_refused {e : Event} (h : Outer e) : ¬ Refused e := by
  rintro ⟨id,body,err,rfl | rfl⟩
  · exact h id "advance" ⟨body,rfl⟩
  · exact h id "confirm" ⟨body,rfl⟩

/-- What is learned in a run that ends this way. -/
def Learns (es : List Event) : Except Exit String → Prop
  | .ok flow_id => (∃ x ∈ es, learned x = some flow_id) ∧
      ∀ x ∈ es, learned x = none ∨ learned x = some flow_id
  | .error (.failed _) => ∀ x ∈ es, learned x = none
  | .error .unfinished => True

theorem idle_outer {e : Event} (h : e.1.idle) : Outer e := by
  rintro flow_id action ⟨body,he⟩
  rw [he] at h
  exact h

theorem get_outer (path : String) (answer : Except Error Value) : Outer ⟨.get path,answer⟩ := by
  rintro flow_id action ⟨body,he⟩
  cases he

theorem start_outer (body : Value) (answer : Except Error Value) :
    Outer ⟨.post "verify/start" body,answer⟩ := by
  rintro flow_id action ⟨body',he⟩
  exact start_ne_flowPath flow_id action (ClientAct.post.inj he).1.symm

theorem Learns.cons {e : Event} {es : List Event} {r : Except Exit String} (h : Learns es r)
    (he : learned e = none) : Learns (e :: es) r := by
  match r,h with
  | .ok flow_id,⟨⟨x,hx,hlearned⟩,honly⟩ =>
      refine ⟨⟨x,List.mem_cons_of_mem e hx,hlearned⟩,?_⟩
      intro y hy
      rcases List.mem_cons.mp hy with rfl | hy
      · exact .inl he
      · exact honly y hy
  | .error (.failed _),hnone =>
      intro y hy
      rcases List.mem_cons.mp hy with rfl | hy
      · exact he
      · exact hnone y hy
  | .error .unfinished,_ => trivial

theorem Learns.first {e : Event} {es : List Event} {flow_id : String}
    (h : learned e = some flow_id) (hes : ∀ x ∈ es, learned x = none) :
    Learns (e :: es) (.ok flow_id) := by
  refine ⟨⟨e,List.mem_cons_self,h⟩,?_⟩
  intro x hx
  rcases List.mem_cons.mp hx with rfl | hx
  · exact .inr h
  · exact .inl (hes x hx)

theorem Learns.failed (e : Error) : Learns [] (.error (.failed e)) := by
  intro x hx
  exact absurd hx List.not_mem_nil

theorem outer_cons {e : Event} {es : List Event} (he : Outer e) (h : ∀ x ∈ es, Outer x) :
    ∀ x ∈ e :: es, Outer x := by
  intro x hx
  rcases List.mem_cons.mp hx with rfl | hx
  · exact he
  · exact h x hx

theorem outer_nil : ∀ x ∈ ([] : List Event), Outer x := fun _ hx => absurd hx List.not_mem_nil

theorem learned_start (body flow : Value) :
    learned ⟨.post "verify/start" body,.ok flow⟩ = (flow.get "flow_id").bind Value.asStr := by
  simp [learned]

theorem wait_for_request_learns {options : Options} {deadline : Instant} {fuel : Nat}
    {es : List Event} {r : Except Exit String}
    (h : (wait_for_request options deadline fuel).Did es (.ret r)) :
    (∀ x ∈ es, Outer x) ∧ Learns es r := by
  induction fuel generalizing es with
  | zero =>
      obtain ⟨rfl,rfl⟩ := did_pure h
      exact ⟨outer_nil,trivial⟩
  | succ fuel ih =>
      obtain ⟨answer,es₁,rfl,h₁⟩ := did_ask (a := .get _) h
      cases answer with
      | error e =>
          obtain ⟨rfl,rfl⟩ := did_pure h₁
          exact ⟨outer_cons (get_outer _ _) outer_nil,(Learns.failed e).cons rfl⟩
      | ok list =>
          dsimp only [orFail] at h₁
          cases hincoming : incomingFlow list with
          | some flow_id =>
              rw [hincoming] at h₁
              obtain ⟨rfl,rfl⟩ := did_pure h₁
              exact ⟨outer_cons (get_outer _ _) outer_nil,.first hincoming (by simp)⟩
          | none =>
              rw [hincoming] at h₁
              obtain ⟨now,es₂,rfl,h₂⟩ := did_ask (a := .now) h₁
              suffices hrest : (∀ x ∈ es₂, Outer x) ∧ Learns es₂ r from
                ⟨outer_cons (get_outer _ _) (outer_cons (idle_outer trivial) hrest.1),
                  (hrest.2.cons rfl).cons hincoming⟩
              split_ifs at h₂
              · obtain ⟨rfl,rfl⟩ := did_pure h₂
                exact ⟨outer_nil,.failed _⟩
              · obtain ⟨_,es₃,rfl,h₃⟩ := did_ask (a := .sleep _) h₂
                obtain ⟨houter,hlearns⟩ := ih h₃
                exact ⟨outer_cons (idle_outer trivial) houter,hlearns.cons rfl⟩

theorem learn_flow_learns {fuel : Nat} {options : Options} {deadline : Instant}
    {es : List Event} {r : Except Exit String}
    (h : (learn_flow fuel options deadline).Did es (.ret r)) :
    (∀ x ∈ es, Outer x) ∧ Learns es r := by
  unfold learn_flow at h
  split at h
  next device _ =>
    obtain ⟨answer,es₁,rfl,h₁⟩ := did_ask (a := .post _ _) h
    cases answer with
    | error e =>
        obtain ⟨rfl,rfl⟩ := did_pure h₁
        exact ⟨outer_cons (start_outer _ _) outer_nil,(Learns.failed e).cons rfl⟩
    | ok flow =>
        obtain ⟨_,es₂,rfl,h₂⟩ := did_ask (a := .status _) h₁
        have houter : ∀ body message, ∀ x ∈ [(⟨.post "verify/start" body,.ok flow⟩ : Event),
            ⟨.status message,()⟩], Outer x := fun body message =>
          outer_cons (start_outer body _) (outer_cons (idle_outer trivial) outer_nil)
        cases hid : (flow.get "flow_id").bind Value.asStr with
        | some flow_id =>
            rw [hid] at h₂
            obtain ⟨rfl,rfl⟩ := did_pure h₂
            exact ⟨houter _ _,.first ((learned_start _ flow).trans hid) (by simp [learned])⟩
        | none =>
            rw [hid] at h₂
            obtain ⟨rfl,rfl⟩ := did_pure h₂
            exact ⟨houter _ _,((Learns.failed _).cons rfl).cons ((learned_start _ flow).trans hid)⟩
  next =>
    obtain ⟨_,es₁,rfl,h₁⟩ := did_ask (a := .status _) h
    obtain ⟨houter,hlearns⟩ := wait_for_request_learns h₁
    exact ⟨outer_cons (idle_outer trivial) houter,hlearns.cons rfl⟩

theorem run_parts {fuel : Nat} {options : Options} {es : List Event} {r : Except Exit Value}
    (h : (run fuel options).Did es (.ret r)) :
    ∃ pre es', es = pre ++ es' ∧ (∀ x ∈ pre, Outer x) ∧
      ((∃ e, r = .error e ∧ es' = [] ∧ Learns pre (.error e)) ∨
        ∃ flow_id, Learns pre (.ok flow_id) ∧ Driven flow_id es' r) := by
  obtain ⟨now,es₁,rfl,h₁⟩ := did_ask (a := .now) h
  obtain ⟨pre,es₂,learned,rfl,hpre,h₂⟩ := Prog.did_bind h₁
  obtain ⟨houter,hlearns⟩ := learn_flow_learns hpre
  refine ⟨_ :: pre,es₂,rfl,outer_cons (idle_outer trivial) houter,?_⟩
  cases learned with
  | ok flow_id => exact .inr ⟨flow_id,hlearns.cons rfl,drive_driven h₂⟩
  | error e =>
      obtain ⟨rfl,rfl⟩ := did_pure h₂
      exact .inl ⟨e,rfl,rfl,hlearns.cons rfl⟩

theorem run_asked {fuel : Nat} {options : Options} {es : List Event} {r : Except Exit Value}
    (h : (run fuel options).Did es (.ret r)) (id : String) : Each (Asked id) es := by
  obtain ⟨pre,es',rfl,houter,hparts⟩ := run_parts h
  have hpre : Each (Asked id) pre :=
    .of_forall fun x hx before => (houter x hx).plain.asked id before
  rcases hparts with ⟨e,_,rfl,_⟩ | ⟨flow_id,_,hdriven⟩
  · rwa [List.append_nil]
  · exact hpre.append (asked_extends id) (hdriven.asked id)

theorem served_append {pre es : List Event} (hpre : ∀ x ∈ pre, Outer x) :
    Served (pre ++ es) ↔ Served es := by
  constructor
  · exact Served.tail _
  · intro hes x hx
    rcases List.mem_append.mp hx with hx | hx
    · exact (hpre x hx).not_refused
    · exact hes x hx

/-- Whatever is answered, nothing is confirmed or reported unasked; and a run is tidy
exactly when no request to advance or to confirm is refused. -/
theorem run_tidy (fuel : Nat) (options : Options) :
    (∀ es p, (run fuel options).Did es p → ∀ flow_id, Each (Asked flow_id) es) ∧
      ∀ es r, (run fuel options).Did es (.ret r) → (Tidy es r ↔ Served es) := by
  constructor
  · intro es p h id
    have hanswer : ∀ a : ClientAct, Nonempty a.Ans := by
      intro a
      cases a with
      | post | get | confirm_match => exact ⟨.error (.text "")⟩
      | now => exact ⟨0⟩
      | status | sleep => exact ⟨()⟩
    obtain ⟨es',r,hr⟩ := h.extend hanswer
    exact (run_asked hr id).left
  · intro es r h
    have hasked := run_asked h
    obtain ⟨pre,es',rfl,houter,⟨e,rfl,rfl,hlearns⟩ | ⟨flow_id,⟨⟨x,hx,hlearned⟩,honly⟩,hdriven⟩⟩ :=
      run_parts h
    · rw [List.append_nil] at hasked ⊢
      have hserved : Served pre := fun x hx => (houter x hx).not_refused
      refine iff_of_true ⟨hasked,fun flow hr => (by cases hr),?_⟩ hserved
      intro flow_id e' hr
      cases hr
      rintro ⟨x,hx,hlearned⟩
      rw [hlearns x hx] at hlearned
      cases hlearned
    · rw [served_append houter]
      constructor
      · intro htidy
        by_contra hserved
        obtain ⟨⟨e,rfl⟩,hsettled⟩ := hdriven.dangling hserved
        have hne : es' ≠ [] := by
          rintro rfl
          exact hserved fun x hx => absurd hx List.not_mem_nil
        have hall := htidy.settled flow_id e rfl ⟨x,List.mem_append_left es' hx,hlearned⟩
        exact hsettled (hall.of_append (fun y hy => (houter y hy).plain.leaves flow_id) hne)
      · intro hserved
        refine ⟨hasked,?_,?_⟩
        · rintro flow rfl
          obtain ⟨hdone,before,body,rfl⟩ := hdriven.done_last
          exact ⟨hdone,flow_id,pre ++ before,body,(List.append_assoc ..).symm⟩
        · rintro id e rfl ⟨y,hy,hid⟩
          have hsame : id = flow_id := by
            rcases List.mem_append.mp hy with hy | hy
            · rcases honly y hy with hnone | hsome
              · rw [hnone] at hid
                cases hid
              · exact Option.some.inj (hid.symm.trans hsome)
            · rw [hdriven.learned_none y hy] at hid
              cases hid
          subst hsame
          exact (hdriven.settled hserved rfl).append pre

/-- The proxy starts the flow "f" and is down when it is to be advanced. -/
def downEvents : List Event := [⟨.now,0⟩,
  ⟨.post "verify/start" (.object [("device_id",.string "PHONE")]),
    .ok (.object [("flow_id",.string "f")])⟩,
  ⟨.status ("Verification requested. Accept it on " ++ "PHONE" ++
    " and choose emoji verification."),()⟩] ++
  [⟨.post (flowPath "f" "advance") (.object [("start_sas",.bool false)]),.error (.text "down")⟩]

/-- A request to advance that is answered with an error leaves the flow open. -/
theorem refused_advance_dangles :
    (run 1 ⟨some "PHONE",none,none,120000000000,1000000000⟩).Did downEvents
      (.ret (.error (.failed (.text "down")))) ∧
    ¬ Tidy downEvents (.error (.failed (.text "down"))) := by
  have hsettled : ¬ Settled "f" downEvents := by
    refine not_settled _ (fun x hx => ?_) (by simp)
    simp only [List.cons_append,List.nil_append,List.mem_cons,List.not_mem_nil,or_false] at hx
    rcases hx with rfl | rfl | rfl | rfl
    · exact (idle_plain (e := ⟨.now,0⟩) trivial).leaves "f"
    · exact (start_outer _ _).plain.leaves "f"
    · exact (idle_plain (e := ⟨.status _,()⟩) trivial).leaves "f"
    · exact (advance_plain _ _ _).leaves "f"
  constructor
  · exact .cons (.cons (.cons (.cons (.nil _))))
  · intro htidy
    exact hsettled (htidy.settled "f" _ rfl ⟨_,List.mem_cons_of_mem _ List.mem_cons_self,rfl⟩)

end EmentE2ee.Ctl
