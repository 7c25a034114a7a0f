import Mathlib.Data.List.TakeWhile
import EmentE2ee.Admin.Client
import EmentE2ee.DotSegments
import EmentE2ee.Proxy.RoutePaths
import EmentE2ee.Splitting

/-!
# Which flow a request of ctl reaches

ctl puts flow IDs into paths and users into queries as they are. The HTTP client
escapes what may not stand there, and the proxy takes segments and values as they come.
-/
namespace EmentE2ee

open Json (Value)

namespace Ctl

inductive FlowAction where
  | advance (start_sas : Bool)
  | mismatch
  | accept
  | startSas
  | sasAccept
  | confirm
  | cancel
  deriving DecidableEq, Repr

def FlowAction.word : FlowAction → String
  | advance _ => "advance"
  | mismatch => "mismatch"
  | accept => "accept"
  | startSas => "start-sas"
  | sasAccept => "sas-accept"
  | confirm => "confirm"
  | cancel => "cancel"

/-- Only an advance says more than whom it is about. -/
def FlowAction.body : FlowAction → Json.Map → Json.Map
  | advance start_sas,m => Json.Map.insert "start_sas" (.bool start_sas) m
  | _,m => m

/-- What a request about verifications is for. -/
inductive Wanted where
  | list
  | start (device_id : String)
  | showFlow (flow_id : String)
  | act (flow_id : String) (action : FlowAction)
  deriving DecidableEq, Repr

def Wanted.flow : Wanted → Option String
  | showFlow flow_id | act flow_id _ => some flow_id
  | _ => none

/-- A request whose users stand in its query. -/
def Wanted.reads : Wanted → Bool
  | list | showFlow _ => true
  | _ => false

/-- A request to the admin API: what is put after the base, and the body, null if none. -/
structure Sent where
  method : Method
  text : String
  body : Value

def run_verify (common : VerifyCommon) : Wanted → Sent
  | .list => ⟨.get,"verify" ++ common_query common,.null⟩
  | .start device_id => ⟨.post,"verify/start",
      .object (Json.Map.insert "device_id" (.string device_id) (common_body common))⟩
  | .showFlow flow_id => ⟨.get,"verify/" ++ flow_id ++ common_query common,.null⟩
  | .act flow_id action =>
      ⟨.post,flowPath flow_id action.word,.object (action.body (common_body common))⟩

end Ctl

namespace Admin

open Ctl

/-- Pairs of a query, neither name nor value decoded. -/
def parse_query (query : Option String) : List (String × String) :=
  ((query.getD "").toList.splitOn '&').filterMap fun kv =>
    (splitOnce '=' kv).map fun p => (String.ofList p.1,String.ofList p.2)

def json_params (body : Value) : List (String × String) :=
  (body.asObject.getD []).filterMap fun e => e.2.asStr.map fun s => (e.1,s)

/-- Of pairs with one name the last counts. -/
def param (params : List (String × String)) (name : String) : Option String :=
  params.reverse.lookup name

/-- The session and the other user that the parameters name. -/
def verify_target (params : List (String × String)) : VerifyCommon :=
  ⟨param params "user_id",param params "with_user"⟩

/-- What a request under the admin prefix is taken for. -/
inductive Dispatched where
  | status
  | bootstrap (body : Value)
  | keysExport (body : Value)
  | keysImport (body : Value)
  | verify (target : VerifyCommon) (wanted : Wanted)
  | missingDevice (target : VerifyCommon)
  | unknownAction (target : VerifyCommon) (action : String)
  | debug (method : Method) (path : List String) (query : List (String × String)) (body : Value)
  | unknownRoute (method : Method) (sub : String)

def start_sas (body : Value) : Bool :=
  match body.get "start_sas" with
  | some (.bool true) => true
  | _ => false

def flowAction (body : Value) : String → Option FlowAction
  | "advance" => some (.advance (start_sas body))
  | "mismatch" => some .mismatch
  | "accept" => some .accept
  | "start-sas" => some .startSas
  | "sas-accept" => some .sasAccept
  | "confirm" => some .confirm
  | "cancel" => some .cancel
  | _ => none

def parts (sub : String) : List String :=
  ((sub.toList.splitOn '/').map String.ofList).filter (· ≠ "")

def handle (method : Method) (sub : String) (query : Option String) (body : Value) : Dispatched :=
  match method,parts sub with
  | .get,["status"] => .status
  | .post,["bootstrap"] => .bootstrap body
  | .post,["keys","export"] => .keysExport body
  | .post,["keys","import"] => .keysImport body
  | .get,["verify"] => .verify (verify_target (parse_query query)) .list
  | .post,["verify","start"] =>
      match param (json_params body) "device_id" with
      | some device_id => .verify (verify_target (json_params body)) (.start device_id)
      | none => .missingDevice (verify_target (json_params body))
  | .get,["verify",flow] => .verify (verify_target (parse_query query)) (.showFlow flow)
  | .post,["verify",flow,action] =>
      match flowAction body action with
      | some a => .verify (verify_target (json_params body)) (.act flow a)
      | none => .unknownAction (verify_target (json_params body)) action
  | method,"debug" :: rest => .debug method (rest.map dec) (parse_query query) body
  | method,_ => .unknownRoute method sub

end Admin

namespace Ctl

/-- What an HTTP client sends for the text that is put after the base: which characters
it leaves as they are in a path and in a query, and the path and the query it sends. -/
structure HttpClient where
  pathChar : Char → Bool
  queryChar : Char → Bool
  send : String → String × Option String

namespace HttpClient

/-- Text that is sent as it is in a path. -/
def Fine (c : HttpClient) (path : String) : Prop :=
  (∀ ch ∈ path.toList, c.pathChar ch = true) ∧
    ∀ s ∈ path.toList.splitOn '/', isDots (String.ofList s) = false

/-- What is documented of HTTP clients: of a path and of a query nothing is sent that may
not stand there, no dots are left in a path, and what is fine is sent as it is. -/
structure Standard (c : HttpClient) : Prop where
  path_unreserved : ∀ ch, plain ch = true → c.pathChar ch = true
  path_slash : c.pathChar '/' = true
  query_unreserved : ∀ ch, plain ch = true → c.queryChar ch = true
  query_pairs : c.queryChar '=' = true ∧ c.queryChar '&' = true
  path_escaped : ∀ text, ∀ ch ∈ (c.send text).1.toList, c.pathChar ch = true
  path_resolved : ∀ text, ∀ s ∈ (c.send text).1.toList.splitOn '/', isDots (String.ofList s) = false
  query_escaped : ∀ text q, (c.send text).2 = some q → ∀ ch ∈ q.toList, c.queryChar ch = true
  path_kept : ∀ path, c.Fine path → c.send path = ("/_ement/" ++ path,none)
  query_kept : ∀ path q, c.Fine path → (∀ ch ∈ q.toList, c.queryChar ch = true) →
    c.send (path ++ ("?" ++ q)) = ("/_ement/" ++ path,some q)

end HttpClient

/-- What the proxy takes a request for, if it reaches the admin API at all. -/
def received (c : HttpClient) (sent : Sent) : Option Admin.Dispatched :=
  match classify sent.method (c.send sent.text).1 with
  | .admin sub => some (Admin.handle sent.method sub (c.send sent.text).2 sent.body)
  | _ => none

/-- The flow ID is a segment that is sent as it is, and so are users in a query. -/
structure Fits (c : HttpClient) (common : VerifyCommon) (wanted : Wanted) : Prop where
  flow : ∀ f ∈ wanted.flow, f ≠ "" ∧ (∀ ch ∈ f.toList, ch ≠ '/' ∧ c.pathChar ch = true) ∧
    isDots f = false
  users : wanted.reads = true → ∀ user ∈ common.user_id.toList ++ common.with_user.toList,
    ∀ ch ∈ user.toList, ch ≠ '&' ∧ c.queryChar ch = true

theorem classifySegments_not_admin (method : Method) (segments : List String) (sub : String) :
    classifySegments method segments ≠ .admin sub := by
  unfold classifySegments
  split <;> first | (split_ifs <;> simp) | simp

theorem classify_admin {method : Method} {path sub : String}
    (h : classify method path = .admin sub) :
    path.toList = "/_ement".toList ++ '/' :: sub.toList ∨ sub = "" := by
  unfold classify at h
  cases hstrip : stripPrefix "/_ement/" path with
  | some rest =>
      rw [hstrip] at h
      cases h
      unfold stripPrefix at hstrip
      split_ifs at hstrip with hprefix
      obtain ⟨rest,hrest⟩ := List.isPrefixOf_iff_prefix.mp hprefix
      have htext : (String.ofList rest).toList = rest := String.toList_ofList
      refine .inl ?_
      rw [← Option.some.inj hstrip,← hrest,List.drop_left,htext]
      rfl
  | none =>
      rw [hstrip] at h
      dsimp only at h
      split_ifs at h
      · cases h
        exact .inr rfl
      · exact (classifySegments_not_admin _ _ _ h).elim

theorem handle_flow {method : Method} {sub : String} {query : Option String} {body : Value}
    {target : VerifyCommon} {wanted : Wanted}
    (h : Admin.handle method sub query body = .verify target wanted) :
    ∀ f ∈ wanted.flow, f ∈ Admin.parts sub := by
  unfold Admin.handle at h
  split at h
  case h_5 => cases h; simp [Wanted.flow]
  case h_6 =>
    split at h
    · cases h
      simp [Wanted.flow]
    · cases h
  case h_7 hparts => cases h; simp [Wanted.flow,hparts]
  case h_8 hparts =>
    split at h
    · cases h
      simp [Wanted.flow,hparts]
    · cases h
  all_goals cases h

theorem handle_reads {sub : String} {query : Option String} {body : Value} {target : VerifyCommon}
    {wanted : Wanted} (h : Admin.handle .get sub query body = .verify target wanted) :
    target = Admin.verify_target (Admin.parse_query query) := by
  unfold Admin.handle at h
  split at h <;> simp_all

theorem mem_of_param {params : List (String × String)} {name v : String}
    (h : Admin.param params name = some v) : (name,v) ∈ params := by
  unfold Admin.param at h
  obtain ⟨before,after,hparams,_⟩ := List.lookup_eq_some_iff.mp h
  rw [← List.mem_reverse,hparams]
  simp

/-- A value of a query is a part of it without separators. -/
theorem param_query {query : Option String} {name v : String}
    (h : Admin.param (Admin.parse_query query) name = some v) :
    ∀ ch ∈ v.toList, ch ≠ '&' ∧ ∃ q, query = some q ∧ ch ∈ q.toList := by
  obtain ⟨kv,hkv,hp⟩ := List.mem_filterMap.mp (mem_of_param h)
  obtain ⟨p,hsplit,he⟩ := Option.map_eq_some_iff.mp hp
  cases he
  intro ch hch
  rw [String.toList_ofList] at hch
  have hmem : ch ∈ kv := by
    rw [(splitOnce_some hsplit).1]
    exact List.mem_append_right _ (List.mem_cons_of_mem _ hch)
  obtain ⟨hsep,hquery⟩ := mem_splitOn hkv ch hmem
  refine ⟨hsep,?_⟩
  cases query with
  | none => exact absurd hquery List.not_mem_nil
  | some q => exact ⟨q,rfl,hquery⟩

theorem fits_of_received {c : HttpClient} (hc : c.Standard) {common : VerifyCommon}
    {wanted : Wanted} (h : received c (run_verify common wanted) = some (.verify common wanted)) :
    Fits c common wanted := by
  unfold received at h
  split at h
  next sub hclassify =>
    have hhandle := Option.some.inj h
    constructor
    · intro f hf
      obtain ⟨hmem,hne⟩ := List.mem_filter.mp (handle_flow hhandle f hf)
      obtain ⟨s,hs,rfl⟩ := List.mem_map.mp hmem
      have hne : String.ofList s ≠ "" := by simpa using hne
      have hsegment : s ∈ (c.send (run_verify common wanted).text).1.toList.splitOn '/' := by
        rcases classify_admin hclassify with hpath | hsub
        · rw [hpath,List.splitOn_append_cons_self]
          exact List.mem_append_right _ hs
        · rw [hsub] at hs
          have hnil : s = [] := List.mem_singleton.mp hs
          exact (hne (by rw [hnil])).elim
      refine ⟨hne,?_,hc.path_resolved _ s hsegment⟩
      intro ch hch
      rw [String.toList_ofList] at hch
      obtain ⟨hslash,hpath⟩ := mem_splitOn hsegment ch hch
      exact ⟨hslash,hc.path_escaped _ ch hpath⟩
    · intro hreads user huser ch hch
      have hmethod : (run_verify common wanted).method = .get := by
        cases wanted with
        | list | showFlow _ => rfl
        | _ => cases hreads
      rw [hmethod] at hhandle
      have htarget := handle_reads hhandle
      have hparam : ∃ name, Admin.param (Admin.parse_query
          (c.send (run_verify common wanted).text).2) name = some user := by
        rcases List.mem_append.mp huser with huser | huser
        · exact ⟨"user_id",(congrArg VerifyCommon.user_id htarget).symm.trans
            (Option.mem_toList.mp huser)⟩
        · exact ⟨"with_user",(congrArg VerifyCommon.with_user htarget).symm.trans
            (Option.mem_toList.mp huser)⟩
      obtain ⟨name,hname⟩ := hparam
      obtain ⟨hsep,q,hq,hmem⟩ := param_query hname ch hch
      exact ⟨hsep,hc.query_escaped _ q hq ch hmem⟩
  next => cases h

theorem classify_base (method : Method) (path : String) :
    classify method ("/_ement/" ++ path) = .admin path := by
  have hstrip : stripPrefix "/_ement/" ("/_ement/" ++ path) = some path := by
    unfold stripPrefix
    rw [String.toList_append,if_pos (List.isPrefixOf_iff_prefix.mpr (List.prefix_append _ _)),
      List.drop_left,String.ofList_toList]
  rw [classify,hstrip]

/-- The path of these segments, with no slash before the first. -/
def pathOf (segments : List String) : String :=
  String.ofList (['/'].intercalate (segments.map String.toList))

theorem splitOn_pathOf {segments : List String} (hne : segments ≠ [])
    (h : ∀ s ∈ segments, '/' ∉ s.toList) :
    (pathOf segments).toList.splitOn '/' = segments.map String.toList := by
  rw [pathOf,String.toList_ofList]
  refine List.splitOn_intercalate '/' ?_ (by simpa using hne)
  intro l hl
  obtain ⟨s,hs,rfl⟩ := List.mem_map.mp hl
  exact h s hs

/-- Segments as they were joined. -/
theorem parts_pathOf {segments : List String} (hne : segments ≠ [])
    (h : ∀ s ∈ segments, s ≠ "" ∧ '/' ∉ s.toList) : Admin.parts (pathOf segments) = segments := by
  rw [Admin.parts,splitOn_pathOf hne fun s hs => (h s hs).2,List.map_map]
  have hid : (String.ofList ∘ String.toList) = id := by
    funext s
    exact String.ofList_toList
  rw [hid,List.map_id,List.filter_eq_self]
  intro s hs
  simpa using (h s hs).1

/-- A segment that comes through. -/
def Passes (c : HttpClient) (s : String) : Prop :=
  s ≠ "" ∧ (∀ ch ∈ s.toList, ch ≠ '/' ∧ c.pathChar ch = true) ∧ isDots s = false

theorem Passes.no_slash {c : HttpClient} {s : String} (h : Passes c s) : '/' ∉ s.toList :=
  fun hc => (h.2.1 '/' hc).1 rfl

theorem pathOf_fine {c : HttpClient} (hc : c.Standard) {segments : List String}
    (hne : segments ≠ []) (h : ∀ s ∈ segments, Passes c s) : c.Fine (pathOf segments) := by
  constructor
  · intro ch hch
    rw [pathOf,String.toList_ofList] at hch
    rcases mem_intercalate hch with rfl | ⟨l,hl,hch⟩
    · exact hc.path_slash
    · obtain ⟨s,hs,rfl⟩ := List.mem_map.mp hl
      exact ((h s hs).2.1 ch hch).2
  · intro l hl
    rw [splitOn_pathOf hne fun s hs => (h s hs).no_slash] at hl
    obtain ⟨s,hs,rfl⟩ := List.mem_map.mp hl
    rw [String.ofList_toList]
    exact (h s hs).2.2

/-- A name that ends before the value. -/
def Name (k : String) : Prop := '&' ∉ k.toList ∧ '=' ∉ k.toList

theorem pair_toList (k v : String) : (k ++ ("=" ++ v)).toList = k.toList ++ '=' :: v.toList := by
  rw [String.toList_append,String.toList_append]
  rfl

theorem pair_no_sep {k v : String} (hk : Name k) (hv : '&' ∉ v.toList) :
    '&' ∉ (k ++ ("=" ++ v)).toList := by
  rw [pair_toList]
  intro h
  rcases List.mem_append.mp h with h | h
  · exact hk.1 h
  · rcases List.mem_cons.mp h with h | h
    · exact absurd h (by decide)
    · exact hv h

theorem pair_read {k v : String} (hk : Name k) :
    (splitOnce '=' (k ++ ("=" ++ v)).toList).map
      (fun p => (String.ofList p.1,String.ofList p.2)) = some (k,v) := by
  rw [pair_toList,splitOnce_append hk.2]
  simp

theorem parse_one {k v : String} (hk : Name k) (hv : '&' ∉ v.toList) :
    Admin.parse_query (some (k ++ ("=" ++ v))) = [(k,v)] := by
  rw [Admin.parse_query,Option.getD_some,List.splitOn_eq_singleton (pair_no_sep hk hv)]
  simp only [List.filterMap_cons,List.filterMap_nil,pair_read hk]

theorem parse_two {k v l w : String} (hk : Name k) (hv : '&' ∉ v.toList) (hl : Name l)
    (hw : '&' ∉ w.toList) :
    Admin.parse_query (some (k ++ ("=" ++ v) ++ ("&" ++ (l ++ ("=" ++ w))))) = [(k,v),(l,w)] := by
  have htext : (k ++ ("=" ++ v) ++ ("&" ++ (l ++ ("=" ++ w)))).toList =
      (k ++ ("=" ++ v)).toList ++ '&' :: (l ++ ("=" ++ w)).toList := by
    simp only [String.toList_append]
    rfl
  rw [Admin.parse_query,Option.getD_some,htext,
    List.splitOn_append_cons_self_of_not_mem (pair_no_sep hk hv),
    List.splitOn_eq_singleton (pair_no_sep hl hw)]
  simp only [List.filterMap_cons,List.filterMap_nil,pair_read hk,pair_read hl]

theorem forall_append {p : Char → Prop} {s t : String} (hs : ∀ ch ∈ s.toList, p ch)
    (ht : ∀ ch ∈ t.toList, p ch) : ∀ ch ∈ (s ++ t).toList, p ch := by
  intro ch hch
  rw [String.toList_append] at hch
  exact (List.mem_append.mp hch).elim (hs ch) (ht ch)

theorem pair_sent {c : HttpClient} (hc : c.Standard) {k v : String}
    (hk : ∀ ch ∈ k.toList, plain ch = true) (hv : ∀ ch ∈ v.toList, c.queryChar ch = true) :
    ∀ ch ∈ (k ++ ("=" ++ v)).toList, c.queryChar ch = true := by
  intro ch hch
  rw [pair_toList] at hch
  rcases List.mem_append.mp hch with hch | hch
  · exact hc.query_unreserved ch (hk ch hch)
  · rcases List.mem_cons.mp hch with rfl | hch
    · exact hc.query_pairs.1
    · exact hv ch hch

theorem user_id_name : Name "user_id" ∧ ∀ ch ∈ "user_id".toList, plain ch = true := by
  unfold Name
  decide

theorem with_user_name : Name "with_user" ∧ ∀ ch ∈ "with_user".toList, plain ch = true := by
  unfold Name
  decide

theorem user_id_text (u : String) : "user_id=" ++ u = "user_id" ++ ("=" ++ u) := by
  have h : "user_id=" = "user_id" ++ "=" := rfl
  rw [h,String.append_assoc]

theorem with_user_text (w : String) : "with_user=" ++ w = "with_user" ++ ("=" ++ w) := by
  have h : "with_user=" = "with_user" ++ "=" := rfl
  rw [h,String.append_assoc]

theorem query_both (u w : String) : common_query ⟨some u,some w⟩ =
    "?" ++ ("user_id" ++ ("=" ++ u) ++ ("&" ++ ("with_user" ++ ("=" ++ w)))) := by
  have h : common_query ⟨some u,some w⟩ = "?" ++ ("user_id=" ++ u ++ "&" ++ ("with_user=" ++ w)) :=
    rfl
  rw [h,user_id_text,with_user_text]
  simp only [String.append_assoc]

/-- Users that fit are read from the query as they were put there. -/
theorem users_received {c : HttpClient} (hc : c.Standard) {path : String} (hpath : c.Fine path)
    {common : VerifyCommon}
    (h : ∀ user ∈ common.user_id.toList ++ common.with_user.toList,
      ∀ ch ∈ user.toList, ch ≠ '&' ∧ c.queryChar ch = true) :
    ∃ q, c.send (path ++ common_query common) = ("/_ement/" ++ path,q) ∧
      Admin.verify_target (Admin.parse_query q) = common := by
  obtain ⟨user_id,with_user⟩ := common
  have hsep : ∀ user ∈ user_id.toList ++ with_user.toList, '&' ∉ user.toList :=
    fun user hu hch => (h user hu '&' hch).1 rfl
  have hchars : ∀ user ∈ user_id.toList ++ with_user.toList,
      ∀ ch ∈ user.toList, c.queryChar ch = true :=
    fun user hu ch hch => (h user hu ch hch).2
  cases user_id with
  | none =>
      cases with_user with
      | none =>
          refine ⟨none,?_,rfl⟩
          have htext : path ++ common_query ⟨none,none⟩ = path := String.append_empty
          rw [htext]
          exact hc.path_kept path hpath
      | some w =>
          have htext : common_query ⟨none,some w⟩ = "?" ++ ("with_user" ++ ("=" ++ w)) := by
            rw [← with_user_text]
            rfl
          have hw : w ∈ (none : Option String).toList ++ (some w).toList := by simp
          refine ⟨some ("with_user" ++ ("=" ++ w)),?_,?_⟩
          · rw [htext]
            exact hc.query_kept path _ hpath (pair_sent hc with_user_name.2 (hchars w hw))
          · rw [parse_one with_user_name.1 (hsep w hw)]
            rfl
  | some u =>
      cases with_user with
      | none =>
          have htext : common_query ⟨some u,none⟩ = "?" ++ ("user_id" ++ ("=" ++ u)) := by
            rw [← user_id_text]
            rfl
          have hu : u ∈ (some u).toList ++ (none : Option String).toList := by simp
          refine ⟨some ("user_id" ++ ("=" ++ u)),?_,?_⟩
          · rw [htext]
            exact hc.query_kept path _ hpath (pair_sent hc user_id_name.2 (hchars u hu))
          · rw [parse_one user_id_name.1 (hsep u hu)]
            rfl
      | some w =>
          have hu : u ∈ (some u).toList ++ (some w).toList := by simp
          have hw : w ∈ (some u).toList ++ (some w).toList := by simp
          refine ⟨some ("user_id" ++ ("=" ++ u) ++ ("&" ++ ("with_user" ++ ("=" ++ w)))),?_,?_⟩
          · rw [query_both]
            have hand : ∀ ch ∈ "&".toList, c.queryChar ch = true := by
              intro ch hch
              rw [List.mem_singleton.mp hch]
              exact hc.query_pairs.2
            exact hc.query_kept path _ hpath
              (forall_append (pair_sent hc user_id_name.2 (hchars u hu))
                (forall_append hand (pair_sent hc with_user_name.2 (hchars w hw))))
          · rw [parse_two user_id_name.1 (hsep u hu) with_user_name.1 (hsep w hw)]
            rfl

theorem body_target (common : VerifyCommon) :
    Admin.verify_target (Admin.json_params (.object (common_body common))) = common := by
  obtain ⟨user_id,with_user⟩ := common
  cases user_id <;> cases with_user <;> rfl

theorem start_target (common : VerifyCommon) (device_id : String) :
    Admin.verify_target (Admin.json_params (run_verify common (.start device_id)).body) = common ∧
      Admin.param (Admin.json_params (run_verify common (.start device_id)).body) "device_id" =
        some device_id := by
  obtain ⟨user_id,with_user⟩ := common
  cases user_id <;> cases with_user <;> exact ⟨rfl,rfl⟩

theorem act_target (common : VerifyCommon) (f : String) (action : FlowAction) :
    Admin.verify_target (Admin.json_params (run_verify common (.act f action)).body) = common ∧
      Admin.flowAction (run_verify common (.act f action)).body action.word = some action := by
  cases action with
  | advance start_sas =>
      obtain ⟨user_id,with_user⟩ := common
      cases user_id <;> cases with_user <;> cases start_sas <;> exact ⟨rfl,rfl⟩
  | _ => exact ⟨body_target common,rfl⟩

theorem list_path : "verify" = pathOf ["verify"] := rfl

theorem start_path : "verify/start" = pathOf ["verify","start"] := rfl

theorem show_path (f : String) : "verify/" ++ f = pathOf ["verify",f] := by
  refine String.toList_injective ?_
  rw [pathOf,String.toList_ofList,String.toList_append]
  simp [List.intercalate]

theorem act_path (f word : String) : flowPath f word = pathOf ["verify",f,word] := by
  refine String.toList_injective ?_
  rw [flowPath,pathOf,String.toList_ofList]
  simp [List.intercalate]

/-- Plain words pass, if they are not dots. -/
theorem word_passes {c : HttpClient} (hc : c.Standard) {s : String}
    (h : s ≠ "" ∧ (∀ ch ∈ s.toList, ch ≠ '/' ∧ plain ch = true) ∧ isDots s = false) :
    Passes c s :=
  ⟨h.1,fun ch hch => ⟨(h.2.1 ch hch).1,hc.path_unreserved ch (h.2.1 ch hch).2⟩,h.2.2⟩

theorem verify_passes {c : HttpClient} (hc : c.Standard) : Passes c "verify" :=
  word_passes hc (by decide)

theorem action_passes {c : HttpClient} (hc : c.Standard) (action : FlowAction) :
    Passes c action.word := by
  refine word_passes hc ?_
  cases action with
  | advance start_sas => cases start_sas <;> decide
  | _ => decide

/-- A path of segments that pass arrives as it is, and is handled by its segments. -/
theorem received_pathOf {c : HttpClient} {sent : Sent} {segments : List String}
    {q : Option String} (hne : segments ≠ []) (h : ∀ s ∈ segments, Passes c s)
    (hsend : c.send sent.text = ("/_ement/" ++ pathOf segments,q)) :
    ∃ sub, Admin.parts sub = segments ∧
      received c sent = some (Admin.handle sent.method sub q sent.body) := by
  refine ⟨_,parts_pathOf hne fun s hs => ⟨(h s hs).1,(h s hs).no_slash⟩,?_⟩
  rw [received,hsend,classify_base]

theorem handle_list {sub : String} {query : Option String} {body : Value}
    (h : Admin.parts sub = ["verify"]) : Admin.handle .get sub query body =
      .verify (Admin.verify_target (Admin.parse_query query)) .list := by
  unfold Admin.handle
  rw [h]
  rfl

theorem handle_show {sub f : String} {query : Option String} {body : Value}
    (h : Admin.parts sub = ["verify",f]) : Admin.handle .get sub query body =
      .verify (Admin.verify_target (Admin.parse_query query)) (.showFlow f) := by
  unfold Admin.handle
  rw [h]
  rfl

theorem handle_start {sub device_id : String} {query : Option String} {body : Value}
    (h : Admin.parts sub = ["verify","start"])
    (hdevice : Admin.param (Admin.json_params body) "device_id" = some device_id) :
    Admin.handle .post sub query body =
      .verify (Admin.verify_target (Admin.json_params body)) (.start device_id) := by
  unfold Admin.handle
  rw [h]
  simp only [hdevice]

theorem handle_act {sub f word : String} {action : FlowAction} {query : Option String}
    {body : Value} (h : Admin.parts sub = ["verify",f,word])
    (haction : Admin.flowAction body word = some action) : Admin.handle .post sub query body =
      .verify (Admin.verify_target (Admin.json_params body)) (.act f action) := by
  unfold Admin.handle
  rw [h]
  simp only [haction]

theorem received_of_fits {c : HttpClient} (hc : c.Standard) {common : VerifyCommon}
    {wanted : Wanted} (h : Fits c common wanted) :
    received c (run_verify common wanted) = some (.verify common wanted) := by
  have hverify := verify_passes hc
  cases wanted with
  | list =>
      have hpass : ∀ s ∈ ["verify"], Passes c s := by simpa using hverify
      obtain ⟨q,hq,htarget⟩ := users_received hc (pathOf_fine hc (by decide) hpass) (h.users rfl)
      have hsend : c.send (run_verify common .list).text = ("/_ement/" ++ pathOf ["verify"],q) := by
        rw [← hq,← list_path]
        rfl
      obtain ⟨sub,hparts,hreceived⟩ := received_pathOf (by decide) hpass hsend
      rw [hreceived]
      exact congrArg some ((handle_list hparts).trans (by rw [htarget]))
  | start device_id =>
      have hstart : Passes c "start" := word_passes hc (by decide)
      have hpass : ∀ s ∈ ["verify","start"], Passes c s := by simpa using ⟨hverify,hstart⟩
      have hsend : c.send (run_verify common (.start device_id)).text =
          ("/_ement/" ++ pathOf ["verify","start"],none) := by
        rw [← hc.path_kept _ (pathOf_fine hc (by decide) hpass),← start_path]
        rfl
      obtain ⟨sub,hparts,hreceived⟩ := received_pathOf (by decide) hpass hsend
      obtain ⟨htarget,hdevice⟩ := start_target common device_id
      rw [hreceived]
      exact congrArg some ((handle_start hparts hdevice).trans (by rw [htarget]))
  | showFlow f =>
      have hpass : ∀ s ∈ ["verify",f], Passes c s := by simpa using ⟨hverify,h.flow f rfl⟩
      obtain ⟨q,hq,htarget⟩ := users_received hc (pathOf_fine hc (by simp) hpass) (h.users rfl)
      have hsend : c.send (run_verify common (.showFlow f)).text =
          ("/_ement/" ++ pathOf ["verify",f],q) := by
        rw [← hq,← show_path]
        rfl
      obtain ⟨sub,hparts,hreceived⟩ := received_pathOf (by simp) hpass hsend
      rw [hreceived]
      exact congrArg some ((handle_show hparts).trans (by rw [htarget]))
  | act f action =>
      have hpass : ∀ s ∈ ["verify",f,action.word], Passes c s := by
        simpa using ⟨hverify,h.flow f rfl,action_passes hc action⟩
      have hsend : c.send (run_verify common (.act f action)).text =
          ("/_ement/" ++ pathOf ["verify",f,action.word],none) := by
        rw [← hc.path_kept _ (pathOf_fine hc (by simp) hpass),← act_path]
        rfl
      obtain ⟨sub,hparts,hreceived⟩ := received_pathOf (by simp) hpass hsend
      obtain ⟨htarget,haction⟩ := act_target common f action
      rw [hreceived]
      exact congrArg some ((handle_act hparts haction).trans (by rw [htarget]))

/-- **Routing of ctl's verify requests.** A request reaches what it is for exactly if its
flow ID is one segment sent as it is and its users, in a query, are sent as they are. -/
theorem verify_reaches (c : HttpClient) (hc : c.Standard) (common : VerifyCommon)
    (wanted : Wanted) :
    received c (run_verify common wanted) = some (.verify common wanted) ↔
      Fits c common wanted :=
  ⟨fits_of_received hc,received_of_fits hc⟩

/-- Characters of a path: no blank, quote, number sign, angle bracket, question mark,
backslash, caret, backtick or brace. -/
def pathChar (c : Char) : Bool :=
  32 < c.toNat && c.toNat < 127 && c.toNat ∉ [34,35,60,62,63,92,94,96,123,125]

/-- Characters of a query: no blank, quote, number sign or angle bracket. -/
def queryChar (c : Char) : Bool := 32 < c.toNat && c.toNat < 127 && c.toNat ∉ [34,35,39,60,62]

def escapeChar (kept : Char → Bool) (c : Char) : List Char :=
  if kept c then [c] else (enc (String.singleton c)).toList

/-- The segments of a path, where a backslash counts as a slash. -/
def pathSegments (path : List Char) : List String :=
  ((path.flatMap fun c => if c.toNat = 92 then ['/'] else escapeChar pathChar c).splitOn
    '/').map String.ofList

def sentPath (path : List Char) : String := joined (resolveDots ("_ement" :: pathSegments path))

def sentQuery (query : List Char) : String :=
  String.ofList (query.flatMap (escapeChar queryChar))

/-- A fragment is not sent. -/
def standardClient : HttpClient where
  pathChar := pathChar
  queryChar := queryChar
  send text :=
    let text := text.toList.takeWhile (· ≠ '#')
    match splitOnce '?' text with
    | some (path,query) => (sentPath path,some (sentQuery query))
    | none => (sentPath text,none)

theorem plain_chars {c : Char} (h : plain c = true) :
    pathChar c = true ∧ queryChar c = true := by
  have hall : ∀ n < 128, plain (Char.ofNat n) = true →
      pathChar (Char.ofNat n) = true ∧ queryChar (Char.ofNat n) = true := by decide
  have hc := hall c.toNat (plain_ascii h)
  rw [Char.ofNat_toNat] at hc
  exact hc h

theorem escapeChar_sent {kept : Char → Bool} (hplain : ∀ c, plain c = true → kept c = true)
    (hpercent : kept '%' = true) (c : Char) : ∀ d ∈ escapeChar kept c, kept d = true := by
  intro d hd
  unfold escapeChar at hd
  split_ifs at hd with hc
  · rw [List.mem_singleton.mp hd]
    exact hc
  · rcases enc_plain _ d hd with hd | rfl
    · exact hplain d hd
    · exact hpercent

theorem escapeChar_kept {kept : Char → Bool} {cs : List Char} (h : ∀ c ∈ cs, kept c = true) :
    cs.flatMap (escapeChar kept) = cs := by
  have hcongr : cs.flatMap (escapeChar kept) = cs.flatMap fun c => [c] :=
    List.flatMap_congr fun c hc => if_pos (h c hc)
  rw [hcongr,List.flatMap_singleton']

theorem pathSegments_sent {path : List Char} {s : String} (h : s ∈ pathSegments path) :
    ∀ c ∈ s.toList, c ≠ '/' ∧ pathChar c = true := by
  obtain ⟨l,hl,rfl⟩ := List.mem_map.mp h
  intro c hc
  rw [String.toList_ofList] at hc
  obtain ⟨hslash,hmem⟩ := mem_splitOn hl c hc
  obtain ⟨d,_,hd⟩ := List.mem_flatMap.mp hmem
  refine ⟨hslash,?_⟩
  split_ifs at hd
  · exact absurd (List.mem_singleton.mp hd) hslash
  · exact escapeChar_sent (fun _ h => (plain_chars h).1) (by decide) d c hd

/-- Segments that are left of a path. -/
theorem mem_sent {path : List Char} {s : String}
    (h : s ∈ resolveDots ("_ement" :: pathSegments path)) :
    (∀ c ∈ s.toList, c ≠ '/' ∧ pathChar c = true) ∧ isDots s = false := by
  have hbase : ∀ c ∈ "_ement".toList, c ≠ '/' ∧ pathChar c = true := by decide
  rcases mem_resolveDots h with rfl | ⟨hs,hdots⟩
  · exact ⟨fun c hc => absurd hc List.not_mem_nil,by decide⟩
  · refine ⟨?_,hdots⟩
    rcases List.mem_cons.mp hs with rfl | hs
    · exact hbase
    · exact pathSegments_sent hs

theorem sentPath_escaped (path : List Char) : ∀ c ∈ (sentPath path).toList, pathChar c = true := by
  intro c hc
  rcases mem_joined hc with rfl | ⟨s,hs,hc⟩
  · decide
  · exact ((mem_sent hs).1 c hc).2

theorem sentPath_resolved (path : List Char) :
    ∀ s ∈ (sentPath path).toList.splitOn '/', isDots (String.ofList s) = false := by
  intro s hs
  rcases splitOn_joined_all (fun q hq hc => ((mem_sent hq).1 '/' hc).1 rfl) s hs with rfl | hs
  · decide
  · exact (mem_sent hs).2

theorem fine_escaped {path : String} (h : standardClient.Fine path) :
    (path.toList.flatMap fun c => if c.toNat = 92 then ['/'] else escapeChar pathChar c) =
      path.toList := by
  have hchars : ∀ c ∈ path.toList, pathChar c = true := h.1
  have hcongr : (path.toList.flatMap fun c => if c.toNat = 92 then ['/'] else
      escapeChar pathChar c) = path.toList.flatMap (escapeChar pathChar) := by
    refine List.flatMap_congr fun c hc => if_neg fun he => ?_
    have hchar := hchars c hc
    rw [pathChar,he] at hchar
    exact absurd hchar (by decide)
  rw [hcongr,escapeChar_kept hchars]

theorem sentPath_kept {path : String} (h : standardClient.Fine path) :
    sentPath path.toList = "/_ement/" ++ path := by
  have hsegments : pathSegments path.toList = (path.toList.splitOn '/').map String.ofList := by
    rw [pathSegments,fine_escaped h]
  have hdots : ∀ s ∈ "_ement" :: pathSegments path.toList, isDots s = false := by
    intro s hs
    rcases List.mem_cons.mp hs with rfl | hs
    · decide
    · rw [hsegments] at hs
      obtain ⟨l,hl,rfl⟩ := List.mem_map.mp hs
      exact h.2 l hl
  obtain ⟨l,ls,hsplit⟩ := List.exists_cons_of_ne_nil (List.splitOn_ne_nil '/' path.toList)
  rw [sentPath,resolveDots_plain hdots,hsegments,joined_cons,hsplit,List.map_cons]
  have hback : (joined (String.ofList l :: ls.map String.ofList)).toList = '/' :: path.toList := by
    have hjoin : ['/'].intercalate (path.toList.splitOn '/') = path.toList :=
      List.intercalate_splitOn '/'
    rw [hsplit] at hjoin
    rw [joined_intercalate]
    simpa [Function.comp_def] using hjoin
  refine String.toList_injective ?_
  simp only [String.toList_append,hback]
  rfl

theorem no_fragment {cs : List Char} (h : '#' ∉ cs) : cs.takeWhile (· ≠ '#') = cs := by
  refine List.takeWhile_eq_self_iff.mpr fun c hc => ?_
  have hne : c ≠ '#' := fun he => h (he ▸ hc)
  simpa using hne

theorem standardClient_standard : standardClient.Standard where
  path_unreserved _ h := (plain_chars h).1
  path_slash := by decide
  query_unreserved _ h := (plain_chars h).2
  query_pairs := by decide
  path_escaped text := by
    dsimp only [standardClient]
    split <;> exact sentPath_escaped _
  path_resolved text := by
    dsimp only [standardClient]
    split <;> exact sentPath_resolved _
  query_escaped text q h := by
    dsimp only [standardClient] at h
    split at h
    · cases h
      intro c hc
      rw [sentQuery,String.toList_ofList] at hc
      obtain ⟨d,_,hd⟩ := List.mem_flatMap.mp hc
      exact escapeChar_sent (fun _ h => (plain_chars h).2) (by decide) d c hd
    · cases h
  path_kept path h := by
    have hhash : '#' ∉ path.toList := fun hc => absurd (h.1 '#' hc) (by decide)
    have hquestion : '?' ∉ path.toList := fun hc => absurd (h.1 '?' hc) (by decide)
    dsimp only [standardClient]
    rw [no_fragment hhash,splitOnce_none hquestion]
    exact Prod.ext (sentPath_kept h) rfl
  query_kept path q h hq := by
    have hchars : ∀ c ∈ q.toList, queryChar c = true := hq
    have hquestion : '?' ∉ path.toList := fun hc => absurd (h.1 '?' hc) (by decide)
    have htext : (path ++ ("?" ++ q)).toList = path.toList ++ '?' :: q.toList := by
      simp only [String.toList_append]
      rfl
    have hhash : '#' ∉ path.toList ++ '?' :: q.toList := by
      intro hc
      rcases List.mem_append.mp hc with hc | hc
      · exact absurd (h.1 '#' hc) (by decide)
      · rcases List.mem_cons.mp hc with hc | hc
        · exact absurd hc (by decide)
        · exact absurd (hchars '#' hc) (by decide)
    have hquery : sentQuery q.toList = q := by
      rw [sentQuery,escapeChar_kept hchars,String.ofList_toList]
    dsimp only [standardClient]
    rw [htext,no_fragment hhash,splitOnce_append hquestion]
    exact Prod.ext (sentPath_kept h) (congrArg some hquery)

theorem verify_reaches_own :
    received standardClient (run_verify ⟨some "@a:x",none⟩ (.showFlow "m1")) =
      some (.verify ⟨some "@a:x",none⟩ (.showFlow "m1")) := by
  refine (verify_reaches standardClient standardClient_standard ⟨some "@a:x",none⟩
    (.showFlow "m1")).mpr ⟨?_,?_⟩
  · intro f hf
    cases hf
    decide
  · intro _ user huser
    rw [List.mem_singleton.mp huser]
    decide

/-- Confirming a flow that another device named so cancels a second one. -/
theorem confirm_cancels :
    received standardClient (run_verify ⟨none,none⟩ (.act "m1/cancel?" .confirm)) =
        some (.verify ⟨none,none⟩ (.act "m1" .cancel)) ∧
      received standardClient (run_verify ⟨none,none⟩ (.act "m1/cancel?" .confirm)) ≠
        some (.verify ⟨none,none⟩ (.act "m1/cancel?" .confirm)) := by
  have hpass : ∀ s ∈ ["verify","m1","cancel"], Passes standardClient s := by
    intro s hs
    refine word_passes standardClient_standard ?_
    revert s
    decide
  have hsend : standardClient.send (run_verify ⟨none,none⟩ (.act "m1/cancel?" .confirm)).text =
      ("/_ement/" ++ pathOf ["verify","m1","cancel"],some "/confirm") := by
    rw [← standardClient_standard.query_kept _ "/confirm"
      (pathOf_fine standardClient_standard (by decide) hpass) (by decide),← act_path]
    rfl
  obtain ⟨sub,hparts,hreceived⟩ := received_pathOf (by decide) hpass hsend
  have haction : Admin.flowAction
      (run_verify ⟨none,none⟩ (.act "m1/cancel?" .confirm)).body "cancel" = some .cancel := rfl
  have hcancel : received standardClient (run_verify ⟨none,none⟩ (.act "m1/cancel?" .confirm)) =
      some (.verify ⟨none,none⟩ (.act "m1" .cancel)) := by
    rw [hreceived]
    exact congrArg some (handle_act hparts haction)
  refine ⟨hcancel,?_⟩
  rw [hcancel]
  intro h
  injection h with h
  injection h with _ h
  exact absurd h (by decide)

end Ctl
end EmentE2ee
