import EmentE2ee.DotSegments
import EmentE2ee.Proxy.Handle
import EmentE2ee.Proxy.RoutePaths
import EmentE2ee.Splitting

/-!
# What a borrowed token fetches

A legacy download carries no token, and is fetched with that of any session. Its
server and media ID are escaped again, and put onto the homeserver's URL.
-/
namespace EmentE2ee.Downloads

open Concurrent

/-- Path and query of a URL, beside the base they are put onto. -/
structure Url where
  path : String
  query : Option String
  deriving DecidableEq, Repr

/-- Put a path, with an optional query, onto the base. -/
def url (set_path set_query : String → String) (path_and_query : String) : Url :=
  match splitOnce '?' path_and_query.toList with
  | some (path,query) => ⟨set_path (String.ofList path),some (set_query (String.ofList query))⟩
  | none => ⟨set_path path_and_query,none⟩

/-- Setting a path keeps unreserved characters and escapes, and resolves dots. -/
def ResolvesDots (set_path : String → String) : Prop :=
  ∀ p parts, (∀ q ∈ p :: parts, ∀ c ∈ q.toList, plain c = true ∨ c = '%') →
    set_path (joined (p :: parts)) = joined (resolveDots (p :: parts))

/-- The path is that of a download, and names the server and the media. -/
def Confined (server media_id path : String) : Prop :=
  ∃ S M, '/' ∉ S.toList ∧ '/' ∉ M.toList ∧
    path = joined ["_matrix","client","v1","media","download",S,M] ∧
    dec S = server ∧ dec M = media_id

/-- What is left of escaped names is not read back as dots. -/
theorem dec_resolved {names : List String} {q : String} (h : q ∈ resolveDots (names.map enc)) :
    dec q ≠ "." ∧ dec q ≠ ".." := by
  rcases mem_resolveDots h with rfl | ⟨hq,hdots⟩
  · have henc : enc "" = "" := enc_unescaped (by decide)
    rw [← henc,dec_enc]
    decide
  · obtain ⟨name,_,rfl⟩ := List.mem_map.mp hq
    rw [dec_enc]
    constructor
    · rintro rfl
      rw [(enc_isDots ".").mpr (.inl rfl)] at hdots
      cases hdots
    · rintro rfl
      rw [(enc_isDots "..").mpr (.inr rfl)] at hdots
      cases hdots

def downloadNames (server media_id : String) : List String :=
  ["_matrix","client","v1","media","download",server,media_id]

theorem downloadNames_enc (server media_id : String) : (downloadNames server media_id).map enc =
    ["_matrix","client","v1","media","download",enc server,enc media_id] := by
  have hword : ∀ w ∈ ["_matrix","client","v1","media","download"], enc w = w := by
    have hplain : ∀ w ∈ ["_matrix","client","v1","media","download"],
        ∀ c ∈ w.toList, plain c = true := by decide
    exact fun w hw => enc_unescaped (hplain w hw)
  simp only [downloadNames,List.map_cons,List.map_nil,hword "_matrix" (by simp),
    hword "client" (by simp),hword "v1" (by simp),hword "media" (by simp),
    hword "download" (by simp)]

theorem downloadPath_joined (server media_id : String) :
    downloadPath server media_id = joined ((downloadNames server media_id).map enc) := by
  rw [downloadPath_path,Named.path_joined,downloadNames_enc]
  rfl

theorem url_download (set_path set_query : String → String) (server media_id : String) :
    url set_path set_query (downloadPath server media_id) =
      ⟨set_path (downloadPath server media_id),none⟩ := by
  have hquery : '?' ∉ (downloadPath server media_id).toList := by
    rw [downloadPath_joined,joined,String.toList_ofList,List.mem_flatMap]
    rintro ⟨q,hq,hc⟩
    obtain ⟨name,_,rfl⟩ := List.mem_map.mp hq
    rcases List.mem_cons.mp hc with hc | hc
    · exact absurd hc (by decide)
    · rcases enc_plain name '?' hc with hc | hc
      · exact absurd hc (by decide)
      · exact absurd hc (by decide)
  rw [url,splitOnce_none hquery]

/-- A download stays one exactly if it names no dots. -/
theorem confined_iff {set_path : String → String} (hset : ResolvesDots set_path)
    (set_query : String → String) (server media_id : String) :
    Confined server media_id (url set_path set_query (downloadPath server media_id)).path ↔
      server ∉ [".",".."] ∧ media_id ∉ [".",".."] := by
  have hpath : set_path (downloadPath server media_id) =
      joined (resolveDots ((downloadNames server media_id).map enc)) := by
    rw [downloadPath_joined]
    refine hset (enc "_matrix") _ fun q hq c hc => ?_
    have hmem : q ∈ (downloadNames server media_id).map enc := hq
    obtain ⟨name,_,rfl⟩ := List.mem_map.mp hmem
    exact enc_plain name c hc
  rw [url_download,hpath]
  constructor
  · rintro ⟨S,M,hS,hM,heq,rfl,rfl⟩
    have hslash : ∀ q ∈ resolveDots ((downloadNames (dec S) (dec M)).map enc), '/' ∉ q.toList := by
      intro q hq
      rcases mem_resolveDots hq with rfl | ⟨hq,_⟩
      · exact List.not_mem_nil
      · obtain ⟨name,_,rfl⟩ := List.mem_map.mp hq
        exact enc_segment name
    have hparts := joined_injective hslash (by simp [hS,hM]) heq
    have hnames : ∀ q ∈ [S,M], dec q ∉ [".",".."] := by
      intro q hq
      have hmem : q ∈ resolveDots ((downloadNames (dec S) (dec M)).map enc) := by
        rw [hparts]
        simp only [List.mem_cons,List.not_mem_nil,or_false] at hq ⊢
        rcases hq with rfl | rfl
        · simp
        · simp
      have hdots := dec_resolved hmem
      simpa using hdots
    exact ⟨hnames S (by simp),hnames M (by simp)⟩
  · rintro ⟨hserver,hmedia⟩
    have hplain : ∀ p ∈ (downloadNames server media_id).map enc, isDots p = false := by
      intro p hp
      obtain ⟨name,hname,rfl⟩ := List.mem_map.mp hp
      rw [Bool.eq_false_iff,Ne,enc_isDots]
      simp only [downloadNames,List.mem_cons,List.not_mem_nil,or_false] at hname hserver hmedia
      rcases hname with rfl | rfl | rfl | rfl | rfl | rfl | rfl
      · decide
      · decide
      · decide
      · decide
      · decide
      · exact hserver
      · exact hmedia
    rw [resolveDots_plain hplain,downloadNames_enc]
    exact ⟨enc server,enc media_id,enc_segment server,enc_segment media_id,rfl,dec_enc server,
      dec_enc media_id⟩

section
variable [Codec]

theorem handle_download_fetches (ctx : AccountContext) (server media_id : String) :
    (handle_download ctx server media_id).run.Does fun a => ∀ token path_and_query,
      a = .fetch token path_and_query → path_and_query = downloadPath server media_id := by
  unfold handle_download
  refine .exceptBind (by simp) fun entry => .exceptBind (by simp) fun resp => ?_
  cases entry with
  | none => simp
  | some entry =>
      dsimp only
      split_ifs
      · split
        · simp
        · simp
      · simp

/-- Whatever a tokenless download asks for, what is fetched for it names the server and
the media asked for, unless one of them is dots. -/
theorem borrowed_downloads {set_path : String → String} (hset : ResolvesDots set_path)
    (set_query : String → String) (h : Handlers) (fuel : Nat) (config : Config) (req : Request)
    (server media_id : String)
    (hroute : classify req.method req.path = .mediaDownload server media_id false) :
    (handle h fuel config req).run.Does fun a => ∀ token path_and_query,
      a = .fetch token path_and_query →
        (Confined server media_id (url set_path set_query path_and_query).path ↔
          server ∉ [".",".."] ∧ media_id ∉ [".",".."]) := by
  have hfetch : ∀ path_and_query, path_and_query = downloadPath server media_id →
      (Confined server media_id (url set_path set_query path_and_query).path ↔
        server ∉ [".",".."] ∧ media_id ∉ [".",".."]) := by
    rintro path_and_query rfl
    exact confined_iff hset set_query server media_id
  unfold handle
  rw [hroute]
  refine .exceptBind (by simp) fun sessions => ?_
  cases sessions with
  | nil => exact passthrough_does.mpr fun token path_and_query he => by cases he
  | cons ctx _ =>
      refine (handle_download_fetches ctx server media_id).mono fun a ha token pq he => ?_
      exact hfetch pq (ha token pq he)

end

section
local instance : Codec := .plain (fun _ => none) some fun _ _ => 0

/-- A setter that resolves the dots of a path of plain segments. -/
def setPath (path : String) : String :=
  joined (resolveDots ((path.toList.tail.splitOn '/').map String.ofList))

theorem setPath_resolves : ResolvesDots setPath := by
  intro p parts h
  have hslash : ∀ q ∈ p :: parts, '/' ∉ q.toList := by
    intro q hq hc
    rcases h q hq '/' hc with hc | hc
    · exact absurd hc (by decide)
    · exact absurd hc (by decide)
  rw [setPath,splitOn_joined hslash,List.map_map]
  simp [Function.comp_def]

def someHandlers : Handlers := ⟨fun _ req => passthrough req,passthrough⟩

def avatar (server media_id : String) : Request :=
  ⟨.get,(Named.legacyDownload server media_id).path .v3,none,[],[]⟩

def bob : AccountContext := ⟨"@bob:x","DEV","token",⟨0,"key"⟩⟩

theorem avatar_route (server media_id : String) :
    classify (avatar server media_id).method (avatar server media_id).path =
      .mediaDownload server media_id false :=
  Named.classify_path .v3 (.legacyDownload server media_id)

theorem borrowed_downloads_avatar :
    (handle someHandlers 0 ⟨"store"⟩ (avatar "x" "cat")).run.Does fun a => ∀ token path_and_query,
      a = .fetch token path_and_query →
        (Confined "x" "cat" (url setPath id path_and_query).path ↔
          "x" ∉ [".",".."] ∧ "cat" ∉ [".",".."]) :=
  borrowed_downloads setPath_resolves id someHandlers 0 ⟨"store"⟩ (avatar "x" "cat") "x" "cat"
    (avatar_route "x" "cat")

theorem dotted_path : (avatar ".." "..").path = "/_matrix/media/v3/download/../.." := by
  have henc : enc ".." = ".." := enc_unescaped (by decide)
  have hpath : (avatar ".." "..").path =
      "/_matrix/media/" ++ "v3" ++ "/download/" ++ enc ".." ++ "/" ++ enc ".." := rfl
  rw [hpath,henc]
  simp

/-- A path without a name in it is fetched with the token of another session. -/
theorem dots_leave_downloads : (avatar ".." "..").path = "/_matrix/media/v3/download/../.." ∧
    (∃ k, (handle someHandlers 0 ⟨"store"⟩ (avatar ".." "..")).run.Did
      [⟨.sessions .list,[bob]⟩,⟨.mediaGet bob "mxc://../..",none⟩]
      (.act (.fetch "token" (downloadPath ".." "..")) k)) ∧
    (url setPath id (downloadPath ".." "..")).path = "/_matrix/client/v1/" ∧
    ¬ Confined ".." ".." (url setPath id (downloadPath ".." "..")).path := by
  have henc : enc ".." = ".." := enc_unescaped (by decide)
  refine ⟨dotted_path,?_,?_,?_⟩
  · unfold handle
    rw [avatar_route]
    exact ⟨_,.cons (.cons (.nil _))⟩
  · rw [url_download,downloadPath_joined,downloadNames_enc,henc]
    have hresolved : resolveDots ["_matrix","client","v1","media","download","..",".."] =
        ["_matrix","client","v1",""] := by decide
    refine (setPath_resolves "_matrix" _ (by decide)).trans ?_
    rw [hresolved]
    simp
  · rw [confined_iff setPath_resolves]
    decide

end
end EmentE2ee.Downloads
