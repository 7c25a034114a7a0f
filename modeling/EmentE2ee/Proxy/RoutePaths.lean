import EmentE2ee.PercentCoding
import EmentE2ee.Proxy.Routes
import EmentE2ee.Crypto.Media

/-!
# The paths that routes are read from

Rooms, events and media are named by escaped segments of a path. Whatever they
are, the path is split and read back into what it was made of.
-/
namespace EmentE2ee

/-- The version segment of a path, which is any segment. -/
structure Version where
  text : String
  segment : '/' ∉ text.toList
  deriving DecidableEq

/-- What the paths of intercepted requests name. -/
inductive Named where
  | send (room_id event_type txn_id : String)
  | messages (room_id : String)
  | context (room_id event_id : String)
  | event (room_id event_id : String)
  | download (server media_id : String)
  | legacyDownload (server media_id : String)
  deriving DecidableEq

namespace Named

def method : Named → Method
  | send .. => .put
  | _ => .get

def path (v : Version) : Named → String
  | send room_id event_type txn_id => "/_matrix/client/" ++ v.text ++ "/rooms/" ++ enc room_id ++
      "/send/" ++ enc event_type ++ "/" ++ enc txn_id
  | messages room_id => "/_matrix/client/" ++ v.text ++ "/rooms/" ++ enc room_id ++ "/messages"
  | context room_id event_id => "/_matrix/client/" ++ v.text ++ "/rooms/" ++ enc room_id ++
      "/context/" ++ enc event_id
  | event room_id event_id => "/_matrix/client/" ++ v.text ++ "/rooms/" ++ enc room_id ++
      "/event/" ++ enc event_id
  | download server media_id => "/_matrix/client/" ++ v.text ++ "/media/download/" ++ enc server ++
      "/" ++ enc media_id
  | legacyDownload server media_id => "/_matrix/media/" ++ v.text ++ "/download/" ++ enc server ++
      "/" ++ enc media_id

/-- The event of a context or a single event is not looked at. -/
def route : Named → Route
  | send room_id event_type txn_id => .send room_id event_type txn_id
  | messages room_id => .messages room_id
  | context room_id _ => .context room_id
  | event room_id _ => .roomEvent room_id
  | download server media_id => .mediaDownload server media_id true
  | legacyDownload server media_id => .mediaDownload server media_id false

/-- The segments a path is joined from, after the first. -/
def parts (v : Version) : Named → List String
  | send room_id event_type txn_id =>
      ["client",v.text,"rooms",enc room_id,"send",enc event_type,enc txn_id]
  | messages room_id => ["client",v.text,"rooms",enc room_id,"messages"]
  | context room_id event_id => ["client",v.text,"rooms",enc room_id,"context",enc event_id]
  | event room_id event_id => ["client",v.text,"rooms",enc room_id,"event",enc event_id]
  | download server media_id => ["client",v.text,"media","download",enc server,enc media_id]
  | legacyDownload server media_id => ["media",v.text,"download",enc server,enc media_id]

end Named

theorem enc_segment (s : String) : '/' ∉ (enc s).toList := by
  intro h
  rcases enc_plain s '/' h with h | h
  · exact absurd h (by decide)
  · exact absurd h (by decide)

/-- Segments, each after a slash. -/
def joined (parts : List String) : String :=
  String.ofList (parts.flatMap fun p => '/' :: p.toList)

@[simp] theorem joined_nil : joined [] = "" := rfl

@[simp] theorem joined_cons (p : String) (parts : List String) :
    joined (p :: parts) = "/" ++ (p ++ joined parts) := by
  apply String.toList_injective
  simp only [joined,String.toList_ofList,List.flatMap_cons,String.toList_append]
  rfl

theorem joined_intercalate (p : String) (parts : List String) :
    (joined (p :: parts)).toList = '/' :: ['/'].intercalate ((p :: parts).map String.toList) := by
  rw [joined,String.toList_ofList]
  induction parts generalizing p with
  | nil => simp [List.intercalate]
  | cons q parts ih =>
      rw [List.flatMap_cons,ih q]
      simp [List.intercalate]

theorem splitOn_joined {p : String} {parts : List String} (h : ∀ q ∈ p :: parts, '/' ∉ q.toList) :
    (joined (p :: parts)).toList.tail.splitOn '/' = (p :: parts).map String.toList := by
  rw [joined_intercalate,List.tail_cons]
  refine List.splitOn_intercalate '/' ?_ (by simp)
  intro l hl
  obtain ⟨q,hq,rfl⟩ := List.mem_map.mp hl
  exact h q hq

theorem joined_injective {ps qs : List String} (hp : ∀ p ∈ ps, '/' ∉ p.toList)
    (hq : ∀ q ∈ qs, '/' ∉ q.toList) (h : joined ps = joined qs) : ps = qs := by
  have hcons : ∀ p parts, joined (p :: parts) ≠ "" := by
    intro p parts he
    have hlist := joined_intercalate p parts
    rw [he] at hlist
    cases hlist
  cases ps with
  | nil =>
      cases qs with
      | nil => rfl
      | cons q qs => exact (hcons q qs (h.symm.trans joined_nil)).elim
  | cons p ps =>
      cases qs with
      | nil => exact (hcons p ps (h.trans joined_nil)).elim
      | cons q qs =>
          have hsplit := splitOn_joined hp
          rw [h,splitOn_joined hq] at hsplit
          exact (List.map_injective_iff.mpr (fun _ _ => String.toList_injective) hsplit).symm

theorem mem_joined {parts : List String} {c : Char} (h : c ∈ (joined parts).toList) :
    c = '/' ∨ ∃ p ∈ parts, c ∈ p.toList := by
  rw [joined,String.toList_ofList] at h
  obtain ⟨p,hp,hc⟩ := List.mem_flatMap.mp h
  exact (List.mem_cons.mp hc).imp id fun hc => ⟨p,hp,hc⟩

/-- Pieces of joined segments. -/
theorem splitOn_joined_all {parts : List String} (h : ∀ q ∈ parts, '/' ∉ q.toList) :
    ∀ s ∈ (joined parts).toList.splitOn '/', s = [] ∨ String.ofList s ∈ parts := by
  intro s hs
  cases parts with
  | nil => exact .inl (List.mem_singleton.mp hs)
  | cons p parts =>
      have hsplit := splitOn_joined h
      rw [joined_intercalate,List.tail_cons] at hsplit
      rw [joined_intercalate,← List.nil_append ('/' :: _),List.splitOn_append_cons_self,hsplit] at hs
      rcases List.mem_append.mp hs with hs | hs
      · exact .inl (List.mem_singleton.mp hs)
      · obtain ⟨q,hq,rfl⟩ := List.mem_map.mp hs
        rw [String.ofList_toList]
        exact .inr hq

/-- Segments without slashes, the first not empty, are what a path splits into. -/
theorem segments_joined {p : String} {parts : List String} (hp : p ≠ "")
    (h : ∀ q ∈ p :: parts, '/' ∉ q.toList) : segments (joined (p :: parts)) = p :: parts := by
  obtain ⟨c,cs,hc⟩ : ∃ c cs, p.toList = c :: cs :=
    List.exists_cons_of_ne_nil (mt String.toList_eq_nil_iff.mp hp)
  have hslash : c ≠ '/' := by
    intro he
    have hmem := h p List.mem_cons_self
    rw [hc,he] at hmem
    exact hmem List.mem_cons_self
  obtain ⟨rest,hrest⟩ : ∃ rest, ['/'].intercalate ((p :: parts).map String.toList) = c :: rest := by
    cases parts with
    | nil => exact ⟨cs,by simp [List.intercalate,hc]⟩
    | cons q parts => exact ⟨_,by rw [List.map_cons,hc,List.map_cons,List.intercalate_cons_cons]; rfl⟩
  have hdrop : (joined (p :: parts)).toList.dropWhile (· = '/') =
      ['/'].intercalate ((p :: parts).map String.toList) := by
    rw [joined_intercalate,hrest,List.dropWhile_cons_of_pos (by simp),
      List.dropWhile_cons_of_neg (by simpa using hslash)]
  have hsplit := splitOn_joined h
  rw [joined_intercalate,List.tail_cons] at hsplit
  rw [segments,hdrop,hsplit,List.map_map]
  simp [Function.comp_def]

theorem classify_joined (method : Method) {parts : List String}
    (h : ∀ q ∈ parts, '/' ∉ q.toList) :
    classify method (joined ("_matrix" :: parts)) = classifySegments method ("_matrix" :: parts) := by
  have hsegments : segments (joined ("_matrix" :: parts)) = "_matrix" :: parts :=
    segments_joined (by decide) (List.forall_mem_cons.mpr ⟨by decide,h⟩)
  have hstart : (joined ("_matrix" :: parts)).toList =
      '/' :: '_' :: 'm' :: ("atrix".toList ++ (joined parts).toList) := by
    rw [joined_cons,String.toList_append,String.toList_append]
    rfl
  have hadmin : stripPrefix "/_ement/" (joined ("_matrix" :: parts)) = none := by
    rw [stripPrefix,hstart]
    exact if_neg (by simp)
  have hroot : joined ("_matrix" :: parts) ≠ "/_ement" := by
    intro he
    rw [he] at hstart
    exact absurd hstart (by simp)
  rw [classify,hadmin,hsegments]
  exact if_neg hroot

namespace Named

theorem path_joined (v : Version) (n : Named) : n.path v = joined ("_matrix" :: n.parts v) := by
  have hclient : "/_matrix/client/" = "/" ++ ("_matrix" ++ ("/" ++ ("client" ++ "/"))) := by simp
  have hmedia : "/_matrix/media/" = "/" ++ ("_matrix" ++ ("/" ++ ("media" ++ "/"))) := by simp
  have hrooms : "/rooms/" = "/" ++ ("rooms" ++ "/") := by simp
  have hsend : "/send/" = "/" ++ ("send" ++ "/") := by simp
  have hmessages : "/messages" = "/" ++ "messages" := by simp
  have hcontext : "/context/" = "/" ++ ("context" ++ "/") := by simp
  have hevent : "/event/" = "/" ++ ("event" ++ "/") := by simp
  have hdownload : "/download/" = "/" ++ ("download" ++ "/") := by simp
  have hclientDownload : "/media/download/" = "/" ++ ("media" ++ ("/" ++ ("download" ++ "/"))) := by
    simp
  unfold path parts
  cases n <;>
    simp only [joined_cons,joined_nil,hclient,hmedia,hrooms,hsend,hmessages,hcontext,hevent,
      hdownload,hclientDownload,String.append_assoc,String.append_empty]

theorem parts_segments (v : Version) (n : Named) : ∀ q ∈ n.parts v, '/' ∉ q.toList := by
  have hv := v.segment
  cases n <;> simp [parts,hv,enc_segment]

theorem segments_path (v : Version) (n : Named) : segments (n.path v) = "_matrix" :: n.parts v := by
  rw [path_joined]
  exact segments_joined (by decide) (List.forall_mem_cons.mpr ⟨by decide,n.parts_segments v⟩)

theorem classify_path (v : Version) (n : Named) : classify n.method (n.path v) = n.route := by
  rw [path_joined,classify_joined n.method (n.parts_segments v)]
  cases n <;> simp [classifySegments,parts,method,route,dec_enc]

theorem parts_injective {v v' : Version} {n n' : Named} (h : n.parts v = n'.parts v') :
    v.text = v'.text ∧ n = n' := by
  cases n <;> cases n' <;> simp_all [parts,enc_injective.eq_iff]

/-- Escaped segments name what they were escaped from: the path of every room,
event, transaction and media file is routed to it, and no two share a path. -/
theorem paths_name : (∀ (v : Version) (n : Named), classify n.method (n.path v) = n.route) ∧
    Function.Injective enc ∧
    ∀ (v v' : Version) (n n' : Named), n.path v = n'.path v' → v = v' ∧ n = n' := by
  refine ⟨classify_path,enc_injective,?_⟩
  intro v v' n n' h
  have hsegments := congrArg segments h
  rw [segments_path,segments_path,List.cons.injEq] at hsegments
  obtain ⟨hv,hn⟩ := parts_injective hsegments.2
  cases v
  cases v'
  exact ⟨by simpa using hv,hn⟩

end Named

def Version.v1 : Version := ⟨"v1",by decide⟩
def Version.v3 : Version := ⟨"v3",by decide⟩

/-- Encrypted events go where clients send theirs. -/
theorem sendEvent_path (room_id : RoomId) (event_type txn_id : String) :
    (Endpoint.sendEvent room_id event_type txn_id).path =
      (Named.send room_id event_type txn_id).path .v3 := by
  have h : "/_matrix/client/v3/rooms/" = "/_matrix/client/" ++ "v3" ++ "/rooms/" := by simp
  unfold Endpoint.path Named.path
  exact h ▸ rfl

theorem downloadPath_path (server media_id : String) :
    downloadPath server media_id = (Named.download server media_id).path .v1 := by
  have h : "/_matrix/client/v1/media/download/" =
      "/_matrix/client/" ++ "v1" ++ "/media/download/" := by simp
  unfold downloadPath Named.path
  exact h ▸ rfl

end EmentE2ee
