import EmentE2ee.Crypto.Encrypt
import EmentE2ee.Crypto.MediaKeys

/-!
# Attachments in and out

What a content looks like once it is decrypted, and once it is sent on. The plain
URL of the file gets its key back on the way out; that of the thumbnail does not.
-/
namespace EmentE2ee.MediaContents

open Concurrent
open Json (Value)
open MediaKeys (MediaKeyCache Row filesUnder inserts fileOf opened Has)

section
variable [Codec] {ctx : AccountContext}

/-- Whatever is looked up is looked up in this cache. -/
def Reads (ctx : AccountContext) (cache : MediaKeyCache) (es : List (Sigma Act.Ans)) : Prop :=
  ∀ mxc e, (⟨.mediaGet ctx mxc,e⟩ : Sigma Act.Ans) ∈ es → e = cache.get mxc

/-- The cache once the inserts of a run are in it. -/
def after (ctx : AccountContext) (cache : MediaKeyCache) (es : List (Sigma Act.Ans)) :
    MediaKeyCache :=
  (es.flatMap fun x => inserts ctx x.1 x.2).foldl MediaKeyCache.insert cache

/-- The inserts of rows, all answered alike. -/
def stored (ctx : AccountContext) (kept : Except String Unit) (rows : List Row) :
    List (Sigma Act.Ans) :=
  rows.map fun row => ⟨.mediaInsert ctx row.1 row.2,kept⟩

theorem inserts_stored (kept : Except String Unit) (rows : List Row) :
    (stored ctx kept rows).flatMap (fun x => inserts ctx x.1 x.2) =
      if kept = .ok () then rows else [] := by
  induction rows with
  | nil => simp [stored]
  | cons row rows ih =>
      have hcons : stored ctx kept (row :: rows) =
          ⟨.mediaInsert ctx row.1 row.2,kept⟩ :: stored ctx kept rows := rfl
      rw [hcons,List.flatMap_cons,ih]
      cases kept with
      | ok u => simp [inserts]
      | error e => simp [inserts]

/-- The object with the plain URL, where its file could be read and its key was kept. -/
def exposed (key url_key : String) (kept : Except String Unit) (m : Json.Map) : Json.Map :=
  match (m.lookup key).bind Codec.encryptedFile,kept with
  | some file,.ok () => Json.Map.insert url_key (.string file.1) (Json.Map.remove key m)
  | _,_ => m

def exposedThumbnail (kept : Except String Unit) : Value → Value
  | .object info => .object (exposed "thumbnail_file" "thumbnail_url" kept info)
  | info => info

def fileRows (content : Json.Map) : List Row :=
  filesUnder "file" (((content.lookup "info").bind (Value.get "mimetype")).bind Value.asStr)
    ((content.lookup "body").bind Value.asStr) content

def thumbnailRows (content : Json.Map) : List Row :=
  match content.lookup "info" with
  | some (.object info) => filesUnder "thumbnail_file"
      (((Json.Map.lookup "thumbnail_info" info).bind (Value.get "mimetype")).bind Value.asStr) none
      info
  | _ => []

/-- A content that was decrypted, by what became of the inserts of its two keys. -/
structure Exposed (kept kept_thumbnail : Except String Unit) (content content' : Json.Map) :
    Prop where
  other : ∀ k ≠ "info", content'.lookup k = (exposed "file" "url" kept content).lookup k
  info : content'.lookup "info" = (content.lookup "info").map (exposedThumbnail kept_thumbnail)

theorem exposed_other {key url_key k : String} (hkey : k ≠ key) (hurl : k ≠ url_key)
    (kept : Except String Unit) (m : Json.Map) :
    (exposed key url_key kept m).lookup k = m.lookup k := by
  unfold exposed
  split
  · rw [Json.Map.lookup_insert_ne (Ne.symm hurl),Json.Map.lookup_remove_ne hkey]
  · rfl

/-- Where the key was kept the file is gone, and its URL stands in its place. -/
theorem exposed_kept {key url_key url : String} {info : Value} {m : Json.Map}
    (hne : key ≠ url_key) (hfile : (m.lookup key).bind Codec.encryptedFile = some (url,info)) :
    (exposed key url_key (.ok ()) m).lookup key = none ∧
      (exposed key url_key (.ok ()) m).lookup url_key = some (.string url) := by
  simp only [exposed,hfile]
  refine ⟨?_,Json.Map.lookup_insert_self ..⟩
  rw [Json.Map.lookup_insert_ne (Ne.symm hne),Json.Map.lookup_remove_self]

theorem exposed_unread {key url_key : String} {m : Json.Map}
    (hfile : (m.lookup key).bind Codec.encryptedFile = none) (kept : Except String Unit) :
    exposed key url_key kept m = m := by
  simp only [exposed,hfile]

theorem exposed_lost {key url_key : String} (e : String) (m : Json.Map) :
    exposed key url_key (.error e) m = m := by
  unfold exposed
  split
  · next h => cases h
  · rfl

theorem exposeUrl_recorded {key url_key : String} {mimetype filename : Option String}
    {m m' : Json.Map} {es es' : List (Sigma Act.Ans)}
    (h : Prog.Exec Prog.recorded (exposeUrl ctx key url_key mimetype filename m) es m' es') :
    ∃ kept, es' = es ++ stored ctx kept (filesUnder key mimetype filename m) ∧
      m' = exposed key url_key kept m := by
  have hunread : (m.lookup key).bind Codec.encryptedFile = none → es' = es → m' = m →
      ∃ kept, es' = es ++ stored ctx kept (filesUnder key mimetype filename m) ∧
        m' = exposed key url_key kept m := by
    rintro hfile rfl rfl
    exact ⟨.ok (),by simp [filesUnder,hfile,stored],(exposed_unread hfile _).symm⟩
  unfold exposeUrl at h
  split at h
  · next hnone =>
      cases h
      exact hunread (by rw [hnone]; rfl) rfl rfl
  · next file hfile =>
      obtain ⟨url,es₁,hharvest,h⟩ := Prog.exec_bind.mp h
      unfold harvest_file at hharvest
      split at hharvest
      · next hread =>
          cases hharvest
          cases h
          exact hunread (by rw [hfile]; exact hread) rfl rfl
      · next mxc info hread =>
          have hboth : (m.lookup key).bind Codec.encryptedFile = some (mxc,info) := by
            rw [hfile]
            exact hread
          cases hharvest with
          | @act _ _ _ _ _ kept _ hs hret =>
              have hes₁ : es₁ = es ++ stored ctx kept (filesUnder key mimetype filename m) := by
                have hrow : filesUnder key mimetype filename m = [(mxc,⟨info,mimetype,filename⟩)] := by
                  simp only [filesUnder,hboth]
                rw [hrow]
                cases kept <;> cases hret <;> exact hs
              cases kept with
              | ok u =>
                  cases hret
                  cases h
                  exact ⟨.ok u,hes₁,by simp only [exposed,hboth]⟩
              | error e =>
                  cases hret
                  cases h
                  exact ⟨.error e,hes₁,(exposed_lost e m).symm⟩

theorem harvest_did {event event' : Value} {content : Json.Map} {es : List (Sigma Act.Ans)}
    (hcontent : event.get "content" = some (.object content))
    (h : (harvest_and_rewrite_decrypted ctx event).Did es (.ret event')) :
    (∀ k ≠ "content", event'.get k = event.get k) ∧ ∃ kept kept_thumbnail, ∃ content' : Json.Map,
      es = stored ctx kept (fileRows content) ++ stored ctx kept_thumbnail (thumbnailRows content) ∧
      event'.get "content" = some (.object content') ∧
      Exposed kept kept_thumbnail content content' := by
  have hexec : Prog.Exec Prog.recorded (harvest_and_rewrite_decrypted ctx event) [] event' es :=
    Prog.exec_recorded.mpr ⟨es,rfl,h⟩
  obtain ⟨hkeys,⟨hnone,_,_⟩ | ⟨x,y,hx,hy,h⟩⟩ := Value.exec_updateM_get hexec
  · rw [hcontent] at hnone
    cases hnone
  refine ⟨hkeys,?_⟩
  rw [hcontent] at hx
  cases hx
  obtain ⟨m₁,es₁,hfile,h⟩ := Prog.exec_bind.mp h
  obtain ⟨m₂,es₂,hinfo,h⟩ := Prog.exec_bind.mp h
  cases h
  obtain ⟨kept,hes₁,rfl⟩ := exposeUrl_recorded hfile
  have hsame : (exposed "file" "url" kept content).lookup "info" = content.lookup "info" :=
    exposed_other (by decide) (by decide) kept content
  obtain ⟨hother,⟨hnone,hnone',rfl⟩ | ⟨info,info',hinfo₁,hinfo₂,h⟩⟩ := Json.Map.exec_updateM hinfo
  · rw [hsame] at hnone
    refine ⟨kept,.ok (),m₂,?_,hy,hother,by rw [hnone,hnone']; rfl⟩
    rw [hes₁]
    simp [thumbnailRows,hnone,fileRows,stored]
  · rw [hsame] at hinfo₁
    cases info with
    | object info =>
        obtain ⟨m₃,es₃,hthumbnail,h⟩ := Prog.exec_bind.mp h
        cases h
        obtain ⟨kept_thumbnail,hes₃,rfl⟩ := exposeUrl_recorded hthumbnail
        refine ⟨kept,kept_thumbnail,m₂,?_,hy,hother,by rw [hinfo₁,hinfo₂]; rfl⟩
        rw [hes₃,hes₁]
        simp [thumbnailRows,hinfo₁,fileRows]
    | _ =>
        cases h
        refine ⟨kept,.ok (),m₂,?_,hy,hother,by rw [hinfo₁,hinfo₂]; rfl⟩
        rw [hes₁]
        simp [thumbnailRows,hinfo₁,fileRows,stored]

/-- The content that goes into an encrypted room. -/
def rewritten (cache : MediaKeyCache) (content : Value) : Value :=
  (((content.get "url").bind Value.asStr).bind fun mxc =>
    (cache.get mxc).map fun e => withFile mxc e content).getD content

theorem rewrite_did {cache : MediaKeyCache} {content content' : Value} {es : List (Sigma Act.Ans)}
    (hreads : Reads ctx cache es)
    (h : (rewrite_content_for_encrypted_room ctx content).Did es (.ret content')) :
    content' = rewritten cache content := by
  unfold rewrite_content_for_encrypted_room at h
  unfold rewritten
  cases hurl : (content.get "url").bind Value.asStr with
  | none =>
      rw [hurl] at h
      cases h
      rfl
  | some mxc =>
      rw [hurl] at h
      cases h with
      | @cons _ _ e _ _ h =>
          have he := hreads mxc e (by simp)
          subst he
          simp only [Option.bind_some]
          cases hget : cache.get mxc with
          | none =>
              simp only [hget] at h
              cases h
              rfl
          | some e =>
              simp only [hget] at h
              cases h
              rfl

section
omit [Codec]

/-- The info of a content, with the type of the upload where it has none of its own. -/
def filled (mimetype : Option String) (info : Option Value) : Option Value :=
  match mimetype,info.getD (.object []) with
  | some mimetype,.object m => some (.object (orInsert "mimetype" (.string mimetype) m))
  | _,_ => info

/-- A content with the key of its upload in place of the URL. -/
structure Attached (file : Value) (mimetype : Option String) (m m' : Json.Map) : Prop where
  file : m'.lookup "file" = some file
  url : m'.lookup "url" = none
  info : m'.lookup "info" = filled mimetype (m.lookup "info")
  other : ∀ k ∉ ["file","url","info"], m'.lookup k = m.lookup k

theorem withFile_attached {mxc : String} {e : MediaEntry} {file : Value}
    (hfile : fileOf mxc e.info = some file) (m : Json.Map) :
    ∃ m', withFile mxc e (.object m) = .object m' ∧ Attached file e.mimetype m m' := by
  unfold fileOf at hfile
  obtain ⟨m₁,hm₁⟩ : ∃ m₁, m₁ = Json.Map.insert "file" file (Json.Map.remove "url" m) := ⟨_,rfl⟩
  have hput : m₁.lookup "file" = some file := by
    rw [hm₁]
    exact Json.Map.lookup_insert_self ..
  have hgone : m₁.lookup "url" = none := by
    rw [hm₁,Json.Map.lookup_insert_ne (by decide)]
    exact Json.Map.lookup_remove_self ..
  have hother : ∀ k, k ≠ "file" → k ≠ "url" → m₁.lookup k = m.lookup k := by
    intro k hk hk'
    rw [hm₁,Json.Map.lookup_insert_ne (Ne.symm hk),Json.Map.lookup_remove_ne hk']
  have hinfo : m₁.lookup "info" = m.lookup "info" := hother "info" (by decide) (by decide)
  have hplain : filled e.mimetype (m.lookup "info") = m.lookup "info" →
      Attached file e.mimetype m m₁ := by
    intro hfilled
    refine ⟨hput,hgone,by rw [hfilled,hinfo],fun k hk => ?_⟩
    simp only [List.mem_cons,List.not_mem_nil,or_false,not_or] at hk
    exact hother k hk.1 hk.2.1
  simp only [withFile,hfile,← hm₁,hinfo]
  cases hmime : e.mimetype with
  | none =>
      rw [hmime] at hplain
      exact ⟨m₁,rfl,hplain rfl⟩
  | some mimetype =>
      rw [hmime] at hplain
      cases hi : (m.lookup "info").getD (.object []) with
      | object info =>
          refine ⟨_,rfl,?_,?_,?_,fun k hk => ?_⟩
          · rw [Json.Map.lookup_insert_ne (by decide),hput]
          · rw [Json.Map.lookup_insert_ne (by decide),hgone]
          · rw [Json.Map.lookup_insert_self]
            simp only [filled,hi]
          · simp only [List.mem_cons,List.not_mem_nil,or_false,not_or] at hk
            rw [Json.Map.lookup_insert_ne (Ne.symm hk.2.2),hother k hk.1 hk.2.1]
      | _ => exact ⟨m₁,rfl,hplain (by simp only [filled,hi])⟩

theorem filled_get {k : String} (hk : k ≠ "mimetype") (mimetype : Option String)
    (info : Option Value) : (filled mimetype info).bind (Value.get k) = info.bind (Value.get k) := by
  unfold filled
  split
  · next mimetype m hm =>
      have hsame : (orInsert "mimetype" (.string mimetype) m).lookup k = Json.Map.lookup k m := by
        unfold orInsert
        split_ifs
        · rfl
        · exact Json.Map.lookup_insert_ne (Ne.symm hk) ..
      cases info with
      | none =>
          cases hm
          exact hsame
      | some info =>
          have hobject : info = .object m := hm
          rw [hobject]
          exact hsame
  · rfl

/-- What is under a key of a content's info. -/
def inInfo (k : String) (content : Value) : Option Value :=
  (content.get "info").bind (Value.get k)

/-- What becomes of a content: the upload's key takes the place of its URL, or it is
left as it is. -/
theorem rewritten_cases (cache : MediaKeyCache) (content : Value) :
    (rewritten cache content = content ∧
      ∀ mxc e, (content.get "url").bind Value.asStr = some mxc → cache.get mxc = some e →
        fileOf mxc e.info = none) ∨
    ∃ mxc e file, ∃ m m' : Json.Map, content = .object m ∧ (m.lookup "url").bind Value.asStr = some mxc ∧
      cache.get mxc = some e ∧ fileOf mxc e.info = some file ∧
      rewritten cache content = .object m' ∧ Attached file e.mimetype m m' := by
  unfold rewritten
  cases hurl : (content.get "url").bind Value.asStr with
  | none => exact .inl ⟨rfl,fun _ _ h => by cases h⟩
  | some mxc =>
      cases hget : cache.get mxc with
      | none =>
          refine .inl ⟨by simp [hget],fun _ _ h he => ?_⟩
          cases h
          rw [hget] at he
          cases he
      | some e =>
          simp only [Option.bind_some,hget,Option.map_some,Option.getD_some]
          cases hfile : fileOf mxc e.info with
          | none =>
              refine .inl ⟨?_,fun _ _ h he => ?_⟩
              · unfold fileOf at hfile
                simp only [withFile,hfile]
              · cases h
                rw [hget] at he
                cases he
                exact hfile
          | some file =>
              have hobject : content.isObject = true := by
                cases content with
                | object m => rfl
                | _ => cases hurl
              obtain ⟨m,rfl⟩ := Value.isObject_iff.mp hobject
              obtain ⟨m',hm',hattached⟩ := withFile_attached hfile m
              exact .inr ⟨mxc,e,file,m,m',rfl,hurl,hget,hfile,hm',hattached⟩

/-- Nothing else of the info is touched on the way out. -/
theorem rewritten_inInfo {k : String} (hk : k ≠ "mimetype") (cache : MediaKeyCache)
    (content : Value) : inInfo k (rewritten cache content) = inInfo k content := by
  obtain ⟨hsame,_⟩ | ⟨_,e,_,m,m',rfl,_,_,_,hm',hattached⟩ := rewritten_cases cache content
  · rw [hsame]
  · have hinfo : (Value.object m').get "info" = filled e.mimetype (m.lookup "info") := hattached.info
    rw [inInfo,hm',hinfo]
    exact filled_get hk ..

/-- The content refers, in plain, to media whose key is kept. -/
def RefersByUrl (cache : MediaKeyCache) (content : Value) : Prop :=
  ∃ mxc e, (content.get "url").bind Value.asStr = some mxc ∧ cache.get mxc = some e

def RefersByThumbnail (cache : MediaKeyCache) (content : Value) : Prop :=
  ∃ mxc e, (inInfo "thumbnail_url" content).bind Value.asStr = some mxc ∧ cache.get mxc = some e

theorem rewritten_url {cache : MediaKeyCache}
    (hinfos : ∀ mxc e, cache.get mxc = some e → e.info.isObject = true) (content : Value) :
    ¬ RefersByUrl cache (rewritten cache content) := by
  rintro ⟨mxc,e,hurl,he⟩
  obtain ⟨hsame,hno⟩ | ⟨_,_,_,_,m',_,_,_,_,hm',hattached⟩ := rewritten_cases cache content
  · rw [hsame] at hurl
    have hfile := hno mxc e hurl he
    obtain ⟨info,hinfo⟩ := Value.isObject_iff.mp (hinfos mxc e he)
    rw [fileOf,hinfo] at hfile
    cases hfile
  · rw [hm',Value.get_object,hattached.url] at hurl
    cases hurl

theorem rewritten_thumbnail (cache : MediaKeyCache) (content : Value) :
    RefersByThumbnail cache (rewritten cache content) ↔ RefersByThumbnail cache content := by
  unfold RefersByThumbnail
  rw [rewritten_inInfo (by decide)]

end

section
variable {cache : MediaKeyCache} {c c' : Json.Map}
  {kept kept_thumbnail : Except String Unit}

/-- URL and key of the file object that is there, if one is. -/
def fileIn (v : Option Value) : Option (String × Value) := v.bind Codec.encryptedFile

theorem after_stored (ctx : AccountContext) (cache : MediaKeyCache) (kept kept' : Except String Unit)
    (rows rows' : List Row) : after ctx cache (stored ctx kept rows ++ stored ctx kept' rows') =
      ((if kept = .ok () then rows else []) ++ (if kept' = .ok () then rows' else [])).foldl
        MediaKeyCache.insert cache := by
  rw [after,List.flatMap_append,inserts_stored,inserts_stored]

theorem fileRows_eq {url : String} {info : Value} (hfile : fileIn (c.lookup "file") = some (url,info)) :
    fileRows c = [(url,⟨info,((c.lookup "info").bind (Value.get "mimetype")).bind Value.asStr,
      (c.lookup "body").bind Value.asStr⟩)] := by
  have hread : (c.lookup "file").bind Codec.encryptedFile = some (url,info) := hfile
  simp only [fileRows,filesUnder,hread]

theorem thumbnailRows_nil (h : fileIn (inInfo "thumbnail_file" (.object c)) = none) :
    thumbnailRows c = [] := by
  unfold thumbnailRows
  split
  · next info hinfo =>
      have hread : (Json.Map.lookup "thumbnail_file" info).bind Codec.encryptedFile = none := by
        rw [inInfo,Value.get_object,hinfo] at h
        exact h
      simp only [filesUnder,hread]
  · rfl

/-- A thumbnail whose key was kept has only its URL left. -/
theorem Exposed.thumbnail_gone (h : Exposed kept (.ok ()) c c') :
    fileIn (inInfo "thumbnail_file" (.object c')) = none := by
  rw [inInfo,Value.get_object,h.info]
  cases hinfo : c.lookup "info" with
  | none => rfl
  | some info =>
      cases info with
      | object info =>
          change fileIn ((exposed "thumbnail_file" "thumbnail_url" (.ok ()) info).lookup
            "thumbnail_file") = none
          cases hread : (Json.Map.lookup "thumbnail_file" info).bind Codec.encryptedFile with
          | none =>
              rw [exposed_unread hread]
              exact hread
          | some file =>
              rw [(exposed_kept (by decide) hread).1]
              rfl
      | _ => rfl

/-- Where the key was kept, the content has the URL of its file. -/
theorem Exposed.file_url (h : Exposed (.ok ()) kept_thumbnail c c') {url : String} {info : Value}
    (hfile : fileIn (c.lookup "file") = some (url,info)) : c'.lookup "url" = some (.string url) := by
  rw [h.other "url" (by decide)]
  exact (exposed_kept (by decide) hfile).2

/-- The keys that were kept are in the content again. -/
structure Restored (kept kept_thumbnail : Except String Unit) (c : Json.Map) (content : Value) :
    Prop where
  file : kept = .ok () → fileIn (content.get "file") = fileIn (c.lookup "file")
  thumbnail : kept_thumbnail = .ok () → fileIn (inInfo "thumbnail_file" content) =
    fileIn (inInfo "thumbnail_file" (.object c))

/-- What was received and is sent on has its keys again, but for the thumbnail's. -/
theorem restored_iff (hcodec : ∀ v url info, Codec.encryptedFile v = some (url,info) →
      ∃ file, fileOf url info = some file ∧ Codec.encryptedFile file = some (url,info))
    (hfile : (fileIn (c.lookup "file")).isSome = true) (h : Exposed kept kept_thumbnail c c')
    {cache₁ : MediaKeyCache} (hcache : cache₁ = after ctx cache
      (stored ctx kept (fileRows c) ++ stored ctx kept_thumbnail (thumbnailRows c))) :
    Restored kept kept_thumbnail c (rewritten cache₁ (.object c')) ↔
      ¬ (kept_thumbnail = .ok () ∧ (fileIn (inInfo "thumbnail_file" (.object c))).isSome = true) := by
  have hthumbnail : kept_thumbnail = .ok () →
      fileIn (inInfo "thumbnail_file" (rewritten cache₁ (.object c'))) = none := by
    rintro rfl
    rw [rewritten_inInfo (by decide)]
    exact h.thumbnail_gone
  constructor
  · rintro ⟨_,hrestored⟩ ⟨hkept,hsome⟩
    rw [← hrestored hkept,hthumbnail hkept] at hsome
    cases hsome
  · intro hno
    constructor
    · rintro rfl
      obtain ⟨⟨url,info⟩,hread⟩ := Option.isSome_iff_exists.mp hfile
      obtain ⟨v,_,hv⟩ := Option.bind_eq_some_iff.mp hread
      obtain ⟨file,hobject,hfile'⟩ := hcodec v url info hv
      have hrows : (if kept_thumbnail = .ok () then thumbnailRows c else []) = [] := by
        split_ifs with hkept
        · refine thumbnailRows_nil (Option.not_isSome_iff_eq_none.mp fun hsome => hno ⟨hkept,hsome⟩)
        · rfl
      have hget : ∃ e : MediaEntry, cache₁.get url = some e ∧ e.info = info := by
        rw [hcache,after_stored,if_pos rfl,hrows,List.append_nil,fileRows_eq hread]
        exact ⟨_,by rw [List.foldl_cons,List.foldl_nil,MediaKeyCache.get_insert,if_pos rfl],rfl⟩
      obtain ⟨e,hget,rfl⟩ := hget
      have hurl : ((Value.object c').get "url").bind Value.asStr = some url := by
        rw [Value.get_object,h.file_url hread]
        rfl
      obtain ⟨_,hnot⟩ | ⟨mxc,e',file',m,m',hm,hmxc,he',hfile₂,hm',hattached⟩ :=
        rewritten_cases cache₁ (.object c')
      · rw [hnot url e hurl hget] at hobject
        cases hobject
      · cases hm
        rw [Value.get_object,hmxc] at hurl
        cases hurl
        rw [hget] at he'
        cases he'
        rw [hobject] at hfile₂
        cases hfile₂
        rw [hm',Value.get_object,hattached.file,hread]
        exact hfile'
    · intro hkept
      rw [hthumbnail hkept]
      exact (Option.not_isSome_iff_eq_none.mp fun hsome => hno ⟨hkept,hsome⟩).symm

end

/-- The type that a content gives its file. -/
def mimetypeOf (content : Json.Map) : Option String :=
  ((content.lookup "info").bind (Value.get "mimetype")).bind Value.asStr

/-- A content that was sent and received is itself again, but for the upload's type. -/
structure Survives (mimetype : Option String) (c c' : Json.Map) : Prop where
  other : ∀ k ≠ "info", c'.lookup k = c.lookup k
  info : c'.lookup "info" = filled mimetype (c.lookup "info")

theorem exposedThumbnail_none {info : Value} (h : info.get "thumbnail_file" = none)
    (kept : Except String Unit) : exposedThumbnail kept info = info := by
  cases info with
  | object m =>
      have hread : (Json.Map.lookup "thumbnail_file" m).bind Codec.encryptedFile = none := by
        have hnone : Json.Map.lookup "thumbnail_file" m = none := h
        rw [hnone]
        rfl
      rw [exposedThumbnail,exposed_unread hread]
  | _ => rfl

/-- Without a thumbnail the info stays as it is. -/
theorem Exposed.info_same {kept kept_thumbnail : Except String Unit} {c c' : Json.Map}
    (h : Exposed kept kept_thumbnail c c') (hno : inInfo "thumbnail_file" (.object c) = none) :
    c'.lookup "info" = c.lookup "info" := by
  rw [h.info]
  cases hinfo : c.lookup "info" with
  | none => rfl
  | some info =>
      have hnone : info.get "thumbnail_file" = none := by
        rw [inInfo,Value.get_object,hinfo] at hno
        exact hno
      rw [Option.map_some,exposedThumbnail_none hnone]

theorem handle_download_did {cache : MediaKeyCache} {server media_id : String} {encrypted : Bytes}
    {e : MediaEntry} {es : List (Sigma Act.Ans)} {r : Except Abort Response}
    (hreads : Reads ctx cache es) (hhas : ∀ x ∈ es, Has encrypted x.1 x.2)
    (he : cache.get ("mxc://" ++ server ++ "/" ++ media_id) = some e)
    (h : (handle_download ctx server media_id).run.Did es (.ret r)) : r = opened encrypted e := by
  cases h with
  | @cons _ _ entry es _ h =>
      have hentry : entry = some e := (hreads _ entry (by simp)).trans he
      subst hentry
      cases h with
      | @cons _ _ answer es _ h =>
          obtain ⟨reply,rfl,hsuccess,rfl⟩ : ∃ reply, answer = .ok reply ∧
              isSuccess reply.status = true ∧ reply.bytes = encrypted :=
            hhas ⟨.fetch ctx.token (downloadPath server media_id),answer⟩ (by simp)
          change Prog.Did (ExceptT.run (if isSuccess reply.status then _ else _)) es _ at h
          rw [if_pos hsuccess] at h
          unfold opened
          cases hdata : Codec.decryptAttachment reply.bytes e.info with
          | none =>
              rw [hdata] at h
              cases h
              rfl
          | some data =>
              rw [hdata] at h
              cases h
              rfl

/-- Downloads of these bytes are answered with the data, under this type. -/
def Serves (ctx : AccountContext) (cache : MediaKeyCache) (mxc : String) (encrypted data : Bytes)
    (mimetype : Option String) : Prop :=
  ∀ server media_id es r, mxc = "mxc://" ++ server ++ "/" ++ media_id → Reads ctx cache es →
    (∀ x ∈ es, Has encrypted x.1 x.2) → (handle_download ctx server media_id).run.Did es (.ret r) →
    ∃ headers, r = .ok ⟨200,("content-type",
      (mimetype.bind headerValue).getD "application/octet-stream") :: headers,.raw data⟩

theorem serves_entry {cache : MediaKeyCache} {mxc : String} {e : MediaEntry} {encrypted data : Bytes}
    (he : cache.get mxc = some e) (hdata : Codec.decryptAttachment encrypted e.info = some data) :
    Serves ctx cache mxc encrypted data e.mimetype := by
  rintro server media_id es r rfl hreads hhas h
  rw [handle_download_did hreads hhas he h,opened,hdata]
  exact ⟨_,rfl⟩

/-- A content with the URL of an upload arrives as it was sent, but for the type of
the upload, and its media can be downloaded, if the receiver could keep the key. -/
theorem content_survives (cache' : MediaKeyCache) {ctx' : AccountContext} {cache : MediaKeyCache}
    {c : Json.Map} {mxc : String} {e : MediaEntry} {content event event' : Value}
    {es es' : List (Sigma Act.Ans)}
    (hurl : c.lookup "url" = some (.string mxc)) (hnofile : c.lookup "file" = none)
    (hnothumbnail : inInfo "thumbnail_file" (.object c) = none) (he : cache.get mxc = some e)
    (hcodec : ∃ file, fileOf mxc e.info = some file ∧ Codec.encryptedFile file = some (mxc,e.info))
    (hreads : Reads ctx cache es)
    (hrewrite : (rewrite_content_for_encrypted_room ctx (.object c)).Did es (.ret content))
    (hcontent : event.get "content" = some content)
    (hharvest : (harvest_and_rewrite_decrypted ctx' event).Did es' (.ret event')) :
    (∀ k ≠ "content", event'.get k = event.get k) ∧ ∃ kept, ∃ c' : Json.Map,
      es' = stored ctx' kept [(mxc,⟨e.info,mimetypeOf c',(c'.lookup "body").bind Value.asStr⟩)] ∧
      event'.get "content" = some (.object c') ∧
      (kept = .ok () → Survives e.mimetype c c' ∧
        ((after ctx' cache' es').get mxc).map MediaEntry.info = some e.info ∧
        ∀ encrypted data, Codec.decryptAttachment encrypted e.info = some data →
          Serves ctx' (after ctx' cache' es') mxc encrypted data (mimetypeOf c')) := by
  obtain ⟨file,hfile,hread⟩ := hcodec
  obtain ⟨m,rfl,hattached⟩ : ∃ m : Json.Map, content = .object m ∧ Attached file e.mimetype c m := by
    rw [rewrite_did hreads hrewrite]
    obtain ⟨_,hnot⟩ | ⟨mxc',e',file',m,m',hm,hmxc,he',hfile',hm',hattached⟩ :=
      rewritten_cases cache (.object c)
    · rw [hnot mxc e (by rw [Value.get_object,hurl]; rfl) he] at hfile
      cases hfile
    · cases hm
      rw [hurl] at hmxc
      cases hmxc
      rw [he] at he'
      cases he'
      rw [hfile] at hfile'
      cases hfile'
      exact ⟨m',hm',hattached⟩
  obtain ⟨hother,kept,kept_thumbnail,c',hes,hcontent',hexposed⟩ := harvest_did hcontent hharvest
  have hthumbnail : inInfo "thumbnail_file" (.object m) = none := by
    rw [inInfo,Value.get_object,hattached.info,filled_get (by decide)]
    exact hnothumbnail
  have hinfo : c'.lookup "info" = m.lookup "info" := hexposed.info_same hthumbnail
  have hfileIn : fileIn (m.lookup "file") = some (mxc,e.info) := by
    rw [hattached.file]
    exact hread
  have hbody : c'.lookup "body" = m.lookup "body" := by
    rw [hexposed.other "body" (by decide)]
    exact exposed_other (by decide) (by decide) ..
  have hes' : es' = stored ctx' kept
      [(mxc,⟨e.info,mimetypeOf c',(c'.lookup "body").bind Value.asStr⟩)] := by
    have hnone : thumbnailRows m = [] := thumbnailRows_nil (by rw [hthumbnail]; rfl)
    rw [hes,hnone,fileRows_eq hfileIn,mimetypeOf,hinfo,hbody]
    simp [stored]
  refine ⟨hother,kept,c',hes',hcontent',?_⟩
  rintro rfl
  have hget : (after ctx' cache' es').get mxc =
      some ⟨e.info,mimetypeOf c',(c'.lookup "body").bind Value.asStr⟩ := by
    rw [hes',after,inserts_stored,if_pos rfl,List.foldl_cons,List.foldl_nil,
      MediaKeyCache.get_insert,if_pos rfl]
  refine ⟨⟨fun k hk => ?_,by rw [hinfo,hattached.info]⟩,by rw [hget]; rfl,fun encrypted data hdata => ?_⟩
  · rw [hexposed.other k hk]
    by_cases hkfile : k = "file"
    · subst hkfile
      rw [(exposed_kept (by decide) hfileIn).1,hnofile]
    · by_cases hkurl : k = "url"
      · subst hkurl
        rw [(exposed_kept (by decide) hfileIn).2,hurl]
      · rw [exposed_other hkfile hkurl]
        exact hattached.other k (by simp [hk,hkfile,hkurl])
  · exact serves_entry hget hdata

/-- If the action encrypts, it is this content. -/
def Encrypts (content : Value) : Act → Prop
  | .olm _ (.encryptRoomEventRaw _ _ raw) => Codec.toRaw content = some raw
  | _ => True

theorem preparing_encrypts (content : Value) {a : Act} (h : a.preparing) : Encrypts content a := by
  unfold Encrypts
  split
  · exact h.elim
  · trivial

theorem encrypt_content_encrypts (fuel : Nat) (room_id : RoomId) (event_type : String)
    (content : Value) :
    (encrypt_content fuel ctx room_id event_type content).run.Does (Encrypts content) :=
  encrypt_content_does ctx (fun _ h => preparing_encrypts content h) fuel room_id event_type content
    (fun _ => trivial) (fun _ => trivial) (fun _ _ => trivial) fun _ hraw => hraw

/-- What a send encrypts is the client's content, rewritten with the keys that are kept. -/
theorem handle_send_encrypts {fuel : Nat} {req : Request} {room_id event_type txn_id : String}
    {cache : MediaKeyCache} {es : List (Sigma Act.Ans)} {a : OlmAct}
    {k : (Act.olm ctx a).Ans → M (Except Abort Response)} {r t : String} {raw : Value}
    (ha : a = .encryptRoomEventRaw r t raw) (hreads : Reads ctx cache es)
    (h : (handle_send fuel ctx req room_id event_type txn_id).run.Did es (.act (.olm ctx a) k)) :
    ∃ content, Codec.fromSlice req.body = some content ∧
      Codec.toRaw (rewritten cache content) = some raw := by
  cases handle_send_did h with
  | preparing hp =>
      rw [ha] at hp
      exact hp.1.elim
  | @encrypting room content content' before rewriting es' _ k' _ hread hes hrewrite hencrypt =>
      have hsub : Reads ctx cache rewriting := fun mxc e hmem => hreads mxc e (by simp [hes,hmem])
      have hraw := Prog.Does.did (encrypt_content_encrypts fuel room event_type content') hencrypt
      rw [ha,rewrite_did hsub hrewrite] at hraw
      exact ⟨content,hread,hraw⟩

/-- A send passes a request on as it came only if its event is encrypted already, or
for no room. -/
theorem handle_send_passes {fuel : Nat} {req r : Request} {room_id event_type txn_id : String}
    {es : List (Sigma Act.Ans)} {k : (Act.passthrough r).Ans → M (Except Abort Response)}
    (h : (handle_send fuel ctx req room_id event_type txn_id).run.Did es (.act (.passthrough r) k)) :
    r = forwarded req ∧ (parseRoomId room_id = none ∨ event_type = "m.room.encrypted") := by
  cases handle_send_did h with
  | preparing hp => exact hp.1.elim
  | passed hwhy => exact ⟨rfl,hwhy⟩
  | encrypting _ _ _ _ hencrypt =>
      exact (Prog.Does.did (encrypt_content_quiet ctx fuel ..) hencrypt).elim

/-- A received content that is sent on has its keys again exactly if no key of a
thumbnail was kept; and what a send encrypts refers to media with a key by a plain URL
exactly if the client's content does, by that of its thumbnail. -/
theorem keys_restored_iff (hcodec : ∀ v url info, Codec.encryptedFile v = some (url,info) →
      ∃ file, fileOf url info = some file ∧ Codec.encryptedFile file = some (url,info)) :
    (∀ (ctx : AccountContext) (cache : MediaKeyCache) (event event' : Value) (c : Json.Map)
        (es : List (Sigma Act.Ans)), event.get "content" = some (.object c) →
      (fileIn (c.lookup "file")).isSome = true →
      (harvest_and_rewrite_decrypted ctx event).Did es (.ret event') →
      ∃ kept kept_thumbnail content,
        es = stored ctx kept (fileRows c) ++ stored ctx kept_thumbnail (thumbnailRows c) ∧
        event'.get "content" = some content ∧
        ∀ es' content', Reads ctx (after ctx cache es) es' →
          (rewrite_content_for_encrypted_room ctx content).Did es' (.ret content') →
          (Restored kept kept_thumbnail c content' ↔
            ¬ (kept_thumbnail = .ok () ∧
              (fileIn (inInfo "thumbnail_file" (.object c))).isSome = true))) ∧
    ∀ (ctx : AccountContext) (cache : MediaKeyCache) (fuel : Nat) (req : Request)
      (room_id event_type txn_id : String) (es : List (Sigma Act.Ans)) (a : Act)
      (k : a.Ans → M (Except Abort Response)),
      (∀ mxc e, cache.get mxc = some e → e.info.isObject = true) → Reads ctx cache es →
      (handle_send fuel ctx req room_id event_type txn_id).run.Did es (.act a k) →
      (∀ r t raw, a = .olm ctx (.encryptRoomEventRaw r t raw) →
        ∃ content content', Codec.fromSlice req.body = some content ∧
          Codec.toRaw content' = some raw ∧
          ((RefersByUrl cache content' ∨ RefersByThumbnail cache content') ↔
            RefersByThumbnail cache content)) ∧
      ∀ r, a = .passthrough r → r = forwarded req ∧
        (parseRoomId room_id = none ∨ event_type = "m.room.encrypted") := by
  refine ⟨?_,?_⟩
  · intro ctx cache event event' c es hcontent hfile hharvest
    obtain ⟨_,kept,kept_thumbnail,content,hes,hcontent',hexposed⟩ := harvest_did hcontent hharvest
    refine ⟨kept,kept_thumbnail,_,hes,hcontent',fun es' content' hreads hrewrite => ?_⟩
    rw [rewrite_did hreads hrewrite,hes]
    exact restored_iff hcodec hfile hexposed rfl
  · intro ctx cache fuel req room_id event_type txn_id es a k hinfos hreads h
    refine ⟨?_,?_⟩
    · rintro r t raw rfl
      obtain ⟨content,hread,hraw⟩ := handle_send_encrypts rfl hreads h
      refine ⟨content,_,hread,hraw,?_⟩
      rw [rewritten_thumbnail]
      exact or_iff_right (rewritten_url hinfos content)
    · rintro r rfl
      exact handle_send_passes h

end

/-- File objects are read as a URL and the rest, and an empty file decrypts to itself. -/
local instance : Codec := { Codec.plain (fun _ => none) some (fun _ _ => 0) with
  encryptedFile := fun
    | .object m => ((Json.Map.lookup "url" m).bind Value.asStr).map fun url =>
        (url,.object (Json.Map.remove "url" m))
    | _ => none
  -- The key below is that of an empty file.
  decryptAttachment := fun bytes _ => if bytes.isEmpty then some [] else none }

theorem file_codec (v : Value) (url : String) (info : Value)
    (h : Codec.encryptedFile v = some (url,info)) :
    ∃ file, fileOf url info = some file ∧ Codec.encryptedFile file = some (url,info) := by
  cases v with
  | object m =>
      obtain ⟨url',_,hpair⟩ := Option.map_eq_some_iff.mp h
      cases hpair
      refine ⟨_,rfl,?_⟩
      change ((Json.Map.lookup "url" (Json.Map.insert "url" (.string url)
        (Json.Map.remove "url" m))).bind Value.asStr).map (fun u => (u,Value.object
          (Json.Map.remove "url" (Json.Map.insert "url" (.string url) (Json.Map.remove "url" m))))) = _
      rw [Json.Map.lookup_insert_self,Json.Map.remove_insert,Json.Map.remove,Json.Map.remove,
        List.filter_filter]
      simp
  | _ => cases h

def alice : AccountContext := ⟨"@alice:a","DEVICE","token",⟨0,"key"⟩⟩

/-- The key of an attachment, as it is serialised. -/
def key : Json.Map :=
  [("hashes",.object [("sha256",.string "47DEQpj8HBSa+/TImW+5JCeuQeRkm5NMpJWZG3hSuFU")]),
    ("iv",.string "w+sE15fzSc0AAAAAAAAAAA"),
    ("key",.object [("alg",.string "A256CTR"),("ext",.bool true),
      ("k",.string "aWF6-32KGYaC3A_FEUCk1Bt0JA37zP0wrStgmdCaW-0"),
      ("key_ops",.array [.string "encrypt",.string "decrypt"]),("kty",.string "oct")]),
    ("v",.string "v2")]

def file (url : String) : Value := .object (Json.Map.insert "url" (.string url) key)

def picture (info : Json.Map) : Json.Map :=
  [("body",.string "cat.png"),("file",file "mxc://a/cat"),("info",.object info),
    ("msgtype",.string "m.image")]

def received (info : Json.Map) : Value := .object [("content",.object (picture info))]

def noKeys : MediaKeyCache := ⟨∅⟩

/-- The insert of a file's key succeeds. -/
def kept (url : String) (mimetype filename : Option String) : Sigma Act.Ans :=
  ⟨.mediaInsert alice url ⟨.object key,mimetype,filename⟩,.ok ()⟩

theorem keys_restored_iff_picture : ∃ content,
    (harvest_and_rewrite_decrypted alice (received [])).Did
      [kept "mxc://a/cat" none (some "cat.png")] (.ret (.object [("content",content)])) ∧
    ∀ es' content', Reads alice (after alice noKeys [kept "mxc://a/cat" none (some "cat.png")]) es' →
      (rewrite_content_for_encrypted_room alice content).Did es' (.ret content') →
        fileIn (content'.get "file") = some ("mxc://a/cat",.object key) := by
  have hharvest : (harvest_and_rewrite_decrypted alice (received [])).Did
      [kept "mxc://a/cat" none (some "cat.png")] (.ret (.object [("content",.object
        [("body",.string "cat.png"),("info",.object []),("msgtype",.string "m.image"),
          ("url",.string "mxc://a/cat")])])) := .cons (.nil _)
  refine ⟨_,hharvest,fun es' content' hreads hrewrite => ?_⟩
  obtain ⟨kept₁,kept₂,content,hes,hcontent,hrestored⟩ := (keys_restored_iff file_codec).1 alice noKeys
    (received []) _ (picture []) _ rfl rfl hharvest
  cases hcontent
  have hok : kept₁ = .ok () := by
    have hhead : (kept "mxc://a/cat" none (some "cat.png")) =
        ⟨.mediaInsert alice "mxc://a/cat" ⟨.object key,none,some "cat.png"⟩,kept₁⟩ := by
      injection hes
    injection hhead with _ hkept
    exact hkept.symm
  exact ((hrestored es' content' hreads hrewrite).mpr fun h => by cases h.2).file hok

/-- A picture whose thumbnail has a key of its own. -/
def thumbnailed : Value := received [("thumbnail_file",file "mxc://a/small")]

/-- Sent on, it names the thumbnail in plain. -/
theorem thumbnail_key_is_lost : ∃ content content' es es',
    (harvest_and_rewrite_decrypted alice thumbnailed).Did es (.ret (.object [("content",content)])) ∧
    es = [kept "mxc://a/cat" none (some "cat.png"),kept "mxc://a/small" none none] ∧
    Reads alice (after alice noKeys es) es' ∧
    (rewrite_content_for_encrypted_room alice content).Did es' (.ret content') ∧
    fileIn (inInfo "thumbnail_file" content') = none ∧
    inInfo "thumbnail_url" content' = some (.string "mxc://a/small") ∧
    RefersByThumbnail (after alice noKeys es) content' := by
  have hrewrite : (rewrite_content_for_encrypted_room alice (.object
      [("body",.string "cat.png"),("info",.object [("thumbnail_url",.string "mxc://a/small")]),
        ("msgtype",.string "m.image"),("url",.string "mxc://a/cat")])).Did
      [⟨.mediaGet alice "mxc://a/cat",some ⟨.object key,none,some "cat.png"⟩⟩]
      (.ret (.object [("body",.string "cat.png"),("file",file "mxc://a/cat"),
        ("info",.object [("thumbnail_url",.string "mxc://a/small")]),
        ("msgtype",.string "m.image")])) := .cons (.nil _)
  have hharvest : (harvest_and_rewrite_decrypted alice thumbnailed).Did
      [kept "mxc://a/cat" none (some "cat.png"),kept "mxc://a/small" none none]
      (.ret (.object [("content",.object
        [("body",.string "cat.png"),("info",.object [("thumbnail_url",.string "mxc://a/small")]),
          ("msgtype",.string "m.image"),("url",.string "mxc://a/cat")])])) :=
    .cons (.cons (.nil _))
  refine ⟨_,_,_,_,hharvest,rfl,fun mxc e hmem => ?_,hrewrite,rfl,rfl,_,_,rfl,rfl⟩
  obtain ⟨rfl,rfl⟩ : mxc = "mxc://a/cat" ∧ e = some ⟨.object key,none,some "cat.png"⟩ := by
    simpa using hmem
  rfl

def bob : AccountContext := ⟨"@bob:b","PHONE","secret",⟨1,"other"⟩⟩

/-- An uploaded file as it is sent and shown, and as it is encrypted. -/
def shown (info : Json.Map) : Json.Map :=
  [("body",.string "cat.png"),("info",.object info),("msgtype",.string "m.image"),
    ("url",.string "mxc://a/cat")]

def entry : MediaEntry := ⟨.object key,some "image/png",none⟩
def uploads : MediaKeyCache := ⟨(∅ : AList fun _ : String => MediaEntry).insert "mxc://a/cat" entry⟩
def lookups : List (Sigma Act.Ans) := [⟨.mediaGet alice "mxc://a/cat",some entry⟩]

theorem lookups_read : Reads alice uploads lookups := by
  intro mxc e hmem
  obtain ⟨rfl,rfl⟩ : mxc = "mxc://a/cat" ∧ e = some entry := by simpa [lookups] using hmem
  rfl

def image : Json.Map := [("mimetype",.string "image/png")]

theorem content_survives_image : ∃ c' : Json.Map,
    (harvest_and_rewrite_decrypted bob (received image)).Did
      [⟨.mediaInsert bob "mxc://a/cat" ⟨.object key,some "image/png",some "cat.png"⟩,.ok ()⟩]
      (.ret (.object [("content",.object c')])) ∧ Survives (some "image/png") (shown []) c' := by
  have hrewrite : (rewrite_content_for_encrypted_room alice (.object (shown []))).Did lookups
      (.ret (.object (picture image))) := .cons (.nil _)
  have hharvest : (harvest_and_rewrite_decrypted bob (received image)).Did
      [⟨.mediaInsert bob "mxc://a/cat" ⟨.object key,some "image/png",some "cat.png"⟩,.ok ()⟩]
      (.ret (.object [("content",.object (shown image))])) := .cons (.nil _)
  obtain ⟨_,kept,c',hes,hc',hsurvives⟩ := content_survives noKeys rfl rfl rfl rfl
    ⟨_,rfl,rfl⟩ lookups_read hrewrite rfl hharvest
  cases hc'
  have hok : kept = .ok () := by
    injection hes with hhead
    injection hhead with _ hkept
    exact hkept.symm
  exact ⟨_,hharvest,(hsurvives hok).1⟩

/-- A type that no header can carry. -/
def odd : Json.Map := [("mimetype",.string "image/png\n")]

/-- Where the receiver cannot keep the key the content arrives encrypted, and a file is
never served under a type that no header can carry. -/
theorem content_is_not_restored :
    (rewrite_content_for_encrypted_room alice (.object (shown image))).Did lookups
      (.ret (.object (picture image))) ∧
    (harvest_and_rewrite_decrypted bob (received image)).Did
      [⟨.mediaInsert bob "mxc://a/cat" ⟨.object key,some "image/png",some "cat.png"⟩,
        .error "disk full"⟩] (.ret (received image)) ∧
    (received image).pointer ["content","url"] = none ∧
    (rewrite_content_for_encrypted_room alice (.object (shown odd))).Did lookups
      (.ret (.object (picture odd))) ∧
    (harvest_and_rewrite_decrypted bob (received odd)).Did
      [⟨.mediaInsert bob "mxc://a/cat" ⟨.object key,some "image/png\n",some "cat.png"⟩,.ok ()⟩]
      (.ret (.object [("content",.object (shown odd))])) ∧
    (handle_download bob "a" "cat").run.Did
      [⟨.mediaGet bob "mxc://a/cat",some ⟨.object key,some "image/png\n",some "cat.png"⟩⟩,
        ⟨.fetch "secret" (downloadPath "a" "cat"),.ok ⟨200,[],[]⟩⟩]
      (.ret (.ok ⟨200,[("content-type","application/octet-stream"),
        ("content-disposition","inline; filename=\"cat.png\"")],.raw []⟩)) :=
  ⟨.cons (.nil _),.cons (.nil _),rfl,.cons (.nil _),.cons (.nil _),.cons (.cons (.nil _))⟩

end EmentE2ee.MediaContents
