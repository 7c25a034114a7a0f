import EmentE2ee.Concurrent.Run
import EmentE2ee.Crypto.Decrypt
import EmentE2ee.Json.Update

/-!
# Keys of encrypted media

The key cache has one row for each URI, and the last insert wins. Uploads put the
proxy's own keys there, and every decrypted event puts the keys of its file objects
there, under the URIs that its sender chose.
-/
namespace EmentE2ee.MediaKeys

open Concurrent
open Json (Value)

structure MediaKeyCache where
  rows : AList fun _ : String => MediaEntry

/-- A URI with the entry that is kept for it. -/
abbrev Row := String × MediaEntry

namespace MediaKeyCache

def insert (c : MediaKeyCache) (row : Row) : MediaKeyCache := ⟨c.rows.insert row.1 row.2⟩

def get (c : MediaKeyCache) (mxc : String) : Option MediaEntry := c.rows.lookup mxc

/-- The entry that the last row gives a URI. -/
def last (mxc : String) (rows : List Row) : Option MediaEntry :=
  rows.foldl (fun found row => if row.1 = mxc then some row.2 else found) none

theorem get_insert (c : MediaKeyCache) (row : Row) (mxc : String) :
    (c.insert row).get mxc = if row.1 = mxc then some row.2 else c.get mxc := by
  by_cases h : row.1 = mxc
  · subst h
    simp [insert,get]
  · rw [if_neg h]
    exact AList.lookup_insert_ne (Ne.symm h)

theorem last_snoc (mxc : String) (rows : List Row) (row : Row) :
    last mxc (rows ++ [row]) = if row.1 = mxc then some row.2 else last mxc rows := by
  simp [last]

theorem last_mem {mxc : String} {rows : List Row} {e : MediaEntry} (h : last mxc rows = some e) :
    (mxc,e) ∈ rows := by
  induction rows using List.reverseRecOn with
  | nil => cases h
  | append_singleton rows row ih =>
      rw [last_snoc] at h
      split_ifs at h with hrow
      · cases h
        simp [← hrow]
      · exact List.mem_append_left _ (ih h)

/-- What is looked up after some inserts is the last of them, if there is one. -/
theorem get_inserts (c : MediaKeyCache) (rows : List Row) (mxc : String) :
    (rows.foldl insert c).get mxc = (last mxc rows).or (c.get mxc) := by
  induction rows using List.reverseRecOn with
  | nil => rfl
  | append_singleton rows row ih =>
      rw [List.foldl_append,List.foldl_cons,List.foldl_nil,get_insert,last_snoc,ih]
      split_ifs <;> rfl

end MediaKeyCache

section
variable [Codec] {ω : Type}

/-- The row that an answered action has put into the cache of `ctx`. -/
def inserts (ctx : AccountContext) : (a : Act) → a.Ans → List Row
  | .mediaInsert c mxc entry,.ok () => if c = ctx then [(mxc,entry)] else []
  | _,_ => []

/-- The cache as part of the world outside: `get` looks up, `insert` replaces, and
nothing else changes it. A row may also fail to be written. -/
structure KeyStore (O : Outside ω) (ctx : AccountContext) (cache : ω → MediaKeyCache) : Prop where
  get : ∀ {mxc w r w'}, O (.mediaGet ctx mxc) w r w' → r = (cache w).get mxc
  found : ∀ mxc w, ∃ w', O (.mediaGet ctx mxc) w ((cache w).get mxc) w'
  insert : ∀ {a w r w'}, O a w r w' → cache w' = (inserts ctx a r).foldl MediaKeyCache.insert (cache w)

/-- The row of a file object, if there is one under the key. -/
def filesUnder (key : String) (mimetype filename : Option String) (m : Json.Map) : List Row :=
  match (m.lookup key).bind Codec.encryptedFile with
  | some (url,info) => [(url,⟨info,mimetype,filename⟩)]
  | none => []

/-- The rows of a decrypted content: its file, and then its thumbnail. -/
def files (content : Json.Map) : List Row :=
  filesUnder "file" (((content.lookup "info").bind (Value.get "mimetype")).bind Value.asStr)
      ((content.lookup "body").bind Value.asStr) content ++
    match content.lookup "info" with
    | some (.object info) => filesUnder "thumbnail_file"
        (((Json.Map.lookup "thumbnail_info" info).bind (Value.get "mimetype")).bind Value.asStr) none
        info
    | _ => []

/-- The rows of the content that an answered action has decrypted for `ctx`. -/
def names (ctx : AccountContext) : (a : Act) → a.Ans → List Row
  | .olm c (.tryDecryptRoomEvent _ _),.ok (.decrypted event _) =>
      if c = ctx then
        (((Codec.fromRaw event).bind (Value.get "content")).bind Value.asObject).elim [] files
      else []
  | _,_ => []

/-- The proxy's state, with the rows that were put into the cache and those that
decrypted events have named. -/
structure Storing (ω : Type) where
  state : State ω
  rows : List Row
  named : List Row

def storing (O : Outside ω) (ctx : AccountContext) : Sem Act Act.Ans (Storing ω) :=
  fun a s r s' => sem O a s.state r s'.state ∧ s'.rows = s.rows ++ inserts ctx a r ∧
    s'.named = s.named ++ names ctx a r

variable {O : Outside ω} {ctx : AccountContext} {cache : ω → MediaKeyCache}

theorem inserts_inside {a : Act} (ha : ¬ a.outside) (r : a.Ans) : inserts ctx a r = [] := by
  cases a with
  | mediaInsert c mxc entry => exact (ha trivial).elim
  | _ => rfl

theorem insert_kept (hcache : KeyStore O ctx cache) {a : Act} {r : a.Ans} {s s' : State ω}
    (h : sem O a s r s') :
    cache s'.world = (inserts ctx a r).foldl MediaKeyCache.insert (cache s.world) := by
  by_cases ha : a.outside
  · exact hcache.insert (sem_asked ha h)
  · rw [sem_inside ha h,inserts_inside ha]
    rfl

/-- A program leaves the cache with the rows it has put there, in order. -/
theorem storing_exec (hcache : KeyStore O ctx cache) {α : Type} {p : M α} {b : α} {s s' : Storing ω}
    (h : Prog.Exec (storing O ctx) p s b s') : ∃ rows, s'.rows = s.rows ++ rows ∧
      cache s'.state.world = rows.foldl MediaKeyCache.insert (cache s.state.world) := by
  induction h with
  | ret b s => exact ⟨[],by simp,rfl⟩
  | @act a _ _ _ _ r _ hs _ ih =>
      obtain ⟨hsem,hrows₁,_⟩ := hs
      obtain ⟨rows,hrows,hkept⟩ := ih
      refine ⟨inserts ctx a r ++ rows,?_,?_⟩
      · rw [hrows,hrows₁,List.append_assoc]
      · rw [hkept,insert_kept hcache hsem,List.foldl_append]

/-- What was named stays named. -/
theorem named_exec {α : Type} {p : M α} {b : α} {s s' : Storing ω}
    (h : Prog.Exec (storing O ctx) p s b s') : s.named ⊆ s'.named := by
  induction h with
  | ret b s => exact fun _ h => h
  | act hs _ ih =>
      obtain ⟨_,_,hnamed⟩ := hs
      refine fun row hrow => ih ?_
      rw [hnamed]
      exact List.mem_append_left _ hrow

variable {s s' : Storing ω}

theorem exposeUrl_rows {key url_key : String} {mimetype filename : Option String} {m m' : Json.Map}
    (h : Prog.Exec (storing O ctx) (exposeUrl ctx key url_key mimetype filename m) s m' s') :
    (∃ rows, s'.rows = s.rows ++ rows ∧ rows.Sublist (filesUnder key mimetype filename m)) ∧
      ∀ k, k ≠ key → k ≠ url_key → m'.lookup k = m.lookup k := by
  have hnone : s = s' → m = m' → (∃ rows, s'.rows = s.rows ++ rows ∧
      rows.Sublist (filesUnder key mimetype filename m)) ∧
        ∀ k, k ≠ key → k ≠ url_key → m'.lookup k = m.lookup k := by
    rintro rfl rfl
    exact ⟨⟨[],by simp,List.nil_sublist _⟩,fun _ _ _ => rfl⟩
  unfold exposeUrl at h
  split at h
  · cases h
    exact hnone rfl rfl
  · next file hfile =>
      obtain ⟨url,s₁,hharvest,h⟩ := Prog.exec_bind.mp h
      unfold harvest_file at hharvest
      split at hharvest
      · cases hharvest
        cases h
        exact hnone rfl rfl
      · next mxc info hdecode =>
          have hfiles : filesUnder key mimetype filename m = [(mxc,⟨info,mimetype,filename⟩)] := by
            simp [filesUnder,hfile,hdecode]
          cases hharvest with
          | @act _ _ _ _ _ r _ hs hret =>
              obtain ⟨_,hrows,_⟩ := hs
              cases r with
              | error e =>
                  cases hret
                  cases h
                  refine ⟨⟨[],hrows,List.nil_sublist _⟩,fun _ _ _ => rfl⟩
              | ok u =>
                  cases hret
                  cases h
                  have hself : inserts ctx (.mediaInsert ctx mxc ⟨info,mimetype,filename⟩) (.ok u) =
                      [(mxc,⟨info,mimetype,filename⟩)] := by simp [inserts]
                  rw [hself] at hrows
                  refine ⟨⟨_,hrows,by rw [hfiles]⟩,fun k hkey hurl => ?_⟩
                  rw [Json.Map.lookup_insert_ne (Ne.symm hurl),Json.Map.lookup_remove_ne hkey]

/-- A decrypted event puts at most the rows of its own file objects there. -/
theorem harvest_rows {event event' : Value}
    (h : Prog.Exec (storing O ctx) (harvest_and_rewrite_decrypted ctx event) s event' s') :
    ∃ rows, s'.rows = s.rows ++ rows ∧
      rows.Sublist (((event.get "content").bind Value.asObject).elim [] files) := by
  obtain ⟨_,⟨_,_,rfl⟩ | ⟨content,content',hcontent,_,h⟩⟩ := Value.exec_updateM_get h
  · exact ⟨[],by simp,List.nil_sublist _⟩
  rw [hcontent,Option.bind_some]
  split at h
  · next content =>
      obtain ⟨m₁,s₁,hfile,h⟩ := Prog.exec_bind.mp h
      obtain ⟨m₂,s₂,hinfo,h⟩ := Prog.exec_bind.mp h
      cases h
      obtain ⟨⟨rows₁,hrows₁,hsub₁⟩,hkeys⟩ := exposeUrl_rows hfile
      have hlookup : Json.Map.lookup "info" m₁ = Json.Map.lookup "info" content :=
        hkeys "info" (by decide) (by decide)
      obtain ⟨_,⟨_,_,rfl⟩ | ⟨info,info',hinfo',_,h⟩⟩ := Json.Map.exec_updateM hinfo
      · exact ⟨rows₁,hrows₁,hsub₁.trans (List.sublist_append_left ..)⟩
      rw [hlookup] at hinfo'
      split at h
      · next info =>
          obtain ⟨m₃,s₃,hthumbnail,h⟩ := Prog.exec_bind.mp h
          cases h
          obtain ⟨⟨rows₂,hrows₂,hsub₂⟩,_⟩ := exposeUrl_rows hthumbnail
          refine ⟨rows₁ ++ rows₂,?_,?_⟩
          · rw [hrows₂,hrows₁,List.append_assoc]
          · have hsub := hsub₁.append hsub₂
            rw [hinfo'] at hsub
            simpa only [Value.asObject_object,Option.elim_some,files,hinfo'] using hsub
      · cases h
        exact ⟨rows₁,hrows₁,hsub₁.trans (List.sublist_append_left ..)⟩
  · cases h
    exact ⟨[],by simp,List.nil_sublist _⟩

theorem feed_rows {event : Value} {u : Unit}
    (h : Prog.Exec (storing O ctx) (maybe_feed_verification ctx event) s u s') : s'.rows = s.rows := by
  unfold maybe_feed_verification at h
  split_ifs at h
  · split at h
    · cases h with
      | act hs hret =>
          obtain ⟨_,hrows,_⟩ := hs
          cases hret
          exact hrows.trans (List.append_nil _)
    · cases h
      rfl
  · cases h
    rfl

omit [Codec] in
/-- The proxy's mark leaves the content as it was decrypted. -/
theorem mergeUnsigned_content (event encryption_info : Value) (new_object : Json.Map) :
    (mergeUnsigned event encryption_info new_object).get "content" =
      Json.Map.lookup "content" new_object := by
  unfold mergeUnsigned
  split
  · exact Json.Map.lookup_insert_ne (by decide) _ _
  · rfl

/-- Decrypting puts only rows there that the decrypted content names. -/
theorem decrypt_rows {room_id : RoomId} {event : Value} {outcome : Decryption}
    (h : Prog.Exec (storing O ctx) (decrypt ctx room_id event) s outcome s') :
    ∃ rows, s'.rows = s.rows ++ rows ∧ rows ⊆ s'.named := by
  have hnone : s'.rows = s.rows → ∃ rows, s'.rows = s.rows ++ rows ∧ rows ⊆ s'.named :=
    fun hrows => ⟨[],by simpa using hrows,List.nil_subset _⟩
  unfold decrypt at h
  split_ifs at h
  swap
  · cases h
    exact hnone rfl
  split at h
  · cases h
    exact hnone rfl
  obtain ⟨result,s₁,hdecrypt,h⟩ := Prog.exec_bind.mp h
  obtain ⟨hrows,hnamed⟩ : s₁.rows = s.rows ∧
      s₁.named = s.named ++ names ctx (.olm ctx (.tryDecryptRoomEvent _ room_id)) result := by
    cases hdecrypt with
    | act hs hret =>
        obtain ⟨_,hrows,hnamed⟩ := hs
        cases hret
        exact ⟨hrows.trans (List.append_nil _),hnamed⟩
  split at h
  · next decrypted encryption_info =>
      split at h
      · next new_object hraw =>
          obtain ⟨_,s₂,hfeed,h⟩ := Prog.exec_bind.mp h
          obtain ⟨_,s₃,hharvest,h⟩ := Prog.exec_bind.mp h
          cases h
          obtain ⟨rows,hput,hsub⟩ := harvest_rows hharvest
          rw [feed_rows hfeed,hrows] at hput
          rw [mergeUnsigned_content] at hsub
          refine ⟨rows,hput,fun row hrow => ?_⟩
          have hmem : row ∈ s₁.named := by
            rw [hnamed]
            refine List.mem_append_right _ ?_
            simpa [names,hraw] using hsub.subset hrow
          exact named_exec hharvest (named_exec hfeed hmem)
      · cases h
        exact hnone hrows
  · cases h
    exact hnone hrows
  · cases h
    exact hnone hrows

/-- The URI that a successful upload was given. -/
def uploadedUri (resp : Response) : Option String :=
  match resp.body with
  | .raw bytes =>
      if isSuccess resp.status then
        ((Codec.fromSlice bytes).bind (Value.get "content_uri")).bind Value.asStr
      else none
  | .json _ => none

/-- The upload of these bytes, encrypted with this key, and the key in the cache. -/
def Uploaded (O : Outside ω) (ctx : AccountContext) (req : Request) (mxc : String) (encrypted : Bytes)
    (info : Value) (s s' : State ω) : Prop :=
  ∃ reply s₁ s₂, sem O (.encryptAttachment req.body) s (.ok (encrypted,info)) s₁ ∧
    sem O (.upload ctx.token none "application/octet-stream" encrypted) s₁ (.ok reply) s₂ ∧
    sem O (.mediaInsert ctx mxc ⟨info,contentType req.headers,uploadFilename (req.query.getD "")⟩) s₂
      (.ok ()) s'

variable {t t' : State ω}

theorem internal_call_exec {a : Act} {α β : Type} {f : a.Ans → Except String α}
    {g : α → ProxyM β} {b : β}
    (h : Prog.Exec (sem O) (internally (call (.act a fun r => .ret (f r))) >>= g).run t (.ok b) t') :
    ∃ r x t₁, f r = .ok x ∧ sem O a t r t₁ ∧ Prog.Exec (sem O) (g x).run t₁ (.ok b) t' := by
  obtain ⟨x,t₁,hcall,h⟩ | ⟨e,_,he⟩ := Prog.exec_exceptBind.mp h
  · cases hcall with
    | @act _ _ _ _ _ r _ hs hret =>
        cases hr : f r with
        | error m =>
            simp only [hr] at hret
            cases hret
        | ok y =>
            simp only [hr] at hret
            cases hret
            exact ⟨r,x,t₁,hr,hs,h⟩
  · cases he

theorem handle_upload_exec {req : Request} {resp : Response} {mxc : String}
    (hupload : Prog.Exec (sem O) (handle_upload ctx req).run t (.ok resp) t')
    (huri : uploadedUri resp = some mxc) :
    ∃ encrypted info, Uploaded O ctx req mxc encrypted info t t' := by
  unfold handle_upload readBody at hupload
  split_ifs at hupload
  swap
  · cases hupload
  obtain ⟨r,x,t₁,hr,hencrypt,h₁⟩ := internal_call_exec hupload
  obtain ⟨encrypted,info⟩ := x
  rw [hr] at hencrypt
  obtain ⟨reply,t₂,hpost,h₂⟩ := from_upstream_exec h₁
  have hpost' : sem O (.upload ctx.token none "application/octet-stream" encrypted) t₁ (.ok reply)
      t₂ := by
    cases hpost with
    | act hs hret =>
        cases hret
        exact hs
  split at h₂
  · next uri hfound =>
      obtain ⟨u,⟨⟩,t₃,hu,hinsert,h₃⟩ := internal_call_exec h₂
      rw [hu] at hinsert
      cases h₃
      have hsame : some uri = some mxc := hfound.symm.trans huri
      cases hsame
      exact ⟨encrypted,info,reply,t₁,t₂,hencrypt,hpost',hinsert⟩
  · next hno =>
      cases h₂
      have hsame : none = some mxc := hno.symm.trans huri
      cases hsame

/-- The homeserver has these bytes for every download. -/
def Has (encrypted : Bytes) : (a : Act) → a.Ans → Prop
  | .fetch _ _,r => ∃ reply, r = .ok reply ∧ isSuccess reply.status = true ∧ reply.bytes = encrypted
  | _,_ => True

def having (O : Outside ω) (encrypted : Bytes) : Outside ω :=
  fun a w r w' => O a w r w' ∧ Has encrypted a r

/-- However a download of the encrypted bytes goes, it answers with these. -/
def Downloads (O : Outside ω) (ctx : AccountContext) (server media_id : String)
    (encrypted data : Bytes) (s : State ω) : Prop :=
  ∀ r s', Prog.Exec (sem (having O encrypted)) (handle_download ctx server media_id).run s r s' →
    ∃ headers, r = .ok ⟨200,headers,.raw data⟩

/-- Contents that name the URI get this file object. -/
def Attaches (O : Outside ω) (ctx : AccountContext) (mxc : String) (file : Option Value)
    (s : State ω) : Prop :=
  ∀ content content' s', (content.get "url").bind Value.asStr = some mxc →
    Prog.Exec (sem O) (rewrite_content_for_encrypted_room ctx content) s content' s' →
      content'.get "file" = file

/-- The key of an entry as the file object of a URI. -/
def fileOf (mxc : String) (info : Value) : Option Value := info.assign ["url"] (.string mxc)

/-- The entry serves the upload. -/
def Serves (mxc : String) (encrypted data : Bytes) (info : Value) (e : MediaEntry) : Prop :=
  Codec.decryptAttachment encrypted e.info = some data ∧ fileOf mxc e.info = fileOf mxc info

/-- What a download answers, once the homeserver has. -/
def opened (encrypted : Bytes) (e : MediaEntry) : Except Abort Response :=
  match Codec.decryptAttachment encrypted e.info with
  | none => .error (.error (.internal (.text "media decryption failed (hash mismatch?)")))
  | some data =>
      let disposition : Headers := match e.filename.bind fun name =>
          headerValue ("inline; filename=\"" ++ name ++ "\"") with
        | some value => [("content-disposition",value)]
        | none => []
      let mimetype := (e.mimetype.bind headerValue).getD "application/octet-stream"
      .ok ⟨200,("content-type",mimetype) :: disposition,.raw data⟩

theorem handle_download_exec {server media_id : String} {encrypted : Bytes} {e : MediaEntry}
    (hcache : KeyStore O ctx cache)
    (he : (cache t.world).get ("mxc://" ++ server ++ "/" ++ media_id) = some e)
    {r : Except Abort Response} (h : Prog.Exec (sem (having O encrypted))
      (handle_download ctx server media_id).run t r t') : r = opened encrypted e := by
  unfold handle_download at h
  obtain ⟨entry,t₁,hget,h₁⟩ | ⟨x,hget,_⟩ := Prog.exec_exceptBind.mp h
  swap
  · obtain ⟨_,hx,_⟩ := Prog.exec_lift.mp hget
    cases hx
  obtain ⟨_,hentry,hget⟩ := Prog.exec_lift.mp hget
  cases hentry
  cases hget with
  | act hs hret =>
      cases hret
      obtain ⟨hs,_⟩ := hs.1
      have hfound := hcache.get hs
      rw [he] at hfound
      subst hfound
      have hserved : ∀ {x : Except Abort Reply} {t₂ : State ω},
          Prog.Exec (sem (having O encrypted)) (fromUpstream (act (.fetch ctx.token
            (downloadPath server media_id)))).run t₁ x t₂ →
          ∃ resp, x = .ok resp ∧ isSuccess resp.status = true ∧ resp.bytes = encrypted := by
        intro x t₂ hfetch
        rw [run_fromUpstream] at hfetch
        cases hfetch with
        | act hs hret =>
            obtain ⟨_,reply,rfl,hsuccess,hbytes⟩ := hs.1
            cases hret
            exact ⟨reply,rfl,hsuccess,hbytes⟩
      obtain ⟨resp,t₂,hfetch,h₂⟩ | ⟨x,hfetch,_⟩ := Prog.exec_exceptBind.mp h₁
      · obtain ⟨_,⟨⟩,hsuccess,hbytes⟩ := hserved hfetch
        dsimp only at h₂
        rw [if_pos hsuccess,hbytes] at h₂
        unfold opened
        cases hdata : Codec.decryptAttachment encrypted e.info with
        | none =>
            rw [hdata] at h₂
            cases h₂
            rfl
        | some data =>
            rw [hdata] at h₂
            cases h₂
            rfl
      · obtain ⟨_,hx,_⟩ := hserved hfetch
        cases hx

/-- There is such a download if the homeserver may answer with anything. -/
theorem download_runs (hcache : KeyStore O ctx cache)
    (hanswers : ∀ token path bytes w, ∃ w', O (.fetch token path) w (.ok ⟨200,[],bytes⟩) w')
    (server media_id : String) (encrypted : Bytes) (t : State ω) : ∃ r t',
      Prog.Exec (sem (having O encrypted)) (handle_download ctx server media_id).run t r t' := by
  obtain ⟨w₁,hget⟩ := hcache.found ("mxc://" ++ server ++ "/" ++ media_id) t.world
  obtain ⟨w₂,hfetch⟩ := hanswers ctx.token (downloadPath server media_id) encrypted w₁
  have hget' : sem (having O encrypted) (.mediaGet ctx ("mxc://" ++ server ++ "/" ++ media_id)) t
      ((cache t.world).get ("mxc://" ++ server ++ "/" ++ media_id)) { t with world := w₁ } :=
    sem_outside trivial ⟨hget,trivial⟩
  have hfetch' : sem (having O encrypted) (.fetch ctx.token (downloadPath server media_id))
      { t with world := w₁ } (.ok ⟨200,[],encrypted⟩) { t with world := w₂ } :=
    sem_outside (s := { t with world := w₁ }) trivial ⟨hfetch,_,rfl,rfl,rfl⟩
  cases hentry : (cache t.world).get ("mxc://" ++ server ++ "/" ++ media_id) with
  | none =>
      rw [hentry] at hget'
      exact ⟨_,_,.act hget' (.act hfetch' (.ret _ _))⟩
  | some entry =>
      rw [hentry] at hget'
      have hread : Prog.Exec (sem (having O encrypted)) (ExceptT.lift (act (.mediaGet ctx
          ("mxc://" ++ server ++ "/" ++ media_id))) : ProxyM (Option MediaEntry)).run t
          (.ok (some entry)) { t with world := w₁ } := .act hget' (.ret _ _)
      have hserved : Prog.Exec (sem (having O encrypted)) (fromUpstream (act (.fetch ctx.token
          (downloadPath server media_id)))).run { t with world := w₁ } (.ok ⟨200,[],encrypted⟩)
          { t with world := w₂ } := .act hfetch' (.ret _ _)
      refine ⟨opened encrypted entry,{ t with world := w₂ },Prog.exec_exceptBind.mpr (.inl ⟨_,_,hread,
        Prog.exec_exceptBind.mpr (.inl ⟨_,_,hserved,?_⟩)⟩)⟩
      have hsuccess : isSuccess 200 = true := rfl
      dsimp only
      rw [if_pos hsuccess]
      unfold opened
      cases hdata : Codec.decryptAttachment encrypted entry.info with
      | none => exact .ret _ _
      | some data => exact .ret _ _

theorem rewriting_exec {mxc : String} {e : MediaEntry} (hcache : KeyStore O ctx cache)
    (he : (cache t.world).get mxc = some e) {content content' : Value}
    (hurl : (content.get "url").bind Value.asStr = some mxc)
    (h : Prog.Exec (sem O) (rewrite_content_for_encrypted_room ctx content) t content' t') :
    content' = withFile mxc e content := by
  unfold rewrite_content_for_encrypted_room at h
  rw [hurl] at h
  cases h with
  | act hs hret =>
      obtain ⟨hs,_⟩ := hs
      have hfound := hcache.get hs
      rw [he] at hfound
      subst hfound
      cases hret
      rfl

theorem rewriting_runs {mxc : String} (hcache : KeyStore O ctx cache) {content : Value}
    (hurl : (content.get "url").bind Value.asStr = some mxc) (t : State ω) : ∃ content' t',
      Prog.Exec (sem O) (rewrite_content_for_encrypted_room ctx content) t content' t' := by
  obtain ⟨w,hget⟩ := hcache.found mxc t.world
  have hget' : sem O (.mediaGet ctx mxc) t ((cache t.world).get mxc) { t with world := w } :=
    sem_outside trivial hget
  unfold rewrite_content_for_encrypted_room
  rw [hurl]
  cases hentry : (cache t.world).get mxc with
  | none =>
      rw [hentry] at hget'
      exact ⟨_,_,.act hget' (.ret _ _)⟩
  | some entry =>
      rw [hentry] at hget'
      exact ⟨_,_,.act hget' (.ret _ _)⟩

omit [Codec] in
theorem withFile_file {mxc : String} {e : MediaEntry} {file : Value} (hfile : fileOf mxc e.info = some file)
    {content : Value} (hobject : content.isObject = true) :
    (withFile mxc e content).get "file" = some file := by
  obtain ⟨m,rfl⟩ := Value.isObject_iff.mp hobject
  have hput : Json.Map.lookup "file" (Json.Map.insert "file" file (Json.Map.remove "url" m)) = some file :=
    Json.Map.lookup_insert_self _ _ _
  unfold fileOf at hfile
  unfold withFile
  rw [hfile]
  dsimp only
  split
  · exact hput
  · split
    · exact (Json.Map.lookup_insert_ne (by decide) _ _).trans hput
    · exact hput

/-- The entry that is kept decides whether an upload can still be used. -/
theorem usable_iff {server media_id mxc : String} {encrypted data : Bytes} {info file : Value}
    {e : MediaEntry} (hcache : KeyStore O ctx cache)
    (hanswers : ∀ token path bytes w, ∃ w', O (.fetch token path) w (.ok ⟨200,[],bytes⟩) w')
    (hmxc : mxc = "mxc://" ++ server ++ "/" ++ media_id) (hfile : fileOf mxc info = some file)
    (he : (cache t.world).get mxc = some e) :
    (Downloads O ctx server media_id encrypted data t ∧ Attaches O ctx mxc (fileOf mxc info) t) ↔
      Serves mxc encrypted data info e := by
  constructor
  · rintro ⟨hdownloads,hattaches⟩
    constructor
    · obtain ⟨r,t',hrun⟩ := download_runs hcache hanswers server media_id encrypted t
      obtain ⟨headers,hr⟩ := hdownloads r t' hrun
      have hopened := handle_download_exec hcache (hmxc ▸ he) hrun
      rw [hr] at hopened
      unfold opened at hopened
      cases hdata : Codec.decryptAttachment encrypted e.info with
      | none =>
          rw [hdata] at hopened
          cases hopened
      | some decrypted =>
          rw [hdata] at hopened
          cases hopened
          rfl
    · have hurl : ((Value.object [("url",.string mxc)]).get "url").bind Value.asStr = some mxc := by
        simp [Json.Map.lookup]
      obtain ⟨content',t',hrun⟩ := rewriting_runs hcache hurl t
      have hattached := hattaches _ _ _ hurl hrun
      rw [rewriting_exec hcache he hurl hrun] at hattached
      rw [← hattached]
      cases hkept : fileOf mxc e.info with
      | some kept => exact (withFile_file hkept rfl).symm
      | none =>
          have hsame : withFile mxc e (.object [("url",.string mxc)]) = .object [("url",.string mxc)] := by
            unfold fileOf at hkept
            simp [withFile,hkept]
          rw [hsame]
          rfl
  · rintro ⟨hdata,hsame⟩
    constructor
    · intro r t' hrun
      have hopened := handle_download_exec hcache (hmxc ▸ he) hrun
      unfold opened at hopened
      rw [hdata] at hopened
      exact ⟨_,hopened⟩
    · intro content content' t' hurl hrun
      have hobject : content.isObject = true := by
        cases content with
        | object m => rfl
        | _ => cases hurl
      rw [rewriting_exec hcache he hurl hrun,hfile]
      exact withFile_file (hsame.trans hfile) hobject

/-- The rows that a step has put into the cache, and those its event named. -/
structure Harvest where
  rows : List Row
  named : List Row

/-- An event is decrypted, or the proxy does something that keeps no keys. -/
inductive Step (O : Outside ω) (ctx : AccountContext) : State ω → Harvest → State ω → Prop
  | decrypted {s s' : State ω} {room_id : RoomId} {event : Value} {outcome : Decryption}
      {rows named : List Row} :
      Prog.Exec (storing O ctx) (decrypt ctx room_id event) ⟨s,[],[]⟩ outcome ⟨s',rows,named⟩ →
        Step O ctx s ⟨rows,named⟩ s'
  | other {s s' : State ω} {α : Type} {p : M α} {b : α} {named : List Row} :
      Prog.Exec (storing O ctx) p ⟨s,[],[]⟩ b ⟨s',[],named⟩ → Step O ctx s ⟨[],[]⟩ s'

theorem step_kept (hcache : KeyStore O ctx cache) {h : Harvest} (hstep : Step O ctx t h t') :
    cache t'.world = h.rows.foldl MediaKeyCache.insert (cache t.world) ∧ h.rows ⊆ h.named := by
  cases hstep with
  | decrypted hexec =>
      obtain ⟨put,hput,hkept⟩ := storing_exec hcache hexec
      obtain ⟨put',hput',hnamed⟩ := decrypt_rows hexec
      simp only [List.nil_append] at hput hput'
      subst hput
      subst hput'
      exact ⟨hkept,hnamed⟩
  | other hexec =>
      obtain ⟨put,hput,hkept⟩ := storing_exec hcache hexec
      simp only [List.nil_append] at hput
      subst hput
      exact ⟨hkept,List.nil_subset _⟩

theorem run_kept (hcache : KeyStore O ctx cache) {hs : List Harvest}
    (hrun : Run (Step O ctx) t hs t') :
    cache t'.world = (hs.flatMap Harvest.rows).foldl MediaKeyCache.insert (cache t.world) ∧
      hs.flatMap Harvest.rows ⊆ hs.flatMap Harvest.named := by
  refine hrun.history (I := fun hs t' =>
    cache t'.world = (hs.flatMap Harvest.rows).foldl MediaKeyCache.insert (cache t.world) ∧
      hs.flatMap Harvest.rows ⊆ hs.flatMap Harvest.named) ⟨rfl,fun _ h => h⟩ ?_
  rintro hs s h s' ⟨hkept,hnamed⟩ hstep
  obtain ⟨hkept',hnamed'⟩ := step_kept hcache hstep
  constructor
  · rw [hkept',hkept,List.flatMap_append,List.foldl_append]
    simp
  · simp only [List.flatMap_append,List.flatMap_singleton]
    intro row hrow
    obtain hrow | hrow := List.mem_append.mp hrow
    · exact List.mem_append_left _ (hnamed hrow)
    · exact List.mem_append_right _ (hnamed' hrow)

/-- The key of a URI after a run is that of the last row put there since. -/
theorem key_kept_iff (hcache : KeyStore O ctx cache) {hs : List Harvest}
    (hrun : Run (Step O ctx) t hs t') {uri : String} {e : MediaEntry}
    (he : (cache t.world).get uri = some e) :
    ((cache t'.world).get uri).map MediaEntry.info = some e.info ↔
      ∀ e', MediaKeyCache.last uri (hs.flatMap Harvest.rows) = some e' → e'.info = e.info := by
  rw [(run_kept hcache hrun).1,MediaKeyCache.get_inserts,he]
  cases hlast : MediaKeyCache.last uri (hs.flatMap Harvest.rows) with
  | none => simp
  | some e' => simp

/-- An upload stays usable through a run exactly if the last row that was put under
its URI since, if any, still serves it; rows with the upload's own key do, and
rows come only from the file objects of decrypted events. -/
theorem upload_key_stays {server media_id mxc : String} {req : Request} {resp : Response}
    {s₀ s₁ s₂ : State ω} {hs : List Harvest} (hcache : KeyStore O ctx cache)
    (hattach : ∀ data encrypted info w w', O (.encryptAttachment data) w (.ok (encrypted,info)) w' →
      Codec.decryptAttachment encrypted info = some data ∧ info.isObject = true)
    (hanswers : ∀ token path bytes w, ∃ w', O (.fetch token path) w (.ok ⟨200,[],bytes⟩) w')
    (hupload : Prog.Exec (sem O) (handle_upload ctx req).run s₀ (.ok resp) s₁)
    (huri : uploadedUri resp = some mxc) (hmxc : mxc = "mxc://" ++ server ++ "/" ++ media_id)
    (hrun : Run (Step O ctx) s₁ hs s₂) :
    (∃ encrypted info, Uploaded O ctx req mxc encrypted info s₀ s₁ ∧
      ((Downloads O ctx server media_id encrypted req.body s₂ ∧
          Attaches O ctx mxc (fileOf mxc info) s₂) ↔
        ∀ e, MediaKeyCache.last mxc (hs.flatMap Harvest.rows) = some e →
          Serves mxc encrypted req.body info e) ∧
      ((∀ row ∈ hs.flatMap Harvest.named, row.1 = mxc → row.2.info = info) →
        Downloads O ctx server media_id encrypted req.body s₂ ∧
          Attaches O ctx mxc (fileOf mxc info) s₂)) ∧
    ∀ uri e, (cache s₁.world).get uri = some e →
      (((cache s₂.world).get uri).map MediaEntry.info = some e.info ↔
        ∀ e', MediaKeyCache.last uri (hs.flatMap Harvest.rows) = some e' → e'.info = e.info) := by
  refine ⟨?_,fun uri e he => key_kept_iff hcache hrun he⟩
  obtain ⟨encrypted,info,huploaded⟩ := handle_upload_exec hupload huri
  obtain ⟨reply,t₁,t₂,hencrypt,_,hinsert⟩ := id huploaded
  obtain ⟨hencrypt,_⟩ := hencrypt
  obtain ⟨hdata,hobject⟩ := hattach _ _ _ _ _ hencrypt
  obtain ⟨m,rfl⟩ := Value.isObject_iff.mp hobject
  obtain ⟨file,hfile⟩ : ∃ file, fileOf mxc (.object m) = some file := ⟨_,rfl⟩
  have hown : Serves mxc encrypted req.body (.object m)
      ⟨.object m,contentType req.headers,uploadFilename (req.query.getD "")⟩ := ⟨hdata,rfl⟩
  have hkept₁ : (cache s₁.world).get mxc =
      some ⟨.object m,contentType req.headers,uploadFilename (req.query.getD "")⟩ := by
    rw [insert_kept hcache hinsert]
    simp [inserts,MediaKeyCache.get_insert]
  have hkept₂ : (cache s₂.world).get mxc =
      (MediaKeyCache.last mxc (hs.flatMap Harvest.rows)).or
        (some ⟨.object m,contentType req.headers,uploadFilename (req.query.getD "")⟩) := by
    rw [(run_kept hcache hrun).1,MediaKeyCache.get_inserts,hkept₁]
  have hiff : (Downloads O ctx server media_id encrypted req.body s₂ ∧
      Attaches O ctx mxc (fileOf mxc (.object m)) s₂) ↔
        ∀ e, MediaKeyCache.last mxc (hs.flatMap Harvest.rows) = some e →
          Serves mxc encrypted req.body (.object m) e := by
    cases hlast : MediaKeyCache.last mxc (hs.flatMap Harvest.rows) with
    | none =>
        rw [hlast] at hkept₂
        rw [usable_iff hcache hanswers hmxc hfile hkept₂]
        exact ⟨fun _ _ h => by simp at h,fun _ => hown⟩
    | some e =>
        rw [hlast] at hkept₂
        rw [usable_iff hcache hanswers hmxc hfile hkept₂]
        simp
  refine ⟨encrypted,.object m,huploaded,hiff,fun hguard => hiff.mpr fun e hlast => ?_⟩
  have hmem := (run_kept hcache hrun).2 (MediaKeyCache.last_mem hlast)
  have hinfo := hguard _ hmem rfl
  exact ⟨by rw [hinfo]; exact hdata,by rw [hinfo]⟩

end

/-- Attachments open with one key only, and the upload's answer names a URI. -/
local instance : Codec := { Codec.plain (fun _ => some (.object [("content_uri",.string "mxc://a/b")]))
    some (fun _ _ => 0) with
  encryptedFile := fun
    | .object m => ((Json.Map.lookup "url" m).bind Value.asStr).map fun url =>
        (url,.object (Json.Map.remove "url" m))
    | _ => none
  decryptAttachment := fun bytes info =>
    if (info.get "key").bind Value.asStr = some "own" then some bytes else none }

def alice : AccountContext := ⟨"@alice:a","DEVICE","token",⟨0,"key"⟩⟩

def own : Value := .object [("key",.string "own")]
def forged : Value := .object [("key",.string "forged")]

/-- The plaintext of what Eve sent. -/
def message : Value := .object
  [("content",.object [("file",.object [("key",.string "forged"),("url",.string "mxc://a/b")])]),
    ("sender",.string "@eve:a"),("type",.string "m.room.message")]

def event : Value := .object [("sender",.string "@eve:a"),("type",.string "m.room.encrypted")]

def storingKeys : Outside MediaKeyCache
  | .mediaGet _ mxc,c,r,c' => r = c.get mxc ∧ c' = c
  | .mediaInsert ctx mxc entry,c,r,c' => r = .ok () ∧ c' = (if ctx = alice then c.insert (mxc,entry) else c)
  | .encryptAttachment data,c,r,c' => r = .ok (data,own) ∧ c' = c
  | .upload ..,c,r,c' => r = .ok ⟨200,[],[]⟩ ∧ c' = c
  | .fetch ..,c,r,c' => (∃ bytes, r = .ok ⟨200,[],bytes⟩) ∧ c' = c
  | .olm _ (.tryDecryptRoomEvent ..),c,r,c' => r = .ok (.decrypted message .null) ∧ c' = c
  | _,c,_,c' => c' = c

def upload : Request := ⟨.post,"/_matrix/media/v3/upload",none,[],[1]⟩

def fresh : State MediaKeyCache := ⟨fun _ => .default 0,∅,[],fun _ => false,⟨∅⟩⟩

/-- The state in which a row has been put into the cache. -/
def kept (row : Row) (s : State MediaKeyCache) : State MediaKeyCache :=
  { s with world := s.world.insert row }

def uploaded : State MediaKeyCache := kept ("mxc://a/b",⟨own,none,none⟩) fresh
def renamed : State MediaKeyCache := kept ("mxc://a/b",⟨forged,none,none⟩) uploaded

theorem keys_stored : KeyStore storingKeys alice id where
  get h := h.1
  found mxc c := ⟨c,rfl,rfl⟩
  insert {a c r c'} h := by
    cases a with
    | mediaInsert ctx mxc entry =>
        obtain ⟨rfl,rfl⟩ := h
        by_cases hctx : ctx = alice
        · simp [inserts,hctx]
        · simp [inserts,hctx]
    | mediaGet ctx mxc => exact h.2
    | encryptAttachment data => exact h.2
    | upload token filename content_type body => exact h.2
    | fetch token path => exact h.2
    | olm ctx a =>
        cases a with
        | tryDecryptRoomEvent raw room_id => exact h.2
        | _ => exact h
    | _ => exact h

theorem upload_run : ∃ resp, uploadedUri resp = some "mxc://a/b" ∧
    Prog.Exec (sem storingKeys) (handle_upload alice upload).run fresh (.ok resp) uploaded := by
  have hencrypt : sem storingKeys (.encryptAttachment [1]) fresh (.ok ([1],own)) fresh :=
    ⟨⟨rfl,rfl⟩,rfl⟩
  have hpost : sem storingKeys (.upload "token" none "application/octet-stream" [1]) fresh
      (.ok ⟨200,[],[]⟩) fresh := ⟨⟨rfl,rfl⟩,rfl⟩
  have hinsert : sem storingKeys (.mediaInsert alice "mxc://a/b" ⟨own,none,none⟩) fresh (.ok ())
      uploaded := ⟨⟨rfl,(if_pos rfl).symm⟩,rfl⟩
  refine ⟨raw_response 200 (some "application/json") (.raw []),rfl,?_⟩
  exact .act hencrypt (.act hpost (.act hinsert (.ret _ _)))

/-- Eve's event puts its own row over the upload's. -/
theorem event_run : ∃ outcome, Prog.Exec (storing storingKeys alice) (decrypt alice "!r" event)
    ⟨uploaded,[],[]⟩ outcome ⟨renamed,[("mxc://a/b",⟨forged,none,none⟩)],[("mxc://a/b",⟨forged,none,none⟩)]⟩ := by
  have hdecrypt : storing storingKeys alice (.olm alice (.tryDecryptRoomEvent event "!r"))
      ⟨uploaded,[],[]⟩ (.ok (.decrypted message .null))
      ⟨uploaded,[],[("mxc://a/b",⟨forged,none,none⟩)]⟩ := ⟨⟨⟨rfl,rfl⟩,rfl⟩,rfl,rfl⟩
  have hharvest : storing storingKeys alice (.mediaInsert alice "mxc://a/b" ⟨forged,none,none⟩)
      ⟨uploaded,[],[("mxc://a/b",⟨forged,none,none⟩)]⟩ (.ok ())
      ⟨renamed,[("mxc://a/b",⟨forged,none,none⟩)],[("mxc://a/b",⟨forged,none,none⟩)]⟩ :=
    ⟨⟨⟨rfl,(if_pos rfl).symm⟩,rfl⟩,rfl,rfl⟩
  exact ⟨_,.act hdecrypt (.act hharvest (.ret _ _))⟩

theorem attachment_opens : ∀ data encrypted info w w',
    storingKeys (.encryptAttachment data) w (.ok (encrypted,info)) w' →
      Codec.decryptAttachment encrypted info = some data ∧ info.isObject = true := by
  rintro data encrypted info w w' ⟨h,_⟩
  cases h
  exact ⟨rfl,rfl⟩

theorem fetch_answers : ∀ token path bytes w, ∃ w',
    storingKeys (.fetch token path) w (.ok ⟨200,[],bytes⟩) w' :=
  fun _ _ bytes w => ⟨w,⟨bytes,rfl⟩,rfl⟩

theorem upload_key_stays_renamed : ∃ encrypted info,
    Uploaded storingKeys alice upload "mxc://a/b" encrypted info fresh uploaded ∧
      ((Downloads storingKeys alice "a" "b" encrypted upload.body renamed ∧
          Attaches storingKeys alice "mxc://a/b" (fileOf "mxc://a/b" info) renamed) ↔
        Serves "mxc://a/b" encrypted upload.body info ⟨forged,none,none⟩) := by
  obtain ⟨resp,huri,hupload⟩ := upload_run
  obtain ⟨outcome,hevent⟩ := event_run
  have hrun : Run (Step storingKeys alice) uploaded _ renamed := .snoc .nil (.decrypted hevent)
  have hmxc : "mxc://a/b" = "mxc://" ++ "a" ++ "/" ++ "b" := by decide
  obtain ⟨⟨encrypted,info,huploaded,hiff,_⟩,_⟩ := upload_key_stays keys_stored attachment_opens
    fetch_answers hupload huri hmxc hrun
  refine ⟨encrypted,info,huploaded,hiff.trans ⟨fun h => h _ rfl,fun h e he => ?_⟩⟩
  cases he
  exact h

/-- After an event of Eve's, Alice's own upload no longer opens. -/
theorem renamed_upload_is_lost : ∃ resp outcome rows named,
    Prog.Exec (sem storingKeys) (handle_upload alice upload).run fresh (.ok resp) uploaded ∧
    uploadedUri resp = some "mxc://a/b" ∧
    Uploaded storingKeys alice upload "mxc://a/b" [1] own fresh uploaded ∧
    event.get "sender" = some (.string "@eve:a") ∧
    Prog.Exec (storing storingKeys alice) (decrypt alice "!r" event) ⟨uploaded,[],[]⟩ outcome
      ⟨renamed,rows,named⟩ ∧
    ¬ Downloads storingKeys alice "a" "b" [1] upload.body renamed ∧
    ¬ Attaches storingKeys alice "mxc://a/b" (fileOf "mxc://a/b" own) renamed := by
  obtain ⟨resp,huri,hupload⟩ := upload_run
  obtain ⟨outcome,hevent⟩ := event_run
  have hkept : (id renamed.world).get "mxc://a/b" = some ⟨forged,none,none⟩ := rfl
  refine ⟨resp,outcome,_,_,hupload,huri,?_,rfl,hevent,fun h => ?_,fun h => ?_⟩
  · exact ⟨⟨200,[],[]⟩,fresh,fresh,⟨⟨rfl,rfl⟩,rfl⟩,⟨⟨rfl,rfl⟩,rfl⟩,⟨⟨rfl,(if_pos rfl).symm⟩,rfl⟩⟩
  · obtain ⟨r,s',hrun⟩ := download_runs keys_stored fetch_answers "a" "b" [1] renamed
    obtain ⟨headers,hr⟩ := h r s' hrun
    have hopened := handle_download_exec keys_stored hkept hrun
    rw [hr] at hopened
    cases hopened
  · have hurl : ((Value.object [("url",.string "mxc://a/b")]).get "url").bind Value.asStr =
        some "mxc://a/b" := rfl
    obtain ⟨content',s',hrun⟩ := rewriting_runs keys_stored hurl renamed
    have hfile := h _ _ _ hurl hrun
    rw [rewriting_exec keys_stored hkept hurl hrun] at hfile
    have hkey := congrArg (fun file => (file.bind (Value.get "key")).bind Value.asStr) hfile
    have hsame : some "forged" = some "own" := hkey
    simp at hsame

end EmentE2ee.MediaKeys
