import EmentE2ee.Action

/-!
# Attachment keys in message contents

Outgoing contents get the key of an upload in place of its plain URL; decrypted
contents get plain URLs back, and their keys are kept for the download.
-/
namespace EmentE2ee

open Concurrent
open Json (Value)

variable [Codec]

/-- Add a key to an object's entry where the entry has none of it yet. -/
def orInsert (k : String) (v : Value) (m : Json.Map) : Json.Map :=
  if (Json.Map.lookup k m).isSome then m else Json.Map.insert k v m

/-- The content with the upload's key in place of its URL. -/
def withFile (mxc : String) (entry : MediaEntry) (content : Value) : Value :=
  match entry.info.assign ["url"] (.string mxc),content with
  | some file,.object m =>
      let m := Json.Map.insert "file" file (Json.Map.remove "url" m)
      match entry.mimetype with
      | none => .object m
      | some mimetype =>
          match (Json.Map.lookup "info" m).getD (.object []) with
          | .object info =>
              .object (Json.Map.insert "info" (.object (orInsert "mimetype" (.string mimetype) info)) m)
          | _ => .object m
  | _,_ => content

def rewrite_content_for_encrypted_room (ctx : AccountContext) (content : Value) : M Value :=
  match (content.get "url").bind Value.asStr with
  | none => pure content
  | some mxc => do
      let entry ← act (.mediaGet ctx mxc)
      match entry with
      | none => pure content
      | some entry => pure (withFile mxc entry content)

def harvest_file (ctx : AccountContext) (file_value : Value) (mimetype filename : Option String) :
    M (Option String) :=
  match Codec.encryptedFile file_value with
  | none => pure none
  | some (url,info) => do
      let kept ← act (.mediaInsert ctx url ⟨info,mimetype,filename⟩)
      match kept with
      | .ok () => pure (some url)
      | .error _ => pure none

/-- Replace a file object under `key` by the plain URL under `url_key`. -/
def exposeUrl (ctx : AccountContext) (key url_key : String) (mimetype filename : Option String)
    (m : Json.Map) : M Json.Map :=
  match Json.Map.lookup key m with
  | none => pure m
  | some file => do
      let url ← harvest_file ctx file mimetype filename
      match url with
      | some url => pure (Json.Map.insert url_key (.string url) (Json.Map.remove key m))
      | none => pure m

def harvest_and_rewrite_decrypted (ctx : AccountContext) (event : Value) : M Value :=
  event.updateM "content" fun
    | .object content => do
        let filename_hint := (Json.Map.lookup "body" content).bind Value.asStr
        let mimetype_hint := ((Json.Map.lookup "info" content).bind (Value.get "mimetype")).bind
          Value.asStr
        let content ← exposeUrl ctx "file" "url" mimetype_hint filename_hint content
        let content ← Json.Map.updateM "info" (fun
          | .object info => do
              let thumb_mime := ((Json.Map.lookup "thumbnail_info" info).bind
                (Value.get "mimetype")).bind Value.asStr
              let info ← exposeUrl ctx "thumbnail_file" "thumbnail_url" thumb_mime none info
              pure (.object info)
          | info => pure info) content
        pure (.object content)
    | content => pure content

def downloadPath (server media_id : String) : String :=
  "/_matrix/client/v1/media/download/" ++ enc server ++ "/" ++ enc media_id

/-- Server and media ID of an mxc URI. -/
def mxcParts (mxc : String) : Option (String × String) :=
  (stripPrefix "mxc://" mxc).bind fun rest =>
    (splitOnce '/' rest.toList).map fun p => (String.ofList p.1,String.ofList p.2)

/-- Media sent into an unencrypted room is uploaded again as plaintext. -/
def reupload_plaintext_if_needed (ctx : AccountContext) (content : Value) : Fallible Value :=
  match (content.get "url").bind Value.asStr with
  | none => pure content
  | some mxc => do
      let entry ← step (.mediaGet ctx mxc)
      match entry,mxcParts mxc with
      | none,_ => pure content
      | some _,none => fail "malformed mxc URI"
      | some entry,some (server,media_id) =>
          let resp ← call (act (.fetch ctx.token (downloadPath server media_id)))
          if isSuccess resp.status then
            match Codec.decryptAttachment resp.bytes entry.info with
            | none => fail "media decryption failed (hash mismatch?)"
            | some plaintext =>
                let resp ← call (act (.upload ctx.token entry.filename
                  (entry.mimetype.getD "application/octet-stream") plaintext))
                if isSuccess resp.status then
                  match Codec.fromSlice resp.bytes with
                  | none => fail "error decoding response body"
                  | some body =>
                      match (body.get "content_uri").bind Value.asStr with
                      | none => fail "upload response missing content_uri"
                      | some new_mxc =>
                          -- The content has a string under this key already.
                          pure ((content.assign ["url"] (.string new_mxc)).getD content)
                else fail "plaintext re-upload failed"
          else fail "download for re-upload failed"

def MAX_UPLOAD_BYTES : Nat := 512 * 1024 * 1024

def readBody (what : String) (limit : Nat) (req : Request) : ProxyM Bytes :=
  if req.body.length ≤ limit then pure req.body
  else refuse (.badRequest ("failed to read " ++ what ++ ": length limit exceeded"))

/-- The file name an upload's query gives, decoded. -/
def uploadFilename (query : String) : Option String :=
  (query.toList.splitOn '&').findSome? fun kv =>
    (stripPrefix "filename=" (String.ofList kv)).map dec

/-- Encrypt an upload, and keep its key under the URI it got. -/
def handle_upload (ctx : AccountContext) (req : Request) : ProxyM Response := do
  let body ← readBody "upload" MAX_UPLOAD_BYTES req
  let (encrypted,info) ← internally (call (act (.encryptAttachment body)))
  let resp ← fromUpstream (act (.upload ctx.token none "application/octet-stream" encrypted))
  match if isSuccess resp.status then
      ((Codec.fromSlice resp.bytes).bind (Value.get "content_uri")).bind Value.asStr else none with
  | some mxc =>
      internally (call (act (.mediaInsert ctx mxc
        ⟨info,contentType req.headers,uploadFilename (req.query.getD "")⟩)))
  | none => pure ()
  pure (raw_response resp.status (some "application/json") (.raw resp.bytes))

/-- Decrypt a download whose key is known, and relay any other. -/
def handle_download (ctx : AccountContext) (server media_id : String) : ProxyM Response := do
  let entry ← ExceptT.lift (act (.mediaGet ctx ("mxc://" ++ server ++ "/" ++ media_id)))
  let resp ← fromUpstream (act (.fetch ctx.token (downloadPath server media_id)))
  let relayed := raw_response resp.status (contentType resp.headers) (.raw resp.bytes)
  match entry with
  | none => pure relayed
  | some entry =>
      if isSuccess resp.status then
        match Codec.decryptAttachment resp.bytes entry.info with
        | none => refuse (.internal (.text "media decryption failed (hash mismatch?)"))
        | some decrypted =>
            let disposition : Headers := match entry.filename.bind fun name =>
                headerValue ("inline; filename=\"" ++ name ++ "\"") with
              | some value => [("content-disposition",value)]
              | none => []
            let mimetype := (entry.mimetype.bind headerValue).getD "application/octet-stream"
            pure ⟨200,("content-type",mimetype) :: disposition,.raw decrypted⟩
      else pure relayed

@[simp] theorem readBody_does {P : Act → Prop} (what : String) (limit : Nat) (req : Request) :
    (readBody what limit req).run.Does P := by
  unfold readBody
  split_ifs <;> simp

section
variable (ctx : AccountContext)

theorem rewrite_content_does (content : Value) :
    (rewrite_content_for_encrypted_room ctx content).Does fun a => a.quiet ∧ a.composing := by
  unfold rewrite_content_for_encrypted_room
  split
  · simp
  · refine .bind (by simp [Act.quiet,Act.composing,Act.preparing,Act.sends]) fun entry => ?_
    cases entry <;> simp

theorem rewrite_content_quiet (content : Value) :
    (rewrite_content_for_encrypted_room ctx content).Does Act.quiet :=
  (rewrite_content_does ctx content).mono fun _ h => h.1

theorem harvest_file_does (file_value : Value) (mimetype filename : Option String) :
    (harvest_file ctx file_value mimetype filename).Does Act.decrypting := by
  unfold harvest_file
  split
  · simp
  · refine .bind (by simp [Act.decrypting]) fun kept => ?_
    split <;> simp

theorem exposeUrl_does (key url_key : String) (mimetype filename : Option String) (m : Json.Map) :
    (exposeUrl ctx key url_key mimetype filename m).Does Act.decrypting := by
  unfold exposeUrl
  split
  · simp
  · refine .bind (harvest_file_does ctx ..) fun url => ?_
    cases url <;> simp

/-- Rewriting part of a value does what rewriting the part does. -/
theorem map_updateM_does {P : Act → Prop} {k : String} {f : Value → M Value}
    (hf : ∀ v, (f v).Does P) (m : Json.Map) : (Json.Map.updateM k f m).Does P := by
  induction m with
  | nil => simp [Json.Map.updateM]
  | cons e m ih =>
      simp only [Json.Map.updateM]
      split_ifs
      · exact .bind (hf e.2) fun _ => by simp
      · exact .bind ih fun _ => by simp

theorem updateM_does {P : Act → Prop} {k : String} {f : Value → M Value}
    (hf : ∀ v, (f v).Does P) (v : Value) : (v.updateM k f).Does P := by
  cases v with
  | object m => exact .bind (map_updateM_does hf m) fun _ => by simp
  | null => simp [Value.updateM]
  | bool b => simp [Value.updateM]
  | number n => simp [Value.updateM]
  | string s => simp [Value.updateM]
  | array xs => simp [Value.updateM]

/-- The other keys of the value are left alone, and the value under the key is
rewritten, where there is one. -/
theorem map_updateM_every {k : String} {f : Value → M Value} {Q : Value → Value → Prop}
    (hf : ∀ v, (f v).Every (fun _ => True) (Q v)) (m : Json.Map) :
    (Json.Map.updateM k f m).Every (fun _ => True) fun m' =>
      (∀ k' ≠ k, m'.lookup k' = m.lookup k') ∧ ((m.lookup k = none ∧ m'.lookup k = none) ∨
        ∃ x y, m.lookup k = some x ∧ m'.lookup k = some y ∧ Q x y) := by
  induction m with
  | nil => exact ⟨fun _ _ => rfl,.inl ⟨rfl,rfl⟩⟩
  | cons e m ih =>
      simp only [Json.Map.updateM]
      split_ifs with he
      · refine (hf e.2).bind fun y hy => ⟨fun k' hk => ?_,.inr ⟨e.2,y,?_,?_,hy⟩⟩
        · simp [Json.Map.lookup,he,Ne.symm hk]
        · simp [Json.Map.lookup,he]
        · simp [Json.Map.lookup,he]
      · refine ih.bind fun m' hm => ⟨fun k' hk => ?_,?_⟩
        · simp [Json.Map.lookup,hm.1 k' hk]
        · simpa [Json.Map.lookup,he] using hm.2

theorem updateM_every {k : String} {f : Value → M Value} {Q : Value → Value → Prop}
    (hf : ∀ v, (f v).Every (fun _ => True) (Q v)) (v : Value) :
    (v.updateM k f).Every (fun _ => True) fun w =>
      (∀ k' ≠ k, w.get k' = v.get k') ∧ ((v.get k = none ∧ w.get k = none) ∨
        ∃ x y, v.get k = some x ∧ w.get k = some y ∧ Q x y) := by
  cases v with
  | object m => exact (map_updateM_every hf m).bind fun _ hm => hm
  | null => exact ⟨fun _ _ => rfl,.inl ⟨rfl,rfl⟩⟩
  | bool b => exact ⟨fun _ _ => rfl,.inl ⟨rfl,rfl⟩⟩
  | number n => exact ⟨fun _ _ => rfl,.inl ⟨rfl,rfl⟩⟩
  | string s => exact ⟨fun _ _ => rfl,.inl ⟨rfl,rfl⟩⟩
  | array xs => exact ⟨fun _ _ => rfl,.inl ⟨rfl,rfl⟩⟩

theorem updateM_get {k k' : String} (hk : k ≠ k') (f : Value → M Value) (v : Value) :
    (v.updateM k f).Every (fun _ => True) fun w => w.get k' = v.get k' :=
  (updateM_every (Q := fun _ _ => True) (fun v => Prog.does_true (f v)) v).mono (fun _ h => h)
    fun _ h => h.1 k' hk.symm

theorem harvest_does (event : Value) :
    (harvest_and_rewrite_decrypted ctx event).Does Act.decrypting := by
  refine updateM_does (fun content => ?_) event
  split
  · refine .bind (exposeUrl_does ctx ..) fun m => .bind ?_ fun _ => by simp
    refine map_updateM_does (fun info => ?_) m
    split
    · exact .bind (exposeUrl_does ctx ..) fun _ => by simp
    · simp
  · simp

theorem reupload_does (content : Value) :
    (reupload_plaintext_if_needed ctx content).run.Does fun a => a.quiet ∧ a.composing := by
  unfold reupload_plaintext_if_needed
  split
  · simp
  · refine .exceptBind (by simp [Act.quiet,Act.composing,Act.preparing,Act.sends]) fun entry => ?_
    split
    · simp
    · simp
    · refine .exceptBind (by simp [Act.quiet,Act.composing,Act.preparing,Act.sends]) fun resp => ?_
      split_ifs
      · split
        · simp
        · refine .exceptBind (by simp [Act.quiet,Act.composing,Act.preparing,Act.sends]) fun resp => ?_
          split_ifs
          · split
            · simp
            · split <;> simp
          · simp
      · simp

theorem reupload_quiet (content : Value) :
    (reupload_plaintext_if_needed ctx content).run.Does Act.quiet :=
  (reupload_does ctx content).mono fun _ h => h.1

end

end EmentE2ee
