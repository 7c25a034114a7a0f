import EmentE2ee.Crypto.Device
import EmentE2ee.Files.Tree
import EmentE2ee.Json.Update

/-!
# The device a login continues

The client asks for the same device ID on every login. The proxy puts another in
its place: that of the store it has for the login, or none, so that the
homeserver picks one. Which device was meant is noted beside its store.
-/
namespace EmentE2ee

open Files
open Json (Value)

structure LoginRecord where
  device_id : String
  requested_device_id : String
  deriving DecidableEq, Repr

/-- What matters of a directory: when its crypto store was last modified, counted
from the epoch, if it has one, and what its login file reads as, if it does. -/
structure Dir where
  store : Option Int
  login : Option LoginRecord
  deriving DecidableEq, Repr

/-- The directories below the proxy's store directory. -/
abbrev Disk := Files.Tree Dir

/-- Is there a crypto store in this directory? -/
def has_store (disk : Disk) (dir : Path) : Bool := ((disk.get dir).bind Dir.store).isSome

def read_login_record (disk : Disk) (device_dir : Path) : Option LoginRecord :=
  (disk.get device_dir).bind Dir.login

/-- What to make of a login request. -/
structure LoginPlan where
  body : Option Value
  requested : Option String

def LoginPlan.default : LoginPlan := ⟨none,none⟩

def to_ascii_lowercase (s : String) : String := String.ofList (s.toList.map Char.toLower)

/-- Is this the store directory of the user a client logs in as with `login`, a
user ID or only its local part? -/
def names_user (user_dir : Path) (login : String) : Bool :=
  match user_dir.getLast?.bind (stripPrefix "@") with
  | none => false
  | some name =>
      let name := to_ascii_lowercase name
      let login := to_ascii_lowercase (sanitize_for_path ((stripPrefix "@" login).getD login))
      if ':' ∈ login.toList then name = login
      else (splitOnce ':' name.toList).any fun p => String.ofList p.1 = login

/-- The later of the newest record so far and a device's, if the client means
that device. -/
def newer (disk : Disk) (requested : String) (newest : Option (Int × String)) (device_dir : Path) :
    Option (Int × String) :=
  if has_store disk device_dir then
    match read_login_record disk device_dir with
    | none => newest
    | some record =>
        if record.requested_device_id ≠ requested then newest
        else
          let used := ((disk.get device_dir).bind Dir.store).getD 0
          if newest.all fun n => n.1 < used then some (used,record.device_id) else newest
  else newest

def search (disk : Disk) (user requested : String) :
    Option (Int × String) → List Path → Option String
  | newest,[] => newest.map Prod.snd
  | newest,user_dir :: rest =>
      if names_user user_dir user then
        -- A store from before the proxy chose device IDs sits under the client's own.
        if has_store disk (down user_dir (sanitize_for_path requested)) then some requested
        else search disk user requested
          ((disk.subdirs user_dir).foldl (newer disk requested) newest) rest
      else search disk user requested newest rest

/-- The device whose store is here and which the client means by `requested`. -/
def device_id_for_login (disk : Disk) (user requested : String) : Option String :=
  search disk user requested none (disk.subdirs [])

/-- The user that a login names. -/
def namedUser (login : Value) : Option String :=
  ((login.pointer ["identifier","user"]).or (login.get "user")).bind Value.asStr

/-- A user ID in full, with its server's name. -/
def FullId (user : String) : Prop := ∃ name, user.toList = '@' :: name ∧ ':' ∈ name

def sanitizeChar (c : Char) : Char :=
  if (c.toNat < 128 && c.isAlphanum) || ['.','-','_','@',':','=','+'].contains c then c else '_'

theorem toList_sanitize (id : String) :
    (sanitize_for_path id).toList = id.toList.map sanitizeChar := by
  simp [sanitize_for_path,sanitizeChar]

theorem stripPrefix_at {s : String} {name : List Char} (h : s.toList = '@' :: name) :
    stripPrefix "@" s = some (String.ofList name) := by
  simp [stripPrefix,h]

theorem toList_sanitize_full {user : String} {name : List Char} (h : user.toList = '@' :: name) :
    (sanitize_for_path user).toList = '@' :: name.map sanitizeChar := by
  rw [toList_sanitize,h]
  rfl

theorem plain_full {user : String} (h : FullId user) : Plain (sanitize_for_path user) := by
  obtain ⟨name,hname,_⟩ := h
  have hlist := toList_sanitize_full hname
  refine ⟨?_,?_,?_⟩
  all_goals
    intro heq
    rw [heq] at hlist
    simp at hlist

theorem mem_lowercase {name : List Char} (h : ':' ∈ name) :
    ':' ∈ (to_ascii_lowercase (sanitize_for_path (String.ofList name))).toList := by
  simp only [to_ascii_lowercase,toList_sanitize,String.toList_ofList,List.mem_map]
  exact ⟨':',⟨':',h,by decide⟩,by decide⟩

/-- A user's own directory is found under the user's full ID. -/
theorem names_user_own {user : String} (h : FullId user) :
    names_user [sanitize_for_path user] user = true := by
  obtain ⟨name,hname,hcolon⟩ := h
  have hdir : stripPrefix "@" (sanitize_for_path user) =
      some (sanitize_for_path (String.ofList name)) := by
    rw [stripPrefix_at (toList_sanitize_full hname),← String.ofList_toList (s := sanitize_for_path _),
      toList_sanitize,String.toList_ofList]
  simp only [names_user,List.getLast?_singleton,Option.bind_some,hdir,stripPrefix_at hname,
    Option.getD_some,mem_lowercase hcolon,if_true,decide_true]

/-- The directory's store is of a device that the client means by `requested`. -/
def Means (disk : Disk) (dir : Path) (requested device : String) : Prop :=
  has_store disk dir = true ∧ read_login_record disk dir = some ⟨device,requested⟩

section
variable {disk : Disk} {user requested : String} {newest : Option (Int × String)}

theorem newer_of_not_means {dir : Path} (h : ∀ x, ¬Means disk dir requested x) :
    newer disk requested newest dir = newest := by
  unfold newer
  split_ifs with hstore
  · cases hrecord : read_login_record disk dir with
    | none => rfl
    | some record =>
        by_cases hrequested : record.requested_device_id = requested
        · exact absurd ⟨hstore,hrequested ▸ hrecord⟩ (h record.device_id)
        · simp [hrequested]
  · rfl

theorem newer_of_means {dir : Path} {x : String} (newest : Option (Int × String))
    (h : Means disk dir requested x) :
    (newer disk requested newest dir).isSome ∧
      ∀ n, newer disk requested newest dir = some n → newest = some n ∨ n.2 = x := by
  unfold newer
  rw [if_pos h.1,h.2]
  simp only [ne_eq,not_true_eq_false,if_false]
  split_ifs with hused
  · exact ⟨rfl,fun n hn => .inr (by cases hn; rfl)⟩
  · refine ⟨?_,fun n hn => .inl hn⟩
    cases newest with
    | none => simp at hused
    | some n => rfl

theorem newer_some {dir : Path} {n : Int × String} (h : newer disk requested newest dir = some n) :
    newest = some n ∨ Means disk dir requested n.2 := by
  by_cases hmeans : ∃ x, Means disk dir requested x
  · obtain ⟨x,hx⟩ := hmeans
    rcases (newer_of_means newest hx).2 n h with hold | hnew
    · exact .inl hold
    · exact .inr (hnew ▸ hx)
  · rw [newer_of_not_means fun x hx => hmeans ⟨x,hx⟩] at h
    exact .inl h

theorem newer_none {dir : Path} (h : newer disk requested newest dir = none) :
    newest = none ∧ ∀ x, ¬Means disk dir requested x := by
  by_cases hmeans : ∃ x, Means disk dir requested x
  · obtain ⟨x,hx⟩ := hmeans
    have hsome := (newer_of_means newest hx).1
    simp [h] at hsome
  · have hno : ∀ x, ¬Means disk dir requested x := fun x hx => hmeans ⟨x,hx⟩
    rw [newer_of_not_means hno] at h
    exact ⟨h,hno⟩

theorem foldl_newer_some {dirs : List Path} {n : Int × String}
    (h : dirs.foldl (newer disk requested) newest = some n) :
    newest = some n ∨ ∃ dir ∈ dirs, Means disk dir requested n.2 := by
  induction dirs generalizing newest with
  | nil => exact .inl h
  | cons dir dirs ih =>
      rcases ih h with hnewer | ⟨dir',hmem,hmeans⟩
      · rcases newer_some hnewer with hold | hmeans
        · exact .inl hold
        · exact .inr ⟨dir,List.mem_cons_self,hmeans⟩
      · exact .inr ⟨dir',List.mem_cons_of_mem _ hmem,hmeans⟩

theorem foldl_newer_none {dirs : List Path}
    (h : dirs.foldl (newer disk requested) newest = none) :
    newest = none ∧ ∀ dir ∈ dirs, ∀ x, ¬Means disk dir requested x := by
  induction dirs generalizing newest with
  | nil => exact ⟨h,by simp⟩
  | cons dir dirs ih =>
      obtain ⟨hnewer,hrest⟩ := ih h
      obtain ⟨hnewest,hdir⟩ := newer_none hnewer
      exact ⟨hnewest,List.forall_mem_cons.mpr ⟨hdir,hrest⟩⟩

/-- Some directory of the user has the store that the client asks for. -/
def UnderOwn (disk : Disk) (user requested : String) (dirs : List Path) : Prop :=
  ∃ p ∈ dirs, names_user p user = true ∧
    has_store disk (down p (sanitize_for_path requested)) = true

/-- Some directory of the user has the store of a device meant by `requested`. -/
def UnderRecord (disk : Disk) (user requested device : String) (dirs : List Path) : Prop :=
  ∃ p ∈ dirs, names_user p user = true ∧ ∃ q ∈ disk.subdirs p, Means disk q requested device

theorem UnderOwn.cons {p : Path} {dirs : List Path} (h : UnderOwn disk user requested dirs) :
    UnderOwn disk user requested (p :: dirs) := by
  obtain ⟨p',hmem,hp'⟩ := h
  exact ⟨p',List.mem_cons_of_mem _ hmem,hp'⟩

theorem UnderRecord.cons {x : String} {p : Path} {dirs : List Path}
    (h : UnderRecord disk user requested x dirs) :
    UnderRecord disk user requested x (p :: dirs) := by
  obtain ⟨p',hmem,hp'⟩ := h
  exact ⟨p',List.mem_cons_of_mem _ hmem,hp'⟩

theorem search_own {dirs : List Path} (h : UnderOwn disk user requested dirs) :
    search disk user requested newest dirs = some requested := by
  obtain ⟨p,hmem,hnames,hstore⟩ := h
  induction dirs generalizing newest with
  | nil => simp at hmem
  | cons p' dirs ih =>
      unfold search
      rcases List.mem_cons.mp hmem with rfl | hmem
      · rw [if_pos hnames,if_pos hstore]
      · split_ifs
        · rfl
        · exact ih hmem
        · exact ih hmem

theorem search_some {dirs : List Path} {x : String}
    (h : search disk user requested newest dirs = some x) :
    newest.map Prod.snd = some x ∨ x = requested ∧ UnderOwn disk user requested dirs ∨
      UnderRecord disk user requested x dirs := by
  induction dirs generalizing newest with
  | nil => exact .inl h
  | cons p dirs ih =>
      unfold search at h
      split_ifs at h with hnames hstore
      · cases h
        exact .inr (.inl ⟨rfl,p,List.mem_cons_self,hnames,hstore⟩)
      · rcases ih h with hfold | ⟨hx,hown⟩ | hrecord
        · obtain ⟨n,hn,rfl⟩ := Option.map_eq_some_iff.mp hfold
          rcases foldl_newer_some hn with hold | ⟨q,hq,hmeans⟩
          · exact .inl (by rw [hold]; rfl)
          · exact .inr (.inr ⟨p,List.mem_cons_self,hnames,q,hq,hmeans⟩)
        · exact .inr (.inl ⟨hx,hown.cons⟩)
        · exact .inr (.inr hrecord.cons)
      · rcases ih h with hold | ⟨hx,hown⟩ | hrecord
        · exact .inl hold
        · exact .inr (.inl ⟨hx,hown.cons⟩)
        · exact .inr (.inr hrecord.cons)

theorem search_none {dirs : List Path} (h : search disk user requested newest dirs = none) :
    newest = none ∧ ∀ x, ¬UnderRecord disk user requested x dirs := by
  induction dirs generalizing newest with
  | nil =>
      refine ⟨Option.map_eq_none_iff.mp h,?_⟩
      rintro x ⟨p,hp,_⟩
      simp at hp
  | cons p dirs ih =>
      unfold search at h
      split_ifs at h with hnames hstore
      · obtain ⟨hfold,hrest⟩ := ih h
        obtain ⟨hnewest,hno⟩ := foldl_newer_none hfold
        refine ⟨hnewest,?_⟩
        rintro x ⟨p',hp',hnames',q,hq,hmeans⟩
        rcases List.mem_cons.mp hp' with rfl | hp'
        · exact hno q hq x hmeans
        · exact hrest x ⟨p',hp',hnames',q,hq,hmeans⟩
      · obtain ⟨hnewest,hrest⟩ := ih h
        refine ⟨hnewest,?_⟩
        rintro x ⟨p',hp',hnames',q,hq,hmeans⟩
        rcases List.mem_cons.mp hp' with rfl | hp'
        · exact hnames hnames'
        · exact hrest x ⟨p',hp',hnames',q,hq,hmeans⟩

end

/-- Where the store of a device is. -/
def account_dir (user_id : UserId) (device_id : DeviceId) : Path :=
  down (down [] (sanitize_for_path user_id)) (sanitize_for_path device_id)

theorem down_user {user : UserId} (h : FullId user) :
    down [] (sanitize_for_path user) = [sanitize_for_path user] :=
  down_plain (plain_full h) []

theorem account_dir_plain {user : UserId} {device : DeviceId} (h : FullId user)
    (hd : Plain (sanitize_for_path device)) :
    account_dir user device = [sanitize_for_path user,sanitize_for_path device] := by
  rw [account_dir,down_user h,down_plain hd]
  rfl

def create_account_dir (disk : Disk) (user_id : UserId) (device_id : DeviceId) : Disk :=
  (disk.create ⟨none,none⟩ (down [] (sanitize_for_path user_id))).create ⟨none,none⟩
    (account_dir user_id device_id)

/-- Note, in a device's store directory, which device ID the client asks for when
it means this device. -/
def record_login (disk : Disk) (user_id : UserId) (device_id : DeviceId) (requested : String) :
    Disk :=
  (create_account_dir disk user_id device_id).modify
    (fun dir => { dir with login := some ⟨device_id,requested⟩ }) (account_dir user_id device_id)

/-- The store of a session is there, modified at some time. -/
def open_store (disk : Disk) (user_id : UserId) (device_id : DeviceId) (used : Int) : Disk :=
  (create_account_dir disk user_id device_id).modify (fun dir => { dir with store := some used })
    (account_dir user_id device_id)

theorem has_store_paths {disk : Disk} {p : Path} (h : has_store disk p = true) : p ∈ disk.paths := by
  rw [← Tree.get_isSome]
  cases hget : disk.get p with
  | none => simp [has_store,hget] at h
  | some dir => rfl

theorem create_bind {α : Type} {disk : Disk} {p q : Path} {f : Dir → Option α}
    (hf : f ⟨none,none⟩ = none) :
    ((disk.create ⟨none,none⟩ p).get q).bind f = (disk.get q).bind f := by
  rw [Tree.get_create]
  split_ifs with h
  · have hq : disk.get q = none := by
      have hno := (Tree.mem_missing.mp h).2
      rwa [← Tree.get_isSome,Bool.not_eq_true,Option.isSome_eq_false_iff,Option.isNone_iff_eq_none]
        at hno
    simp [hq,hf]
  · rfl

theorem create_account_dir_bind {α : Type} {disk : Disk} {user_id : UserId} {device_id : DeviceId}
    {q : Path} {f : Dir → Option α} (hf : f ⟨none,none⟩ = none) :
    ((create_account_dir disk user_id device_id).get q).bind f = (disk.get q).bind f := by
  rw [create_account_dir,create_bind hf,create_bind hf]

theorem paths_create_account_dir {disk : Disk} {user_id : UserId} {device_id : DeviceId} {q : Path} :
    q ∈ (create_account_dir disk user_id device_id).paths ↔ q ∈ disk.paths ∨
      q <+: down [] (sanitize_for_path user_id) ∨ q <+: account_dir user_id device_id := by
  simp only [create_account_dir,Tree.mem_paths_create]
  tauto

theorem account_dir_mem (disk : Disk) (user_id : UserId) (device_id : DeviceId) :
    account_dir user_id device_id ∈ (create_account_dir disk user_id device_id).paths := by
  simp [paths_create_account_dir]

/-- A disk like another but for the order of its listings and the times at which
its stores were modified. -/
structure Touched (disk disk' : Disk) : Prop where
  paths : ∀ p, p ∈ disk'.paths ↔ p ∈ disk.paths
  stores : ∀ p, has_store disk' p = has_store disk p
  records : ∀ p, read_login_record disk' p = read_login_record disk p

theorem Touched.refl (disk : Disk) : Touched disk disk := ⟨fun _ => .rfl,fun _ => rfl,fun _ => rfl⟩

/-- What a login for a device changes: the device's store is there, and where
another device was asked for that is noted beside it. -/
structure Left (disk disk' : Disk) (user : UserId) (requested : Option String) (device : DeviceId) :
    Prop where
  user_dir : down [] (sanitize_for_path user) ∈ disk'.paths
  paths : ∀ p ∈ disk.paths, p ∈ disk'.paths
  store : has_store disk' (account_dir user device) = true
  stores : ∀ p ≠ account_dir user device, has_store disk' p = has_store disk p
  record : ∀ r, requested = some r → r ≠ device →
    read_login_record disk' (account_dir user device) = some ⟨device,r⟩
  no_record : (∀ r, requested = some r → r = device) →
    read_login_record disk' (account_dir user device) =
      read_login_record disk (account_dir user device)
  records : ∀ p ≠ account_dir user device, read_login_record disk' p = read_login_record disk p

theorem Left.touched {disk disk' disk'' : Disk} {user : UserId} {requested : Option String}
    {device : DeviceId} (h : Left disk disk' user requested device) (ht : Touched disk' disk'') :
    Left disk disk'' user requested device where
  user_dir := (ht.paths _).mpr h.user_dir
  paths p hp := (ht.paths p).mpr (h.paths p hp)
  store := (ht.stores _).trans h.store
  stores p hp := (ht.stores p).trans (h.stores p hp)
  record r hr hne := (ht.records _).trans (h.record r hr hne)
  no_record hr := (ht.records _).trans (h.no_record hr)
  records p hp := (ht.records p).trans (h.records p hp)

theorem open_store_left (disk : Disk) (user : UserId) (device : DeviceId) (used : Int) :
    Left disk (open_store disk user device used) user none device where
  user_dir := by simp [open_store,paths_create_account_dir]
  paths p hp := by simp [open_store,paths_create_account_dir,hp]
  store := by
    have hmem := Tree.get_isSome.mpr (account_dir_mem disk user device)
    obtain ⟨dir,hdir⟩ := Option.isSome_iff_exists.mp hmem
    simp [has_store,open_store,Tree.get_modify,hdir]
  stores p hp := by
    simp only [has_store,open_store,Tree.get_modify,if_neg hp,
      create_account_dir_bind (f := Dir.store) rfl]
  record r hr := by cases hr
  no_record _ := by
    have hmodify : ∀ o : Option Dir, (o.map fun dir => { dir with store := some used }).bind Dir.login =
        o.bind Dir.login := by
      intro o
      cases o <;> rfl
    simp only [read_login_record,open_store,Tree.get_modify,if_true,hmodify,
      create_account_dir_bind (f := Dir.login) rfl]
  records p hp := by
    simp only [read_login_record,open_store,Tree.get_modify,if_neg hp,
      create_account_dir_bind (f := Dir.login) rfl]

theorem record_login_get (disk : Disk) (user : UserId) (device : DeviceId) (requested : String) :
    (∀ p, has_store (record_login disk user device requested) p = has_store disk p) ∧
    (∀ p ≠ account_dir user device,
      read_login_record (record_login disk user device requested) p = read_login_record disk p) ∧
    read_login_record (record_login disk user device requested) (account_dir user device) =
      some ⟨device,requested⟩ ∧
    ∀ p ∈ disk.paths, p ∈ (record_login disk user device requested).paths := by
  refine ⟨fun p => ?_,fun p hp => ?_,?_,fun p hp => ?_⟩
  · have hmodify : ∀ o : Option Dir,
        (o.map fun dir => { dir with login := some ⟨device,requested⟩ }).bind Dir.store =
          o.bind Dir.store := by
      intro o
      cases o <;> rfl
    simp only [has_store,record_login,Tree.get_modify]
    split_ifs
    · rw [hmodify,create_account_dir_bind (f := Dir.store) rfl]
    · rw [create_account_dir_bind (f := Dir.store) rfl]
  · simp only [read_login_record,record_login,Tree.get_modify,if_neg hp,
      create_account_dir_bind (f := Dir.login) rfl]
  · have hmem := Tree.get_isSome.mpr (account_dir_mem disk user device)
    obtain ⟨dir,hdir⟩ := Option.isSome_iff_exists.mp hmem
    simp [read_login_record,record_login,Tree.get_modify,hdir]
  · simp [record_login,paths_create_account_dir,hp]

variable [Codec]

/-- Decide which device a login continues. -/
def plan_login (disk : Disk) (body : Bytes) : LoginPlan :=
  match Codec.fromSlice body with
  | none => .default
  | some login =>
      match (login.get "device_id").bind Value.asStr,namedUser login with
      | none,_ => .default
      | some _,none => .default
      | some requested,some user =>
          match device_id_for_login disk user requested with
          | some device_id =>
              if device_id = requested then ⟨none,some requested⟩
              -- An object at this point: the assignment does not panic.
              else ⟨login.assign ["device_id"] (.string device_id),some requested⟩
          | none =>
              ⟨login.asObject.map fun m => .object (m.remove "device_id"),some requested⟩

/-- Where a login got another device ID than the client asked for, note which. -/
def note_device (disk : Disk) (login_response : Value) (requested : String) : Disk :=
  match ((login_response.get "user_id").bind Value.asStr).bind parseUserId,
      (login_response.get "device_id").bind Value.asStr with
  | some user_id,some device_id =>
      if device_id = requested then disk else record_login disk user_id device_id requested
  | _,_ => disk

/-- What is sent of a login in the client's place. -/
def login_body (disk : Disk) (body : Bytes) : Payload :=
  match (plan_login disk body).body with
  | some body => .json body
  | none => .raw body

/-- The device ID that the homeserver finds in a login. -/
def sentDevice (disk : Disk) (body : Bytes) : Option String :=
  ((login_body disk body).parse.bind (Value.get "device_id")).bind Value.asStr

/-- The disk after a login whose session was started. -/
def handle_login (disk : Disk) (body : Bytes) (login_response : Value) (used : Int) : Disk :=
  let noted := match (plan_login disk body).requested with
    | some requested => note_device disk login_response requested
    | none => disk
  match (login_response.get "user_id").bind Value.asStr,
      (login_response.get "device_id").bind Value.asStr with
  | some user_id,some device_id => open_store noted user_id device_id used
  | _,_ => noted

theorem handle_login_left {disk : Disk} {body : Bytes} {response : Value} {used : Int}
    {user : UserId} {requested : Option String} {device : DeviceId}
    (hplan : (plan_login disk body).requested = requested)
    (huser : (response.get "user_id").bind Value.asStr = some user)
    (hvalid : parseUserId user = some user)
    (hdevice : (response.get "device_id").bind Value.asStr = some device) :
    Left disk (handle_login disk body response used) user requested device := by
  cases requested with
  | none =>
      have hsame : handle_login disk body response used = open_store disk user device used := by
        simp only [handle_login,hplan,huser,hdevice]
      rw [hsame]
      exact open_store_left ..
  | some r =>
      by_cases heq : device = r
      · have hsame : handle_login disk body response used = open_store disk user device used := by
          simp only [handle_login,hplan,huser,hdevice,note_device,Option.bind_some,hvalid,if_pos heq]
        have hleft := open_store_left disk user device used
        rw [hsame]
        exact { hleft with
          record := fun r' hr' hne => by cases hr'; exact absurd heq.symm hne
          no_record := fun _ => hleft.no_record (by simp) }
      · have hnoted : handle_login disk body response used =
            open_store (record_login disk user device r) user device used := by
          simp only [handle_login,hplan,huser,hdevice,note_device,Option.bind_some,hvalid,if_neg heq]
        obtain ⟨hstores,hrecords,hrecord,hpaths⟩ :=
          record_login_get disk user device r
        have hleft := open_store_left (record_login disk user device r) user device used
        have hkept := hleft.no_record (by simp)
        rw [hnoted]
        exact {
          user_dir := hleft.user_dir
          paths := fun p hp => hleft.paths p (hpaths p hp)
          store := hleft.store
          stores := fun p hp => (hleft.stores p hp).trans (hstores p)
          record := fun r' hr' _ => by cases hr'; exact hkept.trans hrecord
          no_record := fun hr => absurd (hr r rfl).symm heq
          records := fun p hp => (hleft.records p hp).trans (hrecords p hp) }

theorem sentDevice_none {disk : Disk} {body : Bytes} {login : Value}
    (hbody : Codec.fromSlice body = some login)
    (hrequested : (login.get "device_id").bind Value.asStr = none) :
    sentDevice disk body = none := by
  have hplan : plan_login disk body = .default := by simp [plan_login,hbody,hrequested]
  simp [sentDevice,login_body,hplan,LoginPlan.default,Payload.parse,hbody,hrequested]

/-- A login is sent with the device that the proxy has found for it, and with
none where it has found none. -/
theorem sentDevice_some {disk : Disk} {body : Bytes} {login : Value} {user requested : String}
    (hbody : Codec.fromSlice body = some login)
    (hrequested : (login.get "device_id").bind Value.asStr = some requested)
    (huser : namedUser login = some user) :
    sentDevice disk body = device_id_for_login disk user requested ∧
      (plan_login disk body).requested = some requested := by
  obtain ⟨m,rfl⟩ : ∃ m : Json.Map, login = .object m := by
    cases login with
    | object m => exact ⟨m,rfl⟩
    | _ => simp [Value.get,Value.asObject] at hrequested
  cases hdevice : device_id_for_login disk user requested with
  | none =>
      have hplan : plan_login disk body =
          ⟨some (.object (m.remove "device_id")),some requested⟩ := by
        simp only [plan_login,hbody,hrequested,huser,hdevice]
        rfl
      simp [sentDevice,login_body,hplan,Payload.parse,Json.Map.lookup_remove_self]
  | some device_id =>
      by_cases hsame : device_id = requested
      · have hplan : plan_login disk body = ⟨none,some requested⟩ := by
          simp only [plan_login,hbody,hrequested,huser,hdevice,if_pos hsame]
        simp only [sentDevice,login_body,hplan,Payload.parse,hbody,Option.bind_some,hrequested,
          hsame,and_self]
      · have hplan : plan_login disk body =
            ⟨some (.object (m.insert "device_id" (.string device_id))),some requested⟩ := by
          simp only [plan_login,hbody,hrequested,huser,hdevice,if_neg hsame]
          rfl
        simp [sentDevice,login_body,hplan,Payload.parse]

end EmentE2ee
