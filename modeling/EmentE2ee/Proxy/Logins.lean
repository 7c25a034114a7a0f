import EmentE2ee.Concurrent.Run
import EmentE2ee.Crypto.LoginPlan

/-!
# Histories of logins

Logins that complete, session and store included, before the next begins. What
the proxy knows of earlier logins are the stores and login files they left; the
run keeps, beside the disk, which logins there were. A user's later login
asking for a device ID continues the device of the earlier ones, and a login is
never sent with another user's device, as long as no two of the names in play
are mapped to one directory.
-/
namespace EmentE2ee.Logins

open Concurrent Files
open Json (Value)

/-- A login that completed: who asked for which device ID, which one the
homeserver was sent, and which device it became. -/
structure Login where
  user : UserId
  requested : Option String
  sent : Option String
  device : DeviceId

structure World where
  before : Disk
  disk : Disk
  past : List Login

/-- The user has a store under this device ID: one from before, or that of an
earlier login. -/
def World.owns (w : World) (user : UserId) (device : DeviceId) : Prop :=
  has_store w.before (account_dir user device) = true ∨
    ∃ l ∈ w.past, l.user = user ∧ l.device = device

/-- No two of the names in play are mapped to one directory. -/
structure Apart (w : World) (l : Login) : Prop where
  /-- Names that differ in nothing but their case. -/
  others : ∀ r, l.requested = some r → ∀ p ∈ w.disk.subdirs [], names_user p l.user = true →
    p ≠ [sanitize_for_path l.user] →
    has_store w.disk (down p (sanitize_for_path r)) = false ∧
      ∀ q ∈ w.disk.subdirs p, ∀ x, ¬Means w.disk q r x
  shared : ∀ r, l.requested = some r → ∀ l' ∈ w.past,
    sanitize_for_path l'.user = sanitize_for_path l.user → l'.requested = some r →
    l'.device ≠ r → l'.user = l.user
  asked : ∀ r, l.requested = some r → ∀ l' ∈ w.past,
    account_dir l'.user l'.device = account_dir l.user r → l'.user = l.user ∧ l'.device = r
  devices : ∀ l' ∈ w.past, account_dir l'.user l'.device = account_dir l.user l.device →
    l'.user = l.user ∧ l'.device = l.device
  unasked : ∀ l' ∈ w.past ++ [l], ∀ r, l'.requested = some r → l'.device ≠ r →
    account_dir l'.user r ≠ account_dir l.user l.device
  plain : ∀ r, l.requested = some r → l.device ≠ r → Plain (sanitize_for_path l.device)

/-- A login continues its own device and nobody else's. -/
structure Continues (w : World) (l : Login) : Prop where
  first : ∀ r, l.requested = some r →
    (∀ l' ∈ w.past, l'.user = l.user → l'.requested ≠ some r) → ¬w.owns l.user r → l.sent = none
  store : ∀ r, l.requested = some r → w.owns l.user r → l.sent = some r
  later : ∀ r, l.requested = some r → ∀ l' ∈ w.past, l'.user = l.user → l'.requested = some r →
    l.sent = some l'.device
  own : ∀ device, l.sent = some device → w.owns l.user device

/-- Before the first login there are stores, but no login files. -/
structure Initial (disk : Disk) : Prop where
  records : ∀ p, read_login_record disk p = none
  placed : ∀ p, has_store disk p = true → ∃ user device, p = [user,device]

/-- What the disk tells of the logins so far. -/
structure Kept (w : World) : Prop where
  placed : ∀ p, has_store w.before p = true → ∃ user device, p = [user,device]
  before : ∀ p, has_store w.before p = true → has_store w.disk p = true
  stored : ∀ p, has_store w.disk p = true →
    has_store w.before p = true ∨ ∃ l ∈ w.past, p = account_dir l.user l.device
  recorded : ∀ p record, read_login_record w.disk p = some record → ∃ l ∈ w.past,
    p = account_dir l.user l.device ∧ l.requested = some record.requested_device_id ∧
      l.device = record.device_id ∧ l.device ≠ record.requested_device_id
  full : ∀ l ∈ w.past, FullId l.user
  user_dirs : ∀ l ∈ w.past, down [] (sanitize_for_path l.user) ∈ w.disk.paths
  stores : ∀ l ∈ w.past, has_store w.disk (account_dir l.user l.device) = true
  noted : ∀ l ∈ w.past, ∀ r, l.requested = some r → l.device ≠ r →
    read_login_record w.disk (account_dir l.user l.device) = some ⟨l.device,r⟩ ∧
      has_store w.disk (account_dir l.user r) = false ∧ Plain (sanitize_for_path l.device)
  same : ∀ l ∈ w.past, ∀ l' ∈ w.past, ∀ r, l.requested = some r → l'.requested = some r →
    l.user = l'.user → l.device = l'.device

theorem Kept.initial {disk : Disk} (h : Initial disk) : Kept ⟨disk,disk,[]⟩ where
  placed := h.placed
  before _ hp := hp
  stored _ hp := .inl hp
  recorded p record hrecord := by simp [h.records] at hrecord
  full := by simp
  user_dirs := by simp
  stores := by simp
  noted := by simp
  same := by simp

section
variable {w w' : World} {l : Login} {r : String}

theorem Kept.owns_iff (hk : Kept w) (ha : Apart w l) (hr : l.requested = some r) :
    w.owns l.user r ↔ has_store w.disk (account_dir l.user r) = true := by
  constructor
  · rintro (hbefore | ⟨l',hl',huser,hdevice⟩)
    · exact hk.before _ hbefore
    · rw [← huser,← hdevice]
      exact hk.stores l' hl'
  · intro hstore
    rcases hk.stored _ hstore with hbefore | ⟨l',hl',hdir⟩
    · exact .inl hbefore
    · exact .inr ⟨l',hl',ha.asked r hr l' hl' hdir.symm⟩

/-- The user's directory exists where there is a store under the requested ID. -/
theorem Kept.user_dir (hk : Kept w) (ha : Apart w l) (hfull : FullId l.user)
    (hr : l.requested = some r) (h : has_store w.disk (account_dir l.user r) = true) :
    [sanitize_for_path l.user] ∈ w.disk.paths := by
  rcases hk.stored _ h with hbefore | ⟨l',hl',hdir⟩
  · obtain ⟨user,device,hplaced⟩ := hk.placed _ hbefore
    have hmem := has_store_paths h
    rw [hplaced] at hmem
    have hparent : [user] ∈ w.disk.paths := Tree.parent_mem hmem
    have huser : user = sanitize_for_path l.user := by
      rw [account_dir,down_user hfull,down] at hplaced
      split_ifs at hplaced <;> simp_all
    rwa [huser] at hparent
  · obtain ⟨huser,_⟩ := ha.asked r hr l' hl' hdir.symm
    have hdir' := hk.user_dirs l' hl'
    rwa [huser,down_user hfull] at hdir'

theorem Kept.underOwn (hk : Kept w) (ha : Apart w l) (hfull : FullId l.user)
    (hr : l.requested = some r) :
    UnderOwn w.disk l.user r (w.disk.subdirs []) ↔
      has_store w.disk (account_dir l.user r) = true := by
  constructor
  · rintro ⟨p,hp,hnames,hstore⟩
    by_cases hown : p = [sanitize_for_path l.user]
    · rwa [account_dir,down_user hfull,← hown]
    · have hno := (ha.others r hr p hp hnames hown).1
      rw [hstore] at hno
      cases hno
  · intro hstore
    have hmem := hk.user_dir ha hfull hr hstore
    refine ⟨[sanitize_for_path l.user],?_,names_user_own hfull,?_⟩
    · simpa using (Tree.snoc_mem_subdirs (p := [])).mpr hmem
    · rwa [account_dir,down_user hfull] at hstore

/-- A record found for a login is that of the user's own earlier login. -/
theorem Kept.underRecord (hk : Kept w) (ha : Apart w l) (hr : l.requested = some r)
    {x : String} (h : UnderRecord w.disk l.user r x (w.disk.subdirs [])) :
    ∃ l' ∈ w.past, l'.user = l.user ∧ l'.requested = some r ∧ l'.device = x ∧ l'.device ≠ r := by
  obtain ⟨p,hp,hnames,q,hq,hmeans⟩ := h
  have hown : p = [sanitize_for_path l.user] := by
    by_contra hother
    exact (ha.others r hr p hp hnames hother).2 q hq x hmeans
  obtain ⟨l',hl',hdir,hrequested,hdevice,hne⟩ := hk.recorded q _ hmeans.2
  obtain ⟨_,_,hplain⟩ := hk.noted l' hl' r hrequested hne
  have huser : sanitize_for_path l'.user = sanitize_for_path l.user := by
    have hparent := (Tree.mem_subdirs.mp hq).2.2
    rw [hdir,account_dir_plain (hk.full l' hl') hplain,hown] at hparent
    simpa using hparent
  exact ⟨l',hl',ha.shared r hr l' hl' huser hrequested hne,hrequested,hdevice,hne⟩

/-- An earlier login for the same is found, by its store or by its record. -/
theorem Kept.found (hk : Kept w) (hfull : FullId l.user) {l' : Login} (hl' : l' ∈ w.past)
    (huser : l'.user = l.user) (hrequested : l'.requested = some r) :
    has_store w.disk (account_dir l.user r) = true ∨
      UnderRecord w.disk l.user r l'.device (w.disk.subdirs []) := by
  by_cases hdevice : l'.device = r
  · left
    rw [← huser,← hdevice]
    exact hk.stores l' hl'
  · right
    obtain ⟨hrecord,_,hplain⟩ := hk.noted l' hl' r hrequested hdevice
    have hstore := hk.stores l' hl'
    rw [huser] at hrecord hstore
    rw [account_dir_plain hfull hplain] at hrecord hstore
    have hmem := has_store_paths hstore
    refine ⟨[sanitize_for_path l.user],?_,names_user_own hfull,_,?_,hstore,hrecord⟩
    · exact (Tree.snoc_mem_subdirs (p := [])).mpr (Tree.parent_mem hmem)
    · exact (Tree.snoc_mem_subdirs (p := [sanitize_for_path l.user])).mpr hmem

variable [Codec]

/-- A login with a full user ID, up to the session and its store. The homeserver
makes the login the device that the request names, or picks one of its own. -/
structure Completes (w : World) (l : Login) (w' : World) : Prop where
  answered : ∃ body login response used, Codec.fromSlice body = some login ∧
    namedUser login = some l.user ∧ (login.get "device_id").bind Value.asStr = l.requested ∧
    sentDevice w.disk body = l.sent ∧
    (response.get "user_id").bind Value.asStr = some l.user ∧
    (response.get "device_id").bind Value.asStr = some l.device ∧
    Touched (handle_login w.disk body response used) w'.disk
  full : FullId l.user
  valid : parseUserId l.user = some l.user
  honoured : ∀ device, l.sent = some device → l.device = device
  fresh : l.sent = none → ¬w.owns l.user l.device
  before : w'.before = w.before
  past : w'.past = w.past ++ [l]

theorem Completes.left {w w' : World} {l : Login} (h : Completes w l w') :
    Left w.disk w'.disk l.user l.requested l.device := by
  obtain ⟨body,login,response,used,hbody,hnamed,hrequested,_,huser,hdevice,htouched⟩ := h.answered
  have hplan : (plan_login w.disk body).requested = l.requested := by
    cases hr : l.requested with
    | none =>
        rw [hr] at hrequested
        simp [plan_login,hbody,hrequested,LoginPlan.default]
    | some r =>
        rw [hr] at hrequested
        exact (sentDevice_some hbody hrequested hnamed).2
  exact (handle_login_left hplan huser h.valid hdevice).touched htouched

theorem Completes.sent_none {w w' : World} {l : Login} (h : Completes w l w')
    (hr : l.requested = none) : l.sent = none := by
  obtain ⟨body,login,response,used,hbody,_,hrequested,hsent,_⟩ := h.answered
  rw [← hsent]
  exact sentDevice_none hbody (hrequested.trans hr)

theorem Completes.sent_some {w w' : World} {l : Login} (h : Completes w l w') {r : String}
    (hr : l.requested = some r) : l.sent = device_id_for_login w.disk l.user r := by
  obtain ⟨body,login,response,used,hbody,hnamed,hrequested,hsent,_⟩ := h.answered
  rw [← hsent]
  exact (sentDevice_some hbody (hrequested.trans hr) hnamed).1

/-- A login is sent with the ID it asks for, which the user has a store under, or
with the device of the user's earlier logins for the same, or there was none. -/
theorem sent_cases (hk : Kept w) (ha : Apart w l) (hl : Completes w l w')
    (hr : l.requested = some r) :
    (l.sent = some r ∧ has_store w.disk (account_dir l.user r) = true) ∨
    (has_store w.disk (account_dir l.user r) = false ∧ ∃ l' ∈ w.past, l'.user = l.user ∧
      l'.requested = some r ∧ l'.device ≠ r ∧ l.sent = some l'.device) ∨
    (has_store w.disk (account_dir l.user r) = false ∧ l.sent = none ∧
      ∀ l' ∈ w.past, l'.user = l.user → l'.requested ≠ some r) := by
  have hunder := hk.underOwn ha hl.full hr
  rw [hl.sent_some hr]
  cases hstore : has_store w.disk (account_dir l.user r) with
  | true => exact .inl ⟨search_own (hunder.mpr hstore),rfl⟩
  | false =>
      right
      cases hsearch : device_id_for_login w.disk l.user r with
      | none =>
          right
          refine ⟨rfl,rfl,fun l' hl' huser hrequested => ?_⟩
          rcases hk.found hl.full hl' huser hrequested with hown | hrecord
          · rw [hstore] at hown
            cases hown
          · exact (search_none hsearch).2 _ hrecord
      | some x =>
          left
          refine ⟨rfl,?_⟩
          rcases search_some hsearch with hnewest | ⟨_,hown⟩ | hrecord
          · cases hnewest
          · rw [hunder,hstore] at hown
            cases hown
          · obtain ⟨l',hl',huser,hrequested,rfl,hne⟩ := hk.underRecord ha hr hrecord
            exact ⟨l',hl',huser,hrequested,hne,rfl⟩

theorem Kept.continues (hk : Kept w) (ha : Apart w l) (hl : Completes w l w') : Continues w l where
  first r hr hfirst howns := by
    rcases sent_cases hk ha hl hr with ⟨_,hstore⟩ | ⟨_,l',hl',huser,hrequested,_⟩ | ⟨_,hsent,_⟩
    · exact absurd ((hk.owns_iff ha hr).mpr hstore) howns
    · exact absurd hrequested (hfirst l' hl' huser)
    · exact hsent
  store r hr howns := by
    have hstore := (hk.owns_iff ha hr).mp howns
    rcases sent_cases hk ha hl hr with ⟨hsent,_⟩ | ⟨hno,_⟩ | ⟨hno,_⟩
    · exact hsent
    · rw [hstore] at hno
      cases hno
    · rw [hstore] at hno
      cases hno
  later r hr l' hl' huser hrequested := by
    rcases sent_cases hk ha hl hr with
      ⟨hsent,hstore⟩ | ⟨_,l₁,hl₁,huser₁,hrequested₁,_,hsent⟩ | ⟨_,_,hnone⟩
    · by_cases hdevice : l'.device = r
      · rw [hsent,hdevice]
      · have hno := (hk.noted l' hl' r hrequested hdevice).2.1
        rw [huser,hstore] at hno
        cases hno
    · rw [hsent,hk.same l₁ hl₁ l' hl' r hrequested₁ hrequested (huser₁.trans huser.symm)]
    · exact absurd hrequested (hnone l' hl' huser)
  own device hsent := by
    cases hr : l.requested with
    | none =>
        rw [hl.sent_none hr] at hsent
        cases hsent
    | some r =>
        rcases sent_cases hk ha hl hr with
          ⟨hown,hstore⟩ | ⟨_,l',hl',huser,_,_,hrecord⟩ | ⟨_,hnone,_⟩
        · cases hown.symm.trans hsent
          exact (hk.owns_iff ha hr).mpr hstore
        · cases hrecord.symm.trans hsent
          exact .inr ⟨l',hl',huser,rfl⟩
        · cases hnone.symm.trans hsent

/-- A device that an earlier login got as well is that of a login asking for the
same. -/
theorem Kept.earlier (hk : Kept w) (ha : Apart w l) (hl : Completes w l w')
    (hr : l.requested = some r) (hne : l.device ≠ r) {l' : Login} (hl' : l' ∈ w.past)
    (hdir : account_dir l'.user l'.device = account_dir l.user l.device) :
    ∃ l₁ ∈ w.past, l₁.user = l.user ∧ l₁.requested = some r ∧ l₁.device = l.device := by
  rcases sent_cases hk ha hl hr with ⟨hsent,_⟩ | ⟨_,l₁,hl₁,huser,hrequested,_,hsent⟩ | ⟨_,hsent,_⟩
  · exact absurd (hl.honoured r hsent) hne
  · exact ⟨l₁,hl₁,huser,hrequested,(hl.honoured _ hsent).symm⟩
  · exact absurd (.inr ⟨l',hl',ha.devices l' hl' hdir⟩) (hl.fresh hsent)

/-- The login's own note stays that of the earlier logins for its device. -/
theorem Kept.note_kept (hk : Kept w) (ha : Apart w l) (hl : Completes w l w') {l' : Login}
    (hl' : l' ∈ w.past) {r' : String} (hr' : l'.requested = some r') (hne' : l'.device ≠ r') :
    read_login_record w'.disk (account_dir l'.user l'.device) = some ⟨l'.device,r'⟩ := by
  have hleft := hl.left
  have hold := (hk.noted l' hl' r' hr' hne').1
  by_cases hdir : account_dir l'.user l'.device = account_dir l.user l.device
  · obtain ⟨huser,hdevice⟩ := ha.devices l' hl' hdir
    by_cases hnote : ∃ r, l.requested = some r ∧ r ≠ l.device
    · obtain ⟨r,hr,hne⟩ := hnote
      obtain ⟨l₁,hl₁,huser₁,hrequested₁,hdevice₁⟩ := hk.earlier ha hl hr hne.symm hl' hdir
      have hsame := (hk.noted l₁ hl₁ r hrequested₁ (by rw [hdevice₁]; exact hne.symm)).1
      rw [huser₁,hdevice₁,← hdir,hold,hdevice] at hsame
      rw [hdir,hleft.record r hr hne,hsame.symm,hdevice]
    · have hno := hleft.no_record fun r hr => by_contra fun hne => hnote ⟨r,hr,hne⟩
      rw [hdir,hno,← hdir,hold]
  · rw [hleft.records _ hdir,hold]

theorem Kept.recorded_step (hk : Kept w) (hl : Completes w l w') {p : Path} {record : LoginRecord}
    (hrecord : read_login_record w'.disk p = some record) :
    ∃ l' ∈ w.past ++ [l], p = account_dir l'.user l'.device ∧
      l'.requested = some record.requested_device_id ∧ l'.device = record.device_id ∧
        l'.device ≠ record.requested_device_id := by
  have hleft := hl.left
  have hearlier : read_login_record w.disk p = some record → ∃ l' ∈ w.past ++ [l],
      p = account_dir l'.user l'.device ∧ l'.requested = some record.requested_device_id ∧
        l'.device = record.device_id ∧ l'.device ≠ record.requested_device_id := by
    intro hold
    obtain ⟨l',hl',hl''⟩ := hk.recorded p record hold
    exact ⟨l',List.mem_append_left _ hl',hl''⟩
  by_cases hdir : p = account_dir l.user l.device
  · by_cases hnote : ∃ r, l.requested = some r ∧ r ≠ l.device
    · obtain ⟨r,hr,hne⟩ := hnote
      rw [hdir,hleft.record r hr hne] at hrecord
      cases hrecord
      exact ⟨l,by simp,hdir,hr,rfl,hne.symm⟩
    · have hno := hleft.no_record fun r hr => by_contra fun hne => hnote ⟨r,hr,hne⟩
      rw [hdir,hno,← hdir] at hrecord
      exact hearlier hrecord
  · rw [hleft.records p hdir] at hrecord
    exact hearlier hrecord

theorem Kept.step (hk : Kept w) (ha : Apart w l) (hl : Completes w l w') : Kept w' := by
  have hleft := hl.left
  have hcontinues := hk.continues ha hl
  have hsame : ∀ l' ∈ w.past, ∀ r, l'.requested = some r → l.requested = some r →
      l'.user = l.user → l'.device = l.device := fun l' hl' r hr' hr huser =>
    (hl.honoured _ (hcontinues.later r hr l' hl' huser hr')).symm
  have hkeep : ∀ p, has_store w.disk p = true → has_store w'.disk p = true := by
    intro p hp
    by_cases hdir : p = account_dir l.user l.device
    · rw [hdir]
      exact hleft.store
    · rwa [hleft.stores p hdir]
  exact {
    placed := by rw [hl.before]; exact hk.placed
    before := by
      rw [hl.before]
      exact fun p hp => hkeep p (hk.before p hp)
    stored := by
      intro p hp
      rw [hl.before,hl.past]
      by_cases hdir : p = account_dir l.user l.device
      · exact .inr ⟨l,by simp,hdir⟩
      · rw [hleft.stores p hdir] at hp
        rcases hk.stored p hp with hbefore | ⟨l',hl',hp'⟩
        · exact .inl hbefore
        · exact .inr ⟨l',List.mem_append_left _ hl',hp'⟩
    recorded := by
      rw [hl.past]
      exact fun p record hrecord => hk.recorded_step hl hrecord
    full := by
      rw [hl.past]
      exact List.forall_mem_append.mpr ⟨hk.full,by simpa using hl.full⟩
    user_dirs := by
      rw [hl.past]
      refine List.forall_mem_append.mpr ⟨fun l' hl' => hleft.paths _ (hk.user_dirs l' hl'),?_⟩
      simpa using hleft.user_dir
    stores := by
      rw [hl.past]
      refine List.forall_mem_append.mpr ⟨fun l' hl' => hkeep _ (hk.stores l' hl'),?_⟩
      simpa using hleft.store
    noted := by
      rw [hl.past]
      refine List.forall_mem_append.mpr ⟨fun l' hl' r hr hne => ?_,?_⟩
      · obtain ⟨_,hno,hplain⟩ := hk.noted l' hl' r hr hne
        have hunasked := ha.unasked l' (List.mem_append_left _ hl') r hr hne
        exact ⟨hk.note_kept ha hl hl' hr hne,by rw [hleft.stores _ hunasked,hno],hplain⟩
      · intro l' hl' r hr hne
        cases List.mem_singleton.mp hl'
        have hunasked := ha.unasked l (by simp) r hr hne
        have hno : has_store w.disk (account_dir l.user r) = false := by
          rcases sent_cases hk ha hl hr with ⟨hsent,_⟩ | ⟨hno,_⟩ | ⟨hno,_⟩
          · exact absurd (hl.honoured r hsent) hne
          · exact hno
          · exact hno
        exact ⟨hleft.record r hr hne.symm,by rw [hleft.stores _ hunasked,hno],ha.plain r hr hne⟩
    same := by
      rw [hl.past]
      intro l₁ hl₁ l₂ hl₂ r hr₁ hr₂ huser
      rcases List.mem_append.mp hl₁ with h₁ | h₁ <;> rcases List.mem_append.mp hl₂ with h₂ | h₂
      · exact hk.same l₁ h₁ l₂ h₂ r hr₁ hr₂ huser
      · cases List.mem_singleton.mp h₂
        exact hsame l₁ h₁ r hr₁ hr₂ huser
      · cases List.mem_singleton.mp h₁
        exact (hsame l₂ h₂ r hr₂ hr₁ huser.symm).symm
      · cases List.mem_singleton.mp h₁
        cases List.mem_singleton.mp h₂
        rfl }

/-- As long as no two of the names in play are mapped to one directory, each
login of a history continues its own device and nobody else's. -/
theorem login_continues_own_device {disk : Disk} (h₀ : Initial disk) {ls : List Login} {w w' : World}
    {l : Login} (hrun : Run (fun w l w' => Apart w l ∧ Completes w l w') ⟨disk,disk,[]⟩ ls w)
    (ha : Apart w l) (hl : Completes w l w') : Continues w l := by
  have hkept : Kept w := hrun.invariant (.initial h₀) fun _ _ _ hk hstep => hk.step hstep.1 hstep.2
  exact hkept.continues ha hl

end

def asking (user : UserId) : Value :=
  .object [("device_id",.string "EMENT"),("identifier",.object [("user",.string user)])]

def welcome (user : UserId) : Value :=
  .object [("device_id",.string "FIRST"),("user_id",.string user)]

local instance : Codec :=
  Codec.plain (fun body => some (asking (if body = [0] then "@a_b:x" else "@a/b:x"))) some
    fun _ _ => 0

def firstLogin : Login := ⟨"@a_b:x",some "EMENT",none,"FIRST"⟩
def nextLogin (user : UserId) : Login := ⟨user,some "EMENT",some "FIRST","FIRST"⟩

def start : World := ⟨.empty,.empty,[]⟩
def later : World := ⟨.empty,handle_login .empty [0] (welcome "@a_b:x") 0,[firstLogin]⟩

theorem first_completes : Completes start firstLogin later where
  answered := ⟨[0],asking "@a_b:x",welcome "@a_b:x",0,rfl,by decide,by decide,by decide,rfl,rfl,.refl _⟩
  full := ⟨['a','_','b',':','x'],by decide,by decide⟩
  valid := rfl
  honoured := by simp [firstLogin]
  fresh := by simp [World.owns,start,has_store,Files.Tree.get,Files.Tree.empty]
  before := rfl
  past := rfl

theorem initial_empty : Initial .empty where
  records _ := rfl
  placed p hp := by cases hp

theorem next_completes (user : UserId) (h : user = "@a_b:x" ∨ user = "@a/b:x") :
    Completes later (nextLogin user) ⟨.empty,
      handle_login later.disk (if user = "@a_b:x" then [0] else [1]) (welcome user) 1,
      later.past ++ [nextLogin user]⟩ where
  answered := by
    rcases h with rfl | rfl
    · exact ⟨[0],asking "@a_b:x",welcome "@a_b:x",1,rfl,by decide,by decide,by decide,rfl,rfl,.refl _⟩
    · exact ⟨[1],asking "@a/b:x",welcome "@a/b:x",1,rfl,by decide,by decide,by decide,rfl,rfl,.refl _⟩
  full := by
    rcases h with rfl | rfl
    · exact ⟨['a','_','b',':','x'],by decide,by decide⟩
    · exact ⟨['a','/','b',':','x'],by decide,by decide⟩
  valid := rfl
  honoured device h := by cases h; rfl
  fresh h := by cases h
  before := rfl
  past := rfl

theorem first_apart : Apart start firstLogin where
  others r _ p hp := by simp [start,Files.Tree.subdirs,Files.Tree.paths,Files.Tree.empty] at hp
  shared := by simp [start]
  asked := by simp [start]
  devices := by simp [start]
  unasked l hl r hr _ := by
    cases List.mem_singleton.mp hl
    cases hr
    decide
  plain r hr _ := by decide

theorem next_apart : Apart later (nextLogin "@a_b:x") where
  others r _ p hp _ hne := by
    have hdirs : later.disk.subdirs [] = [["@a_b:x"]] := by decide
    rw [hdirs] at hp
    exact absurd (List.mem_singleton.mp hp) hne
  shared r _ l hl _ _ _ := by
    cases List.mem_singleton.mp hl
    rfl
  asked r hr l hl hdir := by
    cases List.mem_singleton.mp hl
    cases hr
    exact absurd hdir (by decide)
  devices l hl _ := by
    cases List.mem_singleton.mp hl
    exact ⟨rfl,rfl⟩
  unasked l hl r hr _ := by
    rcases List.mem_append.mp hl with hl | hl
    · cases List.mem_singleton.mp hl
      cases hr
      decide
    · cases List.mem_singleton.mp hl
      cases hr
      decide
  plain r hr _ := by decide

theorem login_continues_own_device_again : Continues later (nextLogin "@a_b:x") :=
  login_continues_own_device initial_empty
    (.snoc .nil ⟨first_apart,first_completes⟩) next_apart (next_completes _ (.inl rfl))

/-- The other user's first login is sent with the device noted for the one. -/
theorem other_user_gets_the_device :
    ¬∀ (disk : Disk) (ls : List Login) (w w' : World) (l : Login), Initial disk →
      Run Completes ⟨disk,disk,[]⟩ ls w → Completes w l w' → Continues w l := by
  intro h
  have hcontinues := h .empty _ later _ (nextLogin "@a/b:x") initial_empty
    (.snoc .nil first_completes) (next_completes _ (.inr rfl))
  rcases hcontinues.own "FIRST" rfl with hbefore | ⟨l,hl,huser,_⟩
  · cases hbefore
  · cases List.mem_singleton.mp hl
    exact absurd huser (by decide)

end EmentE2ee.Logins
