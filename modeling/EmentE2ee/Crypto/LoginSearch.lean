import EmentE2ee.Crypto.LoginPlan

/-!
# Which store a login continues

The search through the directories carries the newest record along and may end
early, in whatever order directories are listed. What it finds is described
without that order: the store under the requested ID, or else one that was last
modified.
-/
namespace EmentE2ee.LoginSearch

open Files

variable {disk : Disk} {user requested : String}

def lastModified (disk : Disk) (dir : Path) : Int := ((disk.get dir).bind Dir.store).getD 0

/-- The directory has the store of a device that the login may continue. -/
def Candidate (disk : Disk) (user requested : String) (dir : Path) (device : String) : Prop :=
  ∃ p ∈ disk.subdirs [], names_user p user = true ∧ dir ∈ disk.subdirs p ∧
    Means disk dir requested device

/-- What a login continues, whatever the order of the directories. -/
inductive Selects (disk : Disk) (user requested : String) : Option String → Prop
  | own : UnderOwn disk user requested (disk.subdirs []) → Selects disk user requested (some requested)
  | newest (dir : Path) (device : String) : ¬UnderOwn disk user requested (disk.subdirs []) →
      Candidate disk user requested dir device →
      (∀ dir' device', Candidate disk user requested dir' device' →
        lastModified disk dir' ≤ lastModified disk dir) →
      Selects disk user requested (some device)
  | none : ¬UnderOwn disk user requested (disk.subdirs []) →
      (∀ dir device, ¬Candidate disk user requested dir device) → Selects disk user requested none

/-- The newest of the records described, if there are any. -/
def Newest (seen : Int → String → Prop) : Option (Int × String) → Prop
  | none => ∀ t x, ¬seen t x
  | some n => seen n.1 n.2 ∧ ∀ t x, seen t x → t ≤ n.1

theorem Newest.congr {seen seen' : Int → String → Prop} {newest : Option (Int × String)}
    (h : ∀ t x, seen' t x ↔ seen t x) (hn : Newest seen newest) : Newest seen' newest := by
  cases newest with
  | none => exact fun t x hs => hn t x ((h t x).mp hs)
  | some n => exact ⟨(h _ _).mpr hn.1,fun t x hs => hn.2 t x ((h t x).mp hs)⟩

/-- The record of a directory, if the client means it. -/
def Record (disk : Disk) (requested : String) (dir : Path) (t : Int) (x : String) : Prop :=
  Means disk dir requested x ∧ lastModified disk dir = t

theorem newer_newest {seen : Int → String → Prop} {newest : Option (Int × String)} {dir : Path}
    (hn : Newest seen newest) : Newest (fun t x => seen t x ∨ Record disk requested dir t x)
      (newer disk requested newest dir) := by
  by_cases hmeans : ∃ x, Means disk dir requested x
  · obtain ⟨x,hx⟩ := hmeans
    have honly : ∀ y, Means disk dir requested y → y = x := by
      intro y hy
      have hsame := hx.2.symm.trans hy.2
      cases hsame
      rfl
    unfold newer
    rw [if_pos hx.1,hx.2]
    simp only [ne_eq,not_true_eq_false,if_false]
    change Newest _ (if newest.all (fun n => n.1 < lastModified disk dir) then
      some (lastModified disk dir,x) else newest)
    cases newest with
    | none =>
        refine ⟨.inr ⟨hx,rfl⟩,?_⟩
        rintro t y (hseen | ⟨_,rfl⟩)
        · exact absurd hseen (hn t y)
        · exact le_refl _
    | some n =>
        simp only [Option.all_some,decide_eq_true_eq]
        split_ifs with hlater
        · refine ⟨.inr ⟨hx,rfl⟩,?_⟩
          rintro t y (hseen | ⟨_,rfl⟩)
          · have hle := hn.2 t y hseen
            change t ≤ lastModified disk dir
            omega
          · exact le_refl _
        · refine ⟨.inl hn.1,?_⟩
          rintro t y (hseen | ⟨_,rfl⟩)
          · exact hn.2 t y hseen
          · omega
  · have hno : ∀ x, ¬Means disk dir requested x := fun x hx => hmeans ⟨x,hx⟩
    rw [newer_of_not_means hno]
    refine hn.congr fun t x => ?_
    exact or_iff_left fun hrecord => hno x hrecord.1

theorem foldl_newest {dirs : List Path} {seen : Int → String → Prop}
    {newest : Option (Int × String)} (hn : Newest seen newest) :
    Newest (fun t x => seen t x ∨ ∃ dir ∈ dirs, Record disk requested dir t x)
      (dirs.foldl (newer disk requested) newest) := by
  induction dirs generalizing seen newest with
  | nil => exact hn.congr fun t x => by simp
  | cons dir dirs ih =>
      refine (ih (newer_newest hn)).congr fun t x => ?_
      rw [List.exists_mem_cons_iff,or_assoc]

/-- Without a store under the requested ID the search ends with the newest. -/
theorem search_newest {dirs : List Path} {seen : Int → String → Prop}
    {newest : Option (Int × String)} (hown : ¬UnderOwn disk user requested dirs)
    (hn : Newest seen newest) : ∃ result : Option (Int × String),
      search disk user requested newest dirs = result.map Prod.snd ∧
      Newest (fun t x => seen t x ∨ ∃ p ∈ dirs, names_user p user = true ∧
        ∃ dir ∈ disk.subdirs p, Record disk requested dir t x) result := by
  induction dirs generalizing seen newest with
  | nil => exact ⟨newest,rfl,hn.congr fun t x => by simp⟩
  | cons p dirs ih =>
      have hrest : ¬UnderOwn disk user requested dirs := fun h => hown h.cons
      unfold search
      split_ifs with hnames hstore
      · exact absurd ⟨p,List.mem_cons_self,hnames,hstore⟩ hown
      · obtain ⟨result,hsearch,hresult⟩ := ih hrest (foldl_newest hn)
        refine ⟨result,hsearch,hresult.congr fun t x => ?_⟩
        rw [List.exists_mem_cons_iff,or_assoc]
        simp only [hnames,true_and]
      · obtain ⟨result,hsearch,hresult⟩ := ih hrest hn
        refine ⟨result,hsearch,hresult.congr fun t x => ?_⟩
        rw [List.exists_mem_cons_iff]
        simp only [hnames,Bool.false_eq_true,false_and,false_or]

theorem candidate_iff {t : Int} {x : String} :
    (∃ p ∈ disk.subdirs [], names_user p user = true ∧
      ∃ dir ∈ disk.subdirs p, Record disk requested dir t x) ↔
      ∃ dir, Candidate disk user requested dir x ∧ lastModified disk dir = t := by
  constructor
  · rintro ⟨p,hp,hnames,dir,hdir,hmeans,ht⟩
    exact ⟨dir,⟨p,hp,hnames,hdir,hmeans⟩,ht⟩
  · rintro ⟨dir,⟨p,hp,hnames,hdir,hmeans⟩,ht⟩
    exact ⟨p,hp,hnames,dir,hdir,hmeans,ht⟩

theorem selects (disk : Disk) (user requested : String) :
    Selects disk user requested (device_id_for_login disk user requested) := by
  by_cases hown : UnderOwn disk user requested (disk.subdirs [])
  · rw [device_id_for_login,search_own hown]
    exact .own hown
  · have hstart : Newest (fun _ _ => False) none := fun _ _ h => h
    obtain ⟨result,hsearch,hresult⟩ := search_newest hown hstart
    rw [device_id_for_login,hsearch]
    simp only [false_or,candidate_iff] at hresult
    cases result with
    | none => exact .none hown fun dir x hc => hresult _ x ⟨dir,hc,rfl⟩
    | some n =>
        obtain ⟨⟨dir,hdir,ht⟩,hmax⟩ := hresult
        refine .newest dir n.2 hown hdir fun dir' x' hc => ?_
        rw [ht]
        exact hmax _ x' ⟨dir',hc,rfl⟩

/-- The same directories, listed in whatever order. -/
def SameDirs (disk disk' : Disk) : Prop := ∀ p, disk'.get p = disk.get p

theorem SameDirs.mem_subdirs {disk disk' : Disk} (h : SameDirs disk disk') {p q : Path} :
    q ∈ disk'.subdirs p ↔ q ∈ disk.subdirs p := by
  rw [Tree.mem_subdirs,Tree.mem_subdirs,← Tree.get_isSome,← Tree.get_isSome,h q]

theorem SameDirs.underOwn {disk disk' : Disk} (h : SameDirs disk disk') :
    UnderOwn disk' user requested (disk'.subdirs []) ↔
      UnderOwn disk user requested (disk.subdirs []) := by
  simp only [UnderOwn,h.mem_subdirs,has_store,h _]

theorem SameDirs.candidate {disk disk' : Disk} (h : SameDirs disk disk') {dir : Path} {x : String} :
    Candidate disk' user requested dir x ↔ Candidate disk user requested dir x := by
  simp only [Candidate,Means,h.mem_subdirs,has_store,read_login_record,h _]

theorem SameDirs.lastModified {disk disk' : Disk} (h : SameDirs disk disk') (dir : Path) :
    lastModified disk' dir = lastModified disk dir := by
  simp only [LoginSearch.lastModified,h dir]

theorem SameDirs.selects {disk disk' : Disk} (h : SameDirs disk disk') {r : Option String}
    (hr : Selects disk' user requested r) : Selects disk user requested r := by
  cases hr with
  | own hown => exact .own (h.underOwn.mp hown)
  | newest dir device hown hdir hmax =>
      refine .newest dir device (fun hown' => hown (h.underOwn.mpr hown')) (h.candidate.mp hdir) ?_
      intro dir' device' hc
      rw [← h.lastModified,← h.lastModified]
      exact hmax dir' device' (h.candidate.mpr hc)
  | none hown hno =>
      exact .none (fun hown' => hown (h.underOwn.mpr hown')) fun dir x hc =>
        hno dir x (h.candidate.mpr hc)

/-- No two of the stores that the login may continue were last modified at once. -/
def Once (disk : Disk) (user requested : String) : Prop :=
  ∀ dir device dir' device', Candidate disk user requested dir device →
    Candidate disk user requested dir' device' →
    (∀ dir₁ device₁, Candidate disk user requested dir₁ device₁ →
      lastModified disk dir₁ ≤ lastModified disk dir) →
    lastModified disk dir' = lastModified disk dir → dir' = dir

theorem Candidate.device_eq {dir : Path} {device device' : String}
    (h : Candidate disk user requested dir device) (h' : Candidate disk user requested dir device') :
    device = device' := by
  obtain ⟨_,_,_,_,_,hrecord⟩ := h
  obtain ⟨_,_,_,_,_,hrecord'⟩ := h'
  have hsame := hrecord.symm.trans hrecord'
  cases hsame
  rfl

theorem Selects.unique (honce : Once disk user requested) {r r' : Option String}
    (h : Selects disk user requested r) (h' : Selects disk user requested r') : r = r' := by
  cases h with
  | own hown =>
      cases h' with
      | own _ => rfl
      | newest _ _ hno _ _ => exact absurd hown hno
      | none hno _ => exact absurd hown hno
  | newest dir device hno hdir hmax =>
      cases h' with
      | own hown => exact absurd hown hno
      | newest dir' device' _ hdir' hmax' =>
          have htime := le_antisymm (hmax dir' device' hdir') (hmax' dir device hdir)
          have hsame := honce dir device dir' device' hdir hdir' hmax htime
          subst hsame
          exact congrArg some (hdir.device_eq hdir')
      | none _ hnone => exact absurd hdir (hnone dir device)
  | none hno hnone =>
      cases h' with
      | own hown => exact absurd hown hno
      | newest dir' device' _ hdir' _ => exact absurd hdir' (hnone dir' device')
      | none _ _ => rfl

/-- A login continues the store under the requested ID, else the newest of those
that the client means by it; which is the newest does not depend on the listing. -/
theorem device_id_for_login_selects (disk : Disk) (user requested : String) :
    Selects disk user requested (device_id_for_login disk user requested) ∧
      ∀ disk', SameDirs disk disk' → Once disk user requested →
        device_id_for_login disk' user requested = device_id_for_login disk user requested :=
  ⟨selects disk user requested,fun disk' hsame honce =>
    (hsame.selects (selects disk' user requested)).unique honce (selects disk user requested)⟩

end EmentE2ee.LoginSearch
