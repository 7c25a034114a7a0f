import EmentE2ee.Crypto.LoginPlan
import Mathlib.Data.List.Forall2

/-!
# The directories of devices

A device's directory is named after its user's and its own ID, each made safe
character by character. That leaves the names that a path resolves away, and it
maps IDs that differ in replaced characters only to one name.
-/
namespace EmentE2ee.StoreDirs

open Files

/-- The directory that a relative path leads to. -/
def resolve (p : Path) (path : String) : Path :=
  ((path.toList.splitOn '/').map String.ofList).foldl down p

/-- A character that a safe name has an underscore for. -/
def Blurred (c : Char) : Prop := sanitizeChar c = '_'

/-- IDs that differ in such characters only. -/
def Alike (id id' : String) : Prop :=
  List.Forall₂ (fun c c' => c = c' ∨ Blurred c ∧ Blurred c') id.toList id'.toList

instance (c : Char) : Decidable (Blurred c) := by unfold Blurred; infer_instance
instance (id id' : String) : Decidable (Alike id id') := by unfold Alike; infer_instance

theorem sanitizeChar_cases (c : Char) : sanitizeChar c = c ∨ Blurred c := by
  unfold Blurred sanitizeChar
  split_ifs
  · exact .inl rfl
  · exact .inr rfl

theorem sanitizeChar_slash (c : Char) : sanitizeChar c ≠ '/' := by
  intro h
  rcases sanitizeChar_cases c with hsame | hblurred
  · rw [h] at hsame
    subst hsame
    exact absurd h (by decide)
  · exact absurd (hblurred.symm.trans h) (by decide)

theorem sanitizeChar_eq_iff {c c' : Char} :
    sanitizeChar c = sanitizeChar c' ↔ c = c' ∨ Blurred c ∧ Blurred c' := by
  constructor
  · intro h
    rcases sanitizeChar_cases c with hc | hc <;> rcases sanitizeChar_cases c' with hc' | hc'
    · exact .inl (hc.symm.trans (h.trans hc'))
    · exact .inr ⟨h.trans hc',hc'⟩
    · exact .inr ⟨hc,h.symm.trans hc⟩
    · exact .inr ⟨hc,hc'⟩
  · rintro (rfl | ⟨hc,hc'⟩)
    · rfl
    · exact hc.trans hc'.symm

theorem sanitize_eq_iff {id id' : String} :
    sanitize_for_path id = sanitize_for_path id' ↔ Alike id id' := by
  rw [← String.toList_inj,toList_sanitize,toList_sanitize,← List.forall₂_eq_eq_eq,
    List.forall₂_map_left_iff,List.forall₂_map_right_iff]
  simp only [sanitizeChar_eq_iff,Alike]

theorem sanitize_slash (id : String) : '/' ∉ (sanitize_for_path id).toList := by
  rw [toList_sanitize,List.mem_map]
  rintro ⟨c,_,hc⟩
  exact sanitizeChar_slash c hc

/-- No ID but a name that a path resolves away is made such a name. -/
theorem plain_sanitize {id : String} : Plain (sanitize_for_path id) ↔ Plain id := by
  have hname : ∀ name, (∀ c ∈ name.toList, c = '.') →
      (sanitize_for_path id = name ↔ id = name) := by
    intro name hdots
    constructor
    · intro h
      rw [← String.toList_inj,toList_sanitize] at h
      rw [← String.toList_inj,← h]
      refine (List.map_congr_left fun c hc => ?_).trans (List.map_id _) |>.symm
      have hdot := hdots _ (h ▸ List.mem_map_of_mem hc)
      rcases sanitizeChar_cases c with hsame | hblurred
      · exact hsame
      · exact absurd (hblurred.symm.trans hdot) (by decide)
    · rintro rfl
      rw [← String.toList_inj,toList_sanitize]
      refine (List.map_congr_left fun c hc => ?_).trans (List.map_id _)
      rw [hdots c hc]
      decide
  unfold Plain
  rw [ne_eq,ne_eq,ne_eq,hname "" (by simp),hname "." (by simp),hname ".." (by simp)]

/-- The directory below the store directory is the one that the path leads to. -/
theorem account_store_dir_resolves (store_dir : String) (user : UserId) (device : DeviceId) :
    ∃ path, account_store_dir store_dir user device = store_dir ++ "/" ++ path ∧
      resolve [] path = account_dir user device := by
  refine ⟨sanitize_for_path user ++ "/" ++ sanitize_for_path device,?_,?_⟩
  · simp [account_store_dir,String.append_assoc]
  · have hsplit : (sanitize_for_path user ++ "/" ++ sanitize_for_path device).toList.splitOn '/' =
        [(sanitize_for_path user).toList,(sanitize_for_path device).toList] := by
      have hjoin : (sanitize_for_path user ++ "/" ++ sanitize_for_path device).toList =
          ['/'].intercalate [(sanitize_for_path user).toList,(sanitize_for_path device).toList] := by
        simp
      rw [hjoin,List.splitOn_intercalate]
      · simp [sanitize_slash]
      · simp
    rw [resolve,hsplit]
    simp [account_dir]

/-- Two ordinary names below the store directory. -/
def Grandchild (p : Path) : Prop := ∃ name name', Plain name ∧ Plain name' ∧ p = [name,name']

theorem grandchild_iff {user : UserId} (hu : FullId user) (device : DeviceId) :
    Grandchild (account_dir user device) ↔ Plain device := by
  rw [← plain_sanitize]
  constructor
  · rintro ⟨name,name',_,_,hdir⟩
    by_contra hplain
    rw [account_dir,down_user hu,down] at hdir
    split_ifs at hdir with hsame hparent
    · simp at hdir
    · simp at hdir
    · push Not at hsame
      exact hplain ⟨hsame.1,hsame.2,hparent⟩
  · intro hplain
    exact ⟨_,_,plain_full hu,hplain,account_dir_plain hu hplain⟩

/-- Devices have directories of their own in those of their users, exactly if no ID
is a name that a path resolves away and the IDs differ in a kept character. -/
theorem own_directory_iff {user user' : UserId} (hu : FullId user) (hu' : FullId user')
    (device device' : DeviceId) :
    (Grandchild (account_dir user device) ∧ Grandchild (account_dir user' device') ∧
      ((user,device) ≠ (user',device') → account_dir user device ≠ account_dir user' device')) ↔
    (Plain device ∧ Plain device' ∧
      ((user,device) ≠ (user',device') → ¬(Alike user user' ∧ Alike device device'))) := by
  rw [grandchild_iff hu,grandchild_iff hu']
  refine and_congr_right fun hplain => and_congr_right fun hplain' => ?_
  rw [account_dir_plain hu (plain_sanitize.mpr hplain),
    account_dir_plain hu' (plain_sanitize.mpr hplain')]
  simp only [ne_eq,List.cons.injEq,and_true,sanitize_eq_iff]

theorem fullId_alice : FullId "@alice:x" := ⟨['a','l','i','c','e',':','x'],by decide,by decide⟩

theorem own_directory_iff_two :
    (Grandchild (account_dir "@alice:x" "A/B") ∧ Grandchild (account_dir "@alice:x" "A_B") ∧
      (("@alice:x","A/B") ≠ ("@alice:x","A_B") →
        account_dir "@alice:x" "A/B" ≠ account_dir "@alice:x" "A_B")) ↔
    (Plain "A/B" ∧ Plain "A_B" ∧ (("@alice:x","A/B") ≠ ("@alice:x","A_B") →
      ¬(Alike "@alice:x" "@alice:x" ∧ Alike "A/B" "A_B"))) :=
  own_directory_iff fullId_alice fullId_alice "A/B" "A_B"

/-- The homeserver may name a device so that its directory is the store directory. -/
theorem device_id_climbs_out :
    ¬∀ (user user' : UserId) (device device' : DeviceId), FullId user → FullId user' →
      Grandchild (account_dir user device) ∧ ((user,device) ≠ (user',device') →
        account_dir user device ≠ account_dir user' device') := by
  intro h
  obtain ⟨name,name',_,_,hdir⟩ := (h "@alice:x" "@alice:x" ".." "A" fullId_alice fullId_alice).1
  exact absurd hdir (by simp [account_dir,sanitize_for_path,down])

end EmentE2ee.StoreDirs
