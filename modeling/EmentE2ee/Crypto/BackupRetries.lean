import EmentE2ee.Concurrent.Run
import EmentE2ee.Crypto.Ssss

/-!
# Restoring from backup, attempt after attempt

An attempt whose backup version is the stored one takes the machine to be enabled. It
is, unless an earlier attempt stopped between disabling and enabling; and it is with
the recovered key, unless the homeserver has changed the key of the version.
-/
namespace EmentE2ee.BackupRetries

open Concurrent
open Json (Value)

section
variable [Vault] [Codec] {σ : Type}

abbrev VaultSem (σ : Type) := Sem (Act ⊕ VaultAct) (Sum.elim Act.Ans VaultAct.Ans) σ

/-- What an account's store holds, and the key and version its machine is enabled for. -/
structure BackupState where
  stored : BackupKeys
  enabled : Option (Vault.PublicKey × String)

def writesBackup (ctx : AccountContext) : Act ⊕ VaultAct → Prop
  | .inr (.disableBackup c) | .inr (.saveDecryptionKey c ..) | .inr (.enableBackupV1 c ..) => c = ctx
  | _ => False

/-- The machine is enabled by nothing but enabling it, and the store holds what was saved
last. What fails may have been done or not. -/
structure BackupMachine (sem : VaultSem σ) (ctx : AccountContext) (view : σ → BackupState) : Prop where
  spares : ∀ {a s r s'}, ¬ writesBackup ctx a → sem a s r s' → view s' = view s
  read : ∀ {s keys s'}, sem (.inr (.getBackupKeys ctx)) s (.ok keys) s' → keys = (view s).stored
  disabled : ∀ {s r s'}, sem (.inr (.disableBackup ctx)) s r s' →
    view s' = { view s with enabled := none } ∨ (∃ e, r = .error e) ∧ view s' = view s
  saved : ∀ {key version s r s'}, sem (.inr (.saveDecryptionKey ctx key version)) s r s' →
    view s' = { view s with stored := ⟨some key,some version⟩ } ∨ (∃ e, r = .error e) ∧ view s' = view s
  enabled : ∀ {key version s r s'}, sem (.inr (.enableBackupV1 ctx key version)) s r s' →
    view s' = { view s with enabled := some (key,version) } ∨ (∃ e, r = .error e) ∧ view s' = view s

/-- The information about a backup names one public key. -/
def NamesOneKey : Prop := ∀ k k' info, Vault.backup_key_matches k info = true →
  (Vault.backup_key_matches k' info = true ↔
    Vault.megolm_v1_public_key k' = Vault.megolm_v1_public_key k)

/-- The homeserver's answer to the question for its current version. -/
abbrev VersionAnswer := Except String (Nat × Value)

def told : VersionAnswer → Option BackupVersionInfo
  | .ok (status,body) =>
      if status ≠ 404 ∧ isSuccess status then Vault.backupVersionInfo body else none
  | .error _ => none

def answers (ctx : AccountContext) (answer : VersionAnswer) :
    (a : Act ⊕ VaultAct) → Sum.elim Act.Ans VaultAct.Ans a → Prop
  | .inr (.get token .roomKeysVersion),r => token = ctx.token → r = answer
  | _,_ => True

/-- The same, with a given answer to that question. -/
def answering (sem : VaultSem σ) (ctx : AccountContext) (answer : VersionAnswer) : VaultSem σ :=
  fun a s r s' => sem a s r s' ∧ answers ctx answer a r

inductive Step where
  | attempt (secret : String) (answer : VersionAnswer) (result : Except Error BackupRestoreReport)
  /-- An attempt that is dropped on the way. -/
  | dropped (secret : String) (answer : VersionAnswer)
  /-- Anything else the proxy does. -/
  | other

/-- A step of the process. -/
def steps (sem : VaultSem σ) (ctx : AccountContext) (view : σ → BackupState) : σ → Step → σ → Prop
  | s,.attempt secret answer result,s' =>
      Prog.Exec (answering sem ctx answer) (restore_from_backup ctx secret).run s result s'
  | s,.dropped secret answer,s' => ∃ a,
      Prog.Cut (answering sem ctx answer) (fun _ => True) (restore_from_backup ctx secret).run s a s'
  | s,.other,s' => view s' = view s

/-- The machine is enabled for the reported version with the recovered key. -/
def EnabledAsReported (b : BackupState) (secret : String) (report : BackupRestoreReport) : Prop :=
  ∃ key version, Vault.fromBase64 secret = some key ∧ report.backup_version = some version ∧
    b.enabled = some (Vault.megolm_v1_public_key key,version)

/-- Where the version the homeserver tells of is the stored one, the machine is enabled,
and the stored key is that of the version. -/
def Ready (b : BackupState) (answer : VersionAnswer) : Prop :=
  ∀ info, told answer = some info → b.stored.backup_version = some info.version →
    b.enabled.isSome ∧ ∀ key backup_info, b.stored.decryption_key = some key →
      info.backup_info = some backup_info → Vault.backup_key_matches key backup_info = true

/-- The machine is enabled for nothing but what is stored, as it is when it is loaded. -/
def Consistent (b : BackupState) : Prop :=
  ∀ public_key version, b.enabled = some (public_key,version) →
    ∃ key, b.stored = ⟨some key,some version⟩ ∧ Vault.megolm_v1_public_key key = public_key

variable {sem : VaultSem σ} {ctx : AccountContext} {view : σ → BackupState} {s s' : σ}

theorem answering_machine (hB : BackupMachine sem ctx view) (answer : VersionAnswer) :
    BackupMachine (answering sem ctx answer) ctx view where
  spares ha h := hB.spares ha h.1
  read h := hB.read h.1
  disabled h := hB.disabled h.1
  saved h := hB.saved h.1
  enabled h := hB.enabled h.1

/-- A program none of whose actions writes. -/
theorem spares_exec (hB : BackupMachine sem ctx view) {α : Type} {p : WideM VaultAct.Ans α} {r : α}
    (hp : p.Does fun a => ¬ writesBackup ctx a) (h : Prog.Exec sem p s r s') : view s' = view s := by
  induction h with
  | ret a s => rfl
  | act hs _ ih => exact (ih (hp.2 _)).trans (hB.spares hp.1 hs)

theorem spares_cut (hB : BackupMachine sem ctx view) {α : Type} {waits : Act ⊕ VaultAct → Prop}
    {p : WideM VaultAct.Ans α} {a : Act ⊕ VaultAct} (hp : p.Does fun a => ¬ writesBackup ctx a)
    (h : Prog.Cut sem waits p s a s') : view s' = view s := by
  induction h with
  | before _ => rfl
  | after _ hs => exact hB.spares hp.1 hs
  | act hs _ ih => exact (ih (hp.2 _)).trans (hB.spares hp.1 hs)

omit [Codec] in
theorem Consistent.of_disabled {b : BackupState} (h : b.enabled = none) : Consistent b := by
  intro public_key version he
  rw [h] at he
  cases he

/-- What one of the three calls that enable a backup leaves, from a consistent state. -/
inductive Enabling (key : Vault.DecryptionKey) (version : String) (b : BackupState) : BackupState → Prop
  | untouched : Enabling key version b b
  | disabled {stored : BackupKeys} : Enabling key version b ⟨stored,none⟩
  | enabled : Enabling key version b
      ⟨⟨some key,some version⟩,some (Vault.megolm_v1_public_key key,version)⟩

omit [Codec] in
theorem Enabling.consistent {key : Vault.DecryptionKey} {version : String} {b b' : BackupState}
    (h : Enabling key version b b') (hb : Consistent b) : Consistent b' := by
  cases h with
  | untouched => exact hb
  | disabled => exact .of_disabled rfl
  | enabled =>
      rintro _ _ ⟨⟩
      exact ⟨key,rfl,rfl⟩

theorem enable_exec (hB : BackupMachine sem ctx view) {key : Vault.DecryptionKey} {version : String}
    {r : Except Error Unit} (h : Prog.Exec sem (enable_backup ctx key version).run s r s') :
    Enabling key version (view s) (view s') ∧ (r = .ok () → view s' =
      ⟨⟨some key,some version⟩,some (Vault.megolm_v1_public_key key,version)⟩) := by
  obtain ⟨_,s₁,h₁,h⟩ | ⟨e,h₁,rfl⟩ := Prog.exec_exceptBind.mp h
  · obtain ⟨x,hx,hr⟩ := furtherCall_exec h₁
    have hdisabled : view s₁ = { view s with enabled := none } := by
      obtain hv | ⟨⟨e,rfl⟩,_⟩ := hB.disabled hx
      · exact hv
      · cases hr
    obtain ⟨_,s₂,h₂,h⟩ | ⟨e,h₂,rfl⟩ := Prog.exec_exceptBind.mp h
    · obtain ⟨x,hx,hr⟩ := furtherCall_exec h₂
      have hsaved : view s₂ = ⟨⟨some key,some version⟩,none⟩ := by
        obtain hv | ⟨⟨e,rfl⟩,_⟩ := hB.saved hx
        · rw [hv,hdisabled]
        · cases hr
      obtain ⟨x,hx,hr⟩ := furtherCall_exec h
      obtain hv | ⟨⟨e,rfl⟩,hv⟩ := hB.enabled hx
      · rw [hv,hsaved]
        exact ⟨.enabled,fun _ => rfl⟩
      · rw [hv,hsaved]
        exact ⟨.disabled,fun hok => by rw [hr] at hok; cases hok⟩
    · obtain ⟨x,hx,-⟩ := furtherCall_exec h₂
      obtain hv | ⟨_,hv⟩ := hB.saved hx
      · rw [hv,hdisabled]
        exact ⟨.disabled,fun hok => by cases hok⟩
      · rw [hv,hdisabled]
        exact ⟨.disabled,fun hok => by cases hok⟩
  · obtain ⟨x,hx,-⟩ := furtherCall_exec h₁
    obtain hv | ⟨_,hv⟩ := hB.disabled hx
    · rw [hv]
      exact ⟨.disabled,fun hok => by cases hok⟩
    · rw [hv]
      exact ⟨.untouched,fun hok => by cases hok⟩

theorem enable_cut (hB : BackupMachine sem ctx view) {key : Vault.DecryptionKey} {version : String}
    {waits : Act ⊕ VaultAct → Prop} {a : Act ⊕ VaultAct}
    (h : Prog.Cut sem waits (enable_backup ctx key version).run s a s') :
    Enabling key version (view s) (view s') := by
  obtain h₁ | ⟨_,s₁,h₁,h⟩ := Prog.cut_exceptBind h
  · obtain rfl | ⟨x,hx⟩ := furtherCall_cut h₁
    · exact .untouched
    · obtain hv | ⟨_,hv⟩ := hB.disabled hx
      · rw [hv]
        exact .disabled
      · rw [hv]
        exact .untouched
  obtain ⟨x,hx,hr⟩ := furtherCall_exec h₁
  have hdisabled : view s₁ = { view s with enabled := none } := by
    obtain hv | ⟨⟨e,rfl⟩,_⟩ := hB.disabled hx
    · exact hv
    · cases hr
  have hsaved : ∀ {r s₂}, sem (.inr (.saveDecryptionKey ctx key version)) s₁ r s₂ →
      ∃ stored, view s₂ = ⟨stored,none⟩ := by
    intro r s₂ hx
    obtain hv | ⟨_,hv⟩ := hB.saved hx
    · exact ⟨_,hv.trans (by rw [hdisabled])⟩
    · exact ⟨_,hv.trans hdisabled⟩
  obtain h₂ | ⟨_,s₂,h₂,h⟩ := Prog.cut_exceptBind h
  · obtain rfl | ⟨x,hx⟩ := furtherCall_cut h₂
    · rw [hdisabled]
      exact .disabled
    · obtain ⟨stored,hv⟩ := hsaved hx
      rw [hv]
      exact .disabled
  obtain ⟨x,hx,hr⟩ := furtherCall_exec h₂
  obtain hv | ⟨⟨e,rfl⟩,_⟩ := hB.saved hx
  · rw [hdisabled] at hv
    obtain rfl | ⟨x,hx⟩ := furtherCall_cut h
    · rw [hv]
      exact .disabled
    · obtain he | ⟨_,he⟩ := hB.enabled hx
      · rw [he,hv]
        exact .enabled
      · rw [he,hv]
        exact .disabled
  · cases hr

theorem current_told {answer : VersionAnswer} {info : BackupVersionInfo} (h : Prog.Exec
    (answering sem ctx answer) (current_backup_version ctx).run s (.ok (some info)) s') :
    told answer = some info := by
  obtain ⟨⟨status,body⟩,s₁,h₁,h⟩ | ⟨_,_,he⟩ := Prog.exec_exceptBind.mp h
  · obtain ⟨x,⟨_,hx⟩,hr⟩ := furtherCall_exec h₁
    obtain rfl : x = answer := hx rfl
    cases x with
    | error e => cases hr
    | ok x =>
        cases hr
        dsimp only at h
        split_ifs at h with hmissing hsuccess
        · cases h
        · obtain ⟨info',_,h₂,h⟩ | ⟨_,_,he⟩ := Prog.exec_exceptBind.mp h
          · cases h
            cases hinfo : Vault.backupVersionInfo body with
            | none =>
                rw [hinfo] at h₂
                cases h₂
            | some info'' =>
                rw [hinfo] at h₂
                cases h₂
                simp [told,hmissing,hsuccess,hinfo]
          · cases he
        · cases h
  · cases he

theorem download_version {key : Vault.DecryptionKey} {version : String} {report : BackupRestoreReport}
    (h : Prog.Exec sem (download_room_keys ctx key version).run s (.ok report) s') :
    report.backup_version = some version := by
  obtain ⟨⟨status,body⟩,s₁,_,h⟩ | ⟨_,_,he⟩ := Prog.exec_exceptBind.mp h
  · dsimp only at h
    split_ifs at h
    · obtain ⟨rooms,s₂,_,h⟩ | ⟨_,_,he⟩ := Prog.exec_exceptBind.mp h
      · obtain ⟨imported,s₃,_,h⟩ | ⟨_,_,he⟩ := Prog.exec_exceptBind.mp h
        · cases h
          rfl
        · cases he
      · cases he
    · cases h
  · cases he

/-- How far an attempt that enabled the backup, or took it to be enabled, has come:
which key it recovered, and what the homeserver told. -/
structure Checked (answer : VersionAnswer) (secret : String) (key : Vault.DecryptionKey)
    (info : BackupVersionInfo) (backup_info : Vault.RoomKeyBackupInfo) : Prop where
  recovered : Vault.fromBase64 secret = some key
  told : told answer = some info
  read : info.backup_info = some backup_info
  agrees : Vault.backup_key_matches key backup_info = true

/-- What an attempt comes to: it ends before the backup is concerned, its version is the
stored one, or it enables the backup. -/
inductive Attempted (answer : VersionAnswer) (secret : String) (b b' : BackupState) :
    Except Error BackupRestoreReport → Prop
  | early {r : Except Error BackupRestoreReport} : b' = b →
      (∀ report, r = .ok report → report.enabled = false) → Attempted answer secret b b' r
  | stored {r : Except Error BackupRestoreReport} {key : Vault.DecryptionKey}
      {info : BackupVersionInfo} {backup_info : Vault.RoomKeyBackupInfo} :
      Checked answer secret key info backup_info → b.stored.backup_version = some info.version →
      b' = b → (∀ report, r = .ok report → report.backup_version = some info.version) →
      Attempted answer secret b b' r
  | enabling {r : Except Error BackupRestoreReport} {key : Vault.DecryptionKey}
      {info : BackupVersionInfo} {backup_info : Vault.RoomKeyBackupInfo} :
      Checked answer secret key info backup_info → b.stored.backup_version ≠ some info.version →
      Enabling key info.version b b' →
      (∀ report, r = .ok report → report.backup_version = some info.version ∧
        b' = ⟨⟨some key,some info.version⟩,some (Vault.megolm_v1_public_key key,info.version)⟩) →
      Attempted answer secret b b' r

theorem restore_exec (hB : BackupMachine sem ctx view) {answer : VersionAnswer} {secret : String}
    {r : Except Error BackupRestoreReport}
    (h : Prog.Exec (answering sem ctx answer) (restore_from_backup ctx secret).run s r s') :
    Attempted answer secret (view s) (view s') r := by
  have hB' := answering_machine hB answer
  unfold restore_from_backup at h
  obtain ⟨key,s₁,h₁,h⟩ | ⟨e,h₁,rfl⟩ := Prog.exec_exceptBind.mp h
  swap
  · exact .early (spares_exec hB' (orBail_does ..) h₁) fun _ he => by cases he
  have hv₁ : view s₁ = view s := spares_exec hB' (orBail_does ..) h₁
  have hkey : Vault.fromBase64 secret = some key := orBail_exec h₁
  obtain ⟨version_info,s₂,h₂,h⟩ | ⟨e,h₂,rfl⟩ := Prog.exec_exceptBind.mp h
  swap
  · exact .early ((spares_exec hB' (current_backup_version_does id) h₂).trans hv₁)
      fun _ he => by cases he
  have hv₂ : view s₂ = view s := (spares_exec hB' (current_backup_version_does id) h₂).trans hv₁
  cases version_info with
  | none =>
      cases h
      exact .early hv₂ fun _ he => by cases he; rfl
  | some info =>
      obtain ⟨backup_info,s₃,h₃,h⟩ | ⟨e,h₃,rfl⟩ := Prog.exec_exceptBind.mp h
      swap
      · exact .early ((spares_exec hB' (orBail_does ..) h₃).trans hv₂) fun _ he => by cases he
      have hv₃ : view s₃ = view s := (spares_exec hB' (orBail_does ..) h₃).trans hv₂
      split_ifs at h with hagrees
      swap
      · cases h
        exact .early hv₃ fun _ he => by cases he
      have hchecked : Checked answer secret key info backup_info :=
        ⟨hkey,current_told h₂,orBail_exec h₃,hagrees⟩
      obtain ⟨stored,s₄,h₄,h⟩ | ⟨e,h₄,rfl⟩ := Prog.exec_exceptBind.mp h
      swap
      · obtain ⟨x,hx,-⟩ := furtherCall_exec h₄
        exact .early ((hB'.spares (by exact id) hx).trans hv₃) fun _ he => by cases he
      obtain ⟨x,hx,hr⟩ := furtherCall_exec h₄
      cases x with
      | error e => cases hr
      | ok keys =>
          cases hr
          have hv₄ : view s₄ = view s := (hB'.spares (by exact id) hx).trans hv₃
          have hstored : stored = (view s).stored := (hB'.read hx).trans (by rw [hv₃])
          rw [hstored] at h
          split_ifs at h with hversion
          · refine .stored hchecked hversion ?_ ?_
            · exact (spares_exec hB' (download_room_keys_does (fun _ => id) (fun _ _ => id) ..) h).trans hv₄
            · rintro report rfl
              exact download_version h
          · obtain ⟨_,s₅,h₅,h⟩ | ⟨e,h₅,rfl⟩ := Prog.exec_exceptBind.mp h
            · have henabling := enable_exec hB' h₅
              rw [hv₄] at henabling
              have hv : view s' = view s₅ :=
                spares_exec hB' (download_room_keys_does (fun _ => id) (fun _ _ => id) ..) h
              rw [← hv] at henabling
              refine .enabling hchecked hversion henabling.1 ?_
              rintro report rfl
              exact ⟨download_version h,henabling.2 rfl⟩
            · have henabling := enable_exec hB' h₅
              rw [hv₄] at henabling
              exact .enabling hchecked hversion henabling.1 fun _ he => by cases he

omit [Codec] in
theorem Attempted.consistent {answer : VersionAnswer} {secret : String} {b b' : BackupState}
    {r : Except Error BackupRestoreReport} (h : Attempted answer secret b b' r) (hb : Consistent b) :
    Consistent b' := by
  cases h with
  | early he _ => exact he ▸ hb
  | stored _ _ he _ => exact he ▸ hb
  | enabling _ _ he _ => exact he.consistent hb

omit [Codec] in
/-- An attempt that reports the backup as enabled is right exactly where it was ready. -/
theorem Attempted.reported_iff (hK : NamesOneKey) {answer : VersionAnswer} {secret : String}
    {b b' : BackupState} {report : BackupRestoreReport} (h : Attempted answer secret b b' (.ok report))
    (hb : Consistent b) (hreport : report.enabled = true) :
    EnabledAsReported b' secret report ↔ Ready b answer := by
  cases h with
  | early _ hfalse =>
      rw [hfalse report rfl] at hreport
      cases hreport
  | @stored key info backup_info hchecked hversion he hreported =>
      subst he
      constructor
      · rintro ⟨key',version,hkey,hreport,henabled⟩ info' htold -
        have hinfo : info' = info := Option.some.inj (htold.symm.trans hchecked.told)
        have hkey : key' = key := Option.some.inj (hkey.symm.trans hchecked.recovered)
        subst hinfo hkey
        refine ⟨by rw [henabled]; rfl,fun stored_key backup_info' hstored hread => ?_⟩
        have hread : backup_info' = backup_info := Option.some.inj (hread.symm.trans hchecked.read)
        obtain ⟨stored_key',hstored',hpublic⟩ := hb _ _ henabled
        rw [hstored'] at hstored
        cases hstored
        rw [hread]
        exact (hK _ _ _ hchecked.agrees).mpr hpublic
      · intro hready
        obtain ⟨hsome,hmatches⟩ := hready info hchecked.told hversion
        obtain ⟨⟨public_key,version⟩,henabled⟩ := Option.isSome_iff_exists.mp hsome
        obtain ⟨stored_key,hstored,hpublic⟩ := hb public_key version henabled
        have hagrees := hmatches stored_key backup_info (by rw [hstored]) hchecked.read
        rw [hstored] at hversion
        refine ⟨key,info.version,hchecked.recovered,hreported report rfl,?_⟩
        rw [henabled,← hpublic,(hK _ _ _ hchecked.agrees).mp hagrees,Option.some.inj hversion]
  | @enabling key info backup_info hchecked hversion _ hreported =>
      obtain ⟨hreport,hb'⟩ := hreported report rfl
      constructor
      · intro _ info' htold hversion'
        have hinfo : info' = info := Option.some.inj (htold.symm.trans hchecked.told)
        exact (hversion (hinfo ▸ hversion')).elim
      · exact fun _ => ⟨key,info.version,hchecked.recovered,hreport,by rw [hb']⟩

theorem restore_cut (hB : BackupMachine sem ctx view) {secret : String}
    {waits : Act ⊕ VaultAct → Prop} {a : Act ⊕ VaultAct} (hs : Consistent (view s))
    (h : Prog.Cut sem waits (restore_from_backup ctx secret).run s a s') : Consistent (view s') := by
  have hspared : ∀ {t : σ}, view t = view s → Consistent (view t) := fun he => he ▸ hs
  unfold restore_from_backup at h
  obtain h | ⟨key,s₁,h₁,h⟩ := Prog.cut_exceptBind h
  · exact hspared (spares_cut hB (orBail_does ..) h)
  have hv₁ : view s₁ = view s := spares_exec hB (orBail_does ..) h₁
  obtain h | ⟨version_info,s₂,h₂,h⟩ := Prog.cut_exceptBind h
  · exact hspared ((spares_cut hB (current_backup_version_does id) h).trans hv₁)
  have hv₂ : view s₂ = view s := (spares_exec hB (current_backup_version_does id) h₂).trans hv₁
  cases version_info with
  | none => cases h
  | some info =>
      obtain h | ⟨backup_info,s₃,h₃,h⟩ := Prog.cut_exceptBind h
      · exact hspared ((spares_cut hB (orBail_does ..) h).trans hv₂)
      have hv₃ : view s₃ = view s := (spares_exec hB (orBail_does ..) h₃).trans hv₂
      split_ifs at h
      swap
      · cases h
      obtain h | ⟨stored,s₄,h₄,h⟩ := Prog.cut_exceptBind h
      · obtain rfl | ⟨x,hx⟩ := furtherCall_cut h
        · exact hspared hv₃
        · exact hspared ((hB.spares (by exact id) hx).trans hv₃)
      obtain ⟨x,hx,-⟩ := furtherCall_exec h₄
      have hv₄ : view s₄ = view s := (hB.spares (by exact id) hx).trans hv₃
      have hdownload : ∀ {t}, Prog.Cut sem waits (download_room_keys ctx key info.version).run t a s' →
          view s' = view t :=
        fun h => spares_cut hB (download_room_keys_does (fun _ => id) (fun _ _ => id) ..) h
      split_ifs at h
      · exact hspared ((hdownload h).trans hv₄)
      · obtain h | ⟨_,s₅,h₅,h⟩ := Prog.cut_exceptBind h
        · exact (enable_cut hB h).consistent (hspared hv₄)
        · rw [hdownload h]
          exact (enable_exec hB h₅).1.consistent (hspared hv₄)

theorem run_consistent (hB : BackupMachine sem ctx view) {s₀ : σ} {is : List Step}
    (h₀ : Consistent (view s₀)) (h : Run (steps sem ctx view) s₀ is s) : Consistent (view s) := by
  refine h.invariant (I := fun s => Consistent (view s)) h₀ fun s i s' hs hstep => ?_
  cases i with
  | attempt secret answer result => exact (restore_exec hB hstep).consistent hs
  | dropped secret answer =>
      obtain ⟨a,hcut⟩ := hstep
      exact restore_cut (answering_machine hB answer) hs hcut
  | other =>
      have he : view s' = view s := hstep
      exact he ▸ hs

/-- Any action but the question for the current version. -/
def asksElse : Act ⊕ VaultAct → Prop
  | .inr (.get _ .roomKeysVersion) => False
  | _ => True

theorem answering_of_asksElse (answer : VersionAnswer) {a : Act ⊕ VaultAct}
    {r : Sum.elim Act.Ans VaultAct.Ans a} (ha : asksElse a) (h : sem a s r s') :
    answering sem ctx answer a s r s' := by
  refine ⟨h,?_⟩
  unfold answers
  split
  · exact ha.elim
  · trivial

theorem current_answering {r : Except Error (Option BackupVersionInfo)}
    (h : Prog.Exec sem (current_backup_version ctx).run s r s') :
    ∃ answer, Prog.Exec (answering sem ctx answer) (current_backup_version ctx).run s r s' := by
  cases h with
  | @act _ _ _ _ _ answer _ hs h =>
      refine ⟨answer,.act ⟨hs,fun _ => rfl⟩ (h.of_does (P := asksElse) (answering_of_asksElse _) ?_)⟩
      cases answer with
      | error m => trivial
      | ok answer =>
          obtain ⟨status,body⟩ := answer
          dsimp only [Prog.bind,Prog.pure_eq,Except.mapError,ExceptT.bindCont]
          split_ifs
          · trivial
          · exact .exceptBind (orBail_does ..) fun _ => trivial
          · trivial

/-- The question is asked at most once in an attempt. -/
theorem restore_answering {secret : String} {r : Except Error BackupRestoreReport}
    (h : Prog.Exec sem (restore_from_backup ctx secret).run s r s') : ∃ answer,
      Prog.Exec (answering sem ctx answer) (restore_from_backup ctx secret).run s r s' := by
  unfold restore_from_backup at h ⊢
  obtain ⟨key,s₁,h₁,h⟩ | ⟨e,h₁,rfl⟩ := Prog.exec_exceptBind.mp h
  · have h₁' : ∀ answer, Prog.Exec (answering sem ctx answer) (orBail (Vault.fromBase64 secret)
        "m.megolm_backup.v1 secret is not a valid backup key").run s (.ok key) s₁ :=
      fun answer => h₁.of_does (P := asksElse) (answering_of_asksElse answer) (orBail_does ..)
    obtain ⟨version_info,s₂,h₂,h⟩ | ⟨e,h₂,rfl⟩ := Prog.exec_exceptBind.mp h
    · obtain ⟨answer,h₂⟩ := current_answering h₂
      refine ⟨answer,Prog.exec_exceptBind.mpr (.inl ⟨key,s₁,h₁' answer,
        Prog.exec_exceptBind.mpr (.inl ⟨version_info,s₂,h₂,?_⟩)⟩)⟩
      refine h.of_does (P := asksElse) (answering_of_asksElse _) ?_
      cases version_info with
      | none => trivial
      | some info =>
          refine .exceptBind (orBail_does ..) fun backup_info => ?_
          split_ifs
          · refine .exceptBind (by simp [asksElse]) fun stored => ?_
            split_ifs
            · exact download_room_keys_does (fun _ => trivial) (fun _ _ => trivial) ..
            · exact .exceptBind (enable_backup_does trivial trivial trivial) fun _ =>
                download_room_keys_does (fun _ => trivial) (fun _ _ => trivial) ..
          · trivial
    · obtain ⟨answer,h₂⟩ := current_answering h₂
      exact ⟨answer,Prog.exec_exceptBind.mpr (.inl ⟨key,s₁,h₁' answer,
        Prog.exec_exceptBind.mpr (.inr ⟨e,h₂,rfl⟩)⟩)⟩
  · exact ⟨.error "",Prog.exec_exceptBind.mpr (.inr ⟨e,h₁.of_does (P := asksElse)
      (answering_of_asksElse _) (orBail_does ..),rfl⟩)⟩

omit [Codec] in
theorem joining_spares {a : Act ⊕ VaultAct} (h : joining a) : ¬ writesBackup ctx a := by
  intro hw
  unfold writesBackup at hw
  split at hw <;> first | exact False.elim h | exact hw.elim

/-- A step of a bootstrap that has nothing to do with the backup. -/
theorem joining_bind (hB : BackupMachine sem ctx view) {α β : Type} {x : Recovering α}
    {f : α → Recovering β} {r : Except Error β} (hx : x.run.Does joining)
    (h : Prog.Exec sem (x >>= f).run s r s') :
    (view s' = view s ∧ ∃ e, r = .error e) ∨
      ∃ a s₁, view s₁ = view s ∧ Prog.Exec sem (f a).run s₁ r s' := by
  have hspares := hx.mono fun a ha => (joining_spares ha : ¬ writesBackup ctx a)
  obtain ⟨a,s₁,h₁,h⟩ | ⟨e,h₁,rfl⟩ := Prog.exec_exceptBind.mp h
  · exact .inr ⟨a,s₁,spares_exec hB hspares h₁,h⟩
  · exact .inl ⟨spares_exec hB hspares h₁,e,rfl⟩

/-- A run that ends with an enabled backup has made an attempt that does. -/
def PassesOn (is : List Step) (r : Except Error BackupRestoreReport) : Prop :=
  ∀ report, r = .ok report → report.enabled = true → ∃ secret answer before,
    is = before ++ [.attempt secret answer (.ok report),.other]

theorem restore_and_pump_runs (hB : BackupMachine sem ctx view) {fuel : Nat}
    {key : Vault.SecretStorageKey} {r : Except Error BackupRestoreReport}
    (h : Prog.Exec sem (restore_and_pump fuel ctx key).run s r s') :
    ∃ is, Run (steps sem ctx view) s is s' ∧ PassesOn is r := by
  obtain ⟨hv,e,rfl⟩ | ⟨backup_secret,s₁,hv₁,h⟩ := joining_bind hB (get_secret_does ctx ..) h
  · exact ⟨[.other],Run.single.mpr hv,fun report he => by cases he⟩
  have hfirst : Run (steps sem ctx view) s [.other] s₁ := Run.single.mpr hv₁
  have hbackup : ∀ {r s₂}, Prog.Exec sem
      (backup_secret.elim (pure .default) (restore_from_backup ctx)).run s₁ r s₂ →
      ∃ is, Run (steps sem ctx view) s is s₂ ∧ ∀ report, r = .ok report → report.enabled = true →
        ∃ secret answer before, is = before ++ [.attempt secret answer (.ok report)] := by
    intro r s₂ h₂
    cases backup_secret with
    | none =>
        cases h₂
        exact ⟨_,hfirst,fun report he hreport => by cases he; cases hreport⟩
    | some secret =>
        obtain ⟨answer,h₂⟩ := restore_answering h₂
        refine ⟨_,hfirst.snoc (i := .attempt secret answer r) (by exact h₂),?_⟩
        rintro report rfl -
        exact ⟨secret,answer,[.other],rfl⟩
  obtain ⟨backup,s₂,h₂,h⟩ | ⟨e,h₂,rfl⟩ := Prog.exec_exceptBind.mp h
  · obtain ⟨is,hrun,hpasses⟩ := hbackup h₂
    have hspares : ((pump fuel ctx).widen : WideM VaultAct.Ans Unit).Does fun a => ¬ writesBackup ctx a :=
      Prog.widen_does ((Prog.does_true _).mono fun _ _ => id)
    obtain ⟨_,s₃,h₃,h⟩ | ⟨e,h₃,-⟩ := Prog.exec_exceptBind.mp h
    · obtain ⟨_,_,h₃⟩ := Prog.exec_lift.mp h₃
      cases h
      refine ⟨is ++ [.other],hrun.snoc (i := .other) (by exact spares_exec hB hspares h₃),?_⟩
      rintro report ⟨⟩ hreport
      obtain ⟨secret,answer,before,rfl⟩ := hpasses backup rfl hreport
      exact ⟨secret,answer,before,List.append_assoc ..⟩
    · obtain ⟨_,he,_⟩ := Prog.exec_lift.mp h₃
      cases he
  · obtain ⟨is,hrun,-⟩ := hbackup h₂
    exact ⟨is,hrun,fun report he => by cases he⟩

theorem bootstrap_runs (hB : BackupMachine sem ctx view) {fuel : Nat} {recovery_key : String}
    {r : Except Error BootstrapReport} (h : Prog.Exec sem (bootstrap fuel ctx recovery_key).run s r s') :
    ∃ is, Run (steps sem ctx view) s is s' ∧ PassesOn is (r.map BootstrapReport.backup) := by
  have hother : ∀ {t}, view t = view s → view s' = view t ∧ (∃ e, r = .error e) →
      ∃ is, Run (steps sem ctx view) s is s' ∧ PassesOn is (r.map BootstrapReport.backup) := by
    rintro t ht ⟨hv,e,rfl⟩
    exact ⟨[.other],Run.single.mpr (by exact hv.trans ht),fun report he => by cases he⟩
  obtain herr | ⟨key,s₁,hv₁,h⟩ := joining_bind hB (open_secret_storage_key_does ctx _) h
  · exact hother rfl herr
  obtain herr | ⟨master_key,s₂,hv₂,h⟩ := joining_bind hB (get_secret_does ctx ..) h
  · exact hother hv₁ herr
  obtain herr | ⟨self_signing_key,s₃,hv₃,h⟩ := joining_bind hB (get_secret_does ctx ..) h
  · exact hother (hv₂.trans hv₁) herr
  obtain herr | ⟨user_signing_key,s₄,hv₄,h⟩ := joining_bind hB (get_secret_does ctx ..) h
  · exact hother (hv₃.trans (hv₂.trans hv₁)) herr
  have hv₄ : view s₄ = view s := hv₄.trans (hv₃.trans (hv₂.trans hv₁))
  obtain herr | ⟨_,s₅,hv₅,h⟩ := joining_bind hB (query_own_keys_does ctx) h
  · exact hother hv₄ herr
  have hv₅ : view s₅ = view s := hv₅.trans hv₄
  obtain herr | ⟨status,s₆,hv₆,h⟩ := joining_bind hB (by simp [joining]) h
  · exact hother hv₅ herr
  have hv₆ : view s₆ = view s := hv₆.trans hv₅
  -- The device is signed or not; the rest is the same.
  have hrest : ∀ {t} {f : BackupRestoreReport → BootstrapReport}, view t = view s →
      Prog.Exec sem (restore_and_pump fuel ctx key >>= fun backup => pure (f backup)).run t r s' →
      (∀ backup, BootstrapReport.backup (f backup) = backup) →
      ∃ is, Run (steps sem ctx view) s is s' ∧ PassesOn is (r.map BootstrapReport.backup) := by
    intro t f ht h hf
    obtain ⟨backup,s₇,h₇,h⟩ | ⟨e,h₇,rfl⟩ := Prog.exec_exceptBind.mp h
    · cases h
      obtain ⟨is,hrun,hpasses⟩ := restore_and_pump_runs hB h₇
      refine ⟨.other :: is,Run.cons.mpr ⟨t,ht,hrun⟩,?_⟩
      rintro report ⟨⟩ hreport
      rw [hf] at hreport ⊢
      obtain ⟨secret,answer,before,rfl⟩ := hpasses backup rfl hreport
      exact ⟨secret,answer,.other :: before,rfl⟩
    · obtain ⟨is,hrun,-⟩ := restore_and_pump_runs hB h₇
      exact ⟨.other :: is,Run.cons.mpr ⟨t,ht,hrun⟩,fun report he => by cases he⟩
  split_ifs at h
  · obtain herr | ⟨_,s₇,hv₇,h⟩ := joining_bind hB (sign_own_device_does ctx) h
    · exact hother hv₆ herr
    · exact hrest (hv₇.trans hv₆) h fun _ => rfl
  · exact hrest hv₆ h fun _ => rfl

/-- After any run of attempts, each of which may fail or be dropped anywhere, an attempt
that reports the backup as enabled is right exactly where it was ready. Bootstraps are
such runs, and report what their attempt does. -/
theorem reported_enabled_iff (hK : NamesOneKey) (hB : BackupMachine sem ctx view) {s₀ : σ}
    (h₀ : Consistent (view s₀)) (fuel : Nat) :
    (∀ is s secret answer report s', Run (steps sem ctx view) s₀ is s →
      steps sem ctx view s (.attempt secret answer (.ok report)) s' → report.enabled = true →
        (EnabledAsReported (view s') secret report ↔ Ready (view s) answer)) ∧
      ∀ s recovery_key r s', Prog.Exec sem (bootstrap fuel ctx recovery_key).run s r s' →
        ∃ is, Run (steps sem ctx view) s is s' ∧ PassesOn is (r.map BootstrapReport.backup) :=
  ⟨fun _ _ _ _ _ _ hrun hstep => (restore_exec hB hstep).reported_iff hK (run_consistent hB h₀ hrun),
    fun _ _ _ _ => bootstrap_runs hB⟩

end

local instance : Codec := .plain (fun _ => none) some fun _ _ => 0

/-- Keys are their own public keys, and there is one backup, of the key `key`. -/
local instance : Vault where
  SecretStorageKey := Unit
  KeyDescription := Unit
  EncryptedData := Unit
  DecryptionKey := String
  PublicKey := String
  RoomKeyBackupInfo := String
  SessionData := Unit
  BackedUpRoomKey := Unit
  keyDescription _ _ := none
  fromAccountData _ _ := none
  key_id _ := ""
  encryptedUnder _ _ := none
  encryptedData _ := none
  decrypt _ _ _ := none
  fromUtf8 _ := none
  fromBase64 := some
  megolm_v1_public_key := id
  backupVersionInfo body := some ⟨"1","m.megolm_backup.v1.curve25519-aes-sha2",body⟩
  backupInfo _ := some "key"
  backup_key_matches (key info : String) := key == info
  backupKeys _ := some []
  sessionData _ := none
  decrypt_session_data _ _ := none

def alice : AccountContext := ⟨"@alice:x","DEV","token",⟨0,"key"⟩⟩

/-- Alice's machine, whose enabling may fail. -/
def machine : VaultSem BackupState
  | .inr (.get _ .roomKeysVersion),b,r,b' => r = .ok (200,.object []) ∧ b' = b
  | .inr (.get _ (.roomKeysKeys _)),b,r,b' => r = .ok (200,.object []) ∧ b' = b
  | .inr (.getBackupKeys c),b,r,b' => c = alice ∧ r = .ok b.stored ∧ b' = b
  | .inr (.disableBackup c),b,r,b' => c = alice ∧ r = .ok () ∧ b' = { b with enabled := none }
  | .inr (.saveDecryptionKey c key version),b,r,b' =>
      c = alice ∧ r = .ok () ∧ b' = { b with stored := ⟨some key,some version⟩ }
  | .inr (.enableBackupV1 c key version),b,r,b' => c = alice ∧
      (r = .ok () ∧ b' = { b with enabled := some (key,version) } ∨ (∃ e, r = .error e) ∧ b' = b)
  | .inr (.importRoomKeys ..),b,r,b' => r = .ok 0 ∧ b' = b
  | _,_,_,_ => False

theorem machine_keeps : BackupMachine machine alice id where
  spares := by
    intro a b r b' ha h
    unfold machine at h
    split at h
    · exact h.2
    · exact h.2
    · exact h.2.2
    · exact (ha h.1).elim
    · exact (ha h.1).elim
    · exact (ha h.1).elim
    · exact h.2
    · exact h.elim
  read h := Except.ok.inj h.2.1
  disabled h := .inl h.2.2
  saved h := .inl h.2.2
  enabled h := h.2.imp (fun h => h.2) id

theorem names_one_key : NamesOneKey := by
  intro (k : String) (k' : String) (info : String) h
  have hk : k = info := beq_iff_eq.mp h
  subst hk
  exact beq_iff_eq

def fresh : BackupState := ⟨⟨none,none⟩,none⟩
def restored : BackupState := ⟨⟨some "key",some "1"⟩,some ("key","1")⟩
def halfway : BackupState := ⟨⟨some "key",some "1"⟩,none⟩

def theVersion : VersionAnswer := .ok (200,.object [])
def enabledReport : BackupRestoreReport := ⟨some "1",true,0,0⟩

/-- An attempt for which the version is the stored one. -/
theorem stored_attempt {b : BackupState} (hb : b.stored = ⟨some "key",some "1"⟩) :
    steps machine alice id b (.attempt "key" theVersion (.ok enabledReport)) b := by
  obtain ⟨stored,enabled⟩ := b
  obtain rfl : stored = ⟨some "key",some "1"⟩ := hb
  refine .act (r := .ok (200,.object [])) ⟨⟨rfl,rfl⟩,fun _ => rfl⟩ ?_
  refine .act (r := .ok ⟨some "key",some "1"⟩) ⟨⟨rfl,rfl,rfl⟩,trivial⟩ ?_
  refine .act (r := .ok (200,.object [])) ⟨⟨rfl,rfl⟩,trivial⟩ ?_
  exact .act (r := .ok 0) ⟨⟨rfl,rfl⟩,trivial⟩ (.ret _ _)

/-- An attempt that enables the backup, or fails to. -/
theorem first_attempt : steps machine alice id fresh
    (.attempt "key" theVersion (.ok enabledReport)) restored ∧ steps machine alice id fresh
      (.attempt "key" theVersion (.error (.text "not enabled"))) halfway := by
  constructor
  · refine .act (r := .ok (200,.object [])) ⟨⟨rfl,rfl⟩,fun _ => rfl⟩ ?_
    refine .act (r := .ok ⟨none,none⟩) ⟨⟨rfl,rfl,rfl⟩,trivial⟩ ?_
    refine .act (r := .ok ()) ⟨⟨rfl,rfl,rfl⟩,trivial⟩ ?_
    refine .act (r := .ok ()) ⟨⟨rfl,rfl,rfl⟩,trivial⟩ ?_
    refine .act (r := .ok ()) ⟨⟨rfl,.inl ⟨rfl,rfl⟩⟩,trivial⟩ ?_
    refine .act (r := .ok (200,.object [])) ⟨⟨rfl,rfl⟩,trivial⟩ ?_
    exact .act (r := .ok 0) ⟨⟨rfl,rfl⟩,trivial⟩ (.ret _ _)
  · refine .act (r := .ok (200,.object [])) ⟨⟨rfl,rfl⟩,fun _ => rfl⟩ ?_
    refine .act (r := .ok ⟨none,none⟩) ⟨⟨rfl,rfl,rfl⟩,trivial⟩ ?_
    refine .act (r := .ok ()) ⟨⟨rfl,rfl,rfl⟩,trivial⟩ ?_
    refine .act (r := .ok ()) ⟨⟨rfl,rfl,rfl⟩,trivial⟩ ?_
    exact .act (r := .error "not enabled") ⟨⟨rfl,.inr ⟨⟨_,rfl⟩,rfl⟩⟩,trivial⟩ (.ret _ _)

/-- A second attempt after one that enabled the backup. -/
theorem reported_enabled_iff_again : EnabledAsReported restored "key" enabledReport := by
  have hrun : Run (steps machine alice id) fresh [.attempt "key" theVersion (.ok enabledReport)]
    restored := Run.single.mpr first_attempt.1
  have hready : Ready restored theVersion := by
    rintro info ⟨⟩ -
    refine ⟨rfl,?_⟩
    rintro key backup_info ⟨⟩ ⟨⟩
    rfl
  have hfresh : Consistent (id fresh) := .of_disabled rfl
  exact ((reported_enabled_iff names_one_key machine_keeps hfresh 0).1 _ _ _ _ _ _ hrun (stored_attempt rfl) rfl).mpr hready

/-- Enabling fails after the version was stored; the next attempt finds it stored, and
reports a backup that is not enabled. -/
theorem retry_skips_enabling : NamesOneKey ∧ BackupMachine machine alice id ∧ Consistent fresh ∧
    ¬ ∀ is s secret answer report s', Run (steps machine alice id) fresh is s →
      steps machine alice id s (.attempt secret answer (.ok report)) s' → report.enabled = true →
        EnabledAsReported s' secret report := by
  refine ⟨names_one_key,machine_keeps,.of_disabled rfl,fun hall => ?_⟩
  obtain ⟨key,version,_,_,henabled⟩ := hall _ halfway "key" theVersion enabledReport halfway
    (Run.single.mpr first_attempt.2) (stored_attempt rfl) rfl
  cases henabled

end EmentE2ee.BackupRetries
