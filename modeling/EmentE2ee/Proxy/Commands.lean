import EmentE2ee.Admin.Requests
import EmentE2ee.Crypto.Ssss
import EmentE2ee.Crypto.VerifyCommands
import EmentE2ee.Proxy.Conduct

/-!
# Commands for an account

Verify commands and the joining of an existing identity take actions of their own, none
of which uses a lock. Besides them they do what is done for an account anyway, in the
same order of locks.
-/
namespace EmentE2ee

open Concurrent
open Json (Value)

variable {B : Type} {S : B → Type}

/-- The locks where there are further actions, which use none. -/
def wideLocking (B : Type) : Locking (Act ⊕ B) Lock := ⟨Sum.elim lockUse fun _ => .free,Lock.rank⟩

/-- Actions for an account, of which the further ones satisfy `T`. -/
def forAccount (ctx : AccountContext) (T : B → Prop) : Act ⊕ B → Prop :=
  Sum.elim (Act.ofAccount ctx) T

variable [Codec]

/-- What is done for an account with further actions that satisfy `T`, while all that is
held has a rank below `n`. -/
def Commanded {α : Type} (ctx : AccountContext) (T : B → Prop) (n : Nat) (p : WideM S α) : Prop :=
  (wideLocking B).Within (fun _ _ => True) (forAccount ctx T) ((wideLocking B).below n) (fun _ => True) p

namespace Commanded
variable {ctx : AccountContext} {T : B → Prop} {n : Nat} {α β : Type}

theorem ret (a : α) : Commanded ctx T n (.ret a : WideM S α) := Locking.Within.ret trivial

theorem bind {p : WideM S α} {f : α → WideM S β} (h : Commanded ctx T n p)
    (hf : ∀ a, Commanded ctx T n (f a)) : Commanded ctx T n (p >>= f) :=
  Locking.Within.bind h fun a _ => hf a

theorem exceptBind {x : WideFallible S α} {f : α → WideFallible S β} (h : Commanded ctx T n x.run)
    (hf : ∀ a, Commanded ctx T n (f a).run) : Commanded ctx T n (x >>= f).run :=
  Locking.Within.exceptBind h (fun a _ => hf a) fun _ => trivial

theorem lower {m : Nat} (hm : m ≤ n) {p : WideM S α} (h : Commanded ctx T n p) :
    Commanded ctx T m p := Locking.Within.lower hm h

theorem further {b : B} (hb : T b) : Commanded ctx T n (further b : WideM S (S b)) :=
  Locking.Within.free hb rfl fun _ _ => .ret trivial

theorem furtherCall {b : B} {f : S b → Except String α} (hb : T b) :
    Commanded ctx T n (furtherCall (.act (.inr b) fun r => .ret (f r)) : WideFallible S α).run :=
  Locking.Within.free hb rfl fun _ _ => .ret trivial

theorem widen {p : M α} (h : Conducted ctx n p) : Commanded ctx T n (p.widen : WideM S α) :=
  Locking.Within.widen (fun _ ha => ha) (fun _ => rfl) rfl (fun _ _ _ => trivial) h

theorem of_lone {p : Fallible α} (h : p.run.Does (Act.lone ctx)) :
    Commanded ctx T n (Fallible.widen p : WideFallible S α).run := .widen (.of_lone h)

theorem lift {p : WideM S α} (h : Commanded ctx T n p) :
    Commanded ctx T n (ExceptT.lift p : WideFallible S α).run := by
  rw [ExceptT.run_lift,← bind_pure_comp]
  exact h.bind fun a => .ret (Except.ok a)

theorem orBail {x : Option α} {message : String} :
    Commanded ctx T n (orBail x message : WideFallible S α).run := by
  cases x with
  | none => exact .ret _
  | some a => exact .ret _

theorem adapt {x : WideFallible S α} (h : Commanded ctx T n x.run) (f : Error → Error) :
    Commanded ctx T n (x.adapt f).run := by
  change Commanded ctx T n (Except.mapError f <$> x.run)
  rw [← bind_pure_comp]
  exact h.bind fun r => .ret _

/-- A section under a lock of the account. -/
theorem underLock {l : Lock} {p : WideM S α} (hl : (Act.lock l).ofAccount ctx) (hn : l.rank = n)
    (hp : Commanded ctx T (n + 1) p) : Commanded ctx T n (underLock l p) := by
  refine Locking.Within.locked (l := l) rfl rfl ?_ hl hl (fun _ => hp) fun r _ _ => .ret trivial
  exact fun _ hheld => Locking.below_cons hn hheld

end Commanded

section
open Verify
variable {ctx : AccountContext}

/-- Verify actions of an account. -/
abbrev verifying (ctx : AccountContext) (a : VerifyAct) : Prop := a.account = ctx

theorem verify_covers : Covers ctx (Commanded ctx (verifying ctx) 0) where
  ret := .ret
  bind := .bind
  verify _ hctx _ := .further hctx
  record := Locking.Within.free rfl rfl fun _ _ => .ret trivial
  send fuel outgoing := .widen (send_verification_request_conducted fuel outgoing)

theorem confirming_commanded (sas : Sas) : Commanded ctx (verifying ctx) 0 (confirming ctx sas) := by
  refine .lower (Nat.zero_le 1) (.underLock (.inr (.inr rfl)) rfl ?_)
  refine .bind (.further rfl) fun confirmed => ?_
  cases confirmed with
  | error e => exact .ret _
  | ok confirmed => exact Locking.Within.free rfl rfl fun _ _ => .ret trivial

theorem ending_commanded {p : WideM VerifyAct.Ans (Option OutgoingVerificationRequest)}
    (hp : Commanded ctx (verifying ctx) 2 p) : Commanded ctx (verifying ctx) 0 (ending ctx p) := by
  refine .lower (Nat.zero_le 1) (.underLock (.inr (.inr rfl)) rfl (.bind hp fun outgoing => ?_))
  exact Locking.Within.free rfl rfl fun _ _ => .ret trivial

theorem upload_signatures_lone (keys : Value) :
    (upload_signatures ctx keys).run.Does (Act.lone ctx) := by
  refine .exceptBind (by simp [Act.lone]) fun answer => ?_
  dsimp only
  split_ifs <;> simp

end

/-- What a request about verifications comes to, for the session and the user it names. -/
def Admin.verify (fuel : Nat) (ctx : AccountContext) (with_user : UserId) :
    Ctl.Wanted → Verify.Verifying Value
  | .list => ExceptT.lift (Verify.list ctx with_user)
  | .start device_id => Verify.start fuel ctx device_id
  | .showFlow flow => Verify.show_flow ctx with_user flow
  | .act flow (.advance start_sas) => Verify.advance fuel ctx with_user flow start_sas
  | .act flow .mismatch => Verify.mismatch fuel ctx with_user flow
  | .act flow .accept => Verify.accept fuel ctx with_user flow
  | .act flow .startSas => Verify.start_sas fuel ctx with_user flow
  | .act flow .sasAccept => Verify.sas_accept fuel ctx with_user flow
  | .act flow .confirm => Verify.confirm fuel ctx with_user flow
  | .act flow .cancel => Verify.cancel fuel ctx with_user flow

open Verify in
/-- A request about verifications is covered where the parts are that end flows. -/
theorem Verify.Covers.wanted {ctx : AccountContext} {G : ∀ {α : Type}, WideM VerifyAct.Ans α → Prop}
    (h : Covers ctx G) {fuel : Nat} (hconfirm : ∀ sas, G (confirming ctx sas))
    (hupload : ∀ keys, G (Fallible.widen (upload_signatures ctx keys) : Verifying Unit).run)
    (hpump : G ((pump fuel ctx).widen : WideM VerifyAct.Ans Unit))
    (hmismatch : ∀ sas, G (ending ctx (verifyAct (.cancelWithCode ctx sas "m.mismatched_sas"))))
    (hcancel : ∀ request, G (ending ctx (verifyAct (.cancel ctx request)))) (with_user : UserId)
    (wanted : Ctl.Wanted) : G (Admin.verify fuel ctx with_user wanted).run := by
  cases wanted with
  | list => exact h.lift (h.list with_user)
  | start device_id => exact h.start fuel device_id
  | showFlow flow => exact h.show_flow with_user flow
  | act flow action =>
      cases action with
      | advance start_sas => exact h.advance fuel with_user flow start_sas
      | accept => exact h.accept fuel with_user flow
      | startSas => exact h.start_sas fuel with_user flow
      | sasAccept => exact h.sas_accept fuel with_user flow
      | confirm => exact h.confirm hconfirm hupload hpump with_user flow
      | mismatch => exact h.mismatch hmismatch fuel with_user flow
      | cancel => exact h.cancel hcancel fuel with_user flow

theorem Admin.verify_commanded {ctx : AccountContext} (fuel : Nat) (with_user : UserId)
    (wanted : Ctl.Wanted) :
    Commanded ctx (verifying ctx) 0 (Admin.verify fuel ctx with_user wanted).run := by
  have hcovers : Verify.Covers ctx (Commanded ctx (verifying ctx) 0) := verify_covers
  have hpump : Commanded ctx (verifying ctx) 0 ((pump fuel ctx).widen : WideM Verify.VerifyAct.Ans Unit) :=
    .lower (Nat.zero_le 1) (.widen (pump_conducted fuel))
  exact hcovers.wanted confirming_commanded (fun keys => .of_lone (upload_signatures_lone keys)) hpump
    (fun _ => ending_commanded (.further rfl)) (fun _ => ending_commanded (.further rfl)) with_user wanted

variable [Vault]

/-- Further actions of an account, and with its token. -/
def VaultAct.ofAccount (ctx : AccountContext) : VaultAct → Prop
  | get token _ => token = ctx.token
  | queryKeysForUsers c _ | importCrossSigningKeys c _ | verifyDevice c | getBackupKeys c => c = ctx
  | disableBackup c | saveDecryptionKey c .. | enableBackupV1 c .. | importRoomKeys c .. => c = ctx

section
variable {ctx : AccountContext} {n : Nat}

/-- What is done to join, under no lock. -/
abbrev Joins {α : Type} (ctx : AccountContext) (n : Nat) (x : Recovering α) : Prop :=
  Commanded ctx (VaultAct.ofAccount ctx) n x.run

theorem fetch_account_data_joins (event_type : String) :
    Joins ctx n (fetch_account_data ctx event_type) := by
  refine .exceptBind (Commanded.furtherCall rfl) fun answer => ?_
  dsimp only
  split_ifs <;> exact .ret _

theorem open_secret_storage_key_joins (recovery_key : String) :
    Joins ctx n (open_secret_storage_key ctx recovery_key) :=
  .exceptBind (fetch_account_data_joins _) fun _ => .exceptBind .orBail fun _ =>
    .exceptBind .orBail fun _ => .exceptBind (fetch_account_data_joins _) fun _ =>
      .exceptBind .orBail fun _ => .exceptBind .orBail fun _ => .orBail

theorem get_secret_joins (key : Vault.SecretStorageKey) (secret_name : String) :
    Joins ctx n (get_secret ctx key secret_name) := by
  refine .exceptBind (fetch_account_data_joins _) fun content => ?_
  split
  · exact .ret _
  · exact .exceptBind .orBail fun _ => .exceptBind .orBail fun _ =>
      .exceptBind .orBail fun _ => .ret _

theorem query_own_keys_joins : Joins ctx n (query_own_keys ctx) := by
  refine .exceptBind (.lift (.further rfl)) fun request => ?_
  refine .exceptBind (.of_lone (by simp [Act.lone])) fun answer => ?_
  dsimp only
  split_ifs
  · exact .of_lone (mark_request_as_sent_lone ..)
  · exact .ret _

theorem sign_own_device_joins : Joins ctx n (sign_own_device ctx) := by
  refine .exceptBind (.of_lone (by simp [Act.lone])) fun device => ?_
  refine .exceptBind .orBail fun _ => .exceptBind (.adapt (Commanded.furtherCall ?_) _) fun _ => ?_
  · exact rfl
  refine .exceptBind (.of_lone (by simp [Act.lone])) fun answer => ?_
  dsimp only
  split_ifs
  · exact query_own_keys_joins
  · exact .ret _

theorem enable_backup_joins (key : Vault.DecryptionKey) (version : String) :
    Joins ctx n (enable_backup ctx key version) :=
  .exceptBind (Commanded.furtherCall rfl) fun _ =>
    .exceptBind (Commanded.furtherCall rfl) fun _ => Commanded.furtherCall rfl

theorem download_room_keys_joins (key : Vault.DecryptionKey) (version : String) :
    Joins ctx n (download_room_keys ctx key version) := by
  refine .exceptBind (Commanded.furtherCall rfl) fun answer => ?_
  dsimp only
  split_ifs
  · refine .exceptBind .orBail fun _ => .exceptBind (.adapt (Commanded.furtherCall ?_) _) fun _ => .ret _
    exact rfl
  · exact .ret _

theorem restore_from_backup_joins (secret : String) : Joins ctx n (restore_from_backup ctx secret) := by
  refine .exceptBind .orBail fun key => .exceptBind ?_ fun version => ?_
  · refine .exceptBind (Commanded.furtherCall rfl) fun answer => ?_
    dsimp only
    split_ifs
    · exact .ret _
    · exact .exceptBind .orBail fun _ => .ret _
    · exact .ret _
  cases version with
  | none => exact .ret _
  | some version =>
      refine .exceptBind .orBail fun info => ?_
      split_ifs
      · refine .exceptBind (Commanded.furtherCall rfl) fun stored => ?_
        dsimp only
        split_ifs
        · exact download_room_keys_joins key version.version
        · exact .exceptBind (enable_backup_joins _ _) fun _ => download_room_keys_joins key version.version
      · exact .ret _

theorem restore_and_pump_joins (fuel : Nat) (key : Vault.SecretStorageKey) :
    Joins ctx 0 (restore_and_pump fuel ctx key) := by
  refine .exceptBind (get_secret_joins _ _) fun secret => .exceptBind ?_ fun _ =>
    .exceptBind (.lift (.lower (Nat.zero_le 1) (.widen (pump_conducted fuel)))) fun _ => .ret _
  cases secret with
  | none => exact .ret _
  | some secret => exact restore_from_backup_joins secret

theorem bootstrap_joins (fuel : Nat) (recovery_key : String) :
    Joins ctx 0 (bootstrap fuel ctx recovery_key) := by
  have hend : ∀ (x : Recovering BackupRestoreReport) (f : BackupRestoreReport → BootstrapReport),
      Joins ctx 0 x → Joins ctx 0 (do let backup ← x; pure (f backup)) :=
    fun _ _ h => .exceptBind h fun _ => .ret _
  refine .exceptBind (open_secret_storage_key_joins _) fun key => ?_
  refine .exceptBind (get_secret_joins _ _) fun _ => .exceptBind (get_secret_joins _ _) fun _ =>
    .exceptBind (get_secret_joins _ _) fun _ => .exceptBind query_own_keys_joins fun _ => ?_
  refine .exceptBind (.adapt (Commanded.furtherCall ?_) _) fun status => ?_
  · exact rfl
  dsimp only
  split_ifs
  · exact .exceptBind sign_own_device_joins fun _ => hend _ _ (restore_and_pump_joins fuel key)
  · exact hend _ _ (restore_and_pump_joins fuel key)

end
end EmentE2ee
