import EmentE2ee.Crypto.Backup
import EmentE2ee.Crypto.Machine

/-!
# Joining an existing identity

The user's secret storage is opened with the recovery key. The cross-signing keys in
it are imported, the own device is signed, and room keys are restored from the backup.
-/
namespace EmentE2ee

open Concurrent
open Json (Value)

variable [Vault] [Codec]

structure BootstrapReport where
  imported_master_key : Bool
  imported_self_signing_key : Bool
  imported_user_signing_key : Bool
  own_device_signed : Bool
  backup : BackupRestoreReport
  deriving DecidableEq, Repr

/-- The content of an account data event; none if there is none. -/
def fetch_account_data (ctx : AccountContext) (event_type : String) : Recovering (Option Value) := do
  let (status,body) ← furtherCall (vaultAct (.get ctx.token (.accountData ctx.user_id event_type)))
  if status = 404 then pure none
  else if isSuccess status then pure (some body)
  else bail ("fetching account data " ++ event_type ++ " failed: " ++ Codec.statusText status ++ " " ++
    Codec.display body)

def open_secret_storage_key (ctx : AccountContext) (recovery_key : String) :
    Recovering Vault.SecretStorageKey := do
  let default_key ← fetch_account_data ctx "m.secret_storage.default_key"
  let default_key ← orBail default_key
    "no m.secret_storage.default_key account data: secret storage is not set up"
  let key_id ← orBail ((default_key.get "key").bind Value.asStr)
    "malformed m.secret_storage.default_key content"
  let event_type := "m.secret_storage.key." ++ key_id
  let key_content ← fetch_account_data ctx event_type
  let key_content ← orBail key_content ("missing account data " ++ event_type)
  let content ← orBail (Vault.keyDescription event_type key_content)
    "malformed secret storage key description"
  orBail (Vault.fromAccountData recovery_key content)
    "recovery key/passphrase does not match the secret storage key"

/-- One secret of the storage; none where it is not encrypted with the key. -/
def get_secret (ctx : AccountContext) (key : Vault.SecretStorageKey) (secret_name : String) :
    Recovering (Option String) := do
  let content ← fetch_account_data ctx secret_name
  match content.bind (Vault.encryptedUnder (Vault.key_id key)) with
  | none => pure none
  | some encrypted =>
      let data ← orBail (Vault.encryptedData encrypted) ("malformed encrypted data for " ++ secret_name)
      let decrypted ← orBail (Vault.decrypt key data secret_name)
        ("MAC check failed decrypting " ++ secret_name)
      let secret ← orBail (Vault.fromUtf8 decrypted) ("secret " ++ secret_name ++ " is not valid UTF-8")
      pure (some secret)

/-- Query the own user's keys and feed the answer to the machine. -/
def query_own_keys (ctx : AccountContext) : Recovering Unit := do
  let (request_id,device_keys) ← ExceptT.lift (vaultAct (.queryKeysForUsers ctx [ctx.user_id]))
  let (status,response_body) ← Fallible.widen
    (json_request ctx.token .keysQuery (some (.object [("device_keys",device_keys)])))
  if isSuccess status then
    Fallible.widen (mark_request_as_sent ctx request_id .keysQuery response_body)
  else bail ("keys/query failed: " ++ Codec.statusText status ++ " " ++ Codec.display response_body)

/-- Sign the own device with the imported keys, and upload the signature. -/
def sign_own_device (ctx : AccountContext) : Recovering Unit := do
  let device ← Fallible.widen (call (act (.olm ctx .getDevice)))
  let _ ← orBail device "own device not found in store"
  let signed_keys ← (furtherCall (vaultAct (.verifyDevice ctx))).adapt
    (Error.context "self-signing device failed")
  let (status,response_body) ← Fallible.widen (json_request ctx.token .signaturesUpload (some signed_keys))
  if isSuccess status then
    -- The new signature is reflected in the own device's record.
    query_own_keys ctx
  else bail ("signature upload failed: " ++ Codec.statusText status ++ " " ++ Codec.display response_body)

/-- Restore room keys with the backup key of the storage, then pump. -/
def restore_and_pump (fuel : Nat) (ctx : AccountContext) (key : Vault.SecretStorageKey) :
    Recovering BackupRestoreReport := do
  let backup_secret ← get_secret ctx key "m.megolm_backup.v1"
  let backup ← backup_secret.elim (pure .default) (restore_from_backup ctx)
  ExceptT.lift (pump fuel ctx).widen
  pure backup

def bootstrap (fuel : Nat) (ctx : AccountContext) (recovery_key : String) :
    Recovering BootstrapReport := do
  let key ← open_secret_storage_key ctx recovery_key
  let master_key ← get_secret ctx key "m.cross_signing.master"
  let self_signing_key ← get_secret ctx key "m.cross_signing.self_signing"
  let user_signing_key ← get_secret ctx key "m.cross_signing.user_signing"
  -- Private keys are compared with the public identity, which has to be known first.
  query_own_keys ctx
  let status ← (furtherCall (vaultAct (.importCrossSigningKeys ctx
    ⟨master_key,self_signing_key,user_signing_key⟩))).adapt (Error.context
      "importing cross-signing keys failed (do they match the server identity?)")
  if status.has_self_signing then sign_own_device ctx else pure ()
  let backup ← restore_and_pump fuel ctx key
  pure
    { imported_master_key := master_key.isSome
      imported_self_signing_key := self_signing_key.isSome
      imported_user_signing_key := user_signing_key.isSome
      own_device_signed := status.has_self_signing
      backup := backup }

/-- Actions that have nothing to do with the backup. -/
def joining : Act ⊕ VaultAct → Prop
  | .inr (.getBackupKeys _) | .inr (.disableBackup _) | .inr (.saveDecryptionKey ..) => False
  | .inr (.enableBackupV1 ..) | .inr (.importRoomKeys ..) => False
  | _ => True

section
variable (ctx : AccountContext)

theorem widen_joining {α : Type} (p : Fallible α) :
    (Fallible.widen p : Recovering α).run.Does joining :=
  Prog.widen_does ((Prog.does_true p.run).mono fun _ _ => trivial)

theorem fetch_account_data_does (event_type : String) :
    (fetch_account_data ctx event_type).run.Does joining := by
  refine .exceptBind (by simp [joining]) fun answer => ?_
  dsimp only
  split_ifs <;> trivial

theorem open_secret_storage_key_does (recovery_key : String) :
    (open_secret_storage_key ctx recovery_key).run.Does joining :=
  .exceptBind (fetch_account_data_does ctx _) fun _ => .exceptBind (orBail_does ..) fun _ =>
    .exceptBind (orBail_does ..) fun _ => .exceptBind (fetch_account_data_does ctx _) fun _ =>
      .exceptBind (orBail_does ..) fun _ => .exceptBind (orBail_does ..) fun _ => orBail_does ..

theorem get_secret_does (key : Vault.SecretStorageKey) (secret_name : String) :
    (get_secret ctx key secret_name).run.Does joining := by
  refine .exceptBind (fetch_account_data_does ctx _) fun content => ?_
  split
  · trivial
  · exact .exceptBind (orBail_does ..) fun _ => .exceptBind (orBail_does ..) fun _ =>
      .exceptBind (orBail_does ..) fun _ => trivial

theorem query_own_keys_does : (query_own_keys ctx).run.Does joining := by
  refine .exceptBind ⟨trivial,fun _ => trivial⟩ fun request => ?_
  refine .exceptBind (widen_joining _) fun answer => ?_
  dsimp only
  split_ifs
  · exact widen_joining _
  · trivial

theorem sign_own_device_does : (sign_own_device ctx).run.Does joining := by
  refine .exceptBind (widen_joining _) fun device => .exceptBind (orBail_does ..) fun _ => ?_
  refine .exceptBind (by simp [joining]) fun signed_keys => .exceptBind (widen_joining _) fun answer => ?_
  dsimp only
  split_ifs
  · exact query_own_keys_does ctx
  · trivial

end

end EmentE2ee
