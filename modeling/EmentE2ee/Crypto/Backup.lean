import EmentE2ee.Wide

/-!
# Restoring from a key backup

The recovered decryption key is checked against the homeserver's backup, which is then
enabled where its version is not the stored one, and all its room keys are imported.
-/
namespace EmentE2ee

open Concurrent
open Json (Value)

structure BackupVersionInfo where
  version : String
  algorithm : String
  auth_data : Value

structure CrossSigningKeyExport where
  master_key : Option String
  self_signing_key : Option String
  user_signing_key : Option String
  deriving DecidableEq, Repr

structure CrossSigningStatus where
  has_master : Bool
  has_self_signing : Bool
  has_user_signing : Bool
  deriving DecidableEq, Repr

/-- Third-party cryptography of secret storage and backups, and readings of what the
homeserver stores for them. -/
class Vault where
  SecretStorageKey : Type
  KeyDescription : Type
  EncryptedData : Type
  DecryptionKey : Type
  PublicKey : Type
  RoomKeyBackupInfo : Type
  SessionData : Type
  BackedUpRoomKey : Type
  /-- The content of the account data event that describes a key. -/
  keyDescription : String → Value → Option KeyDescription
  fromAccountData : String → KeyDescription → Option SecretStorageKey
  key_id : SecretStorageKey → String
  /-- What the JSON pointer `/encrypted/` with the ID of a key leads to. -/
  encryptedUnder : String → Value → Option Value
  encryptedData : Value → Option EncryptedData
  decrypt : SecretStorageKey → EncryptedData → String → Option Bytes
  fromUtf8 : Bytes → Option String
  fromBase64 : String → Option DecryptionKey
  megolm_v1_public_key : DecryptionKey → PublicKey
  backupVersionInfo : Value → Option BackupVersionInfo
  backupInfo : Value → Option RoomKeyBackupInfo
  backup_key_matches : DecryptionKey → RoomKeyBackupInfo → Bool
  /-- The sessions of each room, in the order of their IDs. -/
  backupKeys : Value → Option (List (RoomId × List (String × Value)))
  sessionData : Value → Option SessionData
  decrypt_session_data : DecryptionKey → SessionData → Option BackedUpRoomKey

section
variable [Vault]

structure BackupKeys where
  decryption_key : Option Vault.DecryptionKey
  backup_version : Option String

structure ExportedRoomKey where
  room_id : RoomId
  session_id : String
  key : Vault.BackedUpRoomKey

inductive VaultEndpoint where
  | accountData (user_id : UserId) (event_type : String)
  | roomKeysVersion
  | roomKeysKeys (version : String)
  deriving DecidableEq, Repr

def VaultEndpoint.path : VaultEndpoint → String
  | accountData u t => "/_matrix/client/v3/user/" ++ enc u ++ "/account_data/" ++ enc t
  | roomKeysVersion => "/_matrix/client/v3/room_keys/version"
  | roomKeysKeys v => "/_matrix/client/v3/room_keys/keys?version=" ++ enc v

/-- The actions that only joining an existing identity takes. -/
inductive VaultAct where
  /-- A GET with the token's authority, and a JSON answer. -/
  | get (token : String) (endpoint : VaultEndpoint)
  | queryKeysForUsers (ctx : AccountContext) (users : List UserId)
  | importCrossSigningKeys (ctx : AccountContext) (keys : CrossSigningKeyExport)
  /-- Sign the own device; the answer is what is to be uploaded. -/
  | verifyDevice (ctx : AccountContext)
  | getBackupKeys (ctx : AccountContext)
  | disableBackup (ctx : AccountContext)
  | saveDecryptionKey (ctx : AccountContext) (key : Vault.DecryptionKey) (version : String)
  | enableBackupV1 (ctx : AccountContext) (key : Vault.PublicKey) (version : String)
  | importRoomKeys (ctx : AccountContext) (keys : List ExportedRoomKey) (version : String)

abbrev VaultAct.Ans : VaultAct → Type
  | get .. => Except String (Nat × Value)
  | queryKeysForUsers .. => String × Value
  | importCrossSigningKeys .. => Except String CrossSigningStatus
  | verifyDevice _ => Except String Value
  | getBackupKeys _ => Except String BackupKeys
  | importRoomKeys .. => Except String Nat
  | _ => Except String Unit

variable [Codec]

abbrev Recovering := WideFallible VaultAct.Ans

def vaultAct (a : VaultAct) : WideM VaultAct.Ans a.Ans := further a

structure BackupRestoreReport where
  backup_version : Option String
  enabled : Bool
  total_keys_in_backup : Nat
  imported_keys : Nat
  deriving DecidableEq, Repr

def BackupRestoreReport.default : BackupRestoreReport := ⟨none,false,0,0⟩

/-- The homeserver's current backup version; none if there is no backup. -/
def current_backup_version (ctx : AccountContext) : Recovering (Option BackupVersionInfo) := do
  let (status,body) ← furtherCall (vaultAct (.get ctx.token .roomKeysVersion))
  if status = 404 then pure none
  else if isSuccess status then
    let info ← orBail (Vault.backupVersionInfo body) "malformed room_keys/version response"
    pure (some info)
  else bail ("room_keys/version failed: " ++ Codec.statusText status ++ " " ++ Codec.display body)

/-- Of a version's information, the part that says how keys are encrypted. -/
def BackupVersionInfo.backup_info (info : BackupVersionInfo) : Option Vault.RoomKeyBackupInfo :=
  Vault.backupInfo (.object [("algorithm",.string info.algorithm),("auth_data",info.auth_data)])

/-- The room keys of a downloaded backup that can be read and decrypted. -/
def decryptedRoomKeys (decryption_key : Vault.DecryptionKey)
    (rooms : List (RoomId × List (String × Value))) : List ExportedRoomKey :=
  rooms.flatMap fun room => room.2.filterMap fun session =>
    ((Vault.sessionData session.2).bind (Vault.decrypt_session_data decryption_key)).map
      (⟨room.1,session.1,·⟩)

/-- Any previous association is reset, then key and version are persisted. -/
def enable_backup (ctx : AccountContext) (decryption_key : Vault.DecryptionKey) (version : String) :
    Recovering Unit := do
  furtherCall (vaultAct (.disableBackup ctx))
  furtherCall (vaultAct (.saveDecryptionKey ctx decryption_key version))
  furtherCall (vaultAct (.enableBackupV1 ctx (Vault.megolm_v1_public_key decryption_key) version))

/-- Download the whole backup, and import what can be decrypted. -/
def download_room_keys (ctx : AccountContext) (decryption_key : Vault.DecryptionKey)
    (version : String) : Recovering BackupRestoreReport := do
  let (status,body) ← furtherCall (vaultAct (.get ctx.token (.roomKeysKeys version)))
  if isSuccess status then
    let rooms ← orBail (Vault.backupKeys body) "malformed room_keys/keys response"
    let imported ← (furtherCall (vaultAct (.importRoomKeys ctx (decryptedRoomKeys decryption_key rooms)
      version))).adapt (Error.context "importing room keys failed")
    pure
      { backup_version := some version
        enabled := true
        total_keys_in_backup := rooms.foldl (fun total room => total + room.2.length) 0
        imported_keys := imported }
  else bail ("downloading room keys failed: " ++ Codec.statusText status ++ " " ++ Codec.display body)

def restore_from_backup (ctx : AccountContext) (backup_secret_base64 : String) :
    Recovering BackupRestoreReport := do
  let decryption_key ← orBail (Vault.fromBase64 backup_secret_base64)
    "m.megolm_backup.v1 secret is not a valid backup key"
  let version_info ← current_backup_version ctx
  match version_info with
  | none => pure .default
  | some version_info =>
      let backup_info ← orBail version_info.backup_info "malformed backup auth_data"
      if Vault.backup_key_matches decryption_key backup_info then
        let stored ← furtherCall (vaultAct (.getBackupKeys ctx))
        if stored.backup_version = some version_info.version then pure ()
        else enable_backup ctx decryption_key version_info.version
        download_room_keys ctx decryption_key version_info.version
      else bail ("the recovered backup key does not match the active server-side backup (version " ++
        version_info.version ++ "); was the backup reset after the recovery key was created?")

section
variable {P : Act ⊕ VaultAct → Prop}

@[simp] theorem vaultAct_does (a : VaultAct) :
    @Prog.Does (Act ⊕ VaultAct) (Sum.elim Act.Ans VaultAct.Ans) (no_index a.Ans) P (vaultAct a) ↔
      P (.inr a) := further_does a

theorem current_backup_version_does {ctx : AccountContext}
    (hget : P (.inr (.get ctx.token .roomKeysVersion))) :
    (current_backup_version ctx).run.Does P := by
  refine .exceptBind (by simpa using hget) fun answer => ?_
  dsimp only
  split_ifs
  · trivial
  · exact .exceptBind (orBail_does ..) fun _ => trivial
  · trivial

theorem enable_backup_does {ctx : AccountContext} {decryption_key : Vault.DecryptionKey}
    {version : String} (hdisable : P (.inr (.disableBackup ctx)))
    (hsave : P (.inr (.saveDecryptionKey ctx decryption_key version)))
    (henable : P (.inr (.enableBackupV1 ctx (Vault.megolm_v1_public_key decryption_key) version))) :
    (enable_backup ctx decryption_key version).run.Does P :=
  .exceptBind (by simpa using hdisable) fun _ =>
    .exceptBind (by simpa using hsave) fun _ => by simpa using henable

theorem download_room_keys_does {ctx : AccountContext}
    (hget : ∀ version, P (.inr (.get ctx.token (.roomKeysKeys version))))
    (himport : ∀ keys version, P (.inr (.importRoomKeys ctx keys version)))
    (decryption_key : Vault.DecryptionKey) (version : String) :
    (download_room_keys ctx decryption_key version).run.Does P := by
  refine .exceptBind (by simpa using hget version) fun answer => ?_
  dsimp only
  split_ifs
  · refine .exceptBind (orBail_does ..) fun rooms => ?_
    exact .exceptBind (by simpa using himport _ version) fun _ => trivial
  · trivial

end
end
end EmentE2ee
