import EmentE2ee.Http

/-!
# Routes

Which requests are intercepted. The version segment of a path does not matter.
-/
namespace EmentE2ee

inductive Route where
  | login
  | sync
  | send (room_id event_type txn_id : String)
  | messages (room_id : String)
  | context (room_id : String)
  | roomEvent (room_id : String)
  | notifications
  | mediaUpload
  /-- Authenticated downloads carry a token, legacy ones do not. -/
  | mediaDownload (server media_id : String) (authenticated : Bool)
  | admin (sub : String)
  | passthrough
  deriving DecidableEq, Repr

def segments (path : String) : List String :=
  ((path.toList.dropWhile (· = '/')).splitOn '/').map String.ofList

def classifySegments (method : Method) : List String → Route
  | ["_matrix","client",_,"login"] => if method = .post then .login else .passthrough
  | ["_matrix","client",_,"sync"] => if method = .get then .sync else .passthrough
  | ["_matrix","client",_,"rooms",room,"send",event_type,txn] =>
      if method = .put then .send (dec room) (dec event_type) (dec txn) else .passthrough
  | ["_matrix","client",_,"rooms",room,"messages"] =>
      if method = .get then .messages (dec room) else .passthrough
  | ["_matrix","client",_,"rooms",room,"context",_] =>
      if method = .get then .context (dec room) else .passthrough
  | ["_matrix","client",_,"rooms",room,"event",_] =>
      if method = .get then .roomEvent (dec room) else .passthrough
  | ["_matrix","client",_,"notifications"] => if method = .get then .notifications else .passthrough
  | ["_matrix","media",_,"upload"] => if method = .post then .mediaUpload else .passthrough
  | "_matrix" :: "client" :: _ :: "media" :: "download" :: server :: media_id :: _ =>
      if method = .get then .mediaDownload (dec server) (dec media_id) true else .passthrough
  | "_matrix" :: "media" :: _ :: "download" :: server :: media_id :: _ =>
      if method = .get then .mediaDownload (dec server) (dec media_id) false else .passthrough
  | _ => .passthrough

def classify (method : Method) (path : String) : Route :=
  match stripPrefix "/_ement/" path with
  | some rest => .admin rest
  | none => if path = "/_ement" then .admin "" else classifySegments method (segments path)

end EmentE2ee
