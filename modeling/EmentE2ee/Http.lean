import EmentE2ee.Json.Value

/-!
# Requests, answers and what other libraries read from them

Paths and queries are percent-coded text. A body is either raw bytes, which may
or may not parse, or the serialization of a known value. How serde, ruma and
the SDK's own types read values is not the proxy's code: it is collected in
`Codec`, and nothing is assumed about it here.
-/
namespace EmentE2ee

open Json (Value)

abbrev Bytes := List UInt8

def hexDigit (n : Nat) : Char := if n < 10 then Char.ofNat (48 + n) else Char.ofNat (55 + n)

def unreserved (b : UInt8) : Bool :=
  let c := Char.ofNat b.toNat
  (b.toNat < 128 && c.isAlphanum) || c = '-' || c = '_' || c = '.' || c = '~'

/-- One path segment, with everything but unreserved characters escaped. -/
def enc (segment : String) : String :=
  String.ofList (segment.toUTF8.toList.flatMap fun b =>
    if unreserved b then [Char.ofNat b.toNat]
    else ['%',hexDigit (b.toNat / 16),hexDigit (b.toNat % 16)])

def hexValue (b : UInt8) : Option Nat :=
  let n := b.toNat
  if 48 ≤ n ∧ n ≤ 57 then some (n - 48)
  else if 65 ≤ n ∧ n ≤ 70 then some (n - 55)
  else if 97 ≤ n ∧ n ≤ 102 then some (n - 87)
  else none

/-- A percent sign that two hex digits do not follow stands for itself. -/
def percentDecode : Bytes → Bytes
  | [] => []
  | [b] => [b]
  | [b,c] => [b,c]
  | b :: h :: l :: bs =>
      match decide (b.toNat = 37),hexValue h,hexValue l with
      | true,some x,some y => UInt8.ofNat (16 * x + y) :: percentDecode bs
      | _,_,_ => b :: percentDecode (h :: l :: bs)

/-- How many bytes follow the first one of a character, the bits it carries and
the range of the byte after it. -/
def utf8Lead (b : Nat) : Option (Nat × Nat × Nat × Nat) :=
  if b < 0x80 then some (0,b,0,0)
  else if b < 0xC2 then none
  else if b < 0xE0 then some (1,b - 0xC0,0x80,0xBF)
  else if b = 0xE0 then some (2,0,0xA0,0xBF)
  else if b = 0xED then some (2,0xD,0x80,0x9F)
  else if b < 0xF0 then some (2,b - 0xE0,0x80,0xBF)
  else if b = 0xF0 then some (3,0,0x90,0xBF)
  else if b < 0xF4 then some (3,b - 0xF0,0x80,0xBF)
  else if b = 0xF4 then some (3,4,0x80,0x8F)
  else none

/-- The rest of a character, or how much of it was there. -/
def utf8Tail : Nat → Nat → Nat → Nat → Bytes → Option Nat × Bytes
  | 0,acc,_,_,bs => (some acc,bs)
  | n + 1,acc,lo,hi,b :: bs =>
      if lo ≤ b.toNat ∧ b.toNat ≤ hi then utf8Tail n (64 * acc + (b.toNat - 0x80)) 0x80 0xBF bs
      else (none,b :: bs)
  | _ + 1,_,_,_,[] => (none,[])

/-- UTF-8 with one replacement character for each maximal ill-formed part. -/
def utf8Lossy : Nat → Bytes → List Char
  | 0,_ => []
  | _,[] => []
  | fuel + 1,b :: bs =>
      match utf8Lead b.toNat with
      | none => '\uFFFD' :: utf8Lossy fuel bs
      | some (n,acc,lo,hi) =>
          let r := utf8Tail n acc lo hi bs
          (r.1.map Char.ofNat).getD '\uFFFD' :: utf8Lossy fuel r.2

def dec (s : String) : String :=
  let bytes := percentDecode s.toUTF8.toList
  String.ofList (utf8Lossy bytes.length bytes)

/-- Text before and after the first occurrence of a character. -/
def splitOnce (c : Char) : List Char → Option (List Char × List Char)
  | [] => none
  | x :: xs => if x = c then some ([],xs) else (splitOnce c xs).map fun p => (x :: p.1,p.2)

/-- The first parameter of a query with the given name, decoded. -/
def query_param (query : String) (name : String) : Option String :=
  (query.toList.splitOn '&').findSome? fun pair =>
    match splitOnce '=' pair with
    | some (key,value) => if String.ofList key = name then some (dec (String.ofList value)) else none
    | none => none

/-- What follows a prefix, if the text starts with it. -/
def stripPrefix (p s : String) : Option String :=
  if p.toList.isPrefixOf s.toList then some (String.ofList (s.toList.drop p.toList.length)) else none

inductive Method where
  | get | post | put | other (name : String)
  deriving DecidableEq, Repr

abbrev Headers := List (String × String)

structure Request where
  method : Method
  path : String
  query : Option String
  headers : Headers
  body : Bytes
  deriving DecidableEq, Repr

def Request.path_and_query (req : Request) : String :=
  match req.query with
  | some q => req.path ++ "?" ++ q
  | none => req.path

inductive Payload where
  | raw (bytes : Bytes)
  | json (v : Value)

structure Response where
  status : Nat
  headers : Headers
  body : Payload

/-- An answer of the homeserver, read to its end. -/
structure Reply where
  status : Nat
  headers : Headers
  bytes : Bytes

def isSuccess (status : Nat) : Bool := 200 ≤ status && status < 300

def contentType (headers : Headers) : Option String :=
  (headers.find? fun h => h.1 = "content-type").map Prod.snd

/-- The text as the value of a header, which has no control characters but tabs. -/
def headerValue (text : String) : Option String :=
  if text.toList.all fun c => c.toNat == 9 || (c.toNat ≥ 32 && c.toNat != 127) then some text
  else none

def contentTypeHeader : Option String → Headers
  | some ct => [("content-type",ct)]
  | none => []

def raw_response (status : Nat) (content_type : Option String) (body : Payload) : Response :=
  ⟨status,contentTypeHeader content_type,body⟩

/-- How a set of tracked keys is told apart from another process's. -/
abbrev Hasher := Nat

inductive ResponseKind where
  | keysUpload | keysQuery | keysClaim | toDevice | signatureUpload | roomMessage | backupKeys
  deriving DecidableEq, Repr

/-- Third-party readings of texts and values: which strings are IDs, what
converts into which type, how values and statuses are displayed. -/
class Codec where
  isRoomId : String → Bool
  isUserId : String → Bool
  fromSlice : Bytes → Option Value
  /-- `Raw<T>` from a value, and the value of its text. -/
  toRaw : Value → Option Value
  fromRaw : Value → Option Value
  deviceLists : Value → Option Value
  oneTimeKeyCounts : Value → Option (List (String × Nat))
  fallbackKeyTypes : Value → Option (List String)
  messageLikeEvent : Value → Option Value
  /-- URL and key information of an `EncryptedFile`. -/
  encryptedFile : Value → Option (String × Value)
  decryptAttachment : Bytes → Value → Option Bytes
  readsAs : ResponseKind → Value → Bool
  hashOne : Hasher → Value → UInt64
  display : Value → String
  statusText : Nat → String

/-- Readings at their plainest, where the texts at hand do not depend on them. -/
@[reducible] def Codec.plain (fromSlice : Bytes → Option Value) (toRaw : Value → Option Value)
    (hashOne : Hasher → Value → UInt64) : Codec where
  isRoomId _ := true
  isUserId _ := true
  fromSlice := fromSlice
  toRaw := toRaw
  fromRaw := some
  deviceLists := some
  oneTimeKeyCounts _ := some []
  fallbackKeyTypes _ := some []
  messageLikeEvent := some
  encryptedFile _ := none
  decryptAttachment _ _ := none
  readsAs _ _ := true
  hashOne := hashOne
  display _ := ""
  statusText _ := ""

variable [Codec]

abbrev RoomId := String
abbrev UserId := String
abbrev DeviceId := String

def parseRoomId (s : String) : Option RoomId := if Codec.isRoomId s then some s else none
def parseUserId (s : String) : Option UserId := if Codec.isUserId s then some s else none

/-- What a body reads as. -/
def Payload.parse : Payload → Option Value
  | .raw bytes => Codec.fromSlice bytes
  | .json v => some v

end EmentE2ee
