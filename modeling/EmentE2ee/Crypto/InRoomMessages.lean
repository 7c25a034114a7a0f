import EmentE2ee.Crypto.Encrypt

/-!
# Messages of in-room verifications

The machine's messages leave the proxy from its queue, or from the admin action
that produced them. Only the second way asks whether the room is encrypted.
-/
namespace EmentE2ee.InRoomMessages

open Concurrent
open Json (Value)

/-- The way a message takes. -/
inductive Path where
  | queued (request_id : String)
  | returned

/-- Sends the message. -/
def sends (r : RoomMessageRequest) (a : Act) : Prop :=
  ∃ token wire_type content,
    a = .request token (.sendEvent r.room_id wire_type r.txn_id) (some content)

section
variable [Codec] {ω : Type}

def Path.program (ctx : AccountContext) (fuel : Nat) (r : RoomMessageRequest) :
    Path → Fallible Unit
  | .queued request_id => send_and_mark ctx ⟨request_id,.roomMessage r⟩
  | .returned => send_verification_request fuel ctx (.inRoom r)

variable (O : Outside ω) (ctx : AccountContext) (fuel : Nat) (r : RoomMessageRequest) (s : State ω)

/-- The room is reported as encrypted. -/
def Reported : Prop :=
  ∃ s', Prog.Exec (sem O) (is_room_encrypted ctx r.room_id).run s (.ok true) s'

/-- The message leaves the proxy as an event of this type, with this content. -/
def Leaves (path : Path) (wire_type : String) (content : Value) : Prop :=
  ∃ token s', Prog.Cut (sem O) (sends r) (path.program ctx fuel r).run s
    (.request token (.sendEvent r.room_id wire_type r.txn_id) (some content)) s'

/-- Where the room is reported as encrypted, the message leaves as an encrypted event;
and both ways agree on the type of the event and on whether its content is in the clear. -/
structure Encrypts : Prop where
  encrypted : Reported O ctx r s → ∀ path wire_type content,
    Leaves O ctx fuel r s path wire_type content → wire_type = "m.room.encrypted"
  agree : ∀ request_id t c t' c', Leaves O ctx fuel r s (.queued request_id) t c →
    Leaves O ctx fuel r s .returned t' c' → t = t' ∧ (c = r.content ↔ c' = r.content)

variable {O ctx fuel r s}

/-- After its one request a program sends nothing more. -/
theorem requested_cut {token : String} {e : Endpoint} {body : Option Value}
    {g : Nat × Value → Fallible Unit} (hg : ∀ answer, (g answer).run.Does fun a => ¬ sends r a)
    {a : Act} {s' : State ω}
    (h : Prog.Cut (sem O) (sends r) (json_request token e body >>= g).run s a s') :
    a = .request token e body := by
  rw [json_request,run_call_bind,act_bind] at h
  cases h with
  | before _ => rfl
  | after _ _ => rfl
  | @act _ _ _ _ _ _ answer _ hcut =>
      cases answer with
      | error m => cases hcut
      | ok answer => exact ((hg answer).not_cut hcut).elim

theorem marked_does (id : String) (kind : ResponseKind) (body : Value) :
    (mark_request_as_sent ctx id kind body).run.Does fun a => ¬ sends r a :=
  mark_request_as_sent_does ctx (by rintro ⟨_,_,_,⟨⟩⟩) kind

/-- From the queue a message leaves as it is. -/
theorem queued_leaves (request_id : String) :
    Leaves O ctx fuel r s (.queued request_id) r.event_type r.content :=
  ⟨ctx.token,s,.before ⟨_,_,_,rfl⟩⟩

theorem queued_clear {request_id wire_type : String} {content : Value}
    (h : Leaves O ctx fuel r s (.queued request_id) wire_type content) :
    wire_type = r.event_type ∧ content = r.content := by
  obtain ⟨token,s',hcut⟩ := h
  have hrest : ∀ answer : Nat × Value, (if isSuccess answer.1 then
      mark_as_sent ctx ⟨request_id,.roomMessage r⟩ answer.2
      else fail (report "upstream returned" answer.1 answer.2)).run.Does fun a => ¬ sends r a := by
    intro answer
    split_ifs
    · exact marked_does ..
    · exact fail_does _
  cases requested_cut hrest hcut
  exact ⟨rfl,rfl⟩

theorem is_room_encrypted_asks (room_id : RoomId) :
    (is_room_encrypted ctx room_id).run.Does fun a => ¬ sends r a := by
  unfold is_room_encrypted
  refine .exceptBind (by simp [sends]) fun known => ?_
  split_ifs
  · simp
  refine .exceptBind (by simp [sends]) fun settings => ?_
  split_ifs
  · simp
  refine .exceptBind (by simp [sends]) fun answer => ?_
  obtain ⟨status,body⟩ := answer
  dsimp only
  split_ifs
  · simp [sends]
  · split
    · simp
    · simp [sends]
  · simp

/-- Where the room is not reported as encrypted, a message leaves as it is. -/
theorem returned_clear {wire_type : String} {content : Value} (hroom : ¬ Reported O ctx r s)
    (h : Leaves O ctx fuel r s .returned wire_type content) :
    wire_type = r.event_type ∧ content = r.content := by
  obtain ⟨token,s',hcut⟩ := h
  have hcut : Prog.Cut (sem O) (sends r) (send_room_message_request fuel ctx r).run s
      (.request token (.sendEvent r.room_id wire_type r.txn_id) (some content)) s' := hcut
  rw [send_room_message_request,ExceptT.run_bind] at hcut
  obtain hcut | ⟨answer,s₁,hask,hcut⟩ := Prog.cut_bind hcut
  · exact ((is_room_encrypted_asks r.room_id).not_cut hcut).elim
  cases answer with
  | error e => cases hcut
  | ok encrypted =>
      cases encrypted with
      | true => exact (hroom ⟨s₁,hask⟩).elim
      | false =>
          have hrest : ∀ answer : Nat × Value, (if isSuccess answer.1 then
              mark_request_as_sent ctx r.txn_id .roomMessage answer.2
              else fail (report "in-room verification send failed" answer.1 answer.2)).run.Does
                fun a => ¬ sends r a := by
            intro answer
            split_ifs
            · exact marked_does ..
            · exact fail_does _
          cases requested_cut hrest hcut
          exact ⟨rfl,rfl⟩

/-- Messages are sent as they should be exactly where the room is not reported as
encrypted: the queue never encrypts. -/
theorem in_room_messages_iff : Encrypts O ctx fuel r s ↔ ¬ Reported O ctx r s := by
  constructor
  · intro h hroom
    exact r.clear (h.encrypted hroom (.queued "") _ _ (queued_leaves ""))
  · intro hroom
    refine ⟨fun h => (hroom h).elim,fun request_id t c t' c' hqueued hreturned => ?_⟩
    obtain ⟨rfl,rfl⟩ := queued_clear hqueued
    obtain ⟨rfl,rfl⟩ := returned_clear hroom hreturned
    exact ⟨rfl,Iff.rfl⟩

end

local instance : Codec := .plain (fun _ => none) some fun _ _ => 0

def alice : AccountContext := ⟨"@alice:x","DEV","token",⟨0,"key"⟩⟩

/-- The machine knows the settings of every room. -/
def encryptedRooms : Outside Unit
  | .olm _ (.roomSettings _),_,r,_ => r = .ok (some ⟨"m.megolm.v1.aes-sha2",false,none,none⟩)
  | _,_,_,_ => False

def idle : State Unit := ⟨fun _ => .default 0,∅,[],fun _ => false,()⟩

def mac : RoomMessageRequest where
  room_id := "!r"
  txn_id := "txn"
  event_type := "m.key.verification.mac"
  content := .object [("mac",.object []),("keys",.string "k")]
  clear := by decide

/-- The room is encrypted, and a queued message leaves in the clear. -/
theorem queued_message_is_clear : Reported encryptedRooms alice mac idle ∧
    Leaves encryptedRooms alice 0 mac idle (.queued "q") "m.key.verification.mac" mac.content ∧
    ¬ Encrypts encryptedRooms alice 0 mac idle := by
  have hknown : sem encryptedRooms (.rooms alice (.isKnownUnencrypted "!r")) idle false
      (idle.account alice (idle.accounts alice)) := ⟨rfl,rfl⟩
  have hsettings : sem encryptedRooms (.olm alice (.roomSettings "!r"))
      (idle.account alice (idle.accounts alice)) (.ok (some ⟨"m.megolm.v1.aes-sha2",false,none,none⟩))
      (idle.account alice (idle.accounts alice)) := ⟨rfl,rfl⟩
  have hroom : Reported encryptedRooms alice mac idle :=
    ⟨_,.act hknown (.act hsettings (.ret _ _))⟩
  refine ⟨hroom,queued_leaves "q",fun h => ?_⟩
  exact mac.clear (h.encrypted hroom (.queued "q") _ _ (queued_leaves "q"))

end EmentE2ee.InRoomMessages
