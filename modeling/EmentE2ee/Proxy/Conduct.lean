import EmentE2ee.Concurrent.Locks
import EmentE2ee.Crypto.SyncCalls
import EmentE2ee.Proxy.Handle

/-!
# What is done for an account

Whatever serves one account touches the data of its context and uses its token, and
nobody else's. The locks of a context are taken in one order: the key of a room is
shared under the share lock, in which the machine's queue is pumped under the pump lock.
-/
namespace EmentE2ee

open Concurrent
open Json (Value)

/-- What an action is to the locks. The session map can be read while nobody inserts. -/
@[simp] def lockUse : Act → LockUse Lock
  | .lock l => .take l
  | .unlock l => .give l
  | .sessions (.refuse _) | .sessions (.settle _) => .free
  | .sessions _ => .need .sessions
  | _ => .free

def Lock.rank : Lock → Nat
  | .share _ => 0
  | _ => 1

def locking : Locking Act Lock := ⟨lockUse,Lock.rank⟩

/-- Actions on an account's own data, and with its own token. -/
@[simp] def Act.ofAccount (ctx : AccountContext) : Act → Prop
  | .rooms c _ | .repairs c _ | .seen c _ | .stats c .. | .olm c _ | .mediaGet c _ => c = ctx
  | .mediaInsert c .. | .poll c _ | .spawn c _ | .recordFinished c => c = ctx
  | .request t .. | .fetch t _ | .upload t .. | .sessions (.remove t) => t = ctx.token
  | .lock l | .unlock l => l = .pump ctx ∨ l = .share ctx ∨ l = .seen ctx
  | .encryptAttachment _ | .now => True
  | _ => False

/-- Those that use no lock. -/
def Act.lone (ctx : AccountContext) (a : Act) : Prop := a.ofAccount ctx ∧ lockUse a = .free

/-- Actions other than uploading keys, telling the machine that a request was sent, and
starting a session. -/
@[simp] def Act.modest : Act → Prop
  | .request _ .keysUpload _ | .olm _ (.markRequestAsSent ..) | .spawn _ (.sessionStart _) => False
  | _ => True

def Act.own (ctx : AccountContext) (a : Act) : Prop := a.lone ctx ∧ a.modest

variable [Codec]

/-- What is done for an account, with the locks in their order, while all that is held has
a rank below `n`. -/
def Conducted {α : Type} (ctx : AccountContext) (n : Nat) (p : M α) : Prop :=
  locking.Within (fun _ _ => True) (Act.ofAccount ctx) (locking.below n) (fun _ => True) p

section
variable {ctx : AccountContext} {α : Type} {n : Nat}

theorem Conducted.ret (a : α) : Conducted ctx n (.ret a) := Locking.Within.ret trivial

theorem Conducted.of_lone {p : M α} (h : p.Does (Act.lone ctx)) : Conducted ctx n p :=
  .of_every (fun _ ha => ha) h

theorem Conducted.of_own {p : M α} (h : p.Does (Act.own ctx)) : Conducted ctx n p :=
  .of_lone (h.mono fun _ ha => ha.1)

theorem Conducted.bind {β : Type} {p : M α} {g : α → M β} (h : Conducted ctx n p)
    (hg : ∀ a, Conducted ctx n (g a)) : Conducted ctx n (p >>= g) :=
  Locking.Within.bind h fun a _ => hg a

theorem Conducted.exceptBind {ε β : Type} {x : ExceptT ε M α} {f : α → ExceptT ε M β}
    (hx : Conducted ctx n x.run) (hf : ∀ a, Conducted ctx n (f a).run) :
    Conducted ctx n (x >>= f).run :=
  Locking.Within.exceptBind hx (fun a _ => hf a) fun _ => trivial

theorem Conducted.map {β : Type} {f : α → β} {p : M α} (h : Conducted ctx n p) :
    Conducted ctx n (f <$> p) := by
  rw [← bind_pure_comp]
  exact h.bind fun a => .ret (f a)

/-- A section under a lock of the account. -/
theorem Conducted.section {l : Lock} {p : M α} (hl : (Act.lock l).ofAccount ctx) (hn : l.rank = n)
    (hp : Conducted ctx (n + 1) p) : Conducted ctx n (withLock l p) := by
  rw [withLock_eq]
  exact Locking.Within.locked rfl rfl (fun _ hheld => Locking.below_cons hn hheld) hl hl
    (fun _ => hp) fun r _ _ => .ret trivial

theorem joined_members_own (room_id : RoomId) : (joined_members ctx room_id).run.Does (Act.own ctx) := by
  refine .exceptBind (by simp [Act.own,Act.lone]) fun t =>
    .exceptBind (by simp [Act.own,Act.lone]) fun cached => ?_
  cases cached with
  | some members => simp
  | none =>
      refine .exceptBind (by simp [Act.own,Act.lone]) fun answer => ?_
      dsimp only
      split_ifs
      · simp
      · simp [Act.own,Act.lone]
      · simp

theorem is_room_encrypted_own (room_id : RoomId) :
    (is_room_encrypted ctx room_id).run.Does (Act.own ctx) := by
  refine .exceptBind (by simp [Act.own,Act.lone]) fun unencrypted => ?_
  split_ifs
  · simp
  refine .exceptBind (by simp [Act.own,Act.lone]) fun settings => ?_
  split_ifs
  · simp
  refine .exceptBind (by simp [Act.own,Act.lone]) fun answer => ?_
  dsimp only
  split_ifs
  · simp [Act.own,Act.lone]
  · split
    · simp
    · simp [Act.own,Act.lone]
  · simp

theorem history_visibility_or_fetch_own (room_id : RoomId) :
    (history_visibility_or_fetch ctx room_id).Does (Act.own ctx) := by
  refine .bind (by simp [Act.own,Act.lone]) fun tracked => ?_
  cases tracked with
  | some v => simp
  | none => simp [Act.own,Act.lone]

theorem scan_state_events_own (room_id : RoomId) (events : List Value) :
    (scan_state_events ctx room_id events).Does (Act.own ctx) := by
  induction events with
  | nil => simp [scan_state_events]
  | cons event events ih =>
      refine .bind ?_ fun _ => ih
      unfold scan_state_event
      split_ifs
      · simp
      split
      · split
        · simp
        · exact ⟨⟨⟨rfl,rfl⟩,trivial⟩,fun _ => ⟨⟨⟨rfl,rfl⟩,trivial⟩,fun _ => trivial⟩⟩
      · split <;> simp [Act.own,Act.lone]
      · simp [Act.own,Act.lone]
      · simp

theorem rewrite_content_own (content : Value) :
    (rewrite_content_for_encrypted_room ctx content).Does (Act.own ctx) := by
  unfold rewrite_content_for_encrypted_room
  split
  · simp
  · refine .bind (by simp [Act.own,Act.lone]) fun entry => ?_
    cases entry <;> simp

theorem exposeUrl_own (key url_key : String) (mimetype filename : Option String) (m : Json.Map) :
    (exposeUrl ctx key url_key mimetype filename m).Does (Act.own ctx) := by
  unfold exposeUrl
  split
  · simp
  · refine .bind ?_ fun url => by cases url <;> simp
    unfold harvest_file
    split
    · simp
    · refine .bind (by simp [Act.own,Act.lone]) fun kept => ?_
      split <;> simp

theorem harvest_own (event : Value) : (harvest_and_rewrite_decrypted ctx event).Does (Act.own ctx) := by
  refine updateM_does (fun content => ?_) event
  split
  · refine .bind (exposeUrl_own ..) fun m => .bind ?_ fun _ => by simp
    refine map_updateM_does (fun info => ?_) m
    split
    · exact .bind (exposeUrl_own ..) fun _ => by simp
    · simp
  · simp

theorem reupload_own (content : Value) :
    (reupload_plaintext_if_needed ctx content).run.Does (Act.own ctx) := by
  unfold reupload_plaintext_if_needed
  split
  · simp
  · refine .exceptBind (by simp [Act.own,Act.lone]) fun entry => ?_
    split
    · simp
    · simp
    · refine .exceptBind (by simp [Act.own,Act.lone]) fun resp => ?_
      split_ifs
      · split
        · simp
        · refine .exceptBind (by simp [Act.own,Act.lone]) fun resp => ?_
          split_ifs
          · split
            · simp
            · split <;> simp
          · simp
      · simp

theorem handle_upload_own (req : Request) : (handle_upload ctx req).run.Does (Act.own ctx) := by
  refine .exceptBind (by simp) fun body => ?_
  refine .exceptBind (by simp [Act.own,Act.lone]) fun encrypted => ?_
  refine .exceptBind (by simp [Act.own,Act.lone]) fun resp => ?_
  dsimp only
  split
  · exact .exceptBind (by simp [Act.own,Act.lone]) fun _ => by simp
  · simp

/-- A download takes two actions. -/
theorem handle_download_does {P : Act → Prop} {server media_id : String}
    (hget : P (.mediaGet ctx ("mxc://" ++ server ++ "/" ++ media_id)))
    (hfetch : P (.fetch ctx.token (downloadPath server media_id))) :
    (handle_download ctx server media_id).run.Does P := by
  refine .exceptBind (by simpa using hget) fun entry => ?_
  refine .exceptBind (by simpa using hfetch) fun resp => ?_
  cases entry with
  | none => simp
  | some entry =>
      dsimp only
      split_ifs
      · split <;> simp
      · simp

theorem handle_download_own (server media_id : String) :
    (handle_download ctx server media_id).run.Does (Act.own ctx) :=
  handle_download_does ⟨⟨rfl,rfl⟩,trivial⟩ ⟨⟨rfl,rfl⟩,trivial⟩

theorem mark_request_as_sent_lone (id : String) (kind : ResponseKind) (body : Value) :
    (mark_request_as_sent ctx id kind body).run.Does (Act.lone ctx) :=
  mark_request_as_sent_does ctx ⟨rfl,rfl⟩ kind

theorem send_and_mark_lone (request : OutgoingRequest) :
    (send_and_mark ctx request).run.Does (Act.lone ctx) := by
  refine .exceptBind (by simp [Act.lone]) fun answer => ?_
  dsimp only
  split_ifs
  · exact mark_request_as_sent_lone ..
  · simp

theorem upload_pending_backups_lone : (upload_pending_backups ctx).run.Does (Act.lone ctx) := by
  have hbatches : ∀ n, (upload_backups ctx n).run.Does (Act.lone ctx) := by
    intro n
    induction n with
    | zero => simp [upload_backups]
    | succ n ih =>
        refine .exceptBind (by simp [Act.lone]) fun batch => ?_
        cases batch with
        | none => simp
        | some batch =>
            refine .exceptBind (by simp [Act.lone]) fun answer => ?_
            dsimp only
            split_ifs
            · exact .exceptBind (mark_request_as_sent_lone ..) fun _ => ih
            · simp
  refine .exceptBind (by simp [Act.lone]) fun enabled => ?_
  split_ifs
  · exact hbatches 100
  · simp

theorem send_all_lone (requests : List OutgoingRequest) :
    (send_all ctx requests).run.Does (Act.lone ctx) := by
  induction requests with
  | nil => simp [send_all]
  | cons request requests ih => exact .exceptBind (send_and_mark_lone request) fun _ => ih

theorem drain_lone (fuel : Nat) : (drain ctx fuel).Does (Act.lone ctx) := by
  induction fuel with
  | zero => simp [drain]
  | succ fuel ih =>
      refine .bind (by simp [Act.lone]) fun queued => ?_
      split
      · simp
      · simp
      · refine .bind (send_all_lone _) fun sent => ?_
        cases sent with
        | error _ => simp
        | ok _ => exact ih

theorem send_keys_claim_lone (id : String) (request : KeysClaimRequest) :
    (send_keys_claim ctx id request).run.Does (Act.lone ctx) := by
  refine .exceptBind (by simp [Act.lone]) fun answer => ?_
  dsimp only
  split_ifs
  · exact mark_request_as_sent_lone ..
  · simp

theorem send_to_device_lone (request : ToDeviceRequest) :
    (send_to_device ctx request).run.Does (Act.lone ctx) := by
  refine .exceptBind (by simp [Act.lone]) fun answer => ?_
  dsimp only
  split_ifs
  · exact mark_request_as_sent_lone ..
  · simp

theorem pump_conducted (fuel : Nat) : Conducted ctx 1 (pump fuel ctx) := by
  refine .section (.inl rfl) rfl (.of_lone (.bind (drain_lone fuel) fun drained => ?_))
  split_ifs
  · exact .bind upload_pending_backups_lone fun _ => by simp
  · simp

theorem republish_lone : (republish ctx).run.Does (Act.lone ctx) := by
  refine .exceptBind (by simp [Act.lone]) fun device => ?_
  cases device with
  | none => simp
  | some keys =>
      refine .exceptBind (by simp [Act.lone]) fun answer => ?_
      dsimp only
      split_ifs <;> simp

theorem session_start_conducted (fuel : Nat) (again : Bool) :
    Conducted ctx 1 (session_start fuel ctx again) := by
  unfold session_start
  split_ifs
  · exact .bind (.of_lone republish_lone) fun _ => pump_conducted fuel
  · exact pump_conducted fuel

theorem encryption_settings_own (room_id : RoomId) :
    (encryption_settings ctx room_id).run.Does (Act.own ctx) := by
  refine .exceptBind (by simp [Act.own,Act.lone]) fun settings => ?_
  refine .exceptBind ?_ fun _ => by simp
  rw [lift_does]
  exact history_visibility_or_fetch_own room_id

theorem send_shares_lone (requests : List ToDeviceRequest) :
    (send_shares ctx requests).run.Does (Act.lone ctx) := by
  induction requests with
  | nil => simp [send_shares]
  | cons request requests ih =>
      refine .exceptBind ?_ fun _ => ih
      rw [withContext_does]
      exact send_to_device_lone request

theorem claim_share_encrypt_conducted (fuel : Nat) (room_id : RoomId) (event_type : String)
    (content : Value) (members : List UserId) :
    Conducted ctx 1 (claim_share_encrypt fuel ctx room_id event_type content members).run := by
  refine .exceptBind (.of_own (by simp [Act.own,Act.lone])) fun _ => ?_
  refine .exceptBind ?_ fun _ => ?_
  · rw [ExceptT.run_lift]
    exact (pump_conducted fuel).map
  refine .exceptBind (.of_own (by simp [Act.own,Act.lone])) fun missing => .exceptBind (.of_lone ?_)
    fun _ => .exceptBind (.of_own (encryption_settings_own room_id)) fun settings => .of_lone ?_
  · cases missing with
    | none => simp
    | some missing =>
        change (withContext _ _).run.Does _
        rw [withContext_does]
        exact send_keys_claim_lone missing.1 missing.2
  refine .exceptBind (by simp [Act.lone]) fun requests => ?_
  refine .exceptBind (send_shares_lone requests) fun _ => ?_
  split
  · simp
  · refine .exceptBind (by simp [Act.lone]) fun encrypted => ?_
    split <;> simp

theorem encrypt_content_conducted (fuel : Nat) (room_id : RoomId) (event_type : String)
    (content : Value) : Conducted ctx 0 (encrypt_content fuel ctx room_id event_type content).run :=
  .exceptBind (.of_own (joined_members_own room_id)) fun members =>
    .section (.inr (.inl rfl)) rfl (claim_share_encrypt_conducted fuel room_id event_type content members)

theorem send_verification_request_conducted (fuel : Nat) (outgoing : OutgoingVerificationRequest) :
    Conducted ctx 0 (send_verification_request fuel ctx outgoing).run := by
  cases outgoing with
  | toDevice r => exact .of_lone (send_to_device_lone r)
  | inRoom r =>
      have hanswer : ∀ answer : Nat × Value, Conducted ctx 0
          (if isSuccess answer.1 then mark_request_as_sent ctx r.txn_id .roomMessage answer.2
          else fail (report "in-room verification send failed" answer.1 answer.2) :
            Fallible Unit).run := fun answer => by
        refine .of_lone ?_
        split_ifs
        · exact mark_request_as_sent_lone ..
        · simp
      refine .exceptBind (.of_own (is_room_encrypted_own r.room_id)) fun encrypted => ?_
      dsimp only
      split_ifs
      · exact .exceptBind (encrypt_content_conducted fuel _ _ _) fun content =>
          .exceptBind (.ret _) fun _ => .exceptBind (.of_own (by simp [Act.own,Act.lone])) hanswer
      · exact .exceptBind (.ret _) fun _ => .exceptBind (.of_own (by simp [Act.own,Act.lone])) hanswer

theorem decrypt_own (room_id : RoomId) (event : Value) :
    (decrypt ctx room_id event).Does (Act.own ctx) := by
  have hfeed : ∀ event, (maybe_feed_verification ctx event).Does (Act.own ctx) := by
    intro event
    unfold maybe_feed_verification
    split_ifs
    · split
      · exact .bind (by simp [Act.own,Act.lone]) fun _ => by simp
      · simp
    · simp
  unfold decrypt
  split_ifs
  · split
    · simp
    · refine .bind (by simp [Act.own,Act.lone]) fun result => ?_
      split
      · split
        · exact .bind (hfeed _) fun _ => .bind (harvest_own _) fun _ => by simp
        · simp
      · simp
      · simp
  · simp

theorem decrypt_event_own (room_id : RoomId) (placeholder : Placeholder) (event : Value) :
    (decrypt_event ctx room_id placeholder event).Does (Act.own ctx) := by
  have hrequest : ∀ (raw : Value) (session_id : Option String),
      (maybe_request_room_key ctx room_id raw session_id).Does (Act.own ctx) := by
    intro raw session_id
    cases session_id with
    | none => simp [maybe_request_room_key]
    | some session_id =>
        refine .bind (by simp [Act.own,Act.lone]) fun fresh => ?_
        split_ifs <;> simp [Act.own,Act.lone]
  refine .bind (decrypt_own room_id event) fun outcome => ?_
  cases outcome with
  | decrypted new_event => simp
  | untouched => simp
  | undecryptable reason session_id raw =>
      refine .bind (hrequest raw session_id) fun _ => ?_
      cases placeholder <;> simp [Act.own,Act.lone]

theorem decryptArray_own (room_id : RoomId) (events : Value) :
    (decryptArray ctx room_id events).Does (Act.own ctx) := by
  unfold decryptArray
  split
  · next events =>
      refine .bind ?_ fun _ => by simp
      induction events with
      | nil => simp [decrypt_events]
      | cons event events ih =>
          exact .bind (decrypt_event_own ..) fun _ => .bind ih fun _ => by simp
  · simp

theorem scanArray_own (room_id : RoomId) (events : Option Value) :
    (scanArray ctx room_id events).Does (Act.own ctx) := by
  unfold scanArray
  split
  · exact scan_state_events_own ..
  · simp

theorem process_notifications_body_own (body : Value) :
    (process_notifications_body ctx body).Does (Act.own ctx) := by
  refine updateM_does (fun v => ?_) body
  split
  · next ns =>
      refine .bind ?_ fun _ => by simp
      induction ns with
      | nil => trivial
      | cons n ns ih =>
          rw [List.mapM_cons]
          refine .bind ?_ fun _ => .bind ih fun _ => by simp
          unfold process_notification
          split
          · simp
          · exact updateM_does (decrypt_event_own _ .final) n
  · simp

theorem handle_history_get_own (req : Request) (route : Route) :
    (handle_history_get ctx req route).run.Does (Act.own ctx) := by
  have hroom : ∀ {room_id : String} {f : RoomId → M Value} {body : Value},
      (∀ r, (f r).Does (Act.own ctx)) → ((parseRoomId room_id).elim (pure body) f).Does (Act.own ctx) := by
    intro room_id f body hf
    cases parseRoomId room_id with
    | none => trivial
    | some r => exact hf r
  refine .exceptBind (by simp [Act.own,Act.lone]) fun reply => ?_
  split_ifs
  · split
    · simp
    · next body _ =>
        refine .exceptBind ?_ fun _ => by simp
        rw [proxy_lift_does]
        cases route with
        | notifications => exact process_notifications_body_own body
        | messages room_id =>
            exact hroom fun r => .bind (scanArray_own ..) fun _ => updateM_does (decryptArray_own r) body
        | context room_id =>
            exact hroom fun r => .bind (scanArray_own ..) fun _ =>
              .bind (updateM_does (decryptArray_own r) body) fun body =>
                .bind (updateM_does (decryptArray_own r) body) fun body =>
                  updateM_does (decrypt_event_own r .repairable) body
        | roomEvent room_id => exact hroom fun r => decrypt_event_own r .repairable body
        | _ => trivial
  · simp

theorem request_room_key_conducted (room_id : RoomId) (raw : Value) (session_id : String) :
    Conducted ctx 1 (request_room_key ctx room_id raw session_id) := by
  refine .bind (.section (.inl rfl) rfl (.of_lone ?_)) fun result => .of_own ?_
  · refine .exceptBind (by simp [Act.lone]) fun requests => ?_
    refine .exceptBind ?_ fun _ => send_and_mark_lone _
    cases requests.1 with
    | none => simp
    | some cancellation => exact send_and_mark_lone cancellation
  · split <;> simp [Act.own,Act.lone]

theorem inject_own (body : Value) : (inject ctx body).Does (Act.own ctx) := by
  have hpush : ∀ (body : Value) (room_id : RoomId) (event : Value),
      (push_into_sync ctx body room_id event).Does (Act.own ctx) := by
    intro body room_id event
    unfold push_into_sync
    split_ifs
    · simp
    · refine .bind (by simp [Act.own,Act.lone]) fun unread => ?_
      cases unread <;> simp
    · simp
  have hall : ∀ (delivered : List String) (repairs : List PendingRepair) (n : Nat) (body : Value),
      (repair_all ctx delivered repairs n body).Does (Act.own ctx) := by
    intro delivered repairs
    induction repairs with
    | nil => simp [repair_all]
    | cons repair rest ih =>
        intro n body
        unfold repair_all
        split_ifs
        · exact ih n body
        refine .bind (decrypt_own ..) fun outcome => ?_
        cases outcome with
        | undecryptable reason session_id raw => exact ⟨⟨⟨rfl,rfl⟩,trivial⟩,fun _ => ih n body⟩
        | untouched => exact ⟨⟨⟨rfl,rfl⟩,trivial⟩,fun _ => ih n body⟩
        | decrypted plain =>
            dsimp only
            split
            · simp
            · exact ih n body
            · refine .bind (hpush ..) fun pushed => ?_
              split
              · simp
              · exact ih ..
              · exact ih ..
  refine .bind (by simp [Act.own,Act.lone]) fun ready => ?_
  split_ifs
  · simp
  · exact hall ..

theorem process_sync_body_own (body : Value) : (process_sync_body ctx body).Does (Act.own ctx) := by
  have hroom : ∀ (sec : Section) (room_id_str : String) (room : Value),
      (process_room ctx sec room_id_str room).Does (Act.own ctx) := by
    intro sec room_id_str room
    unfold process_room
    split
    · simp
    · refine .bind (by cases sec <;> simp [noteMembership,Act.own,Act.lone]) fun _ => ?_
      refine .bind (scanArray_own ..) fun _ => .bind (scanArray_own ..) fun _ => ?_
      exact updateM_does (updateM_does fun v => decryptArray_own _ v) room
  have hsection : ∀ (sec : Section) (rooms : Value),
      (process_section ctx sec rooms).Does (Act.own ctx) := by
    intro sec rooms
    refine updateM_does (fun v => ?_) rooms
    split
    · next m =>
        refine .bind ?_ fun _ => by simp
        induction m with
        | nil => simp [process_rooms]
        | cons e m ih => exact .bind (hroom ..) fun _ => .bind ih fun _ => by simp
    · simp
  refine .bind (updateM_does (fun _ => .bind (hsection ..) fun _ => hsection ..) body) fun body => ?_
  exact .bind (inject_own body) fun _ => by simp

theorem process_sync_changes_own (body : Value) (events : List Value) :
    (process_sync_changes ctx body events).run.Does (Act.own ctx) := by
  obtain ⟨e,he⟩ | ⟨changes,_,he⟩ := SyncCalls.process_run ctx body events
  · rw [he]
    trivial
  · rw [he]
    refine ⟨⟨⟨rfl,rfl⟩,trivial⟩,fun r => ?_⟩
    cases r with
    | error m => trivial
    | ok infos => exact ⟨⟨⟨rfl,rfl⟩,trivial⟩,fun _ => ⟨⟨⟨rfl,rfl⟩,trivial⟩,fun _ => trivial⟩⟩

/-- A batch is received with syncs paused, by own actions. -/
theorem receive_section (body : Value) :
    ∃ p, receive_sync_changes ctx body = withLock (.seen ctx) p ∧ p.Does (Act.own ctx) := by
  refine ⟨_,rfl,⟨⟨rfl,rfl⟩,trivial⟩,fun marked => ?_⟩
  cases marked with
  | error e => trivial
  | ok batch =>
      change Prog.Does _ ((process_sync_changes ctx body batch.to_device_events).run >>= _)
      refine .bind (process_sync_changes_own body batch.to_device_events) fun result => ?_
      cases result with
      | ok room_keys =>
          exact ⟨⟨⟨trivial,rfl⟩,trivial⟩,fun _ => ⟨⟨⟨rfl,rfl⟩,trivial⟩,fun _ => trivial⟩⟩
      | error e => exact ⟨⟨⟨rfl,rfl⟩,trivial⟩,fun _ => trivial⟩

theorem receive_conducted (body : Value) : Conducted ctx 1 (receive_sync_changes ctx body) := by
  obtain ⟨p,he,hp⟩ := receive_section body
  rw [he]
  exact .section (.inr (.inr rfl)) rfl (.of_own hp)

/-- The session of a token that the homeserver no longer knows is removed. -/
theorem remove_conducted : Conducted ctx 1 (act (.sessions (.remove ctx.token))) := by
  refine Locking.Within.need (l := .sessions) rfl rfl ?_ fun _ _ => .ret trivial
  exact fun _ hheld => .inr hheld

theorem handle_sync_conducted (req : Request) : Conducted ctx 1 (handle_sync ctx req).run := by
  have hfinish : ∀ reply, Conducted ctx 1 (finish_sync ctx reply).run := by
    intro reply
    unfold finish_sync
    split_ifs with hsuccess htoken
    · split
      · exact .ret _
      · next body _ =>
          refine .exceptBind ?_ fun _ => .of_own (.exceptBind ?_ fun _ => ?_)
          · rw [run_internally]
            exact (receive_conducted body).bind fun r => .ret _
          · rw [orPanic_does]
            exact process_sync_body_own body
          · exact .exceptBind (by simp [Act.own,Act.lone]) fun _ => by simp
    · exact .exceptBind remove_conducted.map fun _ => .ret _
    · exact .ret _
  have honly : ∀ since, Conducted ctx 1 (repair_only_response ctx since).run := fun since =>
    .of_own (.exceptBind (by simpa using inject_own _) fun _ => by simp)
  unfold handle_sync
  split
  · exact .exceptBind (.of_own (by simp [Act.own,Act.lone])) hfinish
  · next since _ =>
      refine .exceptBind (.of_own (by simp [Act.own,Act.lone])) fun ready => ?_
      split_ifs
      · exact honly since
      refine .exceptBind (.of_own (by simp [Act.own,Act.lone])) fun answer => ?_
      cases answer with
      | none => exact honly since
      | some reply => exact .exceptBind (.of_own (by simp)) hfinish

end

/-- Actions on the data and with the token of the accounts that have the token, and in the
store directories of accounts. -/
def Act.under (config : Config) (token : String) : Act → Prop
  | .rooms c _ | .repairs c _ | .seen c _ | .stats c .. | .olm c _ | .mediaGet c _ => c.token = token
  | .mediaInsert c .. | .poll c _ | .spawn c _ | .recordFinished c => c.token = token
  | .request t .. | .fetch t _ | .upload t .. => t = token
  | .sessions (.get t) | .sessions (.remove t) => t = token
  | .sessions (.insert t ctx) => t = token ∧ ctx.token = token
  | .sessions .list => False
  | .lock (.pump c) | .lock (.share c) | .lock (.seen c) => c.token = token
  | .unlock (.pump c) | .unlock (.share c) | .unlock (.seen c) => c.token = token
  | .passthrough req => bearer_token req = some token
  | .hasStore dir | .openStore dir =>
      ∃ user_id device_id, dir = account_store_dir config.store_dir user_id device_id
  | .withStore user_id device_id dir => dir = account_store_dir config.store_dir user_id device_id
  | .openMedia path =>
      ∃ user_id device_id, path = account_store_dir config.store_dir user_id device_id ++ "/media.sqlite"
  | _ => True

omit [Codec] in
theorem Act.ofAccount.under {ctx : AccountContext} {a : Act} (h : a.ofAccount ctx) (config : Config) :
    a.under config ctx.token := by
  cases a with
  | sessions a =>
      cases a with
      | remove t => exact h
      | _ => exact h.elim
  | lock l => rcases h with rfl | rfl | rfl <;> rfl
  | unlock l => rcases h with rfl | rfl | rfl <;> rfl
  | request t e b => exact h
  | fetch t p => exact h
  | upload t f c b => exact h
  | encryptAttachment d => trivial
  | now => trivial
  | passthrough r => exact h.elim
  | hasStore d => exact h.elim
  | openStore d => exact h.elim
  | withStore u d p => exact h.elim
  | openMedia p => exact h.elim
  | _ => exact congrArg AccountContext.token h

/-- What a request may do: it has the authority of its token, and without one it is passed
on as it came. A legacy download only fetches the media it names. -/
def Request.may (config : Config) (req : Request) (a : Act) : Prop :=
  match classify req.method req.path with
  | .mediaDownload server media_id false =>
      a = .sessions .list ∨ a = .passthrough (forwarded req) ∨
        (∃ ctx, a = .mediaGet ctx ("mxc://" ++ server ++ "/" ++ media_id)) ∨
        ∃ token, a = .fetch token (downloadPath server media_id)
  | _ =>
      match bearer_token req with
      | some token => a.under config token
      | none => a = .passthrough (forwarded req)

/-- A session is found under its own token. -/
def keyed : (a : Act) → a.Ans → Prop
  | .sessions (.get token),some ctx => ctx.token = token
  | _,_ => True

omit [Codec] in
/-- Passing a request on keeps its token. -/
theorem bearer_token_forwarded (req : Request) : bearer_token (forwarded req) = bearer_token req := by
  have hfind : (copy_headers req.headers).find? (fun h => h.1 = "authorization") =
      req.headers.find? fun h => h.1 = "authorization" := by
    rw [copy_headers,List.find?_filter]
    refine congrArg (List.find? · req.headers) (funext fun h => ?_)
    by_cases hname : h.1 = "authorization"
    · rw [hname]
      decide
    · simp [hname]
  unfold bearer_token forwarded
  rw [hfind]

/-- What is done with the authority of a token, while all that is held has a rank below `n`. -/
def Under {α : Type} (config : Config) (token : String) (n : Nat) (E : α → Prop) (p : M α) : Prop :=
  locking.Within keyed (Act.under config token) (locking.below n) E p

section
variable {config : Config} {token : String} {α : Type} {n : Nat}

theorem Under.of_conducted {ctx : AccountContext} (hctx : ctx.token = token) {m : Nat} (hm : m ≤ n)
    {p : M α} (h : Conducted ctx n p) : Under config token m (fun _ => True) p := by
  subst hctx
  exact Locking.Within.lower hm (Locking.Within.weaken (fun _ ha => ha.under config) (fun _ _ _ => trivial) h)

/-- Actions with the token's authority that use no lock. -/
def Act.loneUnder (config : Config) (token : String) (a : Act) : Prop :=
  a.under config token ∧ lockUse a = .free

theorem Under.of_lone {E : α → Prop} {p : M α} (h : p.Every (Act.loneUnder config token) E) :
    Under config token n E p := .of_every (fun _ ha => ha) h

theorem Under.exceptBind {ε β : Type} {x : ExceptT ε M α} {f : α → ExceptT ε M β}
    (hx : Under config token n (fun _ => True) x.run)
    (hf : ∀ a, Under config token n (fun _ => True) (f a).run) :
    Under config token n (fun _ => True) (x >>= f).run :=
  Locking.Within.exceptBind hx (fun a _ => hf a) fun _ => trivial

/-- A result that is a context of the token, if it is one. -/
def OfToken (token : String) : Except Error AccountContext → Prop
  | .ok ctx => ctx.token = token
  | .error _ => True

theorem refuse_session_lone {β : Type} (conflict : DeviceConflict) :
    (SessionManager.refuse_session conflict : Fallible β).run.Does (Act.loneUnder config token) :=
  .exceptBind (by simp [Act.loneUnder,Act.under]) fun _ => trivial

theorem check_new_device_lone (user_id : UserId) (device_id : DeviceId)
    (published : Except Error (Option String)) :
    (SessionManager.check_new_device user_id device_id published).run.Does (Act.loneUnder config token) := by
  unfold SessionManager.check_new_device
  split
  · trivial
  · exact refuse_session_lone _
  · trivial

theorem check_store_lone (user_id : UserId) (device_id : DeviceId) (store_dir : String)
    (olm : OlmMachine) (published : Except Error (Option String)) :
    (SessionManager.check_store user_id device_id store_dir olm published).run.Does
      (Act.loneUnder config token) := by
  unfold SessionManager.check_store
  split
  · split_ifs
    · trivial
    · exact refuse_session_lone _
  · trivial
  · trivial

theorem open_machine_lone (user_id : UserId) (device_id : DeviceId) :
    (open_machine config.store_dir user_id device_id).run.Does (Act.loneUnder config token) :=
  .exceptBind (by simp [Act.loneUnder,Act.under]) fun _ =>
    by simp [Act.loneUnder,Act.under]

/-- The result of an insertion has the token it was asked for. -/
def InsertedUnder (token : String) : Except Error (AccountContext × Option Bool) → Prop
  | .ok (ctx,_) => ctx.token = token
  | .error _ => True

theorem insert_locked_within (user_id : UserId) (device_id : DeviceId)
    (published : Except Error (Option String)) :
    locking.Within keyed (Act.under config token) (fun held => .sessions ∈ held) (InsertedUnder token)
      (SessionManager.insert_locked config token user_id device_id published).run := by
  have hlone : ∀ {β : Type} {p : M β}, p.Does (Act.loneUnder config token) →
      locking.Within keyed (Act.under config token) (fun held => .sessions ∈ held) (fun _ => True) p :=
    fun h => .of_every (fun _ ha => ha) h
  rw [SessionManager.insert_locked,run_step_bind]
  refine .need (l := .sessions) rfl rfl (fun _ hheld => .inl hheld) fun present hpresent => ?_
  cases present with
  | some ctx => exact .ret hpresent
  | none =>
      rw [run_step_bind]
      refine .free ⟨user_id,device_id,rfl⟩ rfl fun has_store _ => ?_
      refine .exceptBind (hlone ?_) (fun _ _ => ?_) fun _ => trivial
      · split_ifs
        · trivial
        · exact check_new_device_lone ..
      refine .exceptBind (hlone (open_machine_lone ..)) (fun olm _ => ?_) fun _ => trivial
      refine .exceptBind (hlone ?_) (fun republish _ => ?_) fun _ => trivial
      · split_ifs
        · exact check_store_lone ..
        · trivial
      refine .exceptBind (hlone ?_) (fun _ _ => ?_) fun _ => trivial
      · simp [Act.loneUnder,Act.under]
      rw [run_step_bind]
      refine .need (l := .sessions) ⟨rfl,rfl⟩ rfl (fun _ hheld => .inl hheld) fun _ _ => ?_
      exact .ret rfl

theorem insert_under (user_id device_id : String) :
    Under config token 1 (OfToken token) (SessionManager.insert config token user_id device_id).run := by
  unfold SessionManager.insert
  split
  · exact .ret trivial
  · next user_id _ =>
      refine Locking.Within.exceptBind (E := fun _ => True) (Under.of_lone ?_) (fun published _ => ?_)
        fun _ => trivial
      · refine (lift_does _).mpr ?_
        refine .exceptBind (by simp [Act.loneUnder,Act.under]) fun answer => ?_
        dsimp only
        split_ifs <;> simp
      refine Locking.Within.exceptBind (E := InsertedUnder token) ?_ (fun inserted hinserted => ?_) fun _ => trivial
      · rw [run_attempt,withLock_eq]
        refine .locked (l := .sessions) rfl rfl ?_ trivial trivial
          (fun _ => insert_locked_within user_id device_id published) fun r _ hr => .ret hr
        exact fun _ hheld => ⟨hheld,List.mem_cons_self⟩
      obtain ⟨ctx,republish⟩ := inserted
      cases republish with
      | none => exact .ret hinserted
      | some republish =>
          exact .free trivial rfl fun _ _ => .free hinserted rfl fun _ _ =>
            .free hinserted rfl fun _ _ => .ret hinserted

theorem get_or_init_under :
    Under config token 1 (OfToken token) (SessionManager.get_or_init config token).run := by
  rw [SessionManager.get_or_init,run_step_bind]
  refine Locking.Within.need (l := .sessions) rfl rfl ?_ fun present hpresent => ?_
  · exact fun _ hheld => .inr hheld
  cases present with
  | some ctx => exact .ret hpresent
  | none =>
      refine Locking.Within.exceptBind (E := fun _ => True) (Under.of_lone ?_) (fun answer _ => ?_)
        fun _ => trivial
      · exact (json_request_does ..).mpr ⟨rfl,rfl⟩
      dsimp only
      split_ifs
      · split
        · exact .ret trivial
        · exact .ret trivial
        · exact insert_under _ _
      · exact .ret trivial

theorem passthrough_lone {req : Request} (h : bearer_token req = some token) :
    (passthrough req).run.Does (Act.loneUnder config token) :=
  passthrough_does.mpr ⟨by rw [Act.under,bearer_token_forwarded]; exact h,rfl⟩

theorem handle_send_under {ctx : AccountContext} {req : Request} (hctx : ctx.token = token)
    (hreq : bearer_token req = some token) (fuel : Nat) (room_id event_type txn_id : String) :
    Under config token 0 (fun _ => True) (handle_send fuel ctx req room_id event_type txn_id).run := by
  have hown : ∀ {β : Type} {p : M β}, p.Does (Act.own ctx) → Under config token 0 (fun _ => True) p :=
    fun h => .of_conducted hctx le_rfl (.of_own h)
  unfold handle_send
  split
  · exact .of_lone (passthrough_lone hreq)
  · next room _ =>
      split_ifs
      · exact .of_lone (passthrough_lone hreq)
      refine .exceptBind (hown (by simpa using is_room_encrypted_own room)) fun encrypted => ?_
      refine .exceptBind (hown (by simp)) fun bytes => ?_
      split
      · exact .of_lone trivial
      · next content _ =>
          have hforward : ∀ (endpoint : Endpoint) (body : Option Value),
              Under config token 0 (fun _ => True) (internally (withContext "failed to forward send"
                (json_request ctx.token endpoint body))).run := fun endpoint body =>
            .of_conducted hctx le_rfl (.of_lone (by simp [Act.lone]))
          dsimp only
          split_ifs
          · refine .exceptBind (hown (by simpa using rewrite_content_own content)) fun content => ?_
            refine .exceptBind (.of_conducted hctx le_rfl ?_) fun body => .exceptBind (.of_lone trivial)
              fun _ => .exceptBind (hforward _ _) fun _ => .of_lone trivial
            rw [run_internally,run_withContext]
            exact ((encrypt_content_conducted fuel room event_type content).bind fun r => .ret _).bind
              fun r => .ret _
          · exact .exceptBind (hown (by simpa using reupload_own content)) fun body =>
              .exceptBind (.of_lone trivial) fun _ => .exceptBind (hforward _ _) fun _ => .of_lone trivial

/-- What is done for a request. -/
def Served {β : Type} (config : Config) (req : Request) (p : M β) : Prop :=
  locking.Within keyed (req.may config) (locking.below 0) (fun _ => True) p

theorem Served.of_under {req : Request} (h : ∀ server media_id,
    classify req.method req.path ≠ .mediaDownload server media_id false)
    (htoken : bearer_token req = some token) {β : Type} {p : M β}
    (hp : Under config token 0 (fun _ => True) p) : Served config req p := by
  refine hp.weaken (fun a ha => ?_) fun _ _ hr => hr
  unfold Request.may
  split
  · next hroute => exact (h _ _ hroute).elim
  · rw [htoken]
    exact ha

theorem passthrough_served (req : Request) : Served config req (passthrough req).run := by
  refine .of_every (P := fun a => req.may config a ∧ lockUse a = .free) (fun _ ha => ha)
    (passthrough_does.mpr ⟨?_,rfl⟩)
  unfold Request.may
  split
  · exact .inr (.inl rfl)
  · split
    · next token htoken =>
        rw [Act.under,bearer_token_forwarded]
        exact htoken
    · rfl

theorem with_context_served {req : Request} (h : ∀ server media_id,
    classify req.method req.path ≠ .mediaDownload server media_id false)
    {intercept : AccountContext → ProxyM Response} (hi : ∀ token ctx, bearer_token req = some token →
      ctx.token = token → Under config token 0 (fun _ => True) (intercept ctx).run) :
    Served config req (with_context config req intercept).run := by
  unfold with_context
  cases htoken : bearer_token req with
  | none => exact passthrough_served req
  | some token =>
      have hunder : ∀ {β : Type} {p : M β}, Under config token 0 (fun _ => True) p → Served config req p :=
        Served.of_under h htoken
      have hpass : Under config token 0 (fun _ => True) (passthrough req).run :=
        .of_lone (passthrough_lone htoken)
      refine hunder (Locking.Within.exceptBind (E := fun r => ∀ ctx, r = .ok (some ctx) → ctx.token = token)
        ?_ (fun found hfound => ?_) fun _ => trivial)
      · refine Locking.Within.exceptBind (E := fun r => ∀ started, r = .ok started → OfToken token started)
          ?_ (fun started hstarted => ?_) fun _ _ he => by cases he
        · rw [ExceptT.run_lift,← bind_pure_comp]
          exact (get_or_init_under.lower (Nat.zero_le 1)).bind fun r hr =>
            .ret fun _ he => by cases he; exact hr
        · have hstarted := hstarted started rfl
          cases started with
          | ok ctx => exact .ret fun _ he => by cases he; exact hstarted
          | error e =>
              dsimp only
              split <;> exact .ret fun _ he => by cases he
      · cases found with
        | none => exact hpass
        | some ctx => exact hi token ctx htoken (hfound ctx rfl)

/-- Every request that is neither the admin's nor a login is served with the authority of
its own token. -/
theorem handle_served {req : Request} (hs : Handlers) (fuel : Nat) (config : Config)
    (hadmin : ∀ sub, classify req.method req.path ≠ .admin sub)
    (hlogin : classify req.method req.path ≠ .login) :
    Served config req (handle hs fuel config req).run := by
  have hconducted : ∀ {m : Nat} {p : AccountContext → ProxyM Response},
      (∀ ctx, Conducted ctx m (p ctx).run) → ∀ token ctx, bearer_token req = some token →
        ctx.token = token → Under config token 0 (fun _ => True) (p ctx).run :=
    fun h _ ctx _ hctx => .of_conducted hctx (Nat.zero_le _) (h ctx)
  unfold handle
  cases hroute : classify req.method req.path with
  | admin sub => exact (hadmin sub hroute).elim
  | login => exact (hlogin hroute).elim
  | sync =>
      exact with_context_served (by simp [hroute]) (hconducted fun ctx => handle_sync_conducted req)
  | messages room_id =>
      exact with_context_served (by simp [hroute])
        (hconducted (m := 0) fun ctx => .of_own (handle_history_get_own req _))
  | context room_id =>
      exact with_context_served (by simp [hroute])
        (hconducted (m := 0) fun ctx => .of_own (handle_history_get_own req _))
  | roomEvent room_id =>
      exact with_context_served (by simp [hroute])
        (hconducted (m := 0) fun ctx => .of_own (handle_history_get_own req _))
  | notifications =>
      exact with_context_served (by simp [hroute])
        (hconducted (m := 0) fun ctx => .of_own (handle_history_get_own req _))
  | send room_id event_type txn_id =>
      exact with_context_served (by simp [hroute]) fun token ctx htoken hctx =>
        handle_send_under hctx htoken fuel room_id event_type txn_id
  | mediaUpload =>
      exact with_context_served (by simp [hroute])
        (hconducted (m := 0) fun ctx => .of_own (handle_upload_own req))
  | passthrough => exact passthrough_served req
  | mediaDownload server media_id authenticated =>
      cases authenticated with
      | true =>
          exact with_context_served (by simp [hroute])
            (hconducted (m := 0) fun ctx => .of_own (handle_download_own server media_id))
      | false =>
          have hmay : ∀ a, req.may config a ↔ a = .sessions .list ∨ a = .passthrough (forwarded req) ∨
              (∃ ctx, a = .mediaGet ctx ("mxc://" ++ server ++ "/" ++ media_id)) ∨
                ∃ token, a = .fetch token (downloadPath server media_id) := fun a => by
            simp only [Request.may,hroute]
          refine Locking.Within.need (l := .sessions) ((hmay _).mpr (.inl rfl)) rfl ?_ fun found _ => ?_
          · exact fun _ hheld => .inr fun h hh => absurd (hheld h hh) (Nat.not_lt_zero _)
          cases found with
          | nil => exact passthrough_served req
          | cons ctx rest =>
              refine .of_every (P := fun a => req.may config a ∧ lockUse a = .free) (fun _ ha => ha) ?_
              refine handle_download_does ⟨?_,rfl⟩ ⟨?_,rfl⟩
              · exact (hmay _).mpr (.inr (.inr (.inl ⟨ctx,rfl⟩)))
              · exact (hmay _).mpr (.inr (.inr (.inr ⟨ctx.token,rfl⟩)))

end
end EmentE2ee
