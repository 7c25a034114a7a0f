import EmentE2ee.Crypto.RepairAccounts

/-!
# What an edit replaces

An edit is built from the content of a decrypted event, which its sender chose. It
always targets the event itself: the relation is written last, and what the edit
puts in the placeholder's place has none.
-/
namespace EmentE2ee.SyntheticEdits

open Concurrent
open Json (Value)

/-- The content an edit of the event shows, where that is an object. -/
def shown (plain : Value) : Option Json.Map :=
  ((plain.get "type").bind Value.asStr).bind fun event_type =>
    (newContent plain event_type).bind Value.asObject

/-- The event's own mark can be indexed: it is absent, null or an object. -/
def Markable (plain : Value) : Prop :=
  ∀ v, plain.pointer ["unsigned","ement_e2ee"] = some v → v = .null ∨ v.isObject = true

/-- The relation of an edit of this event, which may be a reply too. -/
structure Targets (event_id : String) (reply : Option Value) (relation : Json.Map) : Prop where
  rel_type : relation.lookup "rel_type" = some (.string "m.replace")
  target : relation.lookup "event_id" = some (.string event_id)
  in_reply_to : relation.lookup "m.in_reply_to" = reply
  only : ∀ k ∉ ["rel_type","event_id","m.in_reply_to"], relation.lookup k = none

/-- The edit shows `m` in the place of the event: its content carries it twice, and
relates to the event only. -/
structure Shows (event_id : String) (m content : Json.Map) : Prop where
  relates : ∃ relation : Json.Map, content.lookup "m.relates_to" = some (.object relation) ∧
    Targets event_id ((m.lookup "m.relates_to").bind (Value.get "m.in_reply_to")) relation
  replaces : ∃ new_content : Json.Map,
    content.lookup "m.new_content" = some (.object new_content) ∧
    new_content.lookup "m.relates_to" = none ∧
    (∀ k ≠ "m.relates_to", new_content.lookup k = m.lookup k) ∧
    ∀ k ∉ ["m.relates_to","m.new_content"], content.lookup k = new_content.lookup k

/-- The edit is a message of the event's sender, time and room, with an ID of its own. -/
structure Replaces (plain : Value) (event_id : String) (m : Json.Map) (edit : Value) : Prop where
  type : edit.get "type" = some (.string "m.room.message")
  id : edit.get "event_id" = some (.string (event_id ++ "~decrypted"))
  copied : ∀ k ∈ ["sender","origin_server_ts","room_id"], edit.get k = plain.get k
  content : ∃ content : Json.Map, edit.get "content" = some (.object content) ∧
    Shows event_id m content

theorem relatesTo_targets (event_id : String) (reply : Option Value) :
    ∃ relation : Json.Map, relatesTo event_id reply = .object relation ∧
      Targets event_id reply relation := by
  cases reply with
  | none =>
      refine ⟨_,rfl,rfl,rfl,rfl,fun k hk => ?_⟩
      simp only [List.mem_cons,List.not_mem_nil,or_false,not_or] at hk
      simp [Json.Map.lookup,Ne.symm hk.1,Ne.symm hk.2.1]
  | some reply =>
      refine ⟨_,rfl,rfl,rfl,rfl,fun k hk => ?_⟩
      simp only [List.mem_cons,List.not_mem_nil,or_false,not_or] at hk
      simp [Json.Map.lookup,Ne.symm hk.1,Ne.symm hk.2.1,Ne.symm hk.2.2]

/-- Whatever the content says of relations and of a new content, it is overwritten. -/
theorem insert_shows (event_id : String) (m : Json.Map) :
    Shows event_id m (Json.Map.insert "m.relates_to"
      (relatesTo event_id ((m.lookup "m.relates_to").bind (Value.get "m.in_reply_to")))
      (Json.Map.insert "m.new_content" (.object (m.remove "m.relates_to"))
        (m.remove "m.relates_to"))) where
  relates := by
    obtain ⟨relation,hrelation,htargets⟩ := relatesTo_targets event_id
      ((m.lookup "m.relates_to").bind (Value.get "m.in_reply_to"))
    rw [Json.Map.lookup_insert_self,hrelation]
    exact ⟨relation,rfl,htargets⟩
  replaces := by
    refine ⟨m.remove "m.relates_to",?_,Json.Map.lookup_remove_self ..,?_,fun k hk => ?_⟩
    · rw [Json.Map.lookup_insert_ne (by decide),Json.Map.lookup_insert_self]
    · exact fun k hk => Json.Map.lookup_remove_ne hk m
    · simp only [List.mem_cons,List.not_mem_nil,or_false,not_or] at hk
      rw [Json.Map.lookup_insert_ne (Ne.symm hk.1),Json.Map.lookup_insert_ne (Ne.symm hk.2)]

/-- A key is copied where it is present. -/
theorem copyKey_self {key : String} (src : Value) {m : Json.Map} (hm : m.lookup key = none) :
    (copyKey src m key).lookup key = src.get key := by
  unfold copyKey
  cases hk : src.get key with
  | none => exact hm
  | some v => exact Json.Map.lookup_insert_self key v m

theorem copied_lookup (plain : Value) {base : Json.Map} {k : String}
    (hk : k ∈ ["sender","origin_server_ts","room_id"]) (hbase : base.lookup k = none) :
    (["sender","origin_server_ts","room_id"].foldl (copyKey plain) base).lookup k =
      plain.get k := by
  simp only [List.mem_cons,List.not_mem_nil,or_false] at hk
  simp only [List.foldl_cons,List.foldl_nil]
  rcases hk with rfl | rfl | rfl
  · rw [SyncRewrite.copyKey_lookup (by decide),SyncRewrite.copyKey_lookup (by decide),
      copyKey_self plain hbase]
  · rw [SyncRewrite.copyKey_lookup (by decide),
      copyKey_self plain (by rwa [SyncRewrite.copyKey_lookup (by decide)])]
  · refine copyKey_self plain ?_
    rwa [SyncRewrite.copyKey_lookup (by decide),SyncRewrite.copyKey_lookup (by decide)]

theorem copied_other (plain : Value) (base : Json.Map) {k : String}
    (hk : k ∉ ["sender","origin_server_ts","room_id"]) :
    (["sender","origin_server_ts","room_id"].foldl (copyKey plain) base).lookup k =
      base.lookup k := by
  simp only [List.mem_cons,List.not_mem_nil,or_false,not_or] at hk
  simp only [List.foldl_cons,List.foldl_nil]
  rw [SyncRewrite.copyKey_lookup (Ne.symm hk.2.2),SyncRewrite.copyKey_lookup (Ne.symm hk.2.1),
    SyncRewrite.copyKey_lookup (Ne.symm hk.1)]

/-- The mark of the edit is written into the event's own. -/
theorem markable_assign {plain : Value} (event_id : String) (h : Markable plain) :
    ∃ marker, ((plain.pointer ["unsigned","ement_e2ee"]).getD (.object [])).assign ["repairs"]
      (.string event_id) = some marker := by
  cases hp : plain.pointer ["unsigned","ement_e2ee"] with
  | none => exact ⟨_,rfl⟩
  | some v =>
      obtain rfl | hobject := h v hp
      · exact ⟨_,rfl⟩
      · obtain ⟨m,rfl⟩ := Value.isObject_iff.mp hobject
        exact ⟨_,rfl⟩

theorem shown_eq {plain : Value} {m : Json.Map} : shown plain = some m ↔
    ∃ event_type, (plain.get "type").bind Value.asStr = some event_type ∧
      (newContent plain event_type).bind Value.asObject = some m :=
  Option.bind_eq_some_iff

theorem canEdit_iff (plain : Value) : RepairAccounts.canEdit plain = true ↔
    (eventId plain).isSome = true ∧ (shown plain).isSome = true := by
  unfold RepairAccounts.canEdit shown
  cases eventId plain with
  | none => simp
  | some id => cases (plain.get "type").bind Value.asStr <;> simp

/-- An edit that is built replaces the event. -/
theorem synthetic_edit_shown {plain : Value} {event_id : String} {m : Json.Map}
    (hid : eventId plain = some event_id) (hm : shown plain = some m) {r : Option Value}
    (h : synthetic_edit plain = some r) : ∃ edit, r = some edit ∧ Replaces plain event_id m edit := by
  obtain ⟨event_type,htype,hm⟩ := shown_eq.mp hm
  unfold synthetic_edit at h
  rw [hid,htype] at h
  dsimp only at h
  rw [hm] at h
  obtain ⟨marker,_,rfl⟩ := Option.map_eq_some_iff.mp h
  refine ⟨_,rfl,?_,?_,fun k hk => ?_,?_⟩
  · rw [Value.get_object,copied_other plain _ (by decide)]
    rfl
  · rw [Value.get_object,copied_other plain _ (by decide)]
    rfl
  · rw [Value.get_object]
    refine copied_lookup plain hk ?_
    simp only [List.mem_cons,List.not_mem_nil,or_false] at hk
    rcases hk with rfl | rfl | rfl <;> rfl
  · refine ⟨_,?_,insert_shows event_id m⟩
    rw [Value.get_object,copied_other plain _ (by decide)]
    rfl

theorem synthetic_edit_markable {plain : Value} (h : Markable plain) :
    ∃ r, synthetic_edit plain = some r := by
  unfold synthetic_edit
  split
  · next event_id _ _ _ =>
      split
      · exact ⟨_,rfl⟩
      · obtain ⟨marker,hmarker⟩ := markable_assign event_id h
        dsimp only
        rw [hmarker]
        exact ⟨_,rfl⟩
  · exact ⟨_,rfl⟩

/-- Nothing can be written into any other mark. -/
theorem synthetic_edit_unmarkable {plain : Value} {event_id : String} {m : Json.Map}
    (hid : eventId plain = some event_id) (hm : shown plain = some m) (h : ¬ Markable plain) :
    synthetic_edit plain = none := by
  obtain ⟨event_type,htype,hm⟩ := shown_eq.mp hm
  unfold Markable at h
  push Not at h
  obtain ⟨v,hv,hnull,hobject⟩ := h
  have hassign : v.assign ["repairs"] (.string event_id) = none := by
    cases v with
    | null => exact (hnull rfl).elim
    | object m => exact (hobject rfl).elim
    | _ => rfl
  unfold synthetic_edit
  rw [hid,htype]
  dsimp only
  rw [hm,hv]
  exact Option.map_eq_none_iff.mpr hassign

theorem synthetic_edit_none_iff (plain : Value) :
    synthetic_edit plain = some none ↔ eventId plain = none ∨ shown plain = none := by
  constructor
  · intro h
    by_contra hsome
    rw [not_or] at hsome
    obtain ⟨event_id,hid⟩ := Option.ne_none_iff_exists'.mp hsome.1
    obtain ⟨m,hm⟩ := Option.ne_none_iff_exists'.mp hsome.2
    obtain ⟨edit,hedit,_⟩ := synthetic_edit_shown hid hm h
    cases hedit
  · intro h
    refine RepairAccounts.synthetic_edit_none (Bool.eq_false_iff.mpr fun hcan => ?_)
    obtain ⟨hid,hm⟩ := (canEdit_iff plain).mp hcan
    rcases h with h | h
    · simp [h] at hid
    · simp [h] at hm

theorem shown_none_iff (plain : Value) : shown plain = none ↔
    (plain.get "type").bind Value.asStr = none ∨
      ∃ event_type, (plain.get "type").bind Value.asStr = some event_type ∧
        (newContent plain event_type).bind Value.asObject = none := by
  unfold shown
  cases (plain.get "type").bind Value.asStr <;> simp

theorem marked_markable {plain : Value} (h : SyncRewrite.Marked plain) : Markable plain :=
  fun v hv => .inr (h v hv)

/-- There is no edit exactly of an event without an ID, without a type or without
content to show; every other edit replaces its event, where that can be marked, and
panics where not. What decrypting leaves has no mark or an object. -/
theorem synthetic_edit_replaces (plain : Value) :
    (synthetic_edit plain = some none ↔ eventId plain = none ∨
      (plain.get "type").bind Value.asStr = none ∨
      ∃ event_type, (plain.get "type").bind Value.asStr = some event_type ∧
        (newContent plain event_type).bind Value.asObject = none) ∧
    (∀ event_id m, eventId plain = some event_id → shown plain = some m → Markable plain →
      ∃ edit, synthetic_edit plain = some (some edit) ∧ Replaces plain event_id m edit) ∧
    (∀ event_id m, eventId plain = some event_id → shown plain = some m → ¬ Markable plain →
      synthetic_edit plain = none) ∧
    (∀ edit, synthetic_edit plain = some (some edit) → ∃ event_id m,
      eventId plain = some event_id ∧ shown plain = some m ∧ Replaces plain event_id m edit) ∧
    ∀ [Codec] (ctx : AccountContext) (room_id : RoomId) (event : Value) (es : List (Sigma Act.Ans)),
      (decrypt ctx room_id event).Did es (.ret (.decrypted plain)) →
        SyncRewrite.Marked plain ∧ synthetic_edit plain ≠ none := by
  refine ⟨?_,?_,fun _ _ => synthetic_edit_unmarkable,?_,?_⟩
  · rw [synthetic_edit_none_iff,shown_none_iff]
  · intro event_id m hid hm hmark
    obtain ⟨r,hr⟩ := synthetic_edit_markable hmark
    obtain ⟨edit,rfl,hreplaces⟩ := synthetic_edit_shown hid hm hr
    exact ⟨edit,hr,hreplaces⟩
  · intro edit hedit
    have hsome : ¬(eventId plain = none ∨ shown plain = none) := by
      rw [← synthetic_edit_none_iff,hedit]
      simp
    rw [not_or] at hsome
    obtain ⟨event_id,hid⟩ := Option.ne_none_iff_exists'.mp hsome.1
    obtain ⟨m,hm⟩ := Option.ne_none_iff_exists'.mp hsome.2
    obtain ⟨e,he,hreplaces⟩ := synthetic_edit_shown hid hm hedit
    cases he
    exact ⟨event_id,m,hid,hm,hreplaces⟩
  · intro _ ctx room_id event es h
    have hmark : SyncRewrite.Marked plain :=
      (SyncRewrite.decrypt_marked ctx room_id event).did h plain rfl
    obtain ⟨r,hr⟩ := synthetic_edit_markable (marked_markable hmark)
    exact ⟨hmark,by rw [hr]; simp⟩

/-- An event with a mark of its own that no key can be put into. -/
def strangelyMarked : Value :=
  .object [("event_id",.string "$e"),("type",.string "m.sticker"),
    ("unsigned",.object [("ement_e2ee",.string "x")])]

/-- Such an event has an ID, a type and something to show, but building its edit panics. -/
theorem strange_mark_panics : eventId strangelyMarked = some "$e" ∧
    (∃ m, shown strangelyMarked = some m) ∧ synthetic_edit strangelyMarked = none := by
  refine ⟨by decide,?_,?_⟩
  · exact ⟨_,rfl⟩
  · rfl

end EmentE2ee.SyntheticEdits
