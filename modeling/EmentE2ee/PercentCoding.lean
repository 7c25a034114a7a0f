import EmentE2ee.Http

/-!
# What is escaped is read back

Escaping leaves ASCII text of unreserved characters and percent signs; reading
it back gives the bytes and, as those are well formed, the characters.
-/
namespace EmentE2ee

-- Characters are a finite type, which would be gone through as a whole.
instance decidableForallChars {p : Char → Prop} [DecidablePred p] (cs : List Char) :
    Decidable (∀ c ∈ cs, p c) := List.decidableBAll p cs

theorem toList_loop (bytes : ByteArray) (i : Nat) (acc : List UInt8) :
    ByteArray.toList.loop bytes i acc = acc.reverse ++ bytes.data.toList.drop i := by
  fun_induction ByteArray.toList.loop bytes i acc with
  | case1 i acc h ih =>
      have hi : i < bytes.data.toList.length := by simpa using h
      rw [ih,List.drop_eq_getElem_cons hi]
      simp [ByteArray.get!,h]
  | case2 i acc h =>
      rw [List.drop_eq_nil_of_le (by simpa using Nat.le_of_not_lt h),List.append_nil]

theorem toUTF8_ofList (cs : List Char) :
    (String.ofList cs).toUTF8.toList = cs.flatMap String.utf8EncodeChar := by
  rw [ByteArray.toList,toList_loop]
  simp [List.utf8Encode]

theorem toUTF8_toList (s : String) : s.toUTF8.toList = s.toList.flatMap String.utf8EncodeChar := by
  have h := toUTF8_ofList s.toList
  rwa [String.ofList_toList] at h

/-- Text of ASCII characters has a byte for each. -/
theorem toUTF8_ascii {cs : List Char} (h : ∀ c ∈ cs, c.toNat < 128) :
    (String.ofList cs).toUTF8.toList = cs.map fun c => UInt8.ofNat c.toNat := by
  have hsingle : ∀ c ∈ cs, String.utf8EncodeChar c = [UInt8.ofNat c.toNat] := by
    intro c hc
    have hv : c.val.toNat ≤ 0x7f := Nat.le_of_lt_succ (h c hc)
    rw [String.utf8EncodeChar,if_pos hv]
    rfl
  rw [toUTF8_ofList,List.flatMap_congr hsingle,← List.map_eq_flatMap]

theorem length_le_bytes (cs : List Char) :
    cs.length ≤ (cs.flatMap String.utf8EncodeChar).length := by
  induction cs with
  | nil => exact Nat.le_refl _
  | cons c cs ih =>
      have hc := c.utf8Size_pos
      rw [List.flatMap_cons,List.length_append,String.length_utf8EncodeChar,List.length_cons]
      omega

theorem utf8Lead_two {b : Nat} (h₁ : 0xC2 ≤ b) (h₂ : b < 0xE0) :
    utf8Lead b = some (1,b - 0xC0,0x80,0xBF) := by
  rw [utf8Lead,if_neg (by omega),if_neg (by omega),if_pos h₂]

theorem utf8Lead_three {b : Nat} (h₁ : 0xE0 ≤ b) (h₂ : b < 0xF0) :
    utf8Lead b = some (2,b - 0xE0,if b = 0xE0 then 0xA0 else 0x80,
      if b = 0xED then 0x9F else 0xBF) := by
  rw [utf8Lead,if_neg (by omega),if_neg (by omega),if_neg (by omega)]
  by_cases he : b = 0xE0
  · simp [he]
  · by_cases hd : b = 0xED
    · simp [hd]
    · simp [he,hd,h₂]

theorem utf8Lead_four {b : Nat} (h₁ : 0xF0 ≤ b) (h₂ : b ≤ 0xF4) :
    utf8Lead b = some (3,b - 0xF0,if b = 0xF0 then 0x90 else 0x80,
      if b = 0xF4 then 0x8F else 0xBF) := by
  rw [utf8Lead,if_neg (by omega),if_neg (by omega),if_neg (by omega),if_neg (by omega),
    if_neg (by omega),if_neg (by omega)]
  by_cases he : b = 0xF0
  · simp [he]
  · by_cases hd : b = 0xF4
    · simp [hd]
    · have h₃ : b < 0xF4 := by omega
      simp [he,hd,h₃]

theorem utf8Tail_cons {b lo hi : Nat} (h₁ : lo ≤ b) (h₂ : b ≤ hi) (h₃ : b < 256) (n acc : Nat)
    (bs : Bytes) : utf8Tail (n + 1) acc lo hi (UInt8.ofNat b :: bs) =
      utf8Tail n (64 * acc + (b - 0x80)) 0x80 0xBF bs := by
  have hb : (UInt8.ofNat b).toNat = b := by
    rw [UInt8.toNat_ofNat']
    exact Nat.mod_eq_of_lt h₃
  rw [utf8Tail,hb,if_pos ⟨h₁,h₂⟩]

/-- The characters are those whose encoding is read. -/
theorem utf8Lossy_char (fuel : Nat) (c : Char) (bs : Bytes) :
    utf8Lossy (fuel + 1) (String.utf8EncodeChar c ++ bs) = c :: utf8Lossy fuel bs := by
  obtain ⟨v,hv⟩ : ∃ v, v = c.val.toNat := ⟨_,rfl⟩
  have hchar : Char.ofNat v = c := by
    rw [hv]
    exact Char.ofNat_toNat c
  have hvalid : v < 0xD800 ∨ (0xDFFF < v ∧ v < 0x110000) := by
    rw [hv]
    exact c.valid
  rw [String.utf8EncodeChar]
  simp only [← hv]
  -- One case for each length of an encoding.
  split_ifs with h₁ h₂ h₃
  · have hb : (UInt8.ofNat v).toNat = v := by
      rw [UInt8.toNat_ofNat']
      omega
    have hlead : utf8Lead v = some (0,v,0,0) := by
      rw [utf8Lead,if_pos (by omega)]
    simp [utf8Lossy,hb,hlead,utf8Tail,hchar]
  · have hb : (UInt8.ofNat (v / 64 % 32 + 192)).toNat = v / 64 + 192 := by
      rw [UInt8.toNat_ofNat']
      omega
    have hlead := utf8Lead_two (b := v / 64 + 192) (by omega) (by omega)
    have hsum : 64 * (v / 64 + 192 - 0xC0) + (v % 64 + 128 - 0x80) = v := by omega
    simp only [List.cons_append,List.nil_append,utf8Lossy,hb,hlead]
    rw [utf8Tail_cons (by omega) (by omega) (by omega),utf8Tail,hsum]
    simp [hchar]
  · have hb : (UInt8.ofNat (v / 4096 % 16 + 224)).toNat = v / 4096 + 224 := by
      rw [UInt8.toNat_ofNat']
      omega
    have hlead := utf8Lead_three (b := v / 4096 + 224) (by omega) (by omega)
    have hlo : (if v / 4096 + 224 = 0xE0 then 0xA0 else 0x80) ≤ v / 64 % 64 + 128 := by
      split_ifs <;> omega
    have hhi : v / 64 % 64 + 128 ≤ (if v / 4096 + 224 = 0xED then 0x9F else 0xBF) := by
      split_ifs <;> omega
    have hsum : 64 * (64 * (v / 4096 + 224 - 0xE0) + (v / 64 % 64 + 128 - 0x80)) +
        (v % 64 + 128 - 0x80) = v := by omega
    simp only [List.cons_append,List.nil_append,utf8Lossy,hb,hlead]
    rw [utf8Tail_cons hlo hhi (by omega),utf8Tail_cons (by omega) (by omega) (by omega),utf8Tail,hsum]
    simp [hchar]
  · have hb : (UInt8.ofNat (v / 262144 % 8 + 240)).toNat = v / 262144 + 240 := by
      rw [UInt8.toNat_ofNat']
      omega
    have hlead := utf8Lead_four (b := v / 262144 + 240) (by omega) (by omega)
    have hlo : (if v / 262144 + 240 = 0xF0 then 0x90 else 0x80) ≤ v / 4096 % 64 + 128 := by
      split_ifs <;> omega
    have hhi : v / 4096 % 64 + 128 ≤ (if v / 262144 + 240 = 0xF4 then 0x8F else 0xBF) := by
      split_ifs <;> omega
    have hsum : 64 * (64 * (64 * (v / 262144 + 240 - 0xF0) + (v / 4096 % 64 + 128 - 0x80)) +
        (v / 64 % 64 + 128 - 0x80)) + (v % 64 + 128 - 0x80) = v := by omega
    simp only [List.cons_append,List.nil_append,utf8Lossy,hb,hlead]
    rw [utf8Tail_cons hlo hhi (by omega),utf8Tail_cons (by omega) (by omega) (by omega),
      utf8Tail_cons (by omega) (by omega) (by omega),utf8Tail,hsum]
    simp [hchar]

theorem utf8Lossy_flatMap (cs : List Char) (fuel : Nat) (h : cs.length ≤ fuel) :
    utf8Lossy fuel (cs.flatMap String.utf8EncodeChar) = cs := by
  induction cs generalizing fuel with
  | nil => cases fuel <;> rfl
  | cons c cs ih =>
      obtain ⟨fuel,rfl⟩ : ∃ n, fuel = n + 1 := ⟨fuel - 1,by simp at h; omega⟩
      rw [List.flatMap_cons,utf8Lossy_char,ih fuel (by simpa using h)]

/-- What escaping makes of a byte. -/
def escape (b : UInt8) : List Char :=
  if unreserved b then [Char.ofNat b.toNat]
  else ['%',hexDigit (b.toNat / 16),hexDigit (b.toNat % 16)]

theorem enc_toList (s : String) : (enc s).toList = s.toUTF8.toList.flatMap escape := by
  rw [enc,String.toList_ofList]
  rfl

/-- The characters that escaping leaves. -/
def plain (c : Char) : Bool := c.isAlphanum || c = '-' || c = '_' || c = '.' || c = '~'

theorem hexDigit_alphanum : ∀ n, n < 16 → (hexDigit n).isAlphanum = true := by decide

theorem hexValue_hexDigit : ∀ n, n < 16 → hexValue (UInt8.ofNat (hexDigit n).toNat) = some n := by
  decide

theorem plain_ascii {c : Char} (h : plain c = true) : c.toNat < 128 := by
  have halnum : c.isAlphanum = ((decide (c.val ≥ 'A'.val ∧ c.val ≤ 'Z'.val) ||
      (c.val ≥ 'a'.val && c.val ≤ 'z'.val)) || (c.val ≥ '0'.val && c.val ≤ '9'.val)) := rfl
  simp only [plain,halnum,Bool.or_eq_true,Bool.and_eq_true,decide_eq_true_eq,ge_iff_le,
    UInt32.le_iff_toNat_le] at h
  rcases h with ((((h | rfl) | rfl) | rfl) | rfl)
  · have hc : c.toNat = c.val.toNat := rfl
    have hZ : 'Z'.val.toNat = 90 := rfl
    have hz : 'z'.val.toNat = 122 := rfl
    have h9 : '9'.val.toNat = 57 := rfl
    omega
  all_goals decide

theorem plain_unreserved {b : UInt8} (h : unreserved b = true) :
    plain (Char.ofNat b.toNat) = true := by
  simp only [unreserved,Bool.or_eq_true,Bool.and_eq_true] at h
  simp only [plain,Bool.or_eq_true]
  exact h.imp (Or.imp (Or.imp (Or.imp And.right id) id) id) id

theorem toNat_ofByte (b : UInt8) : (Char.ofNat b.toNat).toNat = b.toNat := by
  have hb := b.toNat_lt
  have hvalid : b.toNat.isValidChar := .inl (by omega)
  rw [Char.ofNat,dif_pos hvalid]
  rfl

/-- Escaping leaves nothing but unreserved characters and percent signs. -/
theorem escape_plain (b : UInt8) : ∀ c ∈ escape b, plain c = true ∨ c = '%' := by
  intro c hc
  have hb := b.toNat_lt
  have hdigit : ∀ n, n < 16 → plain (hexDigit n) = true := fun n hn => by
    simp [plain,hexDigit_alphanum n hn]
  unfold escape at hc
  split_ifs at hc with hu
  · rw [List.mem_singleton] at hc
    exact .inl (hc ▸ plain_unreserved hu)
  · simp only [List.mem_cons,List.not_mem_nil,or_false] at hc
    rcases hc with rfl | rfl | rfl
    · exact .inr rfl
    · exact .inl (hdigit _ (by omega))
    · exact .inl (hdigit _ (by omega))

theorem enc_plain (s : String) : ∀ c ∈ (enc s).toList, plain c = true ∨ c = '%' := by
  intro c hc
  rw [enc_toList,List.mem_flatMap] at hc
  obtain ⟨b,_,hc⟩ := hc
  exact escape_plain b c hc

theorem enc_ascii (s : String) : ∀ c ∈ (enc s).toList, c.toNat < 128 := by
  intro c hc
  rcases enc_plain s c hc with h | rfl
  · exact plain_ascii h
  · decide

theorem percentDecode_cons {b : UInt8} (h : b.toNat ≠ 37) (bs : Bytes) :
    percentDecode (b :: bs) = b :: percentDecode bs := by
  match bs with
  | [] => rfl
  | [c] => rfl
  | c :: d :: bs => simp [percentDecode,h]

theorem percentDecode_escape (b : UInt8) (bs : Bytes) :
    percentDecode ((escape b).map (fun c => UInt8.ofNat c.toNat) ++ bs) =
      b :: percentDecode bs := by
  have hb := b.toNat_lt
  unfold escape
  split_ifs with hu
  · have hne : b.toNat ≠ 37 := by
      intro he
      have hp := plain_unreserved hu
      rw [he] at hp
      exact absurd hp (by decide)
    simp only [List.map_cons,List.map_nil,List.cons_append,List.nil_append,toNat_ofByte,
      UInt8.ofNat_toNat]
    exact percentDecode_cons hne bs
  · have hsum : 16 * (b.toNat / 16) + b.toNat % 16 = b.toNat := by omega
    have hsign : (UInt8.ofNat '%'.toNat).toNat = 37 := by decide
    simp only [List.map_cons,List.map_nil,List.cons_append,List.nil_append]
    rw [percentDecode,hexValue_hexDigit _ (by omega),hexValue_hexDigit _ (by omega),hsign]
    simp only [decide_true,hsum,UInt8.ofNat_toNat]

theorem percentDecode_flatMap (bytes : Bytes) :
    percentDecode ((bytes.flatMap escape).map fun c => UInt8.ofNat c.toNat) = bytes := by
  induction bytes with
  | nil => rfl
  | cons b bytes ih => rw [List.flatMap_cons,List.map_append,percentDecode_escape,ih]

/-- Reading back what was escaped. -/
theorem dec_enc (s : String) : dec (enc s) = s := by
  have hbytes : (enc s).toUTF8.toList =
      (s.toUTF8.toList.flatMap escape).map fun c => UInt8.ofNat c.toNat := by
    have h := toUTF8_ascii (enc_ascii s)
    rwa [String.ofList_toList,enc_toList] at h
  simp only [dec]
  rw [hbytes,percentDecode_flatMap,toUTF8_toList,utf8Lossy_flatMap _ _ (length_le_bytes _),
    String.ofList_toList]

theorem enc_injective : Function.Injective enc :=
  Function.LeftInverse.injective dec_enc

end EmentE2ee
