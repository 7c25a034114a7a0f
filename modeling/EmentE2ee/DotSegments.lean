import EmentE2ee.PercentCoding

/-!
# Dot segments

Setting the path of a URL resolves the segments that stand for the directory
itself and for the one above, escaped or not.
-/
namespace EmentE2ee

def singleDots : List String := [".","%2e","%2E"]

def doubleDots : List String :=
  ["..",".%2e",".%2E","%2e.","%2E.","%2e%2e","%2e%2E","%2E%2e","%2E%2E"]

def isDots (segment : String) : Bool := segment ∈ singleDots ++ doubleDots

/-- What is left of the segments, after those kept so far, which are in reverse. A path
that ends in dots ends in a slash. -/
def resolveOnto (kept : List String) : List String → List String
  | [] => kept.reverse
  | p :: ps =>
      if p ∈ doubleDots then
        resolveOnto (if ps.isEmpty then "" :: kept.tail else kept.tail) ps
      else if p ∈ singleDots then resolveOnto (if ps.isEmpty then "" :: kept else kept) ps
      else resolveOnto (p :: kept) ps

def resolveDots (parts : List String) : List String := resolveOnto [] parts

theorem resolveOnto_plain {parts : List String} (h : ∀ p ∈ parts, isDots p = false)
    (kept : List String) : resolveOnto kept parts = kept.reverse ++ parts := by
  induction parts generalizing kept with
  | nil => rw [resolveOnto,List.append_nil]
  | cons p ps ih =>
      have hp := h p List.mem_cons_self
      simp only [isDots,List.mem_append,decide_eq_false_iff_not,not_or] at hp
      rw [resolveOnto,if_neg hp.2,if_neg hp.1,ih fun q hq => h q (List.mem_cons_of_mem p hq)]
      simp

/-- Without dots nothing changes. -/
theorem resolveDots_plain {parts : List String} (h : ∀ p ∈ parts, isDots p = false) :
    resolveDots parts = parts := resolveOnto_plain h []

theorem mem_resolveOnto {kept parts : List String} {q : String} (h : q ∈ resolveOnto kept parts) :
    q = "" ∨ q ∈ kept ∨ q ∈ parts ∧ isDots q = false := by
  induction parts generalizing kept with
  | nil =>
      rw [resolveOnto,List.mem_reverse] at h
      exact .inr (.inl h)
  | cons p ps ih =>
      have htail : ∀ {kept' : List String}, (∀ x ∈ kept', x = "" ∨ x ∈ kept) →
          q ∈ resolveOnto kept' ps → q = "" ∨ q ∈ kept ∨ q ∈ p :: ps ∧ isDots q = false := by
        intro kept' hkept hq
        rcases ih hq with hq | hq | ⟨hq,hdots⟩
        · exact .inl hq
        · rcases hkept q hq with hq | hq
          · exact .inl hq
          · exact .inr (.inl hq)
        · exact .inr (.inr ⟨List.mem_cons_of_mem p hq,hdots⟩)
      rw [resolveOnto] at h
      split_ifs at h with hdouble hend hsingle hend
      · refine htail (fun x hx => ?_) h
        rcases List.mem_cons.mp hx with hx | hx
        · exact .inl hx
        · exact .inr (List.mem_of_mem_tail hx)
      · exact htail (fun x hx => .inr (List.mem_of_mem_tail hx)) h
      · refine htail (fun x hx => ?_) h
        exact List.mem_cons.mp hx
      · exact htail (fun x hx => .inr hx) h
      · rcases ih h with hq | hq | ⟨hq,hdots⟩
        · exact .inl hq
        · rcases List.mem_cons.mp hq with rfl | hq
          · refine .inr (.inr ⟨List.mem_cons_self,?_⟩)
            simp [isDots,hdouble,hsingle]
          · exact .inr (.inl hq)
        · exact .inr (.inr ⟨List.mem_cons_of_mem p hq,hdots⟩)

/-- What is left is empty, or was there and has no dots. -/
theorem mem_resolveDots {parts : List String} {q : String} (h : q ∈ resolveDots parts) :
    q = "" ∨ q ∈ parts ∧ isDots q = false := by
  rcases mem_resolveOnto h with hq | hq | hq
  · exact .inl hq
  · exact absurd hq List.not_mem_nil
  · exact .inr hq

theorem dec_ascii {cs : List Char} (h : ∀ c ∈ cs, c.toNat < 128) :
    dec (String.ofList cs) =
      String.ofList (utf8Lossy (percentDecode (cs.map fun c => UInt8.ofNat c.toNat)).length
        (percentDecode (cs.map fun c => UInt8.ofNat c.toNat))) := by
  rw [dec,toUTF8_ascii h]

theorem dec_dots {segment : String} (h : isDots segment = true) :
    dec segment = "." ∨ dec segment = ".." := by
  have hascii : ∀ s ∈ singleDots ++ doubleDots, ∀ c ∈ s.toList, c.toNat < 128 := by decide
  have hmem : segment ∈ singleDots ++ doubleDots := by simpa [isDots] using h
  rw [← String.ofList_toList (s := segment),dec_ascii (hascii segment hmem)]
  have hvalues : ∀ s ∈ singleDots ++ doubleDots,
      (utf8Lossy (percentDecode (s.toList.map fun c => UInt8.ofNat c.toNat)).length
        (percentDecode (s.toList.map fun c => UInt8.ofNat c.toNat))) ∈ [['.'],['.','.']] := by
    decide
  have hv := hvalues segment hmem
  simp only [List.mem_cons,List.not_mem_nil,or_false] at hv
  rcases hv with hv | hv
  · exact .inl (by rw [hv])
  · exact .inr (by rw [hv])

/-- Text of characters that are not escaped stays as it is. -/
theorem enc_unescaped {s : String} (h : ∀ c ∈ s.toList, plain c = true) : enc s = s := by
  have hescape : ∀ c ∈ s.toList, escape (UInt8.ofNat c.toNat) = [c] := by
    intro c hc
    have hplain := h c hc
    have hascii := plain_ascii hplain
    have hbyte : (UInt8.ofNat c.toNat).toNat = c.toNat := by
      rw [UInt8.toNat_ofNat']
      omega
    have hunreserved : unreserved (UInt8.ofNat c.toNat) = true := by
      simp only [unreserved,hbyte,Char.ofNat_toNat,hascii,decide_true,Bool.true_and]
      exact hplain
    rw [escape,if_pos hunreserved,hbyte,Char.ofNat_toNat]
  have hascii := toUTF8_ascii fun c hc => plain_ascii (h c hc)
  rw [String.ofList_toList] at hascii
  apply String.toList_injective
  rw [enc_toList,hascii,List.flatMap_map,List.flatMap_congr hescape,List.flatMap_singleton']

/-- Only dots are escaped to dots. -/
theorem enc_isDots (name : String) : isDots (enc name) = true ↔ name = "." ∨ name = ".." := by
  constructor
  · intro h
    rw [← dec_enc name]
    exact dec_dots h
  · rintro (rfl | rfl)
    · have henc : enc "." = "." := enc_unescaped (by decide)
      rw [henc]
      decide
    · have henc : enc ".." = ".." := enc_unescaped (by decide)
      rw [henc]
      decide

end EmentE2ee
