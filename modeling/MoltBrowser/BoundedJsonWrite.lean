import MoltBrowser.BoundedJsonLanguage

set_option autoImplicit false

/-!
# What the JSON writer writes is read back

The writer's text says the value it was given, and is no longer than any text that says it: an
escape is written only for a character that no text has without one.
-/
namespace MoltBrowser.BoundedJson
open Json List

/-! ## Characters -/

theorem quoteByte_plain {c : UInt8} (h : 0x20 ≤ c) (hquote : c ≠ 0x22) (hescape : c ≠ 0x5C) : quoteByte c = [c] := by
 have hne : ∀ {d : UInt8}, d < 0x20 → c ≠ d := fun hd heq => UInt8.not_lt.2 h (heq ▸ hd)
 rw [quoteByte, if_neg hquote, if_neg hescape, if_neg (hne (by decide)), if_neg (hne (by decide)), if_neg (hne (by decide)),
  if_neg (hne (by decide)), if_neg (hne (by decide)), if_neg (UInt8.not_lt.2 h)]

theorem quoteByte_control : ∀ n < 0x20,
  (∃ e ∈ [0x22, 0x5C, 0x62, 0x66, 0x6E, 0x72, 0x74], quoteByte (UInt8.ofNat n) = [0x5C, e] ∧
   shortEscape e = some (UInt8.ofNat n)) ∨
  (quoteByte (UInt8.ofNat n) = [0x5C, 0x75, 0x30, 0x30, kHex (n / 16), kHex (n % 16)] ∧
   hex4 0x30 0x30 (kHex (n / 16)) (kHex (n % 16)) = some n) := by decide

theorem quoteByte_letter : ∀ e < 256, ∀ n < 0x20, shortEscape (UInt8.ofNat e) = some (UInt8.ofNat n) →
  (quoteByte (UInt8.ofNat n)).length = 2 := by decide +kernel

theorem quoteByte_control_length : ∀ n < 0x20, (quoteByte (UInt8.ofNat n)).length ≤ 6 := by decide

theorem encode_length (c : Char) : (encode c).length ≤ 4 := by
 rw [String.length_utf8EncodeChar]
 exact Char.utf8Size_le_four c

variable {w : Bytes} {c : Char}

theorem control_written (h : CharText w c) (hc : c.toNat < 0x20) :
  CharText (quoteByte (UInt8.ofNat c.toNat)) c ∧ (quoteByte (UInt8.ofNat c.toNat)).length ≤ w.length := by
 have hencode : encode c = [UInt8.ofNat c.toNat] := encode_ascii (by omega)
 constructor
 · rcases quoteByte_control c.toNat hc with ⟨e, -, hquote, hescape⟩ | ⟨hquote, hhex⟩
   · rw [hquote]
     exact .escaped hescape hencode
   · rw [hquote]
     exact .unicode hhex rfl
 · cases h with
   | unescaped hcontrol => omega
   | @escaped e b _ hescape hb =>
    rw [hencode, List.cons.injEq] at hb
    rw [← hb.1, ← @UInt8.ofNat_toNat e] at hescape
    rw [quoteByte_letter e.toNat e.toNat_lt c.toNat hc hescape]
    exact le_refl _
   | unicode => exact quoteByte_control_length c.toNat hc
   | pair _ _ _ _ hpair => omega

theorem quoted_written (h : CharText w c) (hc : c.toNat = 0x22 ∨ c.toNat = 0x5C) :
  CharText (quoteByte (UInt8.ofNat c.toNat)) c ∧ (quoteByte (UInt8.ofNat c.toNat)).length ≤ w.length := by
 have hquote : quoteByte (UInt8.ofNat c.toNat) = [0x5C, UInt8.ofNat c.toNat] ∧
   shortEscape (UInt8.ofNat c.toNat) = some (UInt8.ofNat c.toNat) := by
  rcases hc with hc | hc
  · rw [hc]
    decide
  · rw [hc]
    decide
 rw [hquote.1]
 refine ⟨.escaped hquote.2 (encode_ascii (by omega)), ?_⟩
 cases h with
 | unescaped _ hne hne' => exact absurd hc (by omega)
 | escaped => exact le_refl _
 | unicode => simp
 | pair => simp

theorem plain_bytes (hcontrol : 0x20 ≤ c.toNat) (hquote : c.toNat ≠ 0x22) (hescape : c.toNat ≠ 0x5C) :
  ∀ b ∈ encode c, 0x20 ≤ b ∧ b ≠ 0x22 ∧ b ≠ 0x5C := by
 intro b hb
 by_cases hhigh : 0x80 ≤ c.toNat
 · obtain ⟨lead, tail, n, bits, hc, hlead, -, hall, -⟩ := bytes_of_encode hhigh
   have hbyte : 0x80 ≤ b.toNat := by
    rw [hc] at hb
    rcases mem_cons.1 hb with rfl | hb
    · have := leadByte_iff.1 hlead
      omega
    · exact (hall b hb).1
   refine ⟨UInt8.le_iff_toNat_le.2 (le_trans (by decide) hbyte), ?_, ?_⟩
   · rintro rfl
     exact absurd hbyte (by decide)
   · rintro rfl
     exact absurd hbyte (by decide)
 · rw [encode_ascii (by omega), mem_singleton] at hb
   have hn : b.toNat = c.toNat := by
    rw [hb]
    exact UInt8.toNat_ofNat_of_lt' (show c.toNat < 256 by omega)
   refine ⟨UInt8.le_iff_toNat_le.2 (hn ▸ hcontrol), ?_, ?_⟩
   · rintro rfl
     exact hquote hn.symm
   · rintro rfl
     exact hescape hn.symm

theorem plain_written (h : CharText w c) (hcontrol : 0x20 ≤ c.toNat) (hquote : c.toNat ≠ 0x22)
  (hescape : c.toNat ≠ 0x5C) :
  CharText ((encode c).flatMap quoteByte) c ∧ ((encode c).flatMap quoteByte).length ≤ w.length := by
 have hself : (encode c).flatMap quoteByte = encode c := by
  have hbytes := plain_bytes hcontrol hquote hescape
  generalize encode c = bytes at hbytes ⊢
  induction bytes with
  | nil => rfl
  | cons b bytes ih =>
   obtain ⟨hb, hbytes⟩ := forall_mem_cons.1 hbytes
   rw [flatMap_cons, ih hbytes, quoteByte_plain hb.1 hb.2.1 hb.2.2, singleton_append]
 rw [hself]
 refine ⟨.unescaped hcontrol hquote hescape, ?_⟩
 have hlength := encode_length c
 cases h with
 | unescaped => exact le_refl _
 | escaped _ hb =>
  rw [hb]
  exact Nat.le_succ 1
 | unicode => exact hlength.trans (by simp)
 | pair => exact hlength.trans (by simp)

theorem char_written (h : CharText w c) :
  CharText ((encode c).flatMap quoteByte) c ∧ ((encode c).flatMap quoteByte).length ≤ w.length := by
 by_cases hplain : 0x20 ≤ c.toNat ∧ c.toNat ≠ 0x22 ∧ c.toNat ≠ 0x5C
 · exact plain_written h hplain.1 hplain.2.1 hplain.2.2
 rw [encode_ascii (by omega), flatMap_singleton]
 by_cases hcontrol : c.toNat < 0x20
 · exact control_written h hcontrol
 · exact quoted_written h (by omega)

/-! ## Strings and values -/

theorem chars_written {body : Bytes} {cs : List Char} (h : CharsText body cs) :
  CharsText ((cs.flatMap encode).flatMap quoteByte) cs ∧ ((cs.flatMap encode).flatMap quoteByte).length ≤ body.length := by
 induction h with
 | nil => exact ⟨.nil, le_refl _⟩
 | cons hc _ ih =>
  obtain ⟨hchar, hlength⟩ := char_written hc
  rw [flatMap_cons, flatMap_append, length_append, length_append]
  exact ⟨.cons hchar ih.1, Nat.add_le_add hlength ih.2⟩

theorem string_written {t : Bytes} (h : StringText w t) : StringText (jsonQuote t) t ∧ (jsonQuote t).length ≤ w.length := by
 obtain ⟨body, cs, rfl, hcs, rfl⟩ := h
 obtain ⟨hchars, hlength⟩ := chars_written hcs
 refine ⟨⟨_, cs, rfl, hchars, rfl⟩, ?_⟩
 simp only [jsonQuote, length_cons, length_append]
 omega

def writeForm : Form → Bytes
 | .value v => writeJson v
 | .items l => writeItems l
 | .members l => writeMembers l

theorem spaces_nil : Spaces [] := by simp [Spaces]

theorem written {f : Form} (h : Says f w) : Says f (writeForm f) ∧ (writeForm f).length ≤ w.length := by
 induction h with
 | null => exact ⟨.null, le_refl _⟩
 | true => exact ⟨.true, le_refl _⟩
 | false => exact ⟨.false, le_refl _⟩
 | number h => exact ⟨.number h, le_refl _⟩
 | string h => exact ⟨.string (string_written h).1, (string_written h).2⟩
 | emptyArray _ => exact ⟨.emptyArray spaces_nil, by simp [writeForm, writeJson, writeItems]⟩
 | array _ _ _ ih =>
  refine ⟨.array ih.1 spaces_nil spaces_nil, ?_⟩
  have hlength := ih.2
  simp only [writeForm, writeJson, length_cons, length_append] at hlength ⊢
  omega
 | item _ ih => exact ⟨.item ih.1, ih.2⟩
 | @items v l w rest before after _ hl _ _ ih ihl =>
  have hcons : writeItems (v :: l) = writeJson v ++ ([] ++ 0x2C :: ([] ++ writeItems l)) := by
   cases hl with
   | item => rfl
   | items => rfl
  refine ⟨?_, ?_⟩
  · rw [writeForm, hcons]
    exact .items ih.1 ihl.1 spaces_nil spaces_nil
  · have hlength := ih.2
    have hlength' := ihl.2
    simp only [writeForm, hcons, length_cons, length_append, length_nil] at hlength hlength' ⊢
    omega
 | emptyObject _ => exact ⟨.emptyObject spaces_nil, by simp [writeForm, writeJson, writeMembers]⟩
 | object _ _ _ ih =>
  refine ⟨.object ih.1 spaces_nil spaces_nil, ?_⟩
  have hlength := ih.2
  simp only [writeForm, writeJson, length_cons, length_append] at hlength ⊢
  omega
 | member hk _ _ _ ih =>
  refine ⟨.member (string_written hk).1 ih.1 spaces_nil spaces_nil, ?_⟩
  have hkey := (string_written hk).2
  have hlength := ih.2
  simp only [writeForm, writeMembers, length_cons, length_append] at hlength ⊢
  omega
 | @members k key w before after rest before' after' v l hk _ hl _ _ _ _ ih ihl =>
  have hcons : writeMembers ((k, v) :: l) =
    jsonQuote k ++ ([] ++ 0x3A :: ([] ++ (writeJson v ++ ([] ++ 0x2C :: ([] ++ writeMembers l))))) := by
   cases hl with
   | member => rfl
   | members => rfl
  refine ⟨?_, ?_⟩
  · rw [writeForm, hcons]
    exact .members (string_written hk).1 ih.1 ihl.1 spaces_nil spaces_nil spaces_nil spaces_nil
  · have hkey := (string_written hk).2
    have hlength := ih.2
    have hlength' := ihl.2
    simp only [writeForm, hcons, length_cons, length_append, length_nil] at hlength hlength' ⊢
    omega

/-- What was read is written so that it is read again, within the same limits and in no more bytes. -/
theorem writeJson_read_back {s : Bytes} {limits : JsonLimits} {v : JsonValue} (h : parseJson s limits = .ok v) :
  parseJson (writeJson v) limits = .ok v ∧ (writeJson v).length ≤ s.length := by
 obtain ⟨⟨before, w, after, rfl, -, -, hform⟩, hdistinct, hbytes, hdepth, hvalues⟩ := parseJson_sound h
 obtain ⟨hwritten, hlength⟩ := written hform
 have hle : (writeJson v).length ≤ (before ++ (w ++ after)).length := by
  simp only [writeForm, List.length_append] at hlength ⊢
  omega
 have htext : IsText (writeJson v) v := ⟨[], writeJson v, [], by simp, spaces_nil, spaces_nil, hwritten⟩
 exact ⟨parseJson_complete htext hdistinct (hle.trans hbytes) hdepth hvalues, hle⟩

theorem letter_parsed : parseJson [0x5B, 0x22, 0x5C, 0x75, 0x30, 0x30, 0x34, 0x31, 0x22, 0x5D] {} =
  .ok (.array [.string (utf8 "A")]) := by
 have hchars : CharsText [0x5C, 0x75, 0x30, 0x30, 0x34, 0x31] ['A'] :=
  @CharsText.cons _ [] 'A' [] (.unicode (n := 0x41) (by decide) rfl) .nil
 have hstring : StringText [0x22, 0x5C, 0x75, 0x30, 0x30, 0x34, 0x31, 0x22] (utf8 "A") :=
  ⟨_, _, rfl, hchars, by decide⟩
 have hform := Says.array (.item (.string hstring)) spaces_nil spaces_nil
 exact parseJson_complete ⟨[], _, [], rfl, spaces_nil, spaces_nil, hform⟩ ⟨trivial, trivial⟩ (by decide) (by decide) (by decide)

theorem writeJson_read_back_letter :
  parseJson (writeJson (.array [.string (utf8 "A")])) {} = .ok (.array [.string (utf8 "A")]) ∧
   (writeJson (.array [.string (utf8 "A")])).length ≤ 10 :=
 writeJson_read_back letter_parsed

end MoltBrowser.BoundedJson
