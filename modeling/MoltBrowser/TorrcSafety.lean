import MoltBrowser.TorrcBuilder

set_option autoImplicit false

/-!
# No value of a torrc reaches another line

What passes the checks is plain: it has no end of line and no comment, and no quote begins it or
backslash ends it. So the torrc reads back as the lines that the options are for.
-/
namespace MoltBrowser.Torrc
open List
open TorrcFormat (PlainKey PlainValue torrcLines)

/-! ## The characters of what was checked -/

def Graphic (c : UInt8) : Prop := 0x21 ≤ c ∧ c ≤ 0x7E ∧ c ≠ 0x23 ∧ c ≠ 0x5C

instance (c : UInt8) : Decidable (Graphic c) := inferInstanceAs (Decidable (_ ∧ _))

theorem graphic_iff (c : UInt8) : Graphic c ↔ 0x21 ≤ c.toNat ∧ c.toNat ≤ 0x7E ∧ c.toNat ≠ 0x23 ∧ c.toNat ≠ 0x5C := by
 simp [Graphic, UInt8.le_iff_toNat_le, ← UInt8.toNat_inj]

theorem graphic_digit (c : UInt8) (h : isAsciiDigit c = true) : Graphic c := by
 rw [graphic_iff]
 simp only [isAsciiDigit, UInt8.le_iff_toNat_le, Bool.and_eq_true, decide_eq_true_eq, UInt8.reduceToNat] at h
 omega

theorem graphic_hex (c : UInt8) (h : isHexDigit c = true) : Graphic c ∧ Graphic (upperHex c) := by
 simp only [isHexDigit, isAsciiDigit, UInt8.le_iff_toNat_le, Bool.or_eq_true, Bool.and_eq_true, decide_eq_true_eq, UInt8.reduceToNat] at h
 rw [upperHex]
 split_ifs with hlower
 · have hle : (32 : UInt8) ≤ c := UInt8.le_iff_toNat_le.mpr (by
    simp only [UInt8.reduceToNat]
    omega)
   simp only [UInt8.le_iff_toNat_le, UInt8.reduceToNat] at hlower
   simp only [graphic_iff, UInt8.toNat_sub_of_le _ _ hle, UInt8.reduceToNat]
   omega
 · rw [graphic_iff]
   omega

theorem graphic_key (c : UInt8) (h : (isAsciiLower c || isAsciiDigit c || c = 0x2D || c = 0x5F) = true) : Graphic c := by
 rw [graphic_iff]
 simp only [isAsciiLower, isAsciiDigit, UInt8.le_iff_toNat_le, ← UInt8.toNat_inj, Bool.or_eq_true, Bool.and_eq_true, decide_eq_true_eq,
  UInt8.reduceToNat] at h
 omega

theorem graphic_value (c : UInt8) (h : (isAsciiAlnum c || kExtra.contains c) = true) : Graphic c := by
 rcases Bool.or_eq_true_iff.mp h with hplain | hextra
 · rw [graphic_iff]
   simp only [isAsciiAlnum, isAsciiDigit, isAsciiLower, UInt8.le_iff_toNat_le, Bool.or_eq_true, Bool.and_eq_true, decide_eq_true_eq,
    UInt8.reduceToNat] at hplain
   omega
 · have hbytes : kExtra = [0x2B, 0x2F, 0x3D, 0x3A, 0x2C, 0x2E, 0x2D, 0x5F, 0x7E, 0x25, 0x40, 0x3F, 0x26, 0x5B, 0x5D] := rfl
   rw [hbytes, contains_iff_mem] at hextra
   simp only [mem_cons, not_mem_nil, or_false, ← UInt8.toNat_inj, UInt8.reduceToNat] at hextra
   rw [graphic_iff]
   omega

theorem mem_splitOnP (p : UInt8 → Bool) {s : Bytes} {c : UInt8} (h : c ∈ s) : p c = true ∨ ∃ part ∈ s.splitOnP p, c ∈ part := by
 induction s with
 | nil => exact absurd h not_mem_nil
 | cons d s ih =>
  rw [splitOnP_cons_eq_if_modifyHead]
  obtain ⟨first, rest, hsplit⟩ := exists_cons_of_ne_nil (splitOnP_ne_nil p s)
  rcases mem_cons.1 h with rfl | h
  · by_cases hp : p c = true
    · exact .inl hp
    · rw [if_neg hp, hsplit]
      exact .inr ⟨c :: first, mem_cons_self, mem_cons_self⟩
  · rcases ih h with hp | ⟨part, hpart, hc⟩
    · exact .inl hp
    · refine .inr ?_
      split_ifs
      · exact ⟨part, mem_cons_of_mem _ hpart, hc⟩
      · rw [hsplit] at hpart ⊢
        rcases mem_cons.1 hpart with rfl | hpart
        · exact ⟨d :: part, mem_cons_self, mem_cons_of_mem _ hc⟩
        · exact ⟨part, mem_cons_of_mem _ hpart, hc⟩

theorem isValidIPv4_graphic {host : Bytes} (h : isValidIPv4 host = true) : ∀ c ∈ host, Graphic c := by
 intro c hc
 rw [isValidIPv4, Bool.and_eq_true, all_eq_true] at h
 rcases mem_splitOnP (fun c => c = 0x2E) hc with hdot | ⟨part, hpart, hc⟩
 · rw [of_decide_eq_true hdot]
   decide
 · have hoctet := h.1 part hpart
   rw [isValidOctet] at hoctet
   simp only [Bool.and_eq_true, all_eq_true] at hoctet
   exact graphic_digit c (hoctet.1.2 c hc)

theorem isValidIPv6Literal_graphic {host : Bytes} (h : isValidIPv6Literal host = true) : ∀ c ∈ host, Graphic c := by
 intro c hc
 rw [isValidIPv6Literal] at h
 simp only [Bool.and_eq_true, all_eq_true, Bool.or_eq_true, decide_eq_true_eq] at h
 rcases h.1.2 c hc with (rfl | hhex) | rfl
 · decide
 · exact (graphic_hex c hhex).1
 · decide

theorem isValidPort_graphic {port : Bytes} (h : isValidPort port = true) : ∀ c ∈ port, Graphic c := by
 intro c hc
 rw [isValidPort] at h
 simp only [Bool.and_eq_true, all_eq_true] at h
 exact graphic_digit c (h.1.1.2 c hc)

theorem mem_address {addr : Bytes} {c : UInt8} (hcolon : 0x3A ∈ addr) (h : c ∈ addr) :
  c ∈ addr.take (addr.length - (addr.rtakeWhile (· ≠ 0x3A)).length - 1) ∨ c = 0x3A ∨ c ∈ addr.rtakeWhile (· ≠ 0x3A) := by
 have hsplit : addr.rdropWhile (· ≠ 0x3A) ++ addr.rtakeWhile (· ≠ 0x3A) = addr := rdropWhile_append_rtakeWhile
 have hne : addr.rdropWhile (· ≠ 0x3A) ≠ [] := fun hnil => by
  have hall := rdropWhile_eq_nil_iff.1 hnil 0x3A hcolon
  exact absurd hall (by decide)
 have hlast := rdropWhile_last_not _ _ hne
 rw [decide_eq_true_eq, not_not] at hlast
 have hbody := dropLast_append_getLast hne
 rw [hlast] at hbody
 have htake : addr.take (addr.length - (addr.rtakeWhile (· ≠ 0x3A)).length - 1) = (addr.rdropWhile (· ≠ 0x3A)).dropLast := by
  have hlength := congrArg List.length hsplit
  rw [length_append] at hlength
  have hcount : addr.length - (addr.rtakeWhile (· ≠ 0x3A)).length - 1 = (addr.rdropWhile (· ≠ 0x3A)).length - 1 := by omega
  calc addr.take (addr.length - (addr.rtakeWhile (· ≠ 0x3A)).length - 1)
    = (addr.rdropWhile (· ≠ 0x3A) ++ addr.rtakeWhile (· ≠ 0x3A)).take ((addr.rdropWhile (· ≠ 0x3A)).length - 1) := by
        rw [hsplit, hcount]
   _ = (addr.rdropWhile (· ≠ 0x3A)).take ((addr.rdropWhile (· ≠ 0x3A)).length - 1) :=
     take_append_of_le_length (Nat.sub_le _ _)
   _ = (addr.rdropWhile (· ≠ 0x3A)).dropLast := dropLast_eq_take.symm
 rw [← hsplit] at h
 rcases mem_append.1 h with h | h
 · rw [← hbody] at h
   rcases mem_append.1 h with h | h
   · rw [htake]
     exact .inl h
   · exact .inr (.inl (mem_singleton.1 h))
 · exact .inr (.inr h)

theorem mem_bracketed {host : Bytes} {c : UInt8} (hfirst : host.head? = some 0x5B) (hlast : host.getLast? = some 0x5D)
  (h : c ∈ host) : c = 0x5B ∨ c ∈ (host.drop 1).take (host.length - 2) ∨ c = 0x5D := by
 cases host with
 | nil => exact absurd h not_mem_nil
 | cons d host =>
  obtain rfl := Option.some.inj hfirst
  rcases mem_cons.1 h with rfl | h
  · exact .inl rfl
  have hne : host ≠ [] := ne_nil_of_mem h
  have hend : host.getLast hne = 0x5D := by
   rw [getLast?_cons, getLast?_eq_some_getLast hne] at hlast
   exact Option.some.inj hlast
  have hbody := dropLast_append_getLast hne
  rw [hend] at hbody
  rw [← hbody] at h
  rcases mem_append.1 h with h | h
  · refine .inr (.inl ?_)
    rw [drop_one, tail_cons, length_cons, show host.length + 1 - 2 = host.length - 1 by omega,
     ← dropLast_eq_take]
    exact h
  · exact .inr (.inr (mem_singleton.1 h))

theorem isValidBridgeAddress_graphic {addr : Bytes} (h : isValidBridgeAddress addr = true) : ∀ c ∈ addr, Graphic c := by
 intro c hc
 rw [isValidBridgeAddress] at h
 by_cases hcolon : 0x3A ∈ addr
 · rw [if_neg (not_not.2 hcolon)] at h
   dsimp only at h
   have hmem := mem_address hcolon hc
   generalize addr.take (addr.length - (addr.rtakeWhile (· ≠ 0x3A)).length - 1) = host at h hmem
   split_ifs at h with hport hbracket hshort
   · simp only [Bool.or_eq_true, decide_eq_true_eq, not_or, not_not] at hshort
     rcases hmem with hhost | rfl | hc
     · rcases mem_bracketed hbracket hshort.2 hhost with rfl | hinner | rfl
       · decide
       · exact isValidIPv6Literal_graphic h c hinner
       · decide
     · decide
     · exact isValidPort_graphic (by simpa using hport) c hc
   · rcases hmem with hhost | rfl | hc
     · exact isValidIPv4_graphic h c hhost
     · decide
     · exact isValidPort_graphic (by simpa using hport) c hc
 · rw [if_pos hcolon] at h
   exact absurd h (by simp)

theorem mem_option {token : Bytes} {c : UInt8} (heq : 0x3D ∈ token) (h : c ∈ token) :
  c ∈ token.takeWhile (· ≠ 0x3D) ∨ c = 0x3D ∨ c ∈ (token.dropWhile (· ≠ 0x3D)).tail := by
 induction token with
 | nil => exact absurd h not_mem_nil
 | cons d token ih =>
  by_cases hd : d = 0x3D
  · rcases mem_cons.1 h with rfl | h
    · exact .inr (.inl hd)
    · rw [dropWhile_cons, if_neg (by simp [hd])]
      exact .inr (.inr h)
  · have heq : 0x3D ∈ token := (mem_cons.1 heq).resolve_left fun heq => hd heq.symm
    rw [takeWhile_cons, if_pos (by simp [hd]), dropWhile_cons, if_pos (by simp [hd])]
    rcases mem_cons.1 h with rfl | h
    · exact .inl mem_cons_self
    · rcases ih heq h with h | h
      · exact .inl (mem_cons_of_mem _ h)
      · exact .inr h

theorem bridgeOption_graphic {isObfs4 : Bool} {seen seen' : BridgeOptions} {token : Bytes}
  (h : bridgeOption isObfs4 seen token = .ok seen') : token ≠ [] ∧ ∀ c ∈ token, Graphic c := by
 rw [bridgeOption] at h
 by_cases heq : 0x3D ∈ token
 · rw [if_neg (not_not.2 heq)] at h
   refine ⟨ne_nil_of_mem heq, fun c hc => ?_⟩
   dsimp only at h
   by_cases hinvalid : (!isValidParamKey (token.takeWhile (· ≠ 0x3D)) || !isValidParamValue (token.dropWhile (· ≠ 0x3D)).tail) = true
   · rw [if_pos hinvalid] at h
     exact absurd h (by simp)
   · simp only [Bool.or_eq_true, Bool.not_eq_true', not_or, Bool.not_eq_false] at hinvalid
     obtain ⟨hkey, hvalue⟩ := hinvalid
     rw [isValidParamKey, Bool.and_eq_true, all_eq_true] at hkey
     rw [isValidParamValue, Bool.and_eq_true, all_eq_true] at hvalue
     rcases mem_option heq hc with hc | rfl | hc
     · exact graphic_key c (hkey.2 c hc)
     · decide
     · exact graphic_value c (hvalue.2 c hc)
 · rw [if_pos heq] at h
   exact absurd h (by simp)

theorem bridgeOptions_graphic {isObfs4 : Bool} {seen seen' : BridgeOptions} {options : List Bytes}
  (h : options.foldlM (bridgeOption isObfs4) seen = .ok seen') : ∀ token ∈ options, token ≠ [] ∧ ∀ c ∈ token, Graphic c := by
 induction options generalizing seen with
 | nil => exact fun token htoken => absurd htoken not_mem_nil
 | cons first options ih =>
  rw [foldlM_cons] at h
  cases hfirst : bridgeOption isObfs4 seen first with
  | error why =>
   rw [hfirst] at h
   exact absurd h (by simp [bind, Except.bind])
  | ok next =>
   rw [hfirst] at h
   intro token htoken
   rcases mem_cons.1 htoken with rfl | htoken
   · exact bridgeOption_graphic hfirst
   · exact ih h token htoken

theorem normalizeBridgeLine_ok {text normalized : Bytes} (h : normalizeBridgeLine text = .ok normalized) :
  ∃ (transport address fingerprint : Bytes) (options : List Bytes), (transport = utf8 "obfs4" ∨ transport = utf8 "snowflake") ∧
   isValidBridgeAddress address = true ∧ fingerprint.length = 40 ∧ (∀ c ∈ fingerprint, isHexDigit c = true) ∧
   (∃ isObfs4 seen, options.foldlM (bridgeOption isObfs4) {} = .ok seen) ∧
   normalized = transport ++ 0x20 :: (address ++ 0x20 :: (fingerprint.map upperHex ++ options.flatMap (0x20 :: ·))) := by
 rw [normalizeBridgeLine] at h
 dsimp only at h
 split at h
 · cases h
 split at h
 · cases h
 split at h
 next transport address fingerprint options htokens =>
  split at h
  · cases h
  next htransport =>
  split at h
  · cases h
  next haddress =>
  split at h
  · cases h
  next hlength =>
  split at h
  · cases h
  next hhex =>
  split at h
  · cases h
  next seen hseen =>
  split at h
  · cases h
  refine ⟨transport, address, fingerprint, options, ?_, by simpa using haddress, not_not.1 hlength, ?_, ⟨_, seen, hseen⟩,
   (Except.ok.inj h).symm⟩
  · by_contra hneither
    rw [not_or] at hneither
    exact htransport (by simp [hneither.1, hneither.2])
  · intro c hc
    by_contra hnot
    exact hhex (any_eq_true.2 ⟨c, hc, by simp [hnot]⟩)
 · cases h

theorem flatMap_graphic {options : List Bytes} (h : ∀ token ∈ options, token ≠ [] ∧ ∀ c ∈ token, Graphic c) {head : Bytes}
  (hne : head ≠ []) (hhead : ∀ c ∈ head, Graphic c) :
  (∀ c ∈ head ++ options.flatMap (0x20 :: ·), Graphic c ∨ c = 0x20) ∧
   ∀ c, (head ++ options.flatMap (0x20 :: ·)).getLast? = some c → Graphic c := by
 induction options generalizing head with
 | nil =>
  rw [flatMap_nil, append_nil]
  exact ⟨fun c hc => .inl (hhead c hc), fun c hc => hhead c (mem_of_getLast? hc)⟩
 | cons token options ih =>
  obtain ⟨htoken, hchars⟩ := h token mem_cons_self
  obtain ⟨hall, hlast⟩ := ih (fun t ht => h t (mem_cons_of_mem _ ht)) htoken hchars
  rw [flatMap_cons, cons_append]
  constructor
  · intro c hc
    rcases mem_append.1 hc with hc | hc
    · exact .inl (hhead c hc)
    rcases mem_cons.1 hc with hc | hc
    · exact .inr hc
    · exact hall c hc
  · intro c hc
    rw [getLast?_append_of_ne_nil _ (cons_ne_nil _ _), getLast?_cons_of_ne_nil (by simp [htoken])] at hc
    exact hlast c hc

theorem normalizeBridgeLine_plain {text normalized : Bytes} (h : normalizeBridgeLine text = .ok normalized) : PlainValue normalized := by
 obtain ⟨transport, address, fingerprint, options, htransport, haddress, hlength, hhex, ⟨isObfs4, seen, hseen⟩, rfl⟩ :=
  normalizeBridgeLine_ok h
 have hfingerprint : ∀ c ∈ fingerprint.map upperHex, Graphic c := by
  intro c hc
  obtain ⟨d, hd, rfl⟩ := mem_map.1 hc
  exact (graphic_hex d (hhex d hd)).2
 have hne : fingerprint.map upperHex ≠ [] := fun hnil => by
  rw [map_eq_nil_iff] at hnil
  rw [hnil] at hlength
  exact absurd hlength (by decide)
 obtain ⟨hall, hlast⟩ := flatMap_graphic (bridgeOptions_graphic hseen) hne hfingerprint
 have hword : transport ≠ [] ∧ (∀ c ∈ transport, Graphic c) ∧ ∀ c, transport.head? = some c → c ≠ 0x22 := by
  rcases htransport with rfl | rfl <;> decide +kernel
 have hgraphic : ∀ c, Graphic c → c ≠ 0x0A ∧ c ≠ 0x23 ∧ c ≠ 0 ∧ TorrcFormat.isSpace c = false ∧ c ≠ 0x5C ∧
   TorrcFormat.isBlank c = false := fun c hc => by
  rw [graphic_iff] at hc
  simp [TorrcFormat.isSpace, TorrcFormat.isBlank, UInt8.le_iff_toNat_le, ← UInt8.toNat_inj]
  omega
 have haddressAll := isValidBridgeAddress_graphic haddress
 refine ⟨fun c hc => ?_, fun c hc => ?_, fun c hc => ?_⟩
 · have hfirst : transport.head? = some c := by
    rw [head?_append_of_ne_nil _ hword.1] at hc
    exact hc
   exact ⟨hword.2.2 c hfirst, (hgraphic c (hword.2.1 c (mem_of_head? hfirst))).2.2.2.2.2⟩
 · have hchar : Graphic c ∨ c = 0x20 := by
    rcases mem_append.1 hc with hc | hc
    · exact .inl (hword.2.1 c hc)
    rcases mem_cons.1 hc with hc | hc
    · exact .inr hc
    rcases mem_append.1 hc with hc | hc
    · exact .inl (haddressAll c hc)
    rcases mem_cons.1 hc with hc | hc
    · exact .inr hc
    · exact hall c hc
   rcases hchar with hchar | rfl
   · exact ⟨(hgraphic c hchar).1, (hgraphic c hchar).2.1, (hgraphic c hchar).2.2.1⟩
   · decide
 · have hend : (fingerprint.map upperHex ++ options.flatMap (0x20 :: ·)).getLast? = some c := by
    rw [← hc, getLast?_append_of_ne_nil _ (cons_ne_nil _ _), getLast?_cons_of_ne_nil (by simp),
     getLast?_append_of_ne_nil _ (cons_ne_nil _ _), getLast?_cons_of_ne_nil (by simp [hne])]
   exact ⟨(hgraphic c (hlast c hend)).2.2.2.1, (hgraphic c (hlast c hend)).2.2.2.2.1⟩

theorem isSafeTorrcValue_plain {v : Bytes} (h : isSafeTorrcValue v = true) : v ≠ [] ∧ PlainValue v := by
 rw [isSafeTorrcValue] at h
 simp only [Bool.and_eq_true, Bool.not_eq_true', Bool.or_eq_false_iff, all_eq_true, decide_eq_false_iff_not] at h
 obtain ⟨⟨⟨⟨⟨hne, hquote⟩, hfirst⟩, hblank⟩, hback⟩, hall⟩ := h
 have hchar : ∀ c : UInt8, (c < 0x20) = False ∧ ¬ c = 0x7F ∧ ¬ c = 0x23 → c ≠ 0x0A ∧ c ≠ 0x23 ∧ c ≠ 0 ∧
   (isBlank c = false → TorrcFormat.isSpace c = false) := fun c hc => by
  simp [isBlank, TorrcFormat.isSpace, UInt8.lt_iff_toNat_lt, UInt8.le_iff_toNat_le, ← UInt8.toNat_inj] at hc ⊢
  omega
 have hplain : ∀ c ∈ v, c ≠ 0x0A ∧ c ≠ 0x23 ∧ c ≠ 0 ∧ (isBlank c = false → TorrcFormat.isSpace c = false) := fun c hc =>
  hchar c ⟨eq_false (hall c hc).1.1, (hall c hc).1.2, (hall c hc).2⟩
 refine ⟨by simpa using hne, fun c hc => ⟨?_, ?_⟩, fun c hc => ?_, fun c hc => ⟨?_, ?_⟩⟩
 · rintro rfl
   exact hquote hc
 · rw [hc] at hfirst
   exact hfirst
 · exact ⟨(hplain c hc).1, (hplain c hc).2.1, (hplain c hc).2.2.1⟩
 · rw [hc] at hblank
   exact (hplain c (mem_of_getLast? hc)).2.2.2 hblank
 · rintro rfl
   exact hback hc

theorem isValidTransportExec_safe {exec : Bytes} (h : isValidTransportExec exec = true) : isSafeTorrcValue exec = true := by
 rw [isValidTransportExec] at h
 by_contra hunsafe
 rw [if_pos (by simpa using hunsafe)] at h
 exact absurd h (by simp)

theorem plain_after {words v : Bytes} (hwords : PlainValue (words ++ [0x61])) (hv : v ≠ [] ∧ PlainValue v) (hne : words ≠ []) :
  PlainValue (words ++ v) := by
 obtain ⟨hv, hplain⟩ := hv
 refine ⟨fun c hc => hwords.head c ?_, fun c hc => ?_, fun c hc => hplain.last c ?_⟩
 · rw [head?_append_of_ne_nil _ hne] at hc ⊢
   exact hc
 · rcases mem_append.1 hc with hc | hc
   · exact hwords.plain c (mem_append_left _ hc)
   · exact hplain.plain c hc
 · rw [getLast?_append_of_ne_nil _ hv] at hc
   exact hc

theorem braced_plain {cc : Bytes} (h : isValidExitCountry cc = true) : PlainValue (utf8 "\x7b" ++ cc ++ utf8 "\x7d") := by
 have hlower : ∀ c : UInt8, isAsciiLower c = true → c ≠ 0x0A ∧ c ≠ 0x23 ∧ c ≠ 0 := fun c hc => by
  simp only [isAsciiLower, UInt8.le_iff_toNat_le, Bool.and_eq_true, decide_eq_true_eq, UInt8.reduceToNat] at hc
  simp only [ne_eq, ← UInt8.toNat_inj, UInt8.reduceToNat]
  omega
 have hopen : utf8 "\x7b" = [0x7B] := by decide
 have hclose : utf8 "\x7d" = [0x7D] := by decide
 rw [isValidExitCountry, Bool.and_eq_true, all_eq_true] at h
 rw [hopen, hclose]
 refine ⟨fun c hc => ?_, fun c hc => ?_, fun c hc => ?_⟩
 · obtain rfl := Option.some.inj hc
   decide
 · rcases mem_append.1 hc with hc | hc
   · rcases mem_cons.1 hc with rfl | hc
     · decide
     · exact hlower c (h.2 c hc)
   · obtain rfl := mem_singleton.1 hc
     decide
 · rw [getLast?_concat] at hc
   obtain rfl := Option.some.inj hc
   decide

/-! ## The checks -/

theorem neededTransports_ok {lines : List Bytes} {a b x y : Bool} (h : neededTransports a b lines = .ok (x, y)) :
  (∀ line ∈ lines, normalizeBridgeLine line = .ok line) ∧
   x = (a || lines.any fun line => getBridgeTransport line = some .kObfs4) ∧
   y = (b || lines.any fun line => getBridgeTransport line = some .kSnowflake) := by
 induction lines generalizing a b with
 | nil =>
  obtain ⟨rfl, rfl⟩ := Prod.mk.inj (Except.ok.inj h)
  simp
 | cons line lines ih =>
  rw [neededTransports] at h
  cases hnormal : normalizeBridgeLine line with
  | error why =>
   rw [hnormal] at h
   cases h
  | ok normalized =>
   rw [hnormal] at h
   dsimp only at h
   by_cases hsame : normalized = line
   · rw [if_neg (not_not.2 hsame)] at h
     subst hsame
     have hrest : ∀ a' b', neededTransports a' b' lines = .ok (x, y) →
       (∀ l ∈ normalized :: lines, normalizeBridgeLine l = .ok l) ∧
        x = (a' || lines.any fun line => getBridgeTransport line = some .kObfs4) ∧
        y = (b' || lines.any fun line => getBridgeTransport line = some .kSnowflake) := by
      intro a' b' h
      obtain ⟨hlines, hx, hy⟩ := ih h
      refine ⟨fun l hl => ?_, hx, hy⟩
      rcases mem_cons.1 hl with rfl | hl
      · exact hnormal
      · exact hlines l hl
     rw [any_cons, any_cons]
     cases htransport : getBridgeTransport normalized with
     | none =>
      rw [htransport] at h
      simpa using hrest a b h
     | some transport =>
      rw [htransport] at h
      cases transport with
      | kObfs4 => simpa using hrest true b h
      | kSnowflake => simpa using hrest a true h
   · rw [if_pos hsame] at h
     cases h

structure Checked (options : TorrcOptions) : Prop where
 dataDir : isSafeTorrcValue options.dataDir = true
 cookieFile : isSafeTorrcValue options.cookieFile = true
 controlPortFile : isSafeTorrcValue options.controlPortFile = true
 logFile : isSafeTorrcValue options.logFile = true
 geoipFile : options.geoipFile.isEmpty = false → isSafeTorrcValue options.geoipFile = true
 geoip6File : options.geoip6File.isEmpty = false → isSafeTorrcValue options.geoip6File = true
 exitCountry : options.exitCountry.isEmpty = false → isValidExitCountry options.exitCountry = true
 bridgeLines : ∀ line ∈ options.bridgeLines, normalizeBridgeLine line = .ok line
 obfs4Exec : (options.bridgeLines.any fun line => getBridgeTransport line = some .kObfs4) = true →
  isValidTransportExec options.obfs4Exec = true
 snowflakeExec : (options.bridgeLines.any fun line => getBridgeTransport line = some .kSnowflake) = true →
  isValidTransportExec options.snowflakeExec = true

theorem except_bind_ok {α β : Type} {x : Except String α} {f : α → Except String β} {b : β} (h : (x >>= f) = .ok b) :
  ∃ a, x = .ok a ∧ f a = .ok b := by
 cases x with
 | error why => cases h
 | ok a => exact ⟨a, rfl, h⟩

theorem failIf_ok {bad : Bool} {why : String} {u : Unit} (h : failIf bad why = .ok u) : bad = false := by
 rw [failIf] at h
 split_ifs at h with hbad
 simpa using hbad

theorem checkOptions_ok {options : TorrcOptions} {x y : Bool} (h : checkOptions options = .ok (x, y)) :
  Checked options ∧ x = (options.bridgeLines.any fun line => getBridgeTransport line = some .kObfs4) ∧
   y = (options.bridgeLines.any fun line => getBridgeTransport line = some .kSnowflake) := by
 rw [checkOptions] at h
 obtain ⟨_, hdata, h⟩ := except_bind_ok h
 obtain ⟨_, hcookie, h⟩ := except_bind_ok h
 obtain ⟨_, hcontrol, h⟩ := except_bind_ok h
 obtain ⟨_, hlog, h⟩ := except_bind_ok h
 obtain ⟨_, hgeoip, h⟩ := except_bind_ok h
 obtain ⟨_, hgeoip6, h⟩ := except_bind_ok h
 obtain ⟨_, hexit, h⟩ := except_bind_ok h
 obtain ⟨⟨obfs4, snowflake⟩, hneeded, h⟩ := except_bind_ok h
 obtain ⟨_, hobfs4, h⟩ := except_bind_ok h
 obtain ⟨_, hsnowflake, h⟩ := except_bind_ok h
 obtain ⟨rfl, rfl⟩ := Prod.mk.inj (Except.ok.inj h)
 obtain ⟨hlines, hx, hy⟩ := neededTransports_ok hneeded
 have hoptional : ∀ {b c : Bool}, (!b && !c) = false → b = false → c = true := by decide
 have hrequired : ∀ {b c : Bool}, (b && !c) = false → b = true → c = true := by decide
 rw [Bool.false_or] at hx hy
 refine ⟨⟨?_, ?_, ?_, ?_, hoptional (failIf_ok hgeoip), hoptional (failIf_ok hgeoip6), hoptional (failIf_ok hexit), hlines,
  hx ▸ hrequired (failIf_ok hobfs4), hy ▸ hrequired (failIf_ok hsnowflake)⟩, hx, hy⟩
 · simpa using failIf_ok hdata
 · simpa using failIf_ok hcookie
 · simpa using failIf_ok hcontrol
 · simpa using failIf_ok hlog

/-! ## The torrc -/

def intendedLines (options : TorrcOptions) : List (Bytes × Bytes) :=
 [(utf8 "SocksPort", utf8 "auto IsolateSOCKSAuth KeepAliveIsolateSOCKSAuth"),
  (utf8 "ControlPort", utf8 "auto"),
  (utf8 "ControlPortWriteToFile", options.controlPortFile),
  (utf8 "CookieAuthentication", utf8 "1"),
  (utf8 "CookieAuthFile", options.cookieFile),
  (utf8 "DataDirectory", options.dataDir),
  (utf8 "Log", utf8 "notice file " ++ options.logFile),
  (utf8 "AvoidDiskWrites", utf8 "1"),
  (utf8 "ConnLimit", utf8 "1000"),
  (utf8 "MaxClientCircuitsPending", utf8 "256")] ++
 (if options.geoipFile.isEmpty then [] else [(utf8 "GeoIPFile", options.geoipFile)]) ++
 (if options.geoip6File.isEmpty then [] else [(utf8 "GeoIPv6File", options.geoip6File)]) ++
 (if options.bridgeLines.isEmpty then []
  else
   [(utf8 "UseBridges", utf8 "1")] ++
   (if options.bridgeLines.any fun line => getBridgeTransport line = some .kObfs4 then
    [(utf8 "ClientTransportPlugin", utf8 "obfs4 exec " ++ options.obfs4Exec)] else []) ++
   (if options.bridgeLines.any fun line => getBridgeTransport line = some .kSnowflake then
    [(utf8 "ClientTransportPlugin", utf8 "snowflake exec " ++ options.snowflakeExec)] else []) ++
   options.bridgeLines.map fun line => (utf8 "Bridge", line)) ++
 (if options.exitCountry.isEmpty then []
  else [(utf8 "ExitNodes", utf8 "\x7b" ++ options.exitCountry ++ utf8 "\x7d"), (utf8 "StrictNodes", utf8 "1")])

theorem flatMap_ite {b : Bool} (l m : List (Bytes × Bytes)) :
  (if b = true then l else m).flatMap TorrcFormat.line = if b = true then l.flatMap TorrcFormat.line else m.flatMap TorrcFormat.line := by
 cases b <;> rfl

theorem text_line {words : Bytes} (key start v : Bytes) (h : words = key ++ 0x20 :: start) :
  words ++ v ++ utf8 "\n" = TorrcFormat.line (key, start ++ v) := by
 rw [h, TorrcFormat.line, show utf8 "\n" = [0x0A] by decide]
 simp

theorem torrcText_eq (options : TorrcOptions) :
  torrcText options (options.bridgeLines.any fun line => getBridgeTransport line = some .kObfs4)
    (options.bridgeLines.any fun line => getBridgeTransport line = some .kSnowflake) =
   0x23 :: (utf8 " Auto-generated by MoltBrowser on every launch. Do not edit." ++
    0x0A :: (intendedLines options).flatMap TorrcFormat.line) := by
 have hcomment : utf8 "# Auto-generated by MoltBrowser on every launch. Do not edit.\n" =
   0x23 :: (utf8 " Auto-generated by MoltBrowser on every launch. Do not edit." ++ [0x0A]) := by decide
 have hsocks : utf8 "SocksPort auto IsolateSOCKSAuth KeepAliveIsolateSOCKSAuth\n" =
   TorrcFormat.line (utf8 "SocksPort", utf8 "auto IsolateSOCKSAuth KeepAliveIsolateSOCKSAuth") := by decide
 have hport : utf8 "ControlPort auto\n" = TorrcFormat.line (utf8 "ControlPort", utf8 "auto") := by decide
 have hcookie : utf8 "CookieAuthentication 1\n" = TorrcFormat.line (utf8 "CookieAuthentication", utf8 "1") := by decide
 have hdisk : utf8 "AvoidDiskWrites 1\n" = TorrcFormat.line (utf8 "AvoidDiskWrites", utf8 "1") := by decide
 have hconn : utf8 "ConnLimit " ++ utf8 (toString kTorConnLimit) ++ utf8 "\n" =
   TorrcFormat.line (utf8 "ConnLimit", utf8 "1000") := by decide
 have hpending : utf8 "MaxClientCircuitsPending " ++ utf8 (toString kTorMaxClientCircuitsPending) ++ utf8 "\n" =
   TorrcFormat.line (utf8 "MaxClientCircuitsPending", utf8 "256") := by decide
 have hbridges : utf8 "UseBridges 1\n" = TorrcFormat.line (utf8 "UseBridges", utf8 "1") := by decide
 have hstrict : utf8 "StrictNodes 1\n" = TorrcFormat.line (utf8 "StrictNodes", utf8 "1") := by decide
 have hexit : utf8 "ExitNodes \x7b" ++ options.exitCountry ++ utf8 "\x7d\n" =
   TorrcFormat.line (utf8 "ExitNodes", utf8 "\x7b" ++ options.exitCountry ++ utf8 "\x7d") := by
  rw [TorrcFormat.line, show utf8 "ExitNodes \x7b" = utf8 "ExitNodes" ++ 0x20 :: utf8 "\x7b" by decide,
   show utf8 "\x7d\n" = utf8 "\x7d" ++ [0x0A] by decide]
  simp
 rw [torrcText, intendedLines, hcomment, hsocks, hport, hcookie, hdisk, hconn, hpending, hbridges, hstrict, hexit,
  text_line (utf8 "ControlPortWriteToFile") [] _ (by decide), text_line (utf8 "CookieAuthFile") [] _ (by decide),
  text_line (utf8 "DataDirectory") [] _ (by decide), text_line (utf8 "Log") (utf8 "notice file ") _ (by decide),
  text_line (utf8 "GeoIPFile") [] _ (by decide), text_line (utf8 "GeoIPv6File") [] _ (by decide),
  text_line (utf8 "ClientTransportPlugin") (utf8 "obfs4 exec ") _ (by decide),
  text_line (utf8 "ClientTransportPlugin") (utf8 "snowflake exec ") _ (by decide)]
 have hline : ∀ v, utf8 "Bridge " ++ v ++ utf8 "\n" = TorrcFormat.line (utf8 "Bridge", v) := fun v =>
  text_line (utf8 "Bridge") [] v (by decide)
 simp only [hline, flatMap_append, flatMap_ite, flatMap_map, flatMap_cons, flatMap_nil, append_nil,
  nil_append, cons_append, append_assoc]

theorem intendedLines_plain {options : TorrcOptions} (h : Checked options) :
  ∀ e ∈ intendedLines options, PlainKey e.1 ∧ PlainValue e.2 := by
 have hexec : ∀ {words exec : Bytes}, PlainValue (words ++ [0x61]) → words ≠ [] → isValidTransportExec exec = true →
   PlainValue (words ++ exec) := fun hwords hne hexec =>
  plain_after hwords (isSafeTorrcValue_plain (isValidTransportExec_safe hexec)) hne
 rw [intendedLines]
 simp only [forall_mem_append]
 refine ⟨⟨⟨⟨?_, ?_⟩, ?_⟩, ?_⟩, ?_⟩
 · simp only [forall_mem_cons]
   refine ⟨by decide +kernel, by decide +kernel, ⟨by decide +kernel, ?_⟩, by decide +kernel, ⟨by decide +kernel, ?_⟩,
    ⟨by decide +kernel, ?_⟩, ⟨by decide +kernel, ?_⟩, by decide +kernel, by decide +kernel, by decide +kernel,
    fun e he => absurd he not_mem_nil⟩
   · exact (isSafeTorrcValue_plain h.controlPortFile).2
   · exact (isSafeTorrcValue_plain h.cookieFile).2
   · exact (isSafeTorrcValue_plain h.dataDir).2
   · exact plain_after (by decide +kernel) (isSafeTorrcValue_plain h.logFile) (by decide +kernel)
 · split_ifs with hnone
   · exact fun e he => absurd he not_mem_nil
   · exact forall_mem_singleton.2 ⟨by dsimp only; decide +kernel, (isSafeTorrcValue_plain (h.geoipFile (by simpa using hnone))).2⟩
 · split_ifs with hnone
   · exact fun e he => absurd he not_mem_nil
   · exact forall_mem_singleton.2 ⟨by dsimp only; decide +kernel, (isSafeTorrcValue_plain (h.geoip6File (by simpa using hnone))).2⟩
 · by_cases hnone : options.bridgeLines.isEmpty = true
   · rw [if_pos hnone]
     exact fun e he => absurd he not_mem_nil
   · rw [if_neg hnone]
     simp only [forall_mem_append]
     refine ⟨⟨⟨forall_mem_singleton.2 (by decide +kernel), ?_⟩, ?_⟩, fun e he => ?_⟩
     · split_ifs with hobfs4
       · exact forall_mem_singleton.2 ⟨by dsimp only; decide +kernel, hexec (by decide +kernel) (by decide +kernel) (h.obfs4Exec hobfs4)⟩
       · exact fun e he => absurd he not_mem_nil
     · split_ifs with hsnowflake
       · exact forall_mem_singleton.2 ⟨by dsimp only; decide +kernel, hexec (by decide +kernel) (by decide +kernel) (h.snowflakeExec hsnowflake)⟩
       · exact fun e he => absurd he not_mem_nil
     · obtain ⟨line, hline, rfl⟩ := mem_map.1 he
       exact ⟨by dsimp only; decide +kernel, normalizeBridgeLine_plain (h.bridgeLines line hline)⟩
 · split_ifs with hnone
   · exact fun e he => absurd he not_mem_nil
   · have hcountry := h.exitCountry (by simpa using hnone)
     simp only [forall_mem_cons]
     exact ⟨⟨by decide +kernel, braced_plain hcountry⟩, by decide +kernel, fun e he => absurd he not_mem_nil⟩

/-- The torrc says what the options are for, and nothing else. -/
theorem buildTorrc_lines {options : TorrcOptions} {text : Bytes} (h : buildTorrc options = .ok text) :
  torrcLines text = some (intendedLines options) := by
 rw [buildTorrc] at h
 cases hcheck : checkOptions options with
 | error why =>
  rw [hcheck] at h
  cases h
 | ok needed =>
  rw [hcheck] at h
  obtain ⟨hchecked, hx, hy⟩ := checkOptions_ok hcheck
  obtain rfl := Except.ok.inj h
  rw [hx, hy, torrcText_eq]
  exact TorrcFormat.torrcLines_lines (by decide +kernel) _ (intendedLines_plain hchecked)

theorem buildTorrc_lines_bridge : torrcLines (torrcText
   { dataDir := utf8 "/d", cookieFile := utf8 "/c", controlPortFile := utf8 "/p", logFile := utf8 "/l a", exitCountry := utf8 "de"
     bridgeLines := [utf8 "snowflake 192.0.2.3:80 2B280B23E1107BB62ABFC40DDCC8824814F80A72 url=https://x.y/"]
     snowflakeExec := utf8 "./t/s" } false true) = some (intendedLines
   { dataDir := utf8 "/d", cookieFile := utf8 "/c", controlPortFile := utf8 "/p", logFile := utf8 "/l a", exitCountry := utf8 "de"
     bridgeLines := [utf8 "snowflake 192.0.2.3:80 2B280B23E1107BB62ABFC40DDCC8824814F80A72 url=https://x.y/"]
     snowflakeExec := utf8 "./t/s" }) :=
 buildTorrc_lines (by decide +kernel)

end MoltBrowser.Torrc
