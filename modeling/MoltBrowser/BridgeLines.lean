import MoltBrowser.TorrcSafety

set_option autoImplicit false

/-!
# Bridge lines as they are stored

A normalized line is its own normal form, so what is stored is read back at the next start.
-/
namespace MoltBrowser.Torrc
open List

def kMaxBridgeLines : ℕ := 32

/-- The loop over the lines; `seen` is what `out` has. -/
def parseLines : ℕ → List Bytes → List Bytes → Except String (List Bytes)
 | _, out, [] => .ok out
 | lineNumber, out, raw :: rest =>
  let line := trimBlanks raw
  if line.isEmpty || line.head? = some 0x23 then parseLines (lineNumber + 1) out rest
  else
   match normalizeBridgeLine line with
   | .error why => .error ("Line " ++ toString lineNumber ++ ": " ++ why)
   | .ok normalized =>
    let out := if normalized ∈ out then out else out ++ [normalized]
    if out.length > kMaxBridgeLines then .error ("Too many bridge lines (max " ++ toString kMaxBridgeLines ++ ")")
    else parseLines (lineNumber + 1) out rest

def parseBridgeLines (text : Bytes) : Except String (List Bytes) := parseLines 1 [] (text.splitOn 0x0A)

/-! ## The tokens of a line -/

def joined : List Bytes → Bytes
 | [] => []
 | token :: tokens => token ++ tokens.flatMap (0x20 :: ·)

def Word (token : Bytes) : Prop := token ≠ [] ∧ ∀ c ∈ token, Graphic c

def withoutBridge (tokens : List Bytes) : List Bytes := if tokens.head? = some (utf8 "Bridge") then tokens.tail else tokens

def readTokens : List Bytes → Except String Bytes
 | transport :: address :: fingerprint :: options =>
  let isObfs4 : Bool := transport = utf8 "obfs4"
  if !isObfs4 && transport ≠ utf8 "snowflake" then .error "only obfs4 and snowflake bridges are supported"
  else if !isValidBridgeAddress address then .error "invalid bridge address (expected IPv4:port or [IPv6]:port)"
  else if fingerprint.length ≠ 40 then .error "invalid fingerprint (expected 40 hex characters)"
  else if fingerprint.any fun c => !isHexDigit c then .error "invalid fingerprint (expected 40 hex characters)"
  else
   match options.foldlM (bridgeOption isObfs4) {} with
   | .error why => .error why
   | .ok seen =>
    if isObfs4 && (!seen.hasCert || !seen.hasIat) then .error "obfs4 bridges need cert= and iat-mode="
    else .ok (transport ++ 0x20 :: (address ++ 0x20 :: (fingerprint.map upperHex ++ options.flatMap (0x20 :: ·))))
 | _ => .error "expected: <transport> <address:port> <fingerprint> ..."

theorem normalizeBridgeLine_eq (line : Bytes) : normalizeBridgeLine line =
  if (trimBlanks line).length > kMaxBridgeLineLength then .error "bridge line is too long"
  else if (trimBlanks line).any fun c => !(0x21 ≤ c && c ≤ 0x7E) && !isBlank c then .error "bridge line contains an invalid character"
  else readTokens (withoutBridge (splitOnBlanks (trimBlanks line))) := rfl

section Tokens

variable {tokens : List Bytes} {token line normalized : Bytes}

theorem Graphic.not_blank {c : UInt8} (h : Graphic c) : isBlank c = false ∧ c ≠ 0x0D := by
 have hblank : c ≠ 0x20 ∧ c ≠ 0x09 ∧ c ≠ 0x0D := by
  refine ⟨?_, ?_, ?_⟩ <;>
  · rintro rfl
    exact absurd h.1 (by decide)
 exact ⟨by simp [isBlank, hblank.1, hblank.2.1], hblank.2.2⟩

def spaced (tokens : List Bytes) : ℕ := (tokens.map fun token => token.length + 1).sum

theorem length_joined (h : tokens ≠ []) : (joined tokens).length + 1 = spaced tokens := by
 have hrest : ∀ tokens : List Bytes, (tokens.flatMap (0x20 :: ·)).length = spaced tokens := by
  intro tokens
  induction tokens with
  | nil => rfl
  | cons token tokens ih => rw [flatMap_cons, length_append, ih, length_cons, spaced, spaced, map_cons, sum_cons]
 cases tokens with
 | nil => exact absurd rfl h
 | cons token tokens =>
  rw [joined, length_append, hrest, spaced, spaced, map_cons, sum_cons]
  omega

theorem spaced_splitOnP (p : UInt8 → Bool) (s : Bytes) : spaced (s.splitOnP p) = s.length + 1 := by
 induction s with
 | nil => rfl
 | cons c s ih =>
  rw [splitOnP_cons_eq_if_modifyHead, length_cons]
  split_ifs
  · rw [spaced, map_cons, sum_cons, ← spaced, ih, length_nil]
    omega
  · cases hparts : s.splitOnP p with
    | nil => exact absurd hparts (splitOnP_ne_nil p s)
    | cons part parts =>
     rw [hparts, spaced, map_cons, sum_cons] at ih
     rw [modifyHead_cons, spaced, map_cons, sum_cons, length_cons]
     omega

theorem spaced_sublist {some_ all : List Bytes} (h : some_.Sublist all) : spaced some_ ≤ spaced all := (h.map _).sum_le_sum (by simp)

theorem spaced_withoutBridge (line : Bytes) : spaced (withoutBridge (splitOnBlanks line)) ≤ line.length + 1 := by
 have hall : spaced (splitOnBlanks line) ≤ line.length + 1 := by
  rw [← spaced_splitOnP isBlank line]
  exact spaced_sublist filter_sublist
 rw [withoutBridge]
 split_ifs
 · exact (spaced_sublist (tail_sublist _)).trans hall
 · exact hall

theorem splitOnBlanks_joined (h : ∀ token ∈ tokens, Word token) : splitOnBlanks (joined tokens) = tokens := by
 have hparts : ∀ (token : Bytes) (rest : List Bytes), Word token → (∀ t ∈ rest, Word t) →
   (token ++ rest.flatMap (0x20 :: ·)).splitOnP isBlank = token :: rest := by
  intro token rest
  induction rest generalizing token with
  | nil =>
   intro htoken _
   rw [flatMap_nil, append_nil]
   exact splitOnP_eq_singleton fun c hc => (htoken.2 c hc).not_blank.1
  | cons next rest ih =>
   intro htoken hrest
   obtain ⟨hnext, hrest⟩ := forall_mem_cons.mp hrest
   rw [flatMap_cons, cons_append,
    splitOnP_append_cons_of_forall_mem (fun c hc => (htoken.2 c hc).not_blank.1) 0x20 (by decide), ih next hnext hrest]
 cases tokens with
 | nil => rfl
 | cons token tokens =>
  obtain ⟨htoken, htokens⟩ := forall_mem_cons.mp h
  rw [splitOnBlanks, joined, hparts token tokens htoken htokens]
  exact filter_eq_self.mpr fun t ht => decide_eq_true (h t ht).1

theorem joined_graphic (h : ∀ token ∈ tokens, Word token) :
  (∀ c ∈ joined tokens, Graphic c ∨ c = 0x20) ∧ ∀ c, (joined tokens).getLast? = some c → Graphic c := by
 cases tokens with
 | nil => exact ⟨fun c hc => absurd hc not_mem_nil, fun c hc => absurd hc (by simp [joined])⟩
 | cons token tokens =>
  obtain ⟨htoken, htokens⟩ := forall_mem_cons.mp h
  exact flatMap_graphic htokens htoken.1 htoken.2

theorem head_joined (h : ∀ token ∈ tokens, Word token) {c : UInt8} (hc : (joined tokens).head? = some c) : Graphic c := by
 cases tokens with
 | nil => exact absurd hc (by simp [joined])
 | cons token tokens =>
  obtain ⟨htoken, -⟩ := forall_mem_cons.mp h
  rw [joined, head?_append_of_ne_nil _ htoken.1] at hc
  exact htoken.2 c (mem_of_head? hc)

theorem trimBlanks_joined (h : ∀ token ∈ tokens, Word token) : trimBlanks (joined tokens) = joined tokens := by
 have hkept : ∀ {c : UInt8}, Graphic c → (isBlank c || c = 0x0D) = false := fun hc => by simp [hc.not_blank]
 have hfront : ((joined tokens).dropWhile fun c => isBlank c || c = 0x0D) = joined tokens := by
  cases hline : joined tokens with
  | nil => rfl
  | cons c rest =>
   rw [dropWhile_cons_of_neg]
   rw [hkept (head_joined h (by rw [hline]; rfl))]
   exact Bool.false_ne_true
 rw [trimBlanks, hfront, rdropWhile_eq_self_iff]
 intro hne
 rw [hkept ((joined_graphic h).2 _ (getLast?_eq_some_getLast hne))]
 exact Bool.false_ne_true

end Tokens

/-! ## Normal forms -/

theorem upperHex_upper : ∀ c : UInt8, isHexDigit c = true → isHexDigit (upperHex c) = true ∧ upperHex (upperHex c) = upperHex c := by
 decide +kernel

/-- The tokens that are read are words of a line that is read the same. -/
structure Written (tokens : List Bytes) (normalized : Bytes) (words : List Bytes) : Prop where
 eq_joined : normalized = joined words
 all_words : ∀ word ∈ words, Word word
 plain : withoutBridge words = words
 again : readTokens words = .ok normalized
 eq_spaced : spaced words = spaced tokens

theorem transport_word {transport : Bytes} (h : transport = utf8 "obfs4" ∨ transport = utf8 "snowflake") :
  Word transport ∧ transport ≠ utf8 "Bridge" := by
 have hobfs4 : utf8 "obfs4" = [0x6F, 0x62, 0x66, 0x73, 0x34] := rfl
 have hsnowflake : utf8 "snowflake" = [0x73, 0x6E, 0x6F, 0x77, 0x66, 0x6C, 0x61, 0x6B, 0x65] := rfl
 have hbridge : utf8 "Bridge" = [0x42, 0x72, 0x69, 0x64, 0x67, 0x65] := rfl
 rcases h with rfl | rfl
 · simp [hobfs4, hbridge, Word, Graphic]
 · simp [hsnowflake, hbridge, Word, Graphic]

section Normal

variable {tokens : List Bytes} {line text normalized : Bytes} {lines : List Bytes}

theorem readTokens_written (h : readTokens tokens = .ok normalized) : ∃ words, Written tokens normalized words := by
 match tokens, h with
 | transport :: address :: fingerprint :: options, h =>
  rw [readTokens] at h
  split at h
  · cases h
  next htransport =>
  split at h
  · cases h
  next haddress =>
  split at h
  · cases h
  next hlength =>
  split at h
  · cases h
  next hhex =>
  split at h
  · cases h
  next seen hseen =>
  split at h
  · cases h
  next hrequired =>
  have htransports : transport = utf8 "obfs4" ∨ transport = utf8 "snowflake" := by
   by_contra hneither
   rw [not_or] at hneither
   exact htransport (by simp [hneither.1, hneither.2])
  have hdigits : ∀ c ∈ fingerprint, isHexDigit c = true := by
   intro c hc
   by_contra hnot
   exact hhex (any_eq_true.mpr ⟨c, hc, by simp [hnot]⟩)
  have hupper : (fingerprint.map upperHex).map upperHex = fingerprint.map upperHex := by
   rw [map_map]
   exact map_congr_left fun c hc => (upperHex_upper c (hdigits c hc)).2
  have hlength' : ¬(fingerprint.map upperHex).length ≠ 40 := by rwa [length_map]
  have hhex' : ¬((fingerprint.map upperHex).any fun c => !isHexDigit c) = true := by
   rw [any_eq_true]
   rintro ⟨c, hc, hnot⟩
   obtain ⟨d, hd, rfl⟩ := mem_map.mp hc
   rw [(upperHex_upper d (hdigits d hd)).1] at hnot
   exact absurd hnot (by decide)
  refine ⟨transport :: address :: fingerprint.map upperHex :: options, ?_, ?_, ?_, ?_, ?_⟩
  · rw [← Except.ok.inj h]
    simp [joined]
  · have hwords := bridgeOptions_graphic hseen
    refine forall_mem_cons.mpr ⟨?_, forall_mem_cons.mpr ⟨?_, forall_mem_cons.mpr ⟨⟨?_, fun c hc => ?_⟩, hwords⟩⟩⟩
    · exact (transport_word htransports).1
    · refine ⟨fun hnil => haddress ?_, isValidBridgeAddress_graphic (by simpa using haddress)⟩
      rw [hnil]
      rfl
    · rintro hnil
      rw [hnil] at hlength'
      exact hlength' (by decide)
    · obtain ⟨d, hd, rfl⟩ := mem_map.mp hc
      exact (graphic_hex d (hdigits d hd)).2
  · exact if_neg fun hbridge => (transport_word htransports).2 (Option.some.inj hbridge)
  · rw [readTokens]
    rw [if_neg htransport, if_neg haddress, if_neg hlength', if_neg hhex', hseen]
    dsimp only
    rw [if_neg hrequired, hupper]
    exact h
  · simp [spaced]
 | [], h => cases h
 | [_], h => cases h
 | [_, _], h => cases h

theorem normalizeBridgeLine_joined {words : List Bytes} (h : ∀ word ∈ words, Word word) (hplain : withoutBridge words = words)
  (hlength : (joined words).length ≤ kMaxBridgeLineLength) : normalizeBridgeLine (joined words) = readTokens words := by
 have hchars : ¬((joined words).any fun c => !(0x21 ≤ c && c ≤ 0x7E) && !isBlank c) = true := by
  rw [any_eq_true]
  rintro ⟨c, hc, hinvalid⟩
  rcases (joined_graphic h).1 c hc with hgraphic | rfl
  · simp [hgraphic.1, hgraphic.2.1] at hinvalid
  · exact absurd hinvalid (by decide)
 rw [normalizeBridgeLine_eq, trimBlanks_joined h, if_neg (not_lt.mpr hlength), if_neg hchars, splitOnBlanks_joined h, hplain]

theorem normalizeBridgeLine_normal (h : normalizeBridgeLine text = .ok normalized) :
  ∃ words, words ≠ [] ∧ (∀ word ∈ words, Word word) ∧ normalized = joined words ∧ normalizeBridgeLine normalized = .ok normalized := by
 rw [normalizeBridgeLine_eq] at h
 split at h
 · cases h
 next hlength =>
 split at h
 · cases h
 obtain ⟨words, hjoined, hwords, hplain, hagain, hspaced⟩ := readTokens_written h
 have hne : words ≠ [] := by
  rintro rfl
  cases hagain
 have hfits : (joined words).length ≤ kMaxBridgeLineLength := by
  have hline := spaced_withoutBridge (trimBlanks text)
  have hwritten := length_joined hne
  omega
 refine ⟨words, hne, hwords, hjoined, ?_⟩
 rw [hjoined, normalizeBridgeLine_joined hwords hplain hfits, hagain, hjoined]

/-! ## The lines of a text -/

/-- As a normalized line is stored: on one line, and read as it is. -/
structure Stored (line : Bytes) : Prop where
 normal : normalizeBridgeLine line = .ok line
 trimmed : trimBlanks line = line
 shown : (line.isEmpty || line.head? = some 0x23) = false
 single : 0x0A ∉ line

theorem stored_of_normalized (h : normalizeBridgeLine text = .ok normalized) : Stored normalized := by
 obtain ⟨words, hne, hwords, rfl, hnormal⟩ := normalizeBridgeLine_normal h
 refine ⟨hnormal, trimBlanks_joined hwords, ?_, fun hmem => ?_⟩
 · have hlength := length_joined hne
   cases hline : joined words with
   | nil =>
    obtain ⟨word, rest, rfl⟩ := exists_cons_of_ne_nil hne
    rw [joined, append_eq_nil_iff] at hline
    exact absurd hline.1 (hwords word mem_cons_self).1
   | cons c rest =>
    have hgraphic := head_joined hwords (c := c) (by rw [hline]; rfl)
    simp [hgraphic.2.2.1]
 · rcases (joined_graphic hwords).1 _ hmem with hgraphic | hspace
   · exact absurd hgraphic.1 (by decide)
   · exact absurd hspace (by decide)

/-- What is read of the lines goes after what there was: nothing twice, no more than may be, and each line normal. -/
theorem parseLines_kept {lineNumber : ℕ} {out raw : List Bytes} (h : parseLines lineNumber out raw = .ok lines) (hout : out.Nodup)
  (hlength : out.length ≤ kMaxBridgeLines) (hstored : ∀ line ∈ out, Stored line) :
  lines.Nodup ∧ lines.length ≤ kMaxBridgeLines ∧ ∀ line ∈ lines, Stored line := by
 induction raw generalizing lineNumber out with
 | nil =>
  obtain rfl := Except.ok.inj h
  exact ⟨hout, hlength, hstored⟩
 | cons first rest ih =>
  rw [parseLines] at h
  dsimp only at h
  split_ifs at h with hskip
  · exact ih h hout hlength hstored
  · cases hnormal : normalizeBridgeLine (trimBlanks first) with
    | error why =>
     rw [hnormal] at h
     cases h
    | ok normalized =>
     rw [hnormal] at h
     dsimp only at h
     by_cases hmem : normalized ∈ out
     · rw [if_pos hmem, if_neg (not_lt.mpr hlength)] at h
       exact ih h hout hlength hstored
     · rw [if_neg hmem] at h
       split_ifs at h with hmany
       refine ih h ?_ (not_lt.mp hmany) ?_
       · rw [nodup_append]
         exact ⟨hout, nodup_singleton _, fun a ha b hb => by rw [mem_singleton.mp hb]; exact ne_of_mem_of_not_mem ha hmem⟩
       · intro line hline
         rcases mem_append.mp hline with hline | hline
         · exact hstored line hline
         · rw [mem_singleton.mp hline]
           exact stored_of_normalized hnormal

theorem parseLines_stored {out stored : List Bytes} (hstored : ∀ line ∈ stored, Stored line) (hnodup : (out ++ stored).Nodup)
  (hlength : (out ++ stored).length ≤ kMaxBridgeLines) (lineNumber : ℕ) : parseLines lineNumber out stored = .ok (out ++ stored) := by
 induction stored generalizing lineNumber out with
 | nil => rw [parseLines, append_nil]
 | cons line stored ih =>
  obtain ⟨hline, hstored⟩ := forall_mem_cons.mp hstored
  have hnew : line ∉ out := fun hmem => (nodup_append.mp hnodup).2.2 line hmem line mem_cons_self rfl
  rw [← singleton_append, ← append_assoc] at hnodup hlength
  have hroom : ¬(out ++ [line]).length > kMaxBridgeLines := by
   rw [length_append] at hlength
   omega
  rw [parseLines]
  dsimp only
  rw [hline.trimmed, if_neg (by rw [hline.shown]; exact Bool.false_ne_true), hline.normal]
  dsimp only
  rw [if_neg hnew, if_neg hroom, ih hstored hnodup hlength, append_assoc, singleton_append]

theorem parseBridgeLines_joined (hstored : ∀ line ∈ lines, Stored line) (hnodup : lines.Nodup) (hlength : lines.length ≤ kMaxBridgeLines) :
  parseBridgeLines ([0x0A].intercalate lines) = .ok lines := by
 cases lines with
 | nil => rfl
 | cons line rest =>
  rw [parseBridgeLines, splitOn_intercalate _ (fun l hl => (hstored l hl).single) (cons_ne_nil line rest)]
  exact parseLines_stored hstored hnodup hlength 1

/-! ## The torrc takes them -/

theorem neededTransports_normal (h : ∀ line ∈ lines, normalizeBridgeLine line = .ok line) (a b : Bool) :
  ∃ needed, neededTransports a b lines = .ok needed := by
 induction lines generalizing a b with
 | nil => exact ⟨_, rfl⟩
 | cons line lines ih =>
  obtain ⟨hline, hlines⟩ := forall_mem_cons.mp h
  rw [neededTransports, hline]
  dsimp only
  rw [if_neg (not_not.mpr rfl)]
  cases getBridgeTransport line with
  | none => exact ih hlines a b
  | some transport =>
   cases transport with
   | kObfs4 => exact ih hlines true b
   | kSnowflake => exact ih hlines a true

theorem failIf_not {bad : Bool} (h : bad = false) (why : String) : failIf bad why = .ok () := by
 rw [failIf, h]
 rfl

theorem buildTorrc_normal {options : TorrcOptions} {torrc : Bytes} (h : buildTorrc { options with bridgeLines := [] } = .ok torrc)
  (hobfs4 : isValidTransportExec options.obfs4Exec = true) (hsnowflake : isValidTransportExec options.snowflakeExec = true)
  (hlines : ∀ line ∈ lines, normalizeBridgeLine line = .ok line) :
  ∃ torrc', buildTorrc { options with bridgeLines := lines } = .ok torrc' := by
 obtain ⟨⟨x, y⟩, hneeded⟩ := neededTransports_normal hlines false false
 have hchecked : checkOptions { options with bridgeLines := lines } = .ok (x, y) := by
  rw [buildTorrc] at h
  cases hcheck : checkOptions { options with bridgeLines := [] } with
  | error why =>
   rw [hcheck] at h
   cases h
  | ok needed =>
   obtain ⟨hvalid, -⟩ := checkOptions_ok (x := needed.1) (y := needed.2) hcheck
   have hpath : ∀ (name : String) {v : Bytes}, isSafeTorrcValue v = true → checkPath name v = .ok () := fun name v hv =>
    failIf_not (by rw [hv]; rfl) _
   have hoptional : ∀ {b c : Bool}, (b = false → c = true) → (!b && !c) = false := by decide
   have husable : ∀ {b c : Bool}, c = true → (b && !c) = false := by decide
   rw [checkOptions, hpath _ hvalid.dataDir, hpath _ hvalid.cookieFile, hpath _ hvalid.controlPortFile, hpath _ hvalid.logFile,
    failIf_not (hoptional hvalid.geoipFile), failIf_not (hoptional hvalid.geoip6File), failIf_not (hoptional hvalid.exitCountry), hneeded]
   change (do
    failIf (x && !isValidTransportExec options.obfs4Exec) _
    failIf (y && !isValidTransportExec options.snowflakeExec) _
    return (x, y)) = _
   rw [failIf_not (husable hobfs4), failIf_not (husable hsnowflake)]
   rfl
 exact ⟨_, by rw [buildTorrc, hchecked]⟩

end Normal

/-- What a line is normalized to is its own normal form; and the lines of a text that is read are distinct, few and normal, make a torrc wherever
the other options do, and are read back from their own text. -/
theorem bridgeLines_normal :
  (∀ text normalized, normalizeBridgeLine text = .ok normalized → normalizeBridgeLine normalized = .ok normalized) ∧
  ∀ text lines, parseBridgeLines text = .ok lines →
   lines.Nodup ∧ lines.length ≤ 32 ∧ (∀ line ∈ lines, normalizeBridgeLine line = .ok line) ∧
   (∀ (options : TorrcOptions) (torrc : Bytes), buildTorrc { options with bridgeLines := [] } = .ok torrc → isValidTransportExec options.obfs4Exec = true →
    isValidTransportExec options.snowflakeExec = true → ∃ torrc', buildTorrc { options with bridgeLines := lines } = .ok torrc') ∧
   parseBridgeLines ([0x0A].intercalate lines) = .ok lines := by
 refine ⟨fun text normalized h => (stored_of_normalized h).normal, fun text lines h => ?_⟩
 obtain ⟨hnodup, hlength, hstored⟩ := parseLines_kept h List.nodup_nil (Nat.zero_le _) (by simp)
 have hnormal : ∀ line ∈ lines, normalizeBridgeLine line = .ok line := fun line hline => (hstored line hline).normal
 exact ⟨hnodup, hlength, hnormal, fun options torrc htorrc hobfs4 hsnowflake => buildTorrc_normal htorrc hobfs4 hsnowflake hnormal,
  parseBridgeLines_joined hstored hnodup hlength⟩

end MoltBrowser.Torrc
