import MoltBrowser.DisplayText
import MoltBrowser.TranslationPieces

set_option autoImplicit false

/-!
# The pieces the translator is given

Each is valid UTF-8 with what is to be translated in it, within the budget.
-/
namespace MoltBrowser.TranslationPieces
open SelfSynchronizing StreamFilters WebAIConversation List

/-! ## Cutting valid text -/

theorem ascii_leads {c : UInt8} (h : c < 0x80) : Leads c := by
 rw [Leads, Bool.eq_false_iff, Ne, isContinuation_iff]
 exact fun hcont => absurd (UInt8.lt_of_lt_of_le h hcont.1) (UInt8.lt_irrefl _)

theorem whitespace_ascii {c : UInt8} (h : isAsciiWhitespace c = true) : c < 0x80 :=
 forall_byte (p := fun c => isAsciiWhitespace c = true → c < 0x80) (by decide +kernel) c h

theorem valid_of_append {w s : Bytes} (hw : WellFormed w) (h : Valid (w ++ s)) : Valid s := by
 obtain ⟨c, tail, rfl, -⟩ := wellFormed_synchronizing.starts hw
 generalize htext : c :: tail ++ s = text at h
 cases h with
 | nil => cases htext
 | @cons w' rest hw' hrest =>
  obtain ⟨c', tail', rfl, -⟩ := wellFormed_synchronizing.starts hw'
  obtain ⟨rfl, happend⟩ := List.cons.inj htext
  have hlen : tail.length = tail'.length := by
   have hone := (matched_of_wellFormed hw []).2
   have hother := (matched_of_wellFormed hw' []).2
   omega
  obtain ⟨-, rfl⟩ := append_inj happend hlen
  exact hrest

theorem valid_cut {s t : Bytes} (h : Valid (s ++ t)) (ht : AtStart Leads t) : Valid s ∧ Valid t :=
 Text.split wellFormed_synchronizing h ht

theorem valid_cut_of_valid {s t : Bytes} (h : Valid (s ++ t)) (ht : Valid t) : Valid s :=
 (valid_cut h (ht.atStart wellFormed_synchronizing)).1

theorem valid_of_ascii {s : Bytes} (h : ∀ c ∈ s, c < 0x80) : Valid s := by
 induction s with
 | nil => exact .nil
 | cons c s ih => exact .cons (wellFormed_ascii (h c mem_cons_self)) (ih fun d hd => h d (mem_cons_of_mem _ hd))

theorem valid_dropWhile {s : Bytes} (h : Valid s) : Valid (s.dropWhile isAsciiWhitespace) := by
 induction s with
 | nil => exact h
 | cons c s ih =>
  rw [dropWhile_cons]
  split_ifs with hc
  · exact ih (valid_of_append (w := [c]) (wellFormed_ascii (whitespace_ascii hc)) h)
  · exact h

theorem valid_takeWhile {s : Bytes} : Valid (s.takeWhile isAsciiWhitespace) :=
 valid_of_ascii fun _ hc => whitespace_ascii (mem_takeWhile_imp hc)

def trailing (s : Bytes) : Bytes := (s.reverse.takeWhile isAsciiWhitespace).reverse

theorem trimEnd_trailing (s : Bytes) : trimEnd s ++ trailing s = s := by
 rw [trimEnd, trailing, ← reverse_append, takeWhile_append_dropWhile, reverse_reverse]

theorem valid_trailing (s : Bytes) : Valid (trailing s) :=
 valid_of_ascii fun _ hc => whitespace_ascii (mem_takeWhile_imp (mem_reverse.1 hc))

theorem valid_trimEnd {s : Bytes} (h : Valid s) : Valid (trimEnd s) :=
 valid_cut_of_valid ((trimEnd_trailing s).symm ▸ h) (valid_trailing s)

theorem cut_split (cut : Bytes) :
  cut.takeWhile isAsciiWhitespace ++ (trimAsciiWhitespace cut ++ trailing (cut.dropWhile isAsciiWhitespace)) = cut := by
 rw [trimAsciiWhitespace, trimEnd_trailing, takeWhile_append_dropWhile]

/-! ## Units -/

theorem wideTerminator_wellFormed {t : Bytes} (h : t ∈ kWideTerminators) : WellFormed t := by
 simp only [kWideTerminators, mem_cons, not_mem_nil, or_false] at h
 rcases h with rfl | rfl | rfl | rfl | rfl | rfl <;>
  exact ⟨_, _, rfl, by decide +kernel, by decide +kernel, by decide +kernel⟩

theorem terminatorAt_spec (text : Bytes) (h : terminatorAt text ≠ 0) :
  ∃ t, WellFormed t ∧ t.length = terminatorAt text ∧ t ++ text.drop t.length = text := by
 cases text with
 | nil => exact absurd rfl h
 | cons c rest =>
  have hone : terminatorAt (c :: rest) = 1 → c < 0x80 →
    ∃ t, WellFormed t ∧ t.length = terminatorAt (c :: rest) ∧ t ++ (c :: rest).drop t.length = c :: rest :=
   fun hlen hc => ⟨[c], wellFormed_ascii hc, hlen.symm, rfl⟩
  by_cases hascii : (c = 46 || c = 33 || c = 63) = true
  · have hc : c < 0x80 := by
     rw [Bool.or_eq_true, Bool.or_eq_true, decide_eq_true_iff, decide_eq_true_iff, decide_eq_true_iff] at hascii
     rcases hascii with (rfl | rfl) | rfl <;> decide
    apply hone _ hc
    unfold terminatorAt at h ⊢
    dsimp only at h ⊢
    rw [if_pos hascii] at h ⊢
    cases rest with
    | nil => rfl
    | cons next rest =>
     exact if_pos (by_contra fun hnot => h (if_neg hnot))
  · unfold terminatorAt at h ⊢
    dsimp only at h ⊢
    rw [if_neg hascii] at h ⊢
    cases hfind : kWideTerminators.find? fun t => t.isPrefixOf (c :: rest) with
    | none =>
     rw [hfind] at h
     exact absurd rfl h
    | some t =>
     have hprefix : t.isPrefixOf (c :: rest) = true := by simpa using find?_some hfind
     obtain ⟨after, hafter⟩ := isPrefixOf_iff_prefix.1 hprefix
     refine ⟨t, wideTerminator_wellFormed (mem_of_find?_eq_some hfind), rfl, ?_⟩
     rw [← hafter, drop_left]

/-- What is left after a sentence's end is valid, though the scan passes through characters. -/
theorem valid_sentenceUnit (text front : Bytes) (h : Valid (front ++ text)) : Valid (sentenceUnit text).2 := by
 induction text generalizing front with
 | nil => exact .nil
 | cons c rest ih =>
  rw [sentenceUnit]
  dsimp only
  split
  · exact ih (front ++ [c]) (by rwa [append_assoc])
  · next hend =>
    obtain ⟨t, ht, hlen, hsplit⟩ := terminatorAt_spec (c :: rest) hend
    obtain ⟨first, tail, rfl, hfirst, -⟩ := wellFormed_synchronizing.starts ht
    rw [← hsplit] at h
    obtain ⟨-, hhere⟩ := valid_cut h (by simpa [AtStart] using hfirst)
    rw [← hlen]
    exact valid_dropWhile (valid_of_append ht hhere)

theorem atStart_dropWhile {p : UInt8 → Bool} (hp : ∀ c, p c = false → Leads c) (s : Bytes) : AtStart Leads (s.dropWhile p) := by
 intro c hc
 have hstop := head?_dropWhile_not p s
 rw [Option.mem_def.1 hc] at hstop
 exact hp c hstop

theorem valid_dropWhile_of {p : UInt8 → Bool} (hp : ∀ c, p c = false → Leads c) {s : Bytes} (h : Valid s) : Valid (s.dropWhile p) :=
 (valid_cut (s := s.takeWhile p) (by rwa [takeWhile_append_dropWhile]) (atStart_dropWhile hp s)).2

theorem drop_takeWhile (p : UInt8 → Bool) (s : Bytes) : s.drop (s.takeWhile p).length = s.dropWhile p :=
 append_cancel_left ((drop_takeWhile_length p s).trans takeWhile_append_dropWhile.symm)

theorem valid_firstUnit {text : Bytes} (h : Valid text) (level : Level) :
  Valid (firstUnit text level).1 ∧ Valid (firstUnit text level).2 := by
 have hrest : Valid (firstUnit text level).2 := by
  cases level with
  | lines =>
   rw [firstUnit]
   dsimp only
   rw [drop_takeWhile]
   have hnewline : ∀ c : UInt8, decide (c ≠ 10) = false → c = 10 := fun c hc => by simpa using hc
   have hafter := valid_dropWhile_of (fun c hc => hnewline c hc ▸ ascii_leads (by decide)) h
   have hhead := head?_dropWhile_not (fun c : UInt8 => decide (c ≠ 10)) text
   generalize text.dropWhile (fun c => decide (c ≠ 10)) = after at hafter hhead ⊢
   cases after with
   | nil => exact .nil
   | cons c after =>
    obtain rfl := hnewline c hhead
    exact valid_of_append (wellFormed_ascii (by decide)) hafter
  | sentences => exact valid_sentenceUnit text [] h
  | words =>
   rw [firstUnit]
   dsimp only
   rw [← drop_drop, drop_takeWhile, drop_takeWhile]
   exact valid_dropWhile (valid_dropWhile_of (fun c hc => ascii_leads (whitespace_ascii (by simpa using hc))) (valid_dropWhile h))
  | characters =>
   cases text with
   | nil => exact .nil
   | cons c rest =>
    have hcut : Valid ((c :: rest.takeWhile isUtf8Continuation) ++ rest.dropWhile isUtf8Continuation) := by
     rwa [cons_append, takeWhile_append_dropWhile]
    exact (valid_cut hcut (atStart_dropWhile (fun _ hc => hc) rest)).2
 exact ⟨valid_cut_of_valid ((firstUnit_append text level).symm ▸ h) hrest, hrest⟩

theorem valid_units {text : Bytes} (h : Valid text) (level : Level) (n : ℕ) : ∀ unit ∈ units level n text, Valid unit := by
 induction n generalizing text with
 | zero => exact fun unit h => absurd h not_mem_nil
 | succ n ih =>
  rw [units]
  split_ifs
  · exact fun unit h => absurd h not_mem_nil
  · obtain ⟨hunit, hrest⟩ := valid_firstUnit h level
    intro unit hmem
    rcases mem_cons.1 hmem with rfl | hmem
    · exact hunit
    · exact ih hrest unit hmem

theorem thirdsOfByte_continuation {b : UInt8} (h : isUtf8Continuation b = true) : thirdsOfByte b = 0 := by
 obtain ⟨hlow, -⟩ := (isContinuation_iff b).1 h
 rw [thirdsOfByte, if_neg (UInt8.not_lt.2 hlow), if_neg]
 exact fun hne => hne (of_decide_eq_true h)

theorem thirds_character (n : ℕ) (text : Bytes) : ∀ unit ∈ units .characters n text, thirds unit ≤ 4 := by
 induction n generalizing text with
 | zero => exact fun unit h => absurd h not_mem_nil
 | succ n ih =>
  rw [units]
  cases text with
  | nil => exact fun unit h => absurd h not_mem_nil
  | cons c rest =>
   intro unit hmem
   rcases mem_cons.1 hmem with rfl | hmem
   · have hlead : thirdsOfByte c ≤ 4 := by
      unfold thirdsOfByte
      split_ifs <;> omega
     have hnone : ∀ d ∈ rest.takeWhile isUtf8Continuation, thirdsOfByte d = 0 := by
      intro d hd
      have hcont : isUtf8Continuation d = true := mem_takeWhile_imp hd
      exact thirdsOfByte_continuation hcont
     have hsum : ((rest.takeWhile isUtf8Continuation).map thirdsOfByte).sum = 0 := by
      rw [sum_eq_zero_iff]
      intro t ht
      obtain ⟨d, hd, rfl⟩ := mem_map.1 ht
      exact hnone d hd
     change ((c :: rest.takeWhile isUtf8Continuation).map thirdsOfByte).sum ≤ 4
     rw [map_cons, sum_cons, hsum]
     exact hlead
   · exact ih _ unit hmem

/-! ## The packer -/

theorem thirds_append (s t : Bytes) : thirds (s ++ t) = thirds s + thirds t := by
 rw [thirds, map_append, sum_append]
 rfl

structure Fits (maxThirds : ℕ) (range : Bytes) : Prop where
 valid : Valid range
 thirds : TranslationPieces.thirds range ≤ maxThirds

structure Packed (maxThirds : ℕ) (p : Packer) : Prop where
 cuts : ∀ cut ∈ p.cuts, cut ≠ [] ∧ Fits maxThirds cut
 current : Fits maxThirds p.current
 counted : p.thirds = thirds p.current

section Pack

variable {maxThirds : ℕ} {p : Packer} {range : Bytes}

theorem fits_nil : Fits maxThirds [] := ⟨.nil, Nat.zero_le _⟩

theorem Packed.close (h : Packed maxThirds p) : Packed maxThirds p.close := by
 refine ⟨fun cut hcut => ?_, fits_nil, rfl⟩
 unfold Packer.close at hcut
 dsimp only at hcut
 split_ifs at hcut with hempty
 · exact h.cuts cut hcut
 · rcases mem_append.1 hcut with hold | hnew
   · exact h.cuts cut hold
   · rw [mem_singleton.1 hnew]
     exact ⟨fun hnil => hempty (List.isEmpty_iff.2 hnil), h.current⟩

theorem Packed.append (h : Packed maxThirds p) (hrange : Fits maxThirds range) : Packed maxThirds (p.append maxThirds range) := by
 unfold Packer.append
 dsimp only
 split_ifs with hfull
 · have hclosed := h.close
   exact ⟨hclosed.cuts, hrange, Nat.zero_add _⟩
 · have hroom : thirds p.current + thirds range ≤ maxThirds := by
    rw [Bool.and_eq_true, not_and] at hfull
    by_cases hempty : p.current = []
    · rw [hempty]
      exact (Nat.zero_add _).le.trans hrange.thirds
    · have hover := hfull (by simpa using hempty)
      rw [decide_eq_true_iff, not_lt, h.counted] at hover
      exact hover
   refine ⟨h.cuts, ⟨h.current.valid.append hrange.valid, (thirds_append _ _).le.trans hroom⟩, ?_⟩
   rw [thirds_append, h.counted]

theorem Packed.addRange (hmax : 4 ≤ maxThirds) {levels : List Level} (hlast : ∀ last ∈ levels.getLast?, last = .characters)
  (h : Packed maxThirds p) (hrange : Valid range) (hsmall : levels = [] → thirds range ≤ maxThirds) :
  Packed maxThirds (Packer.addRange maxThirds levels p range) := by
 induction levels generalizing p range with
 | nil => exact h.append ⟨hrange, hsmall rfl⟩
 | cons level finer ih =>
  rw [Packer.addRange]
  split_ifs with hfits
  · exact h.append ⟨hrange, hfits⟩
  · have hfiner : ∀ last ∈ finer.getLast?, last = .characters := by
     cases finer with
     | nil => exact fun last h => absurd h (Option.not_mem_none last)
     | cons next finer => rwa [getLast?_cons_cons] at hlast
    have hunits : ∀ unit ∈ units level range.length range, Valid unit ∧ (finer = [] → thirds unit ≤ maxThirds) := by
     refine fun unit hunit => ⟨valid_units hrange level _ unit hunit, fun hnil => ?_⟩
     subst hnil
     obtain rfl : level = .characters := hlast level (by simp)
     exact (thirds_character _ range unit hunit).trans hmax
    have hclosed := h.close
    generalize p.close = q at hclosed
    generalize units level range.length range = ranges at hunits
    induction ranges generalizing q with
    | nil => exact hclosed
    | cons unit ranges ihr =>
     rw [foldl_cons]
     obtain ⟨hvalid, hunit⟩ := hunits unit mem_cons_self
     exact ihr _ (ih hfiner hclosed hvalid hunit) fun other hother => hunits other (mem_cons_of_mem _ hother)

end Pack

/-! ## The pieces -/

structure Translatable (maxTokens : UInt32) (text : Bytes) : Prop where
 tokens : estimateTokens text ≤ max maxTokens 2
 letters : hasLetters text = true
 first : ∀ c ∈ text.head?, isAsciiWhitespace c = false
 last : ∀ c ∈ text.getLast?, isAsciiWhitespace c = false

structure Sound (maxTokens : UInt32) (piece : TranslationPiece) : Prop where
 nonempty : piece.text ≠ []
 valid : Valid piece.text
 translatable : piece.translate = true → Translatable maxTokens piece.text

/-- Sound pieces, no two untranslated ones next to each other. -/
structure Shaped (maxTokens : UInt32) (pieces : List TranslationPiece) : Prop where
 sound : ∀ piece ∈ pieces, Sound maxTokens piece
 apart : pieces.IsChain fun a b => a.translate = true ∨ b.translate = true

section Piece

variable {maxTokens : UInt32} {pieces : List TranslationPiece} {text cut : Bytes} {translate : Bool}

theorem Shaped.append (h : Shaped maxTokens pieces) {piece : TranslationPiece} (hpiece : Sound maxTokens piece)
  (hlast : ∀ last ∈ pieces.getLast?, last.translate = true ∨ piece.translate = true) : Shaped maxTokens (pieces ++ [piece]) := by
 refine ⟨fun other hother => ?_, ?_⟩
 · rcases mem_append.1 hother with hold | hnew
   · exact h.sound other hold
   · exact mem_singleton.1 hnew ▸ hpiece
 · rw [isChain_append]
   refine ⟨h.apart, isChain_singleton _, fun last hmem next hnext => ?_⟩
   rw [head?_cons, Option.mem_some_iff] at hnext
   exact hnext ▸ hlast last hmem

theorem Shaped.addPiece (h : Shaped maxTokens pieces) (hvalid : Valid text)
  (htranslate : translate = true → text ≠ [] → Translatable maxTokens text) : Shaped maxTokens (addPiece pieces text translate) := by
 unfold TranslationPieces.addPiece
 split_ifs with hempty
 · exact h
 · have htext : text ≠ [] := fun hnil => hempty (List.isEmpty_iff.2 hnil)
   have hpiece : Sound maxTokens ⟨text, translate⟩ := ⟨htext, hvalid, fun ht => htranslate ht htext⟩
   split
   · next last hlast =>
     have hsplit : pieces = pieces.dropLast ++ [last] := (dropLast_append_getLast? last hlast).symm
     split_ifs with hmerge
     · rw [Bool.and_eq_true, Bool.not_eq_true', Bool.not_eq_true'] at hmerge
       have hsound := h.sound last (mem_of_getLast? hlast)
       rw [hsplit] at h
       have hapart := isChain_append.1 h.apart
       refine Shaped.append ⟨fun piece hmem => h.sound piece (mem_append_left _ hmem), hapart.1⟩ ?_ ?_
       · refine ⟨fun hnil => hsound.nonempty (append_eq_nil_iff.1 hnil).1, hsound.valid.append hvalid, fun ht => ?_⟩
         exact absurd (hmerge.2.symm.trans ht) Bool.false_ne_true
       · intro before hbefore
         exact hapart.2.2 before hbefore last (by simp)
     · rw [Bool.and_eq_true, Bool.not_eq_true', Bool.not_eq_true'] at hmerge
       refine h.append hpiece fun other hother => ?_
       obtain rfl := Option.some.inj (hlast.symm.trans hother)
       rw [not_and_or, Bool.not_eq_false, Bool.not_eq_false] at hmerge
       exact hmerge.symm
   · exact ⟨by simpa using hpiece, isChain_singleton _⟩

theorem trimAsciiWhitespace_ends (cut : Bytes) :
  (∀ c ∈ (trimAsciiWhitespace cut).head?, isAsciiWhitespace c = false) ∧
   ∀ c ∈ (trimAsciiWhitespace cut).getLast?, isAsciiWhitespace c = false := by
 have hlast : ∀ c ∈ (trimAsciiWhitespace cut).getLast?, isAsciiWhitespace c = false := by
  intro c hc
  rw [trimAsciiWhitespace, trimEnd, getLast?_reverse] at hc
  have hstop := head?_dropWhile_not isAsciiWhitespace (cut.dropWhile isAsciiWhitespace).reverse
  rw [Option.mem_def.1 hc] at hstop
  exact hstop
 refine ⟨fun c hc => ?_, hlast⟩
 have hstop := head?_dropWhile_not isAsciiWhitespace cut
 have hhead : (cut.dropWhile isAsciiWhitespace).head? = some c := by
  rw [← trimEnd_trailing (cut.dropWhile isAsciiWhitespace), head?_append]
  exact Option.or_eq_some_iff.2 (.inl hc)
 rw [hhead] at hstop
 exact hstop

theorem thirds_core_le (cut : Bytes) : thirds (trimAsciiWhitespace cut) ≤ thirds cut := by
 have hsum : thirds cut = thirds (cut.takeWhile isAsciiWhitespace) +
   (thirds (trimAsciiWhitespace cut) + thirds (trailing (cut.dropWhile isAsciiWhitespace))) := by
  rw [← thirds_append, ← thirds_append, cut_split]
 omega

theorem estimateTokens_le {limit : UInt32} (h : thirds text ≤ 3 * limit.toNat) : estimateTokens text ≤ limit := by
 have hlimit := limit.toNat_lt
 have hcount : ((text.map thirdsOfByte).sum + 2) / 3 ≤ limit.toNat := by
  unfold thirds at h
  omega
 rw [estimateTokens, saturate, if_neg (by omega), UInt32.le_iff_toNat_le]
 exact (Nat.mod_le _ _).trans hcount

theorem Shaped.addCut (h : Shaped maxTokens pieces) (hcut : Fits (3 * (max maxTokens 2).toNat) cut) :
  Shaped maxTokens (addCut pieces cut) := by
 have hcore : Valid (trimAsciiWhitespace cut) := valid_trimEnd (valid_dropWhile hcut.valid)
 have htranslatable : hasLetters (trimAsciiWhitespace cut) = true → trimAsciiWhitespace cut ≠ [] →
   Translatable maxTokens (trimAsciiWhitespace cut) := fun hletters _ =>
  { tokens := estimateTokens_le ((thirds_core_le cut).trans hcut.thirds)
    letters := hletters
    first := (trimAsciiWhitespace_ends cut).1
    last := (trimAsciiWhitespace_ends cut).2 }
 have hlead : Valid (cut.take (if (trimAsciiWhitespace cut).isEmpty then cut.length
   else (cut.takeWhile isAsciiWhitespace).length)) := by
  split_ifs
  · rw [take_length]
    exact hcut.valid
  · rw [← prefix_iff_eq_take.1 (List.takeWhile_prefix _)]
    exact valid_takeWhile
 have htrail : Valid (cut.drop ((if (trimAsciiWhitespace cut).isEmpty then cut.length
   else (cut.takeWhile isAsciiWhitespace).length) + (trimAsciiWhitespace cut).length)) := by
  split_ifs
  · rw [drop_eq_nil_of_le (Nat.le_add_right _ _)]
    exact .nil
  · have hdrop : (cut.takeWhile isAsciiWhitespace ++ trimAsciiWhitespace cut ++
      trailing (cut.dropWhile isAsciiWhitespace)).drop (cut.takeWhile isAsciiWhitespace ++ trimAsciiWhitespace cut).length =
       trailing (cut.dropWhile isAsciiWhitespace) := drop_left
    rw [append_assoc, cut_split, length_append] at hdrop
    rw [hdrop]
    exact valid_trailing _
 have hkept : ∀ text : Bytes, false = true → text ≠ [] → Translatable maxTokens text := fun _ hfalse => absurd hfalse Bool.false_ne_true
 exact ((h.addPiece hlead (hkept _)).addPiece hcore htranslatable).addPiece htrail (hkept _)

theorem shaped_splitForTranslation (h : Valid text) (maxTokens : UInt32) : Shaped maxTokens (splitForTranslation text maxTokens) := by
 have hmax : 4 ≤ 3 * (max maxTokens 2).toNat := by
  have hle : 2 ≤ (max maxTokens 2).toNat := by
   change 2 ≤ (if maxTokens ≤ 2 then 2 else maxTokens).toNat
   split_ifs with hsmall
   · exact le_rfl
   · exact (UInt32.lt_iff_toNat_lt.1 (UInt32.not_le.1 hsmall)).le
  omega
 have hnew : Packed (3 * (max maxTokens 2).toNat) {} := ⟨nofun, fits_nil, rfl⟩
 have hlast : ∀ last ∈ [Level.lines, .sentences, .words, .characters].getLast?, last = .characters := by simp
 have hpacked := (hnew.addRange hmax hlast h nofun).close
 have hfold : ∀ (cuts : List Bytes) (pieces : List TranslationPiece), (∀ cut ∈ cuts, Fits (3 * (max maxTokens 2).toNat) cut) →
   Shaped maxTokens pieces → Shaped maxTokens (cuts.foldl addCut pieces) := by
  intro cuts
  induction cuts with
  | nil => exact fun _ _ hpieces => hpieces
  | cons cut cuts ih =>
   intro pieces hcuts hpieces
   exact ih _ (fun other hother => hcuts other (mem_cons_of_mem _ hother)) (hpieces.addCut (hcuts cut mem_cons_self))
 exact hfold _ [] (fun cut hmem => (hpacked.cuts cut hmem).2) ⟨nofun, List.isChain_nil⟩

end Piece

/-- Splitting loses nothing: the pieces of valid UTF-8 join to the text, none is empty or cuts a character, each to translate
has a letter, no whitespace at its ends and no more tokens than it may, and no two untranslated ones are adjacent. -/
theorem split_loses_nothing {text : Bytes} (h : isValidUtf8 text = true) (maxTokens : UInt32) :
  joined (splitForTranslation text maxTokens) = text ∧
  (∀ piece ∈ splitForTranslation text maxTokens, piece.text ≠ [] ∧ isValidUtf8 piece.text = true ∧
   (piece.translate = true →
    estimateTokens piece.text ≤ max maxTokens 2 ∧ hasLetters piece.text = true ∧
     (∀ c ∈ piece.text.head?, isAsciiWhitespace c = false) ∧ ∀ c ∈ piece.text.getLast?, isAsciiWhitespace c = false)) ∧
  (splitForTranslation text maxTokens).IsChain fun a b => a.translate = true ∨ b.translate = true := by
 have hshaped := shaped_splitForTranslation ((isValidUtf8_iff text).1 h) maxTokens
 refine ⟨joined_splitForTranslation text maxTokens, fun piece hpiece => ?_, hshaped.apart⟩
 have hsound := hshaped.sound piece hpiece
 refine ⟨hsound.nonempty, (isValidUtf8_iff _).2 hsound.valid, fun htranslate => ?_⟩
 have htranslatable := hsound.translatable htranslate
 exact ⟨htranslatable.tokens, htranslatable.letters, htranslatable.first, htranslatable.last⟩

theorem split_loses_nothing_greeting : joined (splitForTranslation (utf8 "Hello there. \n 42") 2) = utf8 "Hello there. \n 42" :=
 (split_loses_nothing ((isValidUtf8_iff _).2 (valid_of_ascii (by decide +kernel))) 2).1

end MoltBrowser.TranslationPieces
