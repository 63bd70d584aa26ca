import MoltBrowser.PageReading

set_option autoImplicit false

/-!
# Where speech is cut

Every place the reader cuts a text at is between two characters, and a cut always takes
something.
-/
namespace MoltBrowser.Voice
open StreamFilters SelfSynchronizing SpeechEvents List

/-! ## Boundaries -/

def Boundary (text : Bytes) (k : ℕ) : Prop := AtStart Leads (text.drop k)

section Boundary

variable {text : Bytes} {k : ℕ}

theorem boundary_of_ge (h : text.length ≤ k) : Boundary text k := by
 rw [Boundary, drop_eq_nil_of_le h]
 simp [AtStart]

theorem Boundary.split (h : Boundary text k) (hv : Valid text) : Valid (text.take k) ∧ Valid (text.drop k) := by
 rw [← take_append_drop k text] at hv
 exact hv.split wellFormed_synchronizing h

theorem boundary_of_valid_drop (h : Valid (text.drop k)) : Boundary text k := h.atStart wellFormed_synchronizing

theorem valid_tail {c : UInt8} {s : Bytes} (h : Valid (c :: s)) (hc : c < 0x80) : Valid s := by
 generalize hcs : c :: s = t at h
 cases h with
 | nil => exact absurd hcs (cons_ne_nil _ _)
 | @cons w rest hw hrest =>
  obtain ⟨d, tail, rfl, hlen, -⟩ := hw
  rw [cons_append] at hcs
  obtain ⟨rfl, rfl⟩ := List.cons.inj hcs
  rw [shapeOf_ascii hc] at hlen
  obtain rfl := eq_nil_of_length_eq_zero (by omega : tail.length = 0)
  exact hrest

theorem valid_of_ascii {a b : Bytes} (ha : ∀ c ∈ a, c < 0x80) (h : Valid (a ++ b)) : Valid b := by
 induction a with
 | nil => exact h
 | cons c a ih =>
  exact ih (fun d hd => ha d (mem_cons_of_mem _ hd)) (valid_tail h (ha c (mem_cons_self ..)))

theorem boundary_after {c : UInt8} (hv : Valid text) (hc : (text.drop k).head? = some c) (hascii : c < 0x80) :
  Boundary text (k + 1) := by
 obtain ⟨s, hs⟩ : ∃ s, text.drop k = c :: s := by
  cases hd : text.drop k with
  | nil =>
   rw [hd] at hc
   exact absurd hc (by simp)
  | cons d s =>
   rw [hd] at hc
   exact ⟨s, by rw [Option.some.inj hc]⟩
 have hb : Boundary text k := by
  rw [Boundary, hs]
  intro d hd
  obtain rfl := Option.some.inj hd
  exact (wellFormed_synchronizing.starts (wellFormed_ascii hascii)).elim fun e he => by
   obtain ⟨rest, hrest, hlead, -⟩ := he
   obtain ⟨rfl, -⟩ := List.cons.inj hrest
   exact hlead
 have hdrop : text.drop (k + 1) = s := by
  rw [← drop_drop, hs]
  rfl
 have hvalid := (hb.split hv).2
 rw [hs] at hvalid
 refine boundary_of_valid_drop ?_
 rw [hdrop]
 exact valid_tail hvalid hascii

theorem Boundary.of_slice {lo hi : ℕ} (hhi : Boundary text hi) (hlo : lo ≤ hi) (h : Boundary (slice text lo hi) k)
  (hk : k ≤ (slice text lo hi).length) : Boundary text (lo + k) := by
 rw [Boundary, slice] at h
 rw [slice, length_take, length_drop] at hk
 by_cases hend : text.length ≤ lo + k
 · exact boundary_of_ge hend
 by_cases hlast : lo + k = hi
 · rwa [hlast]
 · intro c hc
   refine h c ?_
   rw [head?_drop] at hc ⊢
   rw [getElem?_take_of_lt (by omega), getElem?_drop]
   exact hc

theorem slice_valid {lo hi : ℕ} (hv : Valid text) (hlo : Boundary text lo) (hhi : Boundary text hi) (h : lo ≤ hi) :
  Valid (slice text lo hi) := by
 have hrest := (hlo.split hv).2
 have hcut : Boundary (text.drop lo) (hi - lo) := by
  rw [Boundary, drop_drop, Nat.add_sub_cancel' h]
  exact hhi
 exact (hcut.split hrest).1

end Boundary

/-! ## The prefix that is said -/

theorem letter_ascii {c : UInt8} (h : isAsciiLetter c = true ∨ isAsciiDigit c = true) : c < 0x80 :=
 forall_byte (p := fun c => isAsciiLetter c = true ∨ isAsciiDigit c = true → c < 0x80) (by decide +kernel) c h

theorem runOf_ascii (letters : Bool) (left : ℕ) (s : Bytes) : ∀ c ∈ runOf letters left s, c < 0x80 := by
 intro c hc
 have hc' := mem_takeWhile_imp (mem_of_mem_take hc)
 split_ifs at hc'
 · exact letter_ascii (.inl hc')
 · exact letter_ascii (.inr hc')

theorem runOf_prefix (letters : Bool) (left : ℕ) (s : Bytes) : ∃ rest, s = runOf letters left s ++ rest := by
 have hp : runOf letters left s <+: s := (List.take_prefix _ _).trans (List.takeWhile_prefix _)
 obtain ⟨rest, hrest⟩ := hp
 exact ⟨rest, hrest.symm⟩

theorem takeHeavy_le (maxWeight : ℕ) (weigh : UInt8 → ℕ) (i total : ℕ) (run : Bytes) :
  i ≤ (takeHeavy maxWeight weigh i total run).1 ∧ (takeHeavy maxWeight weigh i total run).1 ≤ i + run.length ∧
   (i = 0 → run ≠ [] → 0 < (takeHeavy maxWeight weigh i total run).1) := by
 induction run generalizing i total with
 | nil => exact ⟨le_refl i, le_refl i, fun _ h => absurd rfl h⟩
 | cons c run ih =>
  rw [takeHeavy, length_cons]
  obtain ⟨hlo, hhi, -⟩ := ih (i + 1) (total + weigh c)
  split_ifs with hheavy
  · exact ⟨le_refl i, by omega, fun hi => absurd hheavy.1 (by omega)⟩
  · exact ⟨by omega, by omega, fun _ _ => by omega⟩

theorem leadLength_eq {c : UInt8} (hascii : ¬ c < 0x80) (hlead : (shapeOf c).length ≠ 0) :
  (if c < 0xE0 then 2 else if c < 0xF0 then 3 else 4) = (shapeOf c).length :=
 forall_byte (p := fun c => ¬ c < 0x80 → (shapeOf c).length ≠ 0 →
  (if c < 0xE0 then 2 else if c < 0xF0 then 3 else 4) = (shapeOf c).length) (by decide +kernel) c hascii hlead

/-- A character is as long as it is read to be, and weighs the same whatever comes after it. -/
theorem characterWeight_whole {c : UInt8} {rest : Bytes} (hv : Valid (c :: rest)) : ∃ tail after v, rest = tail ++ after ∧
  (∀ more, characterWeight c (tail ++ more) = (tail.length + 1, v)) ∧ Valid after := by
 by_cases hascii : c < 0x80
 · refine ⟨[], rest, if (utf8 " .,;:!?'\"()-").contains c then 1 else kSymbolWeight, rfl, fun more => ?_, valid_tail hv hascii⟩
   rw [characterWeight, if_pos hascii]
   rfl
 · generalize hcs : c :: rest = t at hv
   cases hv with
   | nil => exact absurd hcs (cons_ne_nil _ _)
   | @cons w after hw hafter =>
    obtain ⟨d, tail, rfl, hlen, -⟩ := hw
    rw [cons_append] at hcs
    obtain ⟨rfl, rfl⟩ := List.cons.inj hcs
    refine ⟨tail, after, nonAsciiWeight (tail.foldl (fun cp b => cp <<< 6 ||| (b.toNat &&& 0x3F))
     (c.toNat &&& (if c < 0xE0 then 0x1F else if c < 0xF0 then 0x0F else 0x07))), rfl, fun more => ?_, hafter⟩
    have hmin : min (tail.length + 1) ((tail ++ more).length + 1) = tail.length + 1 := by
     rw [length_append]
     omega
    rw [characterWeight, if_neg hascii, leadLength_eq hascii (by omega), hlen]
    dsimp only
    rw [hmin, Nat.add_sub_cancel, take_left]

theorem characterWeight_boundary {c : UInt8} {rest : Bytes} (hv : Valid (c :: rest)) :
  (characterWeight c rest).1 ≤ rest.length + 1 ∧ Valid ((c :: rest).drop (characterWeight c rest).1) := by
 obtain ⟨tail, after, v, rfl, hweight, hafter⟩ := characterWeight_whole hv
 rw [hweight, length_append, drop_succ_cons, drop_left]
 exact ⟨by dsimp only; omega, hafter⟩

/-- What is left after the prefix begins between characters; at the front something is taken. -/
theorem spokenFrom_spec (maxWeight : ℕ) {s : Bytes} (hv : Valid s) (i total : ℕ) :
  i ≤ (spokenFrom maxWeight i total s).1 ∧ (spokenFrom maxWeight i total s).1 ≤ i + s.length ∧
   Boundary s ((spokenFrom maxWeight i total s).1 - i) ∧
   (i = 0 → s ≠ [] → 0 < (spokenFrom maxWeight i total s).1) := by
 induction hlen : s.length using Nat.strong_induction_on generalizing s i total with
 | _ k ih =>
  have hstay : Boundary s (i - i) := by
   rw [Nat.sub_self]
   exact boundary_of_valid_drop hv
  cases s with
  | nil =>
   rw [spokenFrom]
   exact ⟨le_refl i, by omega, hstay, fun _ h => absurd rfl h⟩
  | cons c rest =>
   -- One more piece of the text, then the rest of it.
   have hmore : ∀ n w, 0 < n → n ≤ rest.length + 1 → Valid ((c :: rest).drop n) →
     i ≤ (spokenFrom maxWeight (i + n) (total + w) ((c :: rest).drop n)).1 ∧
     (spokenFrom maxWeight (i + n) (total + w) ((c :: rest).drop n)).1 ≤ i + k ∧
     Boundary (c :: rest) ((spokenFrom maxWeight (i + n) (total + w) ((c :: rest).drop n)).1 - i) ∧
     (i = 0 → c :: rest ≠ [] → 0 < (spokenFrom maxWeight (i + n) (total + w) ((c :: rest).drop n)).1) := by
    intro n w hpos hn hdrop
    have hshort : ((c :: rest).drop n).length < k := by
     rw [length_drop, hlen]
     rw [length_cons] at hlen
     omega
    obtain ⟨hlo, hhi, hb, -⟩ := ih _ hshort hdrop (i + n) (total + w) rfl
    rw [length_drop, hlen] at hhi
    rw [length_cons] at hlen
    refine ⟨by omega, by omega, ?_, fun _ _ => by omega⟩
    rw [Boundary, drop_drop] at hb
    rwa [Boundary, show (spokenFrom maxWeight (i + n) (total + w) ((c :: rest).drop n)).1 - i =
     n + ((spokenFrom maxWeight (i + n) (total + w) ((c :: rest).drop n)).1 - (i + n)) by omega]
   rw [spokenFrom]
   by_cases hfull : ¬ (i = 0 ∨ total < maxWeight)
   · rw [if_pos hfull]
     exact ⟨le_refl i, by omega, hstay, fun hi => absurd (.inl hi) hfull⟩
   rw [if_neg hfull]
   by_cases hword : (isAsciiLetter c || isAsciiDigit c) = true
   · rw [dif_pos hword]
     dsimp only
     have hascii := runOf_ascii (isAsciiLetter c) (maxWeight - total) (c :: rest)
     obtain ⟨after, hafter⟩ := runOf_prefix (isAsciiLetter c) (maxWeight - total) (c :: rest)
     have hpos := runOf_pos hword (maxWeight - total) rest
     generalize runOf (isAsciiLetter c) (maxWeight - total) (c :: rest) = run at hascii hafter hpos ⊢
     have hdrop : ∀ j ≤ run.length, Valid ((c :: rest).drop j) := by
      intro j hj
      have hcut : run.take j ++ (run.drop j ++ after) = c :: rest := by
       rw [← append_assoc, take_append_drop, hafter]
      have htake : (c :: rest).drop j = run.drop j ++ after := by
       rw [hafter, drop_append_of_le_length hj]
      rw [htake]
      rw [← hcut] at hv
      exact valid_of_ascii (fun d hd => hascii d (mem_of_mem_take hd)) hv
     have hshort : run.length ≤ rest.length + 1 := by
      have := congrArg List.length hafter
      rw [length_append, length_cons] at this
      omega
     generalize (fun d => if isAsciiLetter c = true then letterWeight (isAsciiLetter c && isSpelled run) d
      else kDigitWeight) = weigh
     split_ifs with hfits hfirst
     · exact hmore _ _ hpos hshort (hdrop _ (le_refl _))
     · obtain ⟨hlo, hhi, hheavy⟩ := takeHeavy_le maxWeight weigh i total run
       refine ⟨hlo, ?_, ?_, fun hi _ => hheavy hi (length_pos_iff.1 hpos)⟩
       · rw [length_cons] at hlen
         omega
       · exact boundary_of_valid_drop (hdrop _ (by omega))
     · exact ⟨le_refl i, by omega, hstay, fun hi => absurd hi hfirst⟩
   · rw [dif_neg hword]
     dsimp only
     obtain ⟨hle, hdrop⟩ := characterWeight_boundary hv
     split_ifs with hheavy
     · exact ⟨le_refl i, by omega, hstay, fun hi => absurd hheavy.1 (by omega)⟩
     · exact hmore _ _ (characterWeight_pos c rest) hle hdrop

theorem spokenPrefix_spec (maxWeight : ℕ) {s : Bytes} (hv : Valid s) : (spokenPrefix s maxWeight).1 ≤ s.length ∧
  Boundary s (spokenPrefix s maxWeight).1 ∧ (s ≠ [] → 0 < (spokenPrefix s maxWeight).1) := by
 obtain ⟨-, hle, hb, hpos⟩ := spokenFrom_spec maxWeight hv 0 0
 exact ⟨by simpa [spokenPrefix] using hle, hb, hpos rfl⟩

/-! ## Sentences -/

theorem rfindText_prefix {needle s : Bytes} {i : ℕ} (h : rfindText needle s = some i) : needle <+: s.drop i := by
 induction s generalizing i with
 | nil =>
  rw [rfindText] at h
  split_ifs at h with hempty
  rw [hempty]
  exact nil_prefix
 | cons b s ih =>
  rw [rfindText] at h
  split at h
  · rename_i j hj
    obtain rfl := Option.some.inj h
    exact ih hj
  · split_ifs at h with hb
    obtain rfl := Option.some.inj h
    exact isPrefixOf_iff_prefix.1 hb

theorem cutOf_spec (head : Bytes) : cutOf head = head.length ∨
  ∃ k, cutOf head = k + 1 ∧ (head.drop k).head? = some 0x20 := by
 rw [cutOf]
 split_ifs with hcomma
 · obtain ⟨i, hi⟩ : ∃ i, rfindText (utf8 ", ") head = some i := by
    cases h : rfindText (utf8 ", ") head with
    | none => simp [h] at hcomma
    | some i => exact ⟨i, rfl⟩
   rw [hi]
   right
   refine ⟨i + 1, rfl, ?_⟩
   obtain ⟨rest, hrest⟩ := rfindText_prefix hi
   have hneedle : utf8 ", " = [0x2C, 0x20] := by decide
   rw [← drop_drop, ← hrest, hneedle]
   rfl
 · cases hspace : rfind 0x20 head with
   | none => exact .inl rfl
   | some k =>
    cases k with
    | zero => exact .inl rfl
    | succ k => exact .inr ⟨k + 1, rfl, head_drop_rfind hspace⟩

theorem offsetFrom_boundary (chars i seen : ℕ) (s : Bytes) : Boundary s (offsetFrom chars i seen s - i) := by
 induction s generalizing i seen with
 | nil => exact boundary_of_ge (Nat.zero_le _)
 | cons c s ih =>
  have hnext : ∀ seen, Boundary (c :: s) (offsetFrom chars (i + 1) seen s - i) := by
   intro seen
   have hle := (offsetFrom_le chars (i + 1) seen s).1
   rw [show offsetFrom chars (i + 1) seen s - i = offsetFrom chars (i + 1) seen s - (i + 1) + 1 by omega]
   exact ih (i + 1) seen
  rw [offsetFrom]
  split_ifs with hcontinues hseen
  · exact hnext seen
  · rw [Nat.sub_self]
    intro d hd
    obtain rfl := Option.some.inj hd
    simpa [Leads, isContinuation, isUtf8Continuation] using hcontinues
  · exact hnext (seen + 1)

theorem offsetOfChars_boundary (s : Bytes) (chars : ℕ) : Boundary s (offsetOfChars s chars) := offsetFrom_boundary chars 0 0 s

/-- A place a text may be cut at between `lo` and `hi`. -/
structure CutsAt (text : Bytes) (lo hi k : ℕ) : Prop where
 above : lo < k
 below : k < hi
 boundary : Boundary text k

theorem cutSentence_spec {text : Bytes} (hv : Valid text) (start stop : ℕ) :
  (∀ k ∈ cutSentence text start stop, CutsAt text start stop k) ∧ (cutSentence text start stop).Pairwise (· < ·) := by
 induction hd : stop - start using Nat.strong_induction_on generalizing start with
 | _ d ih =>
  rw [cutSentence]
  split_ifs with hlong
  · dsimp only
    have hrest : text.drop start ≠ [] := by
     intro hnil
     rw [slice, hnil] at hlong
     simp [codePoints] at hlong
    have hpos := @offsetOfChars_pos _ kMaxReadingSentenceChars hrest (by decide)
    have hlimit := offsetOfChars_boundary (text.drop start) kMaxReadingSentenceChars
    generalize offsetOfChars (text.drop start) kMaxReadingSentenceChars = n at hpos hlimit
    have hhead : slice text start (start + n) ≠ [] := by
     have := length_pos_iff.2 hrest
     rw [← length_pos_iff, slice, length_take]
     omega
    have hcut := cutOf_pos hhead
    have hboundary : Boundary text (start + cutOf (slice text start (start + n))) := by
     rcases cutOf_spec (slice text start (start + n)) with hend | ⟨k, hk, hspace⟩
     · rw [hend, slice, length_take, Nat.add_sub_cancel_left]
       by_cases hn : n ≤ (text.drop start).length
       · rw [Nat.min_eq_left hn]
         rw [Boundary, drop_drop] at hlimit
         exact hlimit
       · refine boundary_of_ge ?_
         rw [Nat.min_eq_right (by omega), length_drop]
         omega
     · rw [hk, ← Nat.add_assoc]
       refine boundary_after hv (c := 0x20) ?_ (by decide)
       rw [head?_drop] at hspace ⊢
       rw [slice, getElem?_take] at hspace
       split_ifs at hspace
       rwa [getElem?_drop] at hspace
    have hnext : start < start + cutOf (slice text start (start + n)) := Nat.lt_add_of_pos_right hcut
    generalize start + cutOf (slice text start (start + n)) = next at hboundary hnext ⊢
    split_ifs with hend
    · exact ⟨by simp, .nil⟩
    · obtain ⟨hall, hsorted⟩ := ih (stop - next) (by omega) next rfl
      refine ⟨fun k hk => ?_, pairwise_cons.2 ⟨fun k hk => (hall k hk).above, hsorted⟩⟩
      rcases mem_cons.1 hk with rfl | hk
      · exact ⟨hnext, by omega, hboundary⟩
      · exact ⟨hnext.trans (hall k hk).above, (hall k hk).below, (hall k hk).boundary⟩
  · exact ⟨by simp, .nil⟩

theorem cutSentences_spec {text : Bytes} (hv : Valid text) {starts : List ℕ}
  (hstarts : ∀ k ∈ starts, k < text.length ∧ Boundary text k) (hsorted : starts.Pairwise (· < ·)) :
  (∀ k ∈ cutSentences text starts, (k < text.length ∧ Boundary text k) ∧ starts.headD text.length ≤ k) ∧
   (cutSentences text starts).Pairwise (· < ·) := by
 induction starts with
 | nil => exact ⟨by simp [cutSentences], .nil⟩
 | cons start starts ih =>
  rw [pairwise_cons] at hsorted
  obtain ⟨hrest, hsortedRest⟩ := ih (fun k hk => hstarts k (mem_cons_of_mem _ hk)) hsorted.2
  obtain ⟨hcuts, hsortedCuts⟩ := cutSentence_spec hv start (starts.headD text.length)
  have hstart := hstarts start (mem_cons_self ..)
  have hend : start < starts.headD text.length ∧ starts.headD text.length ≤ text.length := by
   cases starts with
   | nil => exact ⟨hstart.1, le_refl _⟩
   | cons next starts =>
    exact ⟨hsorted.1 next (mem_cons_self ..), (hstarts next (by simp)).1.le⟩
  rw [cutSentences]
  refine ⟨fun k hk => ?_, pairwise_append.2 ⟨pairwise_cons.2 ⟨fun k hk => (hcuts k hk).above, hsortedCuts⟩,
   hsortedRest, fun j hj k hk => ?_⟩⟩
  · rcases mem_append.1 hk with hk | hk
    · rcases mem_cons.1 hk with rfl | hk
      · exact ⟨hstart, le_refl _⟩
      · exact ⟨⟨(hcuts k hk).below.trans_le hend.2, (hcuts k hk).boundary⟩, (hcuts k hk).above.le⟩
    · exact ⟨(hrest k hk).1, hend.1.le.trans (hrest k hk).2⟩
  · have hlow := (hrest k hk).2
    rcases mem_cons.1 hj with rfl | hj
    · omega
    · have := (hcuts j hj).below
      omega

theorem sentenceStarts_spec {text : Bytes} (hv : Valid text) (hne : text ≠ []) :
  (∀ k ∈ sentenceStarts text, k < text.length ∧ Boundary text k) ∧ (sentenceStarts text).Pairwise (· < ·) := by
 have hpos := length_pos_iff.2 hne
 have hbreaks : ∀ k ∈ ((List.range (text.length - 2)).filter (isStop text)).map (· + 2),
   k < text.length ∧ Boundary text k := by
  intro k hk
  obtain ⟨i, hi, rfl⟩ := mem_map.1 hk
  obtain ⟨hrange, hstop⟩ := mem_filter.1 hi
  rw [mem_range] at hrange
  simp only [isStop, Bool.and_eq_true, beq_iff_eq] at hstop
  refine ⟨by omega, boundary_after (c := 0x20) hv ?_ (by decide)⟩
  have hspace := hstop.1.1.2
  rw [head?_drop, getElem?_eq_getElem (by omega)]
  rw [getD_eq_getElem _ _ (by omega)] at hspace
  rw [hspace]
 have hsorted : ((List.range (text.length - 2)).filter (isStop text)).Pairwise (· < ·) :=
  pairwise_lt_range.filter _
 obtain ⟨hall, hcut⟩ := @cutSentences_spec text hv (0 :: ((List.range (text.length - 2)).filter (isStop text)).map (· + 2))
  (by
   intro k hk
   rcases mem_cons.1 hk with rfl | hk
   · exact ⟨hpos, boundary_of_valid_drop hv⟩
   · exact hbreaks k hk)
  (by
   rw [pairwise_cons, pairwise_map]
   refine ⟨fun k hk => ?_, hsorted.imp fun h => by omega⟩
   obtain ⟨i, -, rfl⟩ := mem_map.1 hk
   omega)
 exact ⟨fun k hk => (hall k hk).1, hcut⟩

end MoltBrowser.Voice
