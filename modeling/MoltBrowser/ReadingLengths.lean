import MoltBrowser.ReadingCourse
import MoltBrowser.SpokenWeights

set_option autoImplicit false

/-! # How long a chunk takes to say -/
namespace MoltBrowser.Voice
open StreamFilters SelfSynchronizing SpeechEvents List

/-- The weight with no limit but that of a `size_t`. -/
def spokenLength (text : Bytes) : ℕ := (spokenPrefix text (2 ^ 64 - 1)).2

theorem spokenLength_eq {text : Bytes} {w : ℕ} (h : Weighs text w) (hle : w ≤ 2 ^ 64 - 1) : spokenLength text = w := by
 rw [spokenLength, spokenPrefix, h.read 0 0 (by omega)]
 exact Nat.zero_add w

/-! ## Spaces and full stops -/

theorem plain_weight {p : UInt8} (hp : p = 0x20 ∨ p = 0x2E) (more : Bytes) : characterWeight p more = (1, 1) := by
 cases hp with
 | inl h => rw [h]; rfl
 | inr h => rw [h]; rfl

theorem plain_apart {p : UInt8} (hp : p = 0x20 ∨ p = 0x2E) : p < 0x80 ∧ isAsciiLetter p = false ∧ isAsciiDigit p = false := by
 cases hp with
 | inl h => rw [h]; decide
 | inr h => rw [h]; decide

theorem Weighs.beside {a b : Bytes} {x y : ℕ} {p : UInt8} (hp : p = 0x20 ∨ p = 0x2E) (ha : Weighs a x) (hb : Weighs b y) :
  Weighs (a ++ p :: b) (x + (1 + y)) :=
 ha.around hb (plain_apart hp).2.1 (plain_apart hp).2.2 (plain_weight hp)

theorem valid_parts {a b : Bytes} (hv : Valid (a ++ 0x20 :: b)) : Valid a ∧ Valid b := by
 have hspace : AtStart Leads (0x20 :: b) := by
  rintro c ⟨⟩
  exact (by decide : isContinuation 0x20 = false)
 obtain ⟨ha, hb⟩ := SelfSynchronizing.Text.split wellFormed_synchronizing hv hspace
 exact ⟨ha, valid_tail hb (by decide)⟩

theorem Weighs.parts {a b : Bytes} {z : ℕ} (h : Weighs (a ++ 0x20 :: b) z) (hv : Valid (a ++ 0x20 :: b)) :
  ∃ x y, Weighs a x ∧ Weighs b y ∧ z = x + (1 + y) := by
 obtain ⟨ha, hb⟩ := valid_parts hv
 obtain ⟨x, hx⟩ := exists_weighs ha
 obtain ⟨y, hy⟩ := exists_weighs hb
 exact ⟨x, y, hx, hy, h.unique (hx.beside (.inl rfl) hy)⟩

theorem trimEnd_concat (s : Bytes) (c : UInt8) : trimEnd (s ++ [c]) = if c = 0x20 then trimEnd s else s ++ [c] := by
 rw [trimEnd, reverse_concat, dropWhile_cons]
 split_ifs with hspace hc hc
 · rfl
 · exact absurd (eq_of_beq hspace) hc
 · exact absurd (beq_iff_eq.mpr hc) hspace
 · rw [reverse_cons, reverse_reverse]

theorem Weighs.trimEnd {s : Bytes} {x : ℕ} (h : Weighs s x) (hv : Valid s) : ∃ y ≤ x, Weighs (trimEnd s) y := by
 induction s using List.reverseRecOn generalizing x with
 | nil => exact ⟨x, le_rfl, h⟩
 | append_singleton s c ih =>
  rw [trimEnd_concat]
  split_ifs with hc
  · subst hc
    obtain ⟨y, z, hy, -, hx⟩ := h.parts hv
    obtain ⟨w, hw, htrim⟩ := ih hy (valid_parts hv).1
    exact ⟨w, by omega, htrim⟩
  · exact ⟨x, le_rfl, h⟩

theorem chunkText_weighs {block : ReadingBlock} {start stop x : ℕ} (h : Weighs (slice block.text start stop) x)
  (hv : Valid (slice block.text start stop)) : ∃ y ≤ x + 1, Weighs (chunkText block start stop) y := by
 obtain ⟨y, hy, hsaid⟩ := h.trimEnd hv
 have halone : ∃ y ≤ x + 1, Weighs (Voice.trimEnd (slice block.text start stop)) y := ⟨y, by omega, hsaid⟩
 rw [chunkText]
 split_ifs
 · split
   · split_ifs
     · exact halone
     · exact ⟨y + (1 + 0), by omega, hsaid.beside (.inr rfl) .nil⟩
   · exact halone
 · exact halone

/-! ## The sentences of a chunk -/

def firstSentence (block : ReadingBlock) (start : ℕ) : Bytes :=
 slice block.text start ((block.sentences.dropWhile (· ≤ start)).headD block.text.length)

theorem slice_append {text : Bytes} {lo mid hi : ℕ} (hlo : lo ≤ mid) (hhi : mid ≤ hi) :
  slice text lo hi = slice text lo mid ++ slice text mid hi := by
 rw [slice, slice, slice, show hi - lo = mid - lo + (hi - mid) by omega, take_add, drop_drop, Nat.add_sub_of_le hlo]

section Sentences

variable {text : Bytes} {start maxChars : ℕ}

theorem slice_length {lo hi : ℕ} (h : hi ≤ text.length) : (slice text lo hi).length = hi - lo := by
 rw [slice, length_take, length_drop]
 omega

/-- What one more sentence is measured to weigh: one too much when it isn't read to its end. -/
def sentenceWeight (maxChars : ℕ) (sentence : Bytes) : ℕ :=
 if (spokenPrefix sentence maxChars).1 < sentence.length then maxChars + 1 else (spokenPrefix sentence maxChars).2

theorem takeSentences_cons (stop spoken next : ℕ) (starts : List ℕ) : takeSentences text maxChars start stop spoken (next :: starts) =
  if start < stop ∧ maxChars < spoken + sentenceWeight maxChars (slice text stop next) then (stop, spoken)
  else takeSentences text maxChars start next (spoken + sentenceWeight maxChars (slice text stop next)) starts := by
 rw [takeSentences, if_neg (by simp)]
 rfl

theorem takeSentences_nil (stop spoken : ℕ) : takeSentences text maxChars start stop spoken [] =
  if text.length ≤ stop then (stop, spoken)
  else if start < stop ∧ maxChars < spoken + sentenceWeight maxChars (slice text stop text.length) then (stop, spoken)
  else (text.length, spoken + sentenceWeight maxChars (slice text stop text.length)) := by
 rw [takeSentences]
 simp only [true_and, headD_nil]
 rfl

theorem sentence_weighs (hmax : kPictureWeight ≤ maxChars) {sentence : Bytes} (hv : Valid sentence)
  (hfits : sentenceWeight maxChars sentence ≤ maxChars) : Weighs sentence (sentenceWeight maxChars sentence) := by
 have hread : ¬ (spokenPrefix sentence maxChars).1 < sentence.length := by
  intro hshort
  rw [sentenceWeight, if_pos hshort] at hfits
  omega
 rw [sentenceWeight, if_neg hread]
 obtain ⟨-, hweighs | ⟨hcut, hlong, -⟩⟩ := spokenPrefix_weighs hmax hv
 · rwa [take_of_length_le (not_lt.mp hread)] at hweighs
 · have hle := (List.takeWhile_prefix isAsciiLetter (l := sentence)).length_le
   omega

def Fits (text : Bytes) (start maxChars : ℕ) (taken : ℕ × ℕ) : Prop :=
 taken.2 ≤ maxChars ∧ ∃ x ≤ taken.2, Weighs (slice text start taken.1) x

theorem Fits.sentence (hmax : kPictureWeight ≤ maxChars) (hv : Valid text) {stop spoken next : ℕ} (h : Fits text start maxChars (stop, spoken))
  (hle : start ≤ stop) (hstop : Boundary text stop) (hnext : Boundary text next) (hlt : stop ≤ next)
  (hfits : spoken + sentenceWeight maxChars (slice text stop next) ≤ maxChars) :
  Fits text start maxChars (next, spoken + sentenceWeight maxChars (slice text stop next)) := by
 obtain ⟨-, x, hx, hweighs⟩ := h
 have hsentence := sentence_weighs hmax (slice_valid hv hstop hnext hlt) (by omega)
 obtain ⟨z, hz, hboth⟩ := hweighs.append hsentence
 rw [← slice_append hle hlt] at hboth
 exact ⟨hfits, z, by dsimp only at hx ⊢; omega, hboth⟩

theorem Fits.takeSentences (hmax : kPictureWeight ≤ maxChars) (hv : Valid text) {stop spoken : ℕ} {starts : List ℕ}
  (h : Fits text start maxChars (stop, spoken)) (hstop : EndsAt text start stop) (hstarts : ∀ k ∈ starts, EndsAt text start k)
  (hsorted : (stop :: starts).Pairwise (· < ·)) : Fits text start maxChars (takeSentences text maxChars start stop spoken starts) := by
 induction starts generalizing stop spoken with
 | nil =>
  rw [takeSentences_nil]
  split_ifs with hdone hheavy
  · exact h
  · exact h
  · have hfits := not_lt.mp fun hlt => hheavy ⟨hstop.above, hlt⟩
    exact h.sentence hmax hv hstop.above.le hstop.boundary (boundary_of_ge le_rfl) hstop.le hfits
 | cons next starts ih =>
  obtain ⟨hnext, hrest⟩ := pairwise_cons.mp hsorted
  rw [takeSentences_cons]
  split_ifs with hheavy
  · exact h
  · have hfits := not_lt.mp fun hlt => hheavy ⟨hstop.above, hlt⟩
    have hlt := hnext next mem_cons_self
    have hends := hstarts next mem_cons_self
    exact ih (h.sentence hmax hv hstop.above.le hstop.boundary hends.boundary hlt.le hfits) hends
     (fun k hk => hstarts k (mem_cons_of_mem next hk)) hrest

theorem takeSentences_first (hmax : kPictureWeight ≤ maxChars) (hv : Valid text) (hb : Boundary text start) (hstart : start < text.length)
  {starts : List ℕ} (hstarts : ∀ k ∈ starts, EndsAt text start k) (hsorted : starts.Pairwise (· < ·)) :
  (sentenceWeight maxChars (slice text start (starts.headD text.length)) ≤ maxChars →
   Fits text start maxChars (takeSentences text maxChars start start 0 starts)) ∧
  (maxChars < sentenceWeight maxChars (slice text start (starts.headD text.length)) →
   takeSentences text maxChars start start 0 starts =
    (starts.headD text.length, sentenceWeight maxChars (slice text start (starts.headD text.length)))) := by
 have hnone : Fits text start maxChars (start, 0) := by
  refine ⟨Nat.zero_le _, 0, le_rfl, ?_⟩
  rw [slice, Nat.sub_self, take_zero]
  exact .nil
 cases starts with
 | nil =>
  have heq : takeSentences text maxChars start start 0 [] = (text.length, sentenceWeight maxChars (slice text start text.length)) := by
   rw [takeSentences_nil, if_neg (by omega), if_neg fun h => lt_irrefl _ h.1, Nat.zero_add]
  refine ⟨fun hfits => ?_, fun _ => heq⟩
  have hlast := hnone.sentence hmax hv le_rfl hb (boundary_of_ge le_rfl) hstart.le ((Nat.zero_add _).trans_le hfits)
  rw [Nat.zero_add] at hlast
  exact heq ▸ hlast
 | cons next starts =>
  have hends := hstarts next mem_cons_self
  rw [takeSentences_cons, if_neg fun h => lt_irrefl _ h.1, headD_cons, Nat.zero_add]
  refine ⟨fun hfits => ?_, fun hheavy => ?_⟩
  · have hfirst := hnone.sentence hmax hv le_rfl hb hends.boundary hends.above.le ((Nat.zero_add _).trans_le hfits)
    rw [Nat.zero_add] at hfirst
    exact hfirst.takeSentences hmax hv hends (fun k hk => hstarts k (mem_cons_of_mem next hk)) hsorted
  · have hfull : ∀ w, maxChars < sentenceWeight maxChars (slice text start next) + w := fun w => by omega
    cases starts with
    | nil =>
     rw [takeSentences_nil]
     split_ifs with hdone hmore
     · rfl
     · rfl
     · exact absurd ⟨hends.above, hfull _⟩ hmore
    | cons after starts => rw [takeSentences_cons, if_pos ⟨hends.above, hfull _⟩]

end Sentences

/-! ## Where a chunk is cut -/

theorem rfind_eq {c : UInt8} {s : Bytes} {i : ℕ} (h : rfind c s = some i) : s = s.take i ++ c :: s.drop (i + 1) := by
 have hhead := head_drop_rfind h
 cases hdrop : s.drop i with
 | nil =>
  rw [hdrop] at hhead
  cases hhead
 | cons d rest =>
  rw [hdrop] at hhead
  have hd : d = c := Option.some.inj hhead
  have hrest : s.drop (i + 1) = rest := by
   rw [← drop_drop, hdrop]
   rfl
  rw [hrest, ← hd, ← hdrop, take_append_drop]

theorem slice_take {text : Bytes} {start stop k : ℕ} (hk : start + k ≤ stop) : (slice text start stop).take k = slice text start (start + k) := by
 rw [slice, slice, take_take, Nat.add_sub_cancel_left]
 congr 1
 omega

theorem cut_weighs {maxChars : ℕ} (hmax : kPictureWeight ≤ maxChars) {sentence : Bytes} (hv : Valid sentence) (hcut : ¬ SpelledCut maxChars sentence) :
  ∃ x ≤ maxChars, Weighs (sentence.take (spokenPrefix sentence maxChars).1) x := by
 obtain ⟨hle, hweighs | hspelled⟩ := spokenPrefix_weighs hmax hv
 · exact ⟨_, hle, hweighs⟩
 · exact absurd hspelled.2 hcut

theorem Weighs.afterSpace {s : Bytes} {x i : ℕ} (h : Weighs s x) (hv : Valid s) (hspace : rfind 0x20 s = some i) :
  ∃ y ≤ x, Weighs (s.take (i + 1)) y := by
 have hparts := rfind_eq hspace
 have hlen : (s.take i).length = i := by
  rw [length_take]
  exact min_eq_left (rfind_lt hspace).le
 rw [hparts] at h hv
 obtain ⟨y, z, hy, hz, hx⟩ := h.parts hv
 have htake : s.take (i + 1) = s.take i ++ 0x20 :: [] := by
  have hcons := congrArg (List.take (i + 1)) hparts
  rw [hcons]
  rw [take_append, hlen, Nat.add_sub_cancel_left, take_take, min_eq_right (Nat.le_succ i)]
  rfl
 rw [htake]
 exact ⟨y + (1 + 0), by omega, hy.beside (.inl rfl) .nil⟩

section Chunk

variable {block : ReadingBlock} {start maxChars : ℕ}

theorem firstSentence_ends (h : block.Built) (hstart : start < block.text.length) :
  EndsAt block.text start ((block.sentences.dropWhile (· ≤ start)).headD block.text.length) := by
 have hlater := (h.later_starts start).1
 cases hd : block.sentences.dropWhile (· ≤ start) with
 | nil => exact ⟨hstart, le_rfl, boundary_of_ge le_rfl⟩
 | cons next starts =>
  rw [hd] at hlater
  exact hlater next mem_cons_self

theorem firstSentence_length (h : block.Built) (hstart : start < block.text.length) :
  start + (firstSentence block start).length = (block.sentences.dropWhile (· ≤ start)).headD block.text.length := by
 have hends := firstSentence_ends h hstart
 rw [firstSentence, slice_length hends.le]
 exact Nat.add_sub_of_le hends.above.le

theorem slice_firstSentence (h : block.Built) (hstart : start < block.text.length) {k : ℕ} (hk : k ≤ (firstSentence block start).length) :
  slice block.text start (start + k) = (firstSentence block start).take k := by
 have hlen := firstSentence_length h hstart
 exact (slice_take (by omega)).symm

theorem chunkEnd_heavy (hmax : kPictureWeight ≤ maxChars) (h : block.Built) (hstart : start < block.text.length)
  (hb : Boundary block.text start) (hheavy : maxChars < sentenceWeight maxChars (firstSentence block start)) :
  chunkEnd block start maxChars =
   match rfind 0x20 ((firstSentence block start).take (spokenPrefix (firstSentence block start) maxChars).1) with
   | none | some 0 => start + (spokenPrefix (firstSentence block start) maxChars).1
   | some space => start + space + 1 := by
 obtain ⟨hlater, hsorted⟩ := h.later_starts start
 have htaken := (takeSentences_first hmax h.valid hb hstart hlater hsorted).2 hheavy
 have hends := firstSentence_ends h hstart
 have hk : (spokenPrefix (firstSentence block start) maxChars).1 ≤ (firstSentence block start).length :=
  (spokenPrefix_spec maxChars (slice_valid h.valid hb hends.boundary hends.above.le)).1
 rw [← slice_firstSentence h hstart hk, chunkEnd]
 dsimp only
 rw [htaken]
 exact if_pos hheavy

theorem chunkEnd_weighs (hmax : kPictureWeight ≤ maxChars) (h : block.Built) (hstart : start < block.text.length)
  (hb : Boundary block.text start) (hcut : ¬ SpelledCut maxChars (firstSentence block start)) :
  ∃ x ≤ maxChars, Weighs (slice block.text start (chunkEnd block start maxChars)) x := by
 obtain ⟨hlater, hsorted⟩ := h.later_starts start
 have hends := firstSentence_ends h hstart
 have hv : Valid (firstSentence block start) := slice_valid h.valid hb hends.boundary hends.above.le
 by_cases hfits : sentenceWeight maxChars (firstSentence block start) ≤ maxChars
 · obtain ⟨hle, x, hx, hweighs⟩ := (takeSentences_first hmax h.valid hb hstart hlater hsorted).1 hfits
   rw [chunkEnd]
   dsimp only
   rw [if_neg (not_lt.mpr hle)]
   exact ⟨x, hx.trans hle, hweighs⟩
 · rw [chunkEnd_heavy hmax h hstart hb (not_le.mp hfits)]
   obtain ⟨hk, hboundary, -⟩ := spokenPrefix_spec maxChars hv
   obtain ⟨x, hx, hweighs⟩ := cut_weighs hmax hv hcut
   have hlimit : ∃ x ≤ maxChars, Weighs (slice block.text start (start + (spokenPrefix (firstSentence block start) maxChars).1)) x :=
    ⟨x, hx, slice_firstSentence h hstart hk ▸ hweighs⟩
   split
   · exact hlimit
   · exact hlimit
   · next space hzero hspace =>
     obtain ⟨y, hy, hshort⟩ := hweighs.afterSpace (hboundary.split hv).1 hspace
     have hlt := rfind_lt hspace
     rw [length_take] at hlt
     rw [take_take, min_eq_left (by omega)] at hshort
     rw [Nat.add_assoc, slice_firstSentence h hstart (by omega)]
     exact ⟨y, hy.trans hx, hshort⟩

theorem rfind_none {c : UInt8} {s : Bytes} (h : c ∉ s) : rfind c s = none := by
 cases hfind : rfind c s with
 | none => rfl
 | some i =>
  have hparts := rfind_eq hfind
  exact absurd (hparts ▸ mem_append_right _ mem_cons_self) h

theorem trimEnd_letters {word : Bytes} (h : 0x20 ∉ word) : trimEnd word = word := by
 cases word using List.reverseRecOn with
 | nil => rfl
 | append_singleton init c =>
  rw [trimEnd_concat, if_neg]
  rintro rfl
  exact h (mem_append_right _ mem_cons_self)

theorem spelled_bounds {word : Bytes} (h : isSpelled word = true) (part : Bytes) : kSpelledWeight * part.length ≤ (part.map (runWeigh true word)).sum ∧
  (part.map (runWeigh true word)).sum ≤ kPictureWeight * part.length := by
 have heach : ∀ c, kSpelledWeight ≤ runWeigh true word c := by
  intro c
  rw [runWeigh, h]
  change kSpelledWeight ≤ if lowerAscii c = 0x77 then kSpelledWWeight else kSpelledWeight
  split_ifs <;> decide
 induction part with
 | nil => exact ⟨le_rfl, le_rfl⟩
 | cons c part ih =>
  have hlow := heach c
  have hhigh := (runWeigh_bounds true word c).2
  rw [map_cons, sum_cons, length_cons, Nat.mul_succ, Nat.mul_succ]
  omega

/-- A first word that is cut so is all that the chunk says, and each of its letters by its name. -/
theorem chunkText_spelledCut (hmax : kPictureWeight ≤ maxChars) (h : block.Built) (hstart : start < block.text.length)
  (hb : Boundary block.text start) (hcut : SpelledCut maxChars (firstSentence block start)) :
  ∃ x, kSpelledWeight * maxChars ≤ x ∧ x ≤ kPictureWeight * maxChars ∧
   Weighs (chunkText block start (chunkEnd block start maxChars)) x := by
 have hread := spokenPrefix_spelledCut hmax hcut
 obtain ⟨hlong, hspelled, -⟩ := hcut
 have hrun := takeWhile_prefix isAsciiLetter (l := firstSentence block start)
 have hword : (firstSentence block start).take maxChars = ((firstSentence block start).takeWhile isAsciiLetter).take maxChars := by
  obtain ⟨rest, hrest⟩ := hrun
  conv_lhs => rw [← hrest]
  exact take_append_of_le_length hlong.le
 have hlen := hrun.length_le
 have hsentence := firstSentence_length h hstart
 have hends := (firstSentence_ends h hstart).le
 have hletters : ∀ c ∈ (firstSentence block start).take maxChars, isAsciiLetter c = true := by
  intro c hc
  rw [hword] at hc
  exact mem_takeWhile_imp (mem_of_mem_take hc)
 have hspace : 0x20 ∉ (firstSentence block start).take maxChars := fun hin => absurd (hletters _ hin) (by decide)
 have hheavy : sentenceWeight maxChars (firstSentence block start) = maxChars + 1 := by
  rw [sentenceWeight, hread, if_pos (by dsimp only; omega)]
 have hend : chunkEnd block start maxChars = start + maxChars := by
  rw [chunkEnd_heavy hmax h hstart hb (by omega), hread, rfind_none hspace]
 have hsaid : chunkText block start (start + maxChars) = (firstSentence block start).take maxChars := by
  rw [chunkText, slice_firstSentence h hstart (by omega), trimEnd_letters hspace]
  exact if_neg fun hlast => by omega
 rw [← hword] at hspelled
 obtain ⟨hlow, hhigh⟩ := spelled_bounds hspelled ((firstSentence block start).take maxChars)
 have htaken : ((firstSentence block start).take maxChars).length = maxChars := by
  rw [length_take]
  omega
 rw [htaken] at hlow hhigh
 have hne : (firstSentence block start).take maxChars ≠ [] := by
  rw [← length_pos_iff, htaken]
  exact lt_of_lt_of_le (by decide) hmax
 have hweighs : Weighs ((firstSentence block start).take maxChars ++ []) (runWeight true ((firstSentence block start).take maxChars) + 0) :=
  .run hne hletters (fun c hc => absurd hc (Option.not_mem_none c)) .nil
 rw [append_nil, Nat.add_zero] at hweighs
 exact ⟨_, hlow, hhigh, by rw [hend, hsaid]; exact hweighs⟩

end Chunk

/-! ## The chunk at a place -/

/-- A chunk takes as long to say as it is planned to, but for a first word that is cut just before the letter by which it isn't spelled
out. -/
theorem chunkAt_spokenLength_iff {document : ReadingDocument} (hbuilt : ∀ b ∈ document, b.Built) {pos : ReadingPosition}
  (hb : AtBoundary document pos) {maxChars endBlock : ℕ} (hmin : kMinChunkChars ≤ maxChars) (hmax : maxChars ≤ kMaxChunkChars)
  {c : ReadingChunk} (hc : chunkAt document pos maxChars endBlock = some c) :
  spokenLength c.text ≤ maxChars + 1 ↔
   ¬ SpelledCut maxChars (firstSentence (blockAt document (wordFrom document pos (min endBlock document.length)).block)
    (wordFrom document pos (min endBlock document.length)).offset) := by
 obtain ⟨-, hword, hboundary⟩ := wordFrom_spec hbuilt pos (min endBlock document.length) hb
 have hone : max maxChars 1 = maxChars := max_eq_left (le_trans (by decide) hmin)
 have hpicture : kPictureWeight ≤ maxChars := le_trans (by decide) hmin
 have hlimit : kPictureWeight * kMaxChunkChars ≤ 2 ^ 64 - 1 := by decide
 rw [chunkAt, hone] at hc
 dsimp only at hc
 by_cases hdone : min endBlock document.length ≤ (wordFrom document pos (min endBlock document.length)).block
 · rw [if_pos hdone] at hc
   cases hc
 rw [if_neg hdone] at hc
 have hat := hword.resolve_left hdone
 generalize wordFrom document pos (min endBlock document.length) = word at *
 have hblock := blockAt_built hbuilt (hat.block.trans_le (min_le_right _ _))
 have htext : c.text = chunkText (blockAt document word.block) word.offset (chunkEnd (blockAt document word.block) word.offset maxChars) := by
  rw [← Option.some.inj hc]
 rw [htext]
 have hbound : kPictureWeight * maxChars ≤ kPictureWeight * kMaxChunkChars := Nat.mul_le_mul_left _ hmax
 constructor
 · intro hle hcut
   obtain ⟨x, hlow, hhigh, hweighs⟩ := chunkText_spelledCut hpicture hblock hat.offset hboundary hcut
   rw [spokenLength_eq hweighs (hhigh.trans (hbound.trans hlimit))] at hle
   rw [kSpelledWeight] at hlow
   rw [kMinChunkChars] at hmin
   omega
 · intro hcut
   obtain ⟨x, hx, hweighs⟩ := chunkEnd_weighs hpicture hblock hat.offset hboundary hcut
   have hends := @chunkEnd_spec _ _ maxChars hblock hat.offset hboundary
   obtain ⟨y, hy, hsaid⟩ := chunkText_weighs hweighs (slice_valid hblock.valid hboundary hends.boundary hends.above.le)
   rw [kMaxChunkChars] at hmax
   rw [spokenLength_eq hsaid (by omega)]
   omega

theorem chunkAt_spokenLength_iff_hello : spokenLength (utf8 "Hello") ≤ 80 + 1 ↔
  ¬ SpelledCut 80 (firstSentence (blockAt (textDocument (utf8 "Hello")) (wordFrom (textDocument (utf8 "Hello")) {} 1).block)
   (wordFrom (textDocument (utf8 "Hello")) {} 1).offset) := by
 have hc : chunkAt (textDocument (utf8 "Hello")) {} 80 1 = some ⟨utf8 "Hello", {}, { block := 1 }⟩ := by decide +kernel
 have hone : min 1 (textDocument (utf8 "Hello")).length = 1 := by decide +kernel
 have hstart : AtBoundary (textDocument (utf8 "Hello")) {} := boundary_of_valid_drop (k := 0) (blockAt_valid (textDocument_built _) 0)
 have hiff := chunkAt_spokenLength_iff (textDocument_built _) hstart (by decide) (by decide) hc
 rwa [hone] at hiff

def longWord : Bytes := List.replicate 80 0x62 ++ utf8 "a"

theorem longWord_too_long : ¬ ∀ document : ReadingDocument, (∀ b ∈ document, b.Built) → ∀ pos, AtBoundary document pos →
  ∀ maxChars endBlock, kMinChunkChars ≤ maxChars → maxChars ≤ kMaxChunkChars → ∀ c, chunkAt document pos maxChars endBlock = some c →
   spokenLength c.text ≤ maxChars + 1 := by
 intro hclaim
 have hstart : AtBoundary (textDocument longWord) {} := boundary_of_valid_drop (k := 0) (blockAt_valid (textDocument_built _) 0)
 have hlength : (chunkAt (textDocument longWord) {} 80 1).map (fun c => spokenLength c.text) = some 320 := by decide +kernel
 obtain ⟨c, hc, heq⟩ := Option.map_eq_some_iff.mp hlength
 have hle := hclaim _ (textDocument_built _) _ hstart 80 1 (by decide) (by decide) c hc
 omega

end MoltBrowser.Voice
