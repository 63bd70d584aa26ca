import MoltBrowser.StreamFilters

set_option autoImplicit false

/-!
# Characters assembled from chunks

What the assembler hands on is repaired piece by piece. It cuts by the first byte of a
character alone, the repair by the maximal subpart; where it cuts they agree.
-/
namespace MoltBrowser.StreamFilters
open SelfSynchronizing List

section Matched

variable {c : UInt8} {rest t : Bytes} {n : ℕ}

/-- The byte may stand `n` bytes after the first. -/
def Fits (shape : SequenceShape) (n : ℕ) (b : UInt8) : Prop :=
 (if n = 1 then shape.secondMin else 0x80) ≤ b ∧ b ≤ (if n = 1 then shape.secondMax else 0xBF)

instance (shape : SequenceShape) (n : ℕ) (b : UInt8) : Decidable (Fits shape n b) :=
 inferInstanceAs (Decidable (_ ∧ _))

theorem matchedFrom_cons (shape : SequenceShape) (n : ℕ) (b : UInt8) (rest : Bytes) :
  matchedFrom shape n (b :: rest) =
   if n < shape.length ∧ Fits shape n b then matchedFrom shape (n + 1) rest else n := by
 have hout : (b < (if n = 1 then shape.secondMin else 0x80) ∨
   (if n = 1 then shape.secondMax else 0xBF) < b) ↔ ¬ Fits shape n b := by
  rw [Fits, not_and_or, UInt8.not_le, UInt8.not_le]
 rw [matchedFrom]
 simp only [hout]
 by_cases hlt : n < shape.length
 · rw [if_pos hlt, ite_not]
   simp only [hlt, true_and]
 · rw [if_neg hlt, if_neg fun h => hlt h.1]

theorem matchedFrom_le (shape : SequenceShape) (n : ℕ) (rest : Bytes) :
  matchedFrom shape n rest ≤ n + rest.length := by
 induction rest generalizing n with
 | nil => exact le_refl n
 | cons b rest ih =>
  rw [matchedFrom_cons, length_cons]
  have hmore := ih (n + 1)
  split_ifs <;> omega

theorem Fits.continuation {b : UInt8} (h : Fits (shapeOf c) n b) : isContinuation b = true := by
 obtain ⟨-, hmin, hmax, -⟩ := shapeOf_spec c
 rw [Fits] at h
 rw [isContinuation_iff]
 split_ifs at h
 · exact ⟨UInt8.le_trans hmin h.1, UInt8.le_trans h.2 hmax⟩
 · exact h

theorem Fits.not_leads {b : UInt8} (h : Fits (shapeOf c) n b) : ¬ Leads b := by
 rw [Leads, h.continuation]
 exact Bool.noConfusion

/-- What follows changes nothing once a byte that leads was seen, or no byte is missing. -/
theorem matchedFrom_append
  (h : AtStart Leads t ∨ (∃ b ∈ rest, Leads b) ∨ (shapeOf c).length ≤ n + rest.length) :
  matchedFrom (shapeOf c) n (rest ++ t) = matchedFrom (shapeOf c) n rest := by
 induction rest generalizing n with
 | nil =>
  cases t with
  | nil => rfl
  | cons b t =>
   rw [nil_append, matchedFrom_cons, matchedFrom]
   apply if_neg
   rintro ⟨hlt, hfits⟩
   rcases h with hstart | ⟨d, hd, -⟩ | hlen
   · exact hfits.not_leads (hstart b rfl)
   · exact not_mem_nil hd
   · rw [length_nil] at hlen
     omega
 | cons b rest ih =>
  rw [cons_append, matchedFrom_cons, matchedFrom_cons]
  split_ifs with hnext
  · apply ih
    rcases h with hstart | ⟨d, hd, hlead⟩ | hlen
    · exact Or.inl hstart
    · rcases mem_cons.1 hd with rfl | hd
      · exact absurd hlead hnext.2.not_leads
      · exact Or.inr (Or.inl ⟨d, hd, hlead⟩)
    · rw [length_cons] at hlen
      exact Or.inr (Or.inr (by omega))
  · rfl

theorem matchedPrefix_le (c : UInt8) (after : Bytes) : matchedPrefix (shapeOf c) after ≤ after.length + 1 := by
 rw [matchedPrefix]
 split_ifs with h
 · omega
 · have hle := matchedFrom_le (shapeOf c) 1 after
   omega

end Matched

/-! ## Where repair may be cut -/

def Settled (s : Bytes) : Prop :=
 ∀ c after, c :: after <:+ s → (∀ b ∈ after, isContinuation b = true) →
  (shapeOf c).length ≤ after.length + 1

theorem Settled.suffix {s t : Bytes} (h : Settled s) (ht : t <:+ s) : Settled t :=
 fun c after hsuf hall => h c after (hsuf.trans ht) hall

def Divides (s t : Bytes) : Prop := AtStart Leads t ∨ Settled s

theorem Divides.suffix {s s' t : Bytes} (h : Divides s t) (hs : s' <:+ s) : Divides s' t :=
 Or.imp_right (fun hsettled => hsettled.suffix hs) h

theorem matchedPrefix_append {c : UInt8} {after t : Bytes} (h : Divides (c :: after) t) :
  matchedPrefix (shapeOf c) (after ++ t) = matchedPrefix (shapeOf c) after := by
 rw [matchedPrefix, matchedPrefix]
 split_ifs with hzero
 · rfl
 · apply matchedFrom_append
   rcases h with hstart | hsettled
   · exact Or.inl hstart
   · by_cases hall : ∀ b ∈ after, isContinuation b = true
     · have hlen := hsettled c after (suffix_refl _) hall
       exact Or.inr (Or.inr (by omega))
     · rw [not_forall] at hall
       obtain ⟨b, hall⟩ := hall
       rw [Classical.not_imp, Bool.not_eq_true] at hall
       exact Or.inr (Or.inl ⟨b, hall⟩)

theorem replaceFrom_cons (out kept : Bytes) (c : UInt8) (after : Bytes) :
  replaceFrom out kept (c :: after) =
   if matchedPrefix (shapeOf c) after ≠ 0 ∧
     matchedPrefix (shapeOf c) after = (shapeOf c).length then
    replaceFrom out (kept ++ c :: after.take (matchedPrefix (shapeOf c) after - 1))
     (after.drop (matchedPrefix (shapeOf c) after - 1))
   else
    replaceFrom (out ++ kept ++ replacementCharacter) []
     (after.drop (matchedPrefix (shapeOf c) after - 1)) := by
 have hone : ∀ n : ℕ, (if n = 0 then 1 else n) - 1 = n - 1 := fun n => by split_ifs <;> omega
 rw [replaceFrom, hone]

theorem replaceFrom_eq (out kept s : Bytes) : replaceFrom out kept s = out ++ kept ++ replaceInvalidUtf8 s := by
 induction hn : s.length using Nat.strong_induction_on generalizing out kept s with
 | _ n ih =>
  cases s with
  | nil => rw [replaceInvalidUtf8, replaceFrom, replaceFrom, append_nil, append_nil]
  | cons c after =>
   have hlt : ∀ k, (after.drop k).length < n := fun k => by
    rw [← hn, length_drop, length_cons]
    omega
   rw [replaceInvalidUtf8, replaceFrom_cons, replaceFrom_cons]
   split_ifs with hgood
   · rw [ih _ (hlt _) _ _ _ rfl, ih _ (hlt _) [] _ _ rfl]
     simp
   · rw [ih _ (hlt _) _ _ _ rfl, ih _ (hlt _) ([] ++ [] ++ replacementCharacter) _ _ rfl]
     simp

theorem replaceInvalidUtf8_cons (c : UInt8) (after : Bytes) :
  replaceInvalidUtf8 (c :: after) =
   if matchedPrefix (shapeOf c) after ≠ 0 ∧
     matchedPrefix (shapeOf c) after = (shapeOf c).length then
    c :: after.take (matchedPrefix (shapeOf c) after - 1) ++
     replaceInvalidUtf8 (after.drop (matchedPrefix (shapeOf c) after - 1))
   else
    replacementCharacter ++ replaceInvalidUtf8 (after.drop (matchedPrefix (shapeOf c) after - 1)) := by
 rw [replaceInvalidUtf8, replaceFrom_cons, replaceFrom_eq, replaceFrom_eq]
 rfl

/-- By strong induction on the first part: the maximal subparts at its front are taken whole. -/
theorem replaceInvalidUtf8_append {s t : Bytes} (h : Divides s t) :
  replaceInvalidUtf8 (s ++ t) = replaceInvalidUtf8 s ++ replaceInvalidUtf8 t := by
 induction hn : s.length using Nat.strong_induction_on generalizing s with
 | _ n ih =>
  cases s with
  | nil =>
   have hnil : replaceInvalidUtf8 [] = [] := by rw [replaceInvalidUtf8, replaceFrom, append_nil]
   rw [nil_append, hnil, nil_append]
  | cons c after =>
   have hle := matchedPrefix_le c after
   set k := matchedPrefix (shapeOf c) after with hk
   have hrest : replaceInvalidUtf8 (after.drop (k - 1) ++ t) =
     replaceInvalidUtf8 (after.drop (k - 1)) ++ replaceInvalidUtf8 t := by
    apply ih _ _ (h.suffix _) rfl
    · rw [← hn, length_drop, length_cons]
      omega
    · exact (drop_suffix _ _).trans (suffix_cons _ _)
   rw [cons_append, replaceInvalidUtf8_cons, replaceInvalidUtf8_cons, matchedPrefix_append h,
    ← hk, drop_append_of_le_length (by omega), take_append_of_le_length (by omega), hrest]
   split_ifs <;> simp

theorem toDisplayText_append {s t : Bytes} (h : Divides s t) :
  toDisplayText (s ++ t) = toDisplayText s ++ toDisplayText t := by
 rw [toDisplayText, replaceInvalidUtf8_append h, replaceNul_append]
 rfl

/-! ## Where the assembler cuts -/

/-- How many bytes the assembler waits for after `lead`. -/
def neededFor (lead : UInt8) : ℕ :=
 if lead < 0x80 then 1
 else if lead &&& 0xE0 = 0xC0 then 2
 else if lead &&& 0xF0 = 0xE0 then 3
 else if lead &&& 0xF8 = 0xF0 then 4
 else 1

theorem shape_le_neededFor (c : UInt8) : (shapeOf c).length ≤ neededFor c :=
 forall_byte (p := fun c => (shapeOf c).length ≤ neededFor c) (by decide +kernel) c

theorem shape_of_continuation {c : UInt8} (h : isContinuation c = true) : (shapeOf c).length = 0 := by
 by_contra hpos
 rw [(shapeOf_spec c).1 hpos] at h
 exact Bool.noConfusion h

theorem lastLead (s : Bytes) : (∀ b ∈ s, isContinuation b = true) ∨
  ∃ init lead tail, s = init ++ lead :: tail ∧ Leads lead ∧ ∀ b ∈ tail, isContinuation b = true := by
 induction s with
 | nil => exact Or.inl fun b hb => absurd hb not_mem_nil
 | cons c s ih =>
  rcases ih with hall | ⟨init, lead, tail, rfl, hlead, htail⟩
  · by_cases hc : isContinuation c = true
    · exact Or.inl (forall_mem_cons.2 ⟨hc, hall⟩)
    · exact Or.inr ⟨[], c, s, rfl, (Bool.not_eq_true _).mp hc, hall⟩
  · exact Or.inr ⟨c :: init, lead, tail, rfl, hlead, htail⟩

theorem trailing_append {tail : Bytes} (h : ∀ b ∈ tail, isContinuation b = true) (s : Bytes) :
  ((s ++ tail).reverse.takeWhile isContinuation).length =
   tail.length + (s.reverse.takeWhile isContinuation).length := by
 have hrev : ∀ b ∈ tail.reverse, isContinuation b = true := fun b hb => h b (mem_reverse.1 hb)
 rw [reverse_append, takeWhile_append_of_pos hrev, length_append, length_reverse]

theorem safe_of_continuation {s : Bytes} (h : ∀ b ∈ s, isContinuation b = true) :
  utf8SafePrefixLength s = s.length := by
 have htrailing : (s.reverse.takeWhile isContinuation).length = s.length := trailing_append h []
 rw [utf8SafePrefixLength, htrailing, Nat.sub_self]

theorem safe_of_lead {lead : UInt8} {tail : Bytes} (init : Bytes) (hlead : Leads lead)
  (h : ∀ b ∈ tail, isContinuation b = true) :
  utf8SafePrefixLength (init ++ lead :: tail) =
   if neededFor lead ≤ tail.length + 1 then (init ++ lead :: tail).length else init.length := by
 have hsplit : init ++ lead :: tail = (init ++ [lead]) ++ tail := by simp
 have htrailing : ((init ++ lead :: tail).reverse.takeWhile isContinuation).length = tail.length := by
  rw [hsplit, trailing_append h, reverse_append, reverse_singleton, singleton_append,
   takeWhile_cons_of_neg (by rw [hlead]; exact Bool.noConfusion)]
  rfl
 have hlength : (init ++ lead :: tail).length = init.length + tail.length + 1 := by
  rw [length_append, length_cons, Nat.add_assoc]
 have hcut : (init ++ lead :: tail).length - tail.length = init.length + 1 := by omega
 have hhave : (init ++ lead :: tail).length - init.length = tail.length + 1 := by omega
 have hget : (init ++ lead :: tail).getD init.length 0 = lead := by simp
 rw [utf8SafePrefixLength, htrailing, hcut]
 simp only [hget, hhave]
 rfl

theorem settled_of_continuation {s : Bytes} (h : ∀ b ∈ s, isContinuation b = true) : Settled s := by
 intro c after hsuffix _
 rw [shape_of_continuation (h c (hsuffix.subset (mem_cons_self ..)))]
 exact Nat.zero_le _

theorem settled_of_lead {lead : UInt8} {tail : Bytes} (init : Bytes) (hlead : Leads lead)
  (h : ∀ b ∈ tail, isContinuation b = true) (hlen : neededFor lead ≤ tail.length + 1) :
  Settled (init ++ lead :: tail) := by
 intro c after hsuffix hafter
 have hheld : (shapeOf lead).length ≤ tail.length + 1 := (shape_le_neededFor lead).trans hlen
 rcases suffix_or_suffix_of_suffix hsuffix (suffix_append init (lead :: tail)) with hin | hover
 · rcases suffix_cons_iff.1 hin with heq | htail
   · obtain ⟨rfl, rfl⟩ := List.cons.inj heq
     exact hheld
   · exact settled_of_continuation h c after htail hafter
 · rcases suffix_cons_iff.1 hover with heq | hinside
   · obtain ⟨rfl, rfl⟩ := List.cons.inj heq
     exact hheld
   · have hcontinues := hafter lead (hinside.subset (mem_cons_self ..))
     rw [hlead] at hcontinues
     exact Bool.noConfusion hcontinues

theorem safe_divides (s more : Bytes) :
  Divides (s.take (utf8SafePrefixLength s)) (s.drop (utf8SafePrefixLength s) ++ more) := by
 rcases lastLead s with hall | ⟨init, lead, tail, rfl, hlead, htail⟩
 · rw [safe_of_continuation hall, take_length]
   exact Or.inr (settled_of_continuation hall)
 · rw [safe_of_lead init hlead htail]
   split_ifs with hlen
   · rw [take_length]
     exact Or.inr (settled_of_lead init hlead htail hlen)
   · rw [drop_left]
     apply Or.inl
     intro c hc
     obtain rfl : lead = c := by simpa using hc
     exact hlead

/-- What `Push` hands on for each chunk, and `Flush` at the end. -/
def Utf8Assembler.pieces : Utf8Assembler → List Bytes → List Bytes
 | f, [] => [f.flush.1]
 | f, bytes :: chunks => (f.push bytes).1 :: (f.push bytes).2.pieces chunks

theorem pieces_displayed (f : Utf8Assembler) (chunks : List Bytes) :
  ((f.pieces chunks).map toDisplayText).flatten = toDisplayText (f.pending ++ chunks.flatten) := by
 induction chunks generalizing f with
 | nil => simp [Utf8Assembler.pieces, Utf8Assembler.flush]
 | cons bytes chunks ih =>
  have hcut := toDisplayText_append (safe_divides (f.pending ++ bytes) chunks.flatten)
  rw [← append_assoc, take_append_drop] at hcut
  rw [Utf8Assembler.pieces, map_cons, flatten_cons, flatten_cons, ih,
   ← append_assoc, hcut]
  rfl

/-- Displaying the pieces one by one displays the whole stream, and every piece can be shown. -/
theorem assembled_additive (chunks : List Bytes) :
  ((({} : Utf8Assembler).pieces chunks).map toDisplayText).flatten = toDisplayText chunks.flatten ∧
   ∀ piece ∈ (({} : Utf8Assembler).pieces chunks).map toDisplayText,
    isValidUtf8 piece = true ∧ 0 ∉ piece := by
 constructor
 · exact pieces_displayed {} chunks
 · intro piece hpiece
   obtain ⟨bytes, -, rfl⟩ := List.mem_map.1 hpiece
   obtain ⟨hvalid, hnul⟩ := toDisplayText_valid bytes
   exact ⟨(isValidUtf8_iff _).2 hvalid, hnul⟩

end MoltBrowser.StreamFilters
