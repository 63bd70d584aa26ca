import MoltBrowser.DisplayText
import MoltBrowser.JsonStrings

set_option autoImplicit false

/-!
# The recognisers of UTF-8

The stream's validator, the grammar sampler's prefix and the JSON reader each test the bytes
of a character in their own way.
-/
namespace MoltBrowser.GrammarTokens
open StreamFilters SelfSynchronizing Json BoundedJson List

/-! ## Well-formed sequences and code points -/

variable {c : UInt8} {n : ℕ}

theorem shapeOf_leadByte {bits : ℕ} (h : leadByte c = some (n, bits)) :
  (shapeOf c).length = n ∧
   (shapeOf c).secondMin.toNat =
    (if c.toNat = 0xE0 then 0xA0 else if c.toNat = 0xF0 then 0x90 else 0x80) ∧
   (shapeOf c).secondMax.toNat =
    (if c.toNat = 0xED then 0x9F else if c.toNat = 0xF4 then 0x8F else 0xBF) := by
 have hall := forall_byte (p := fun c => ∀ lead ∈ leadByte c, (shapeOf c).length = lead.1 ∧
   (shapeOf c).secondMin.toNat =
    (if c.toNat = 0xE0 then 0xA0 else if c.toNat = 0xF0 then 0x90 else 0x80) ∧
   (shapeOf c).secondMax.toNat =
    (if c.toNat = 0xED then 0x9F else if c.toNat = 0xF4 then 0x8F else 0xBF)) (by decide +kernel) c
 exact hall (n, bits) h

theorem leadByte_of_shape (h : (shapeOf c).length ≠ 0) (hhigh : ¬ c < 0x80) :
  ∃ bits, leadByte c = some ((shapeOf c).length, bits) := by
 have hall := forall_byte (p := fun c => (shapeOf c).length ≠ 0 → ¬ c < 0x80 →
  (leadByte c).map Prod.fst = some (shapeOf c).length) (by decide +kernel) c h hhigh
 obtain ⟨⟨n, bits⟩, hlead, hn⟩ := Option.map_eq_some_iff.1 hall
 exact ⟨bits, hlead.trans (by rw [← hn])⟩

def spelled (bits : ℕ) (tail : Bytes) : ℕ := tail.foldl (fun cp b => cp * 64 + b.toNat % 64) bits

/-- The range of the second byte leaves out the overlong forms, the surrogates and what lies above
U+10FFFF, and nothing else. -/
theorem second_iff {lead : UInt8} {tail : Bytes} {bits : ℕ} (hlead : leadByte lead = some (n, bits))
  (hlen : tail.length + 1 = n) (hall : ∀ b ∈ tail, Continues b) :
  (∀ b ∈ tail.head?, (shapeOf lead).secondMin ≤ b ∧ b ≤ (shapeOf lead).secondMax) ↔
   (spelled bits tail < 0xD800 ∨ (0xDFFF < spelled bits tail ∧ spelled bits tail < 0x110000)) ∧
    ¬(n = 3 ∧ spelled bits tail < 0x800) ∧ ¬(n = 4 ∧ spelled bits tail < 0x10000) := by
 obtain ⟨-, hmin, hmax⟩ := shapeOf_leadByte hlead
 simp only [UInt8.le_iff_toNat_le, hmin, hmax]
 rcases leadByte_iff.1 hlead with ⟨hn, hlow, hhigh, hbits⟩ | ⟨hn, hlow, hhigh, hbits⟩ |
  ⟨hn, hlow, hhigh, hbits⟩
 · obtain ⟨b1, rfl⟩ := length_eq_one_iff.1 (show tail.length = 1 by omega)
   have h1 := hall b1 (by simp)
   simp only [head?_cons, Option.mem_some_iff, forall_eq', spelled, foldl_cons, foldl_nil]
   rw [Continues] at h1
   split_ifs <;> omega
 · obtain ⟨b1, b2, rfl⟩ := length_eq_two.1 (show tail.length = 2 by omega)
   have h1 := hall b1 (by simp)
   have h2 := hall b2 (by simp)
   simp only [head?_cons, Option.mem_some_iff, forall_eq', spelled, foldl_cons, foldl_nil]
   rw [Continues] at h1 h2
   split_ifs <;> omega
 · obtain ⟨b1, b2, b3, rfl⟩ := length_eq_three.1 (show tail.length = 3 by omega)
   have h1 := hall b1 (by simp)
   have h2 := hall b2 (by simp)
   have h3 := hall b3 (by simp)
   simp only [head?_cons, Option.mem_some_iff, forall_eq', spelled, foldl_cons, foldl_nil]
   rw [Continues] at h1 h2 h3
   split_ifs <;> omega

variable {b : UInt8}

theorem continues_of_range (h : 0x80 ≤ b ∧ b ≤ 0xBF) : Continues b :=
 ⟨UInt8.le_iff_toNat_le.1 h.1, UInt8.le_iff_toNat_le.1 h.2⟩

theorem range_of_continues (h : Continues b) : 0x80 ≤ b ∧ b ≤ 0xBF :=
 ⟨UInt8.le_iff_toNat_le.2 h.1, UInt8.le_iff_toNat_le.2 h.2⟩

theorem wellFormed_iff (w : Bytes) : WellFormed w ↔ ∃ c : Char, w = encode c := by
 constructor
 · rintro ⟨lead, tail, rfl, hlen, hsecond, htail⟩
   by_cases hascii : lead < 0x80
   · have hone : (shapeOf lead).length = 1 := by rw [shapeOf, if_pos hascii]
     obtain rfl : tail = [] := length_eq_zero_iff.1 (by omega)
     obtain ⟨c, -, hc⟩ := char_of_ascii hascii
     exact ⟨c, hc.symm⟩
   · obtain ⟨bits, hlead⟩ := leadByte_of_shape (by omega) hascii
     have hall : ∀ b ∈ tail, Continues b := by
      obtain ⟨-, hmin, hmax, -⟩ := shapeOf_spec lead
      intro b hb
      cases tail with
      | nil => exact absurd hb not_mem_nil
      | cons b1 tail =>
       rcases mem_cons.1 hb with rfl | hb
       · obtain ⟨hlo, hhi⟩ := hsecond b (by simp)
         exact continues_of_range ⟨UInt8.le_trans hmin hlo, UInt8.le_trans hhi hmax⟩
       · exact continues_of_range (htail b hb)
     obtain ⟨hvalid, hover⟩ := (second_iff hlead hlen.symm hall).1 hsecond
     obtain ⟨c, hc⟩ := char_of_valid hvalid
     rw [← hc] at hover
     exact ⟨c, (encode_of_bytes hlead hlen.symm hall hc.symm hover).2⟩
 · rintro ⟨c, rfl⟩
   by_cases hascii : c.toNat < 0x80
   · rw [encode_ascii hascii]
     apply wellFormed_ascii
     rw [UInt8.lt_iff_toNat_lt, UInt8.toNat_ofNat_of_lt' (hascii.trans (by decide))]
     exact hascii
   · obtain ⟨lead, tail, n, bits, hencode, hlead, hlen, hall, hcp, hover⟩ :=
      bytes_of_encode (Nat.not_lt.1 hascii)
     have hvalid := valid_char c
     rw [← hcp] at hvalid hover
     refine ⟨lead, tail, hencode, ?_, (second_iff hlead hlen hall).2 ⟨hvalid, hover⟩, ?_⟩
     · rw [(shapeOf_leadByte hlead).1, hlen]
     · intro b hb
       exact range_of_continues (hall b (mem_of_mem_tail hb))

theorem valid_iff_chars (s : Bytes) : Valid s ↔ ∃ chars : List Char, s = chars.flatMap encode := by
 constructor
 · intro h
   induction h with
   | nil => exact ⟨[], rfl⟩
   | cons hw _ ih =>
    obtain ⟨c, rfl⟩ := (wellFormed_iff _).1 hw
    obtain ⟨chars, rfl⟩ := ih
    exact ⟨c :: chars, flatMap_cons.symm⟩
 · rintro ⟨chars, rfl⟩
   induction chars with
   | nil => exact .nil
   | cons c chars ih =>
    rw [flatMap_cons]
    exact .cons ((wellFormed_iff _).2 ⟨c, rfl⟩) ih

/-! ## The sampler's prefix -/

/-- The continuation bytes still expected, and the range allowed for the next one. -/
structure Utf8State where
 remaining : ℕ := 0
 low : UInt8 := 0x80
 high : UInt8 := 0xBF
 deriving DecidableEq

/-- `Feed`: none if the byte can't continue valid UTF-8. -/
def Utf8State.feed (s : Utf8State) (b : UInt8) : Option Utf8State :=
 if 0 < s.remaining then
  if b < s.low ∨ s.high < b then none else some { remaining := s.remaining - 1 }
 else if b = 0 then none
 else if b < 0x80 then some s
 else if 0xC2 ≤ b ∧ b ≤ 0xDF then some { remaining := 1 }
 else if b = 0xE0 then some { remaining := 2, low := 0xA0 }
 else if b = 0xED then some { remaining := 2, high := 0x9F }
 else if 0xE1 ≤ b ∧ b ≤ 0xEF then some { remaining := 2 }
 else if b = 0xF0 then some { remaining := 3, low := 0x90 }
 else if 0xF1 ≤ b ∧ b ≤ 0xF3 then some { remaining := 3 }
 else if b = 0xF4 then some { remaining := 3, high := 0x8F }
 else none

def Utf8State.feedAll (s : Utf8State) : Bytes → Option Utf8State
 | [] => some s
 | b :: rest => (s.feed b).bind fun s => s.feedAll rest

structure Utf8Prefix where
 state : Utf8State := {}

def Utf8Prefix.canAppend (p : Utf8Prefix) (piece : Bytes) : Bool := (p.state.feedAll piece).isSome

def Utf8Prefix.append (p : Utf8Prefix) (piece : Bytes) : Bool × Utf8Prefix :=
 match p.state.feedAll piece with
 | none => (false, p)
 | some s => (true, ⟨s⟩)

theorem feedAll_append (s : Utf8State) (a b : Bytes) :
  s.feedAll (a ++ b) = (s.feedAll a).bind fun s => s.feedAll b := by
 induction a generalizing s with
 | nil => rfl
 | cons c a ih =>
  rw [cons_append, Utf8State.feedAll, Utf8State.feedAll, Option.bind_assoc]
  exact Option.bind_congr fun s _ => ih s

theorem feed_lead (c : UInt8) : ({} : Utf8State).feed c =
  if c = 0 ∨ (shapeOf c).length = 0 then none
  else some ⟨(shapeOf c).length - 1, (shapeOf c).secondMin, (shapeOf c).secondMax⟩ :=
 forall_byte (p := fun c => ({} : Utf8State).feed c =
  if c = 0 ∨ (shapeOf c).length = 0 then none
  else some ⟨(shapeOf c).length - 1, (shapeOf c).secondMin, (shapeOf c).secondMax⟩)
  (by decide +kernel) c

def Follows (low high : UInt8) (w : Bytes) : Prop :=
 (∀ b ∈ w.head?, low ≤ b ∧ b ≤ high) ∧ ∀ b ∈ w.tail, 0x80 ≤ b ∧ b ≤ 0xBF

theorem feed_inside (n : ℕ) (low high b : UInt8) : (⟨n + 1, low, high⟩ : Utf8State).feed b =
  if low ≤ b ∧ b ≤ high then some ⟨n, 0x80, 0xBF⟩ else none := by
 rw [Utf8State.feed, if_pos (Nat.succ_pos n)]
 by_cases h : low ≤ b ∧ b ≤ high
 · rw [if_pos h, if_neg (not_or.2 ⟨UInt8.not_lt.2 h.1, UInt8.not_lt.2 h.2⟩)]
   rfl
 · rw [if_neg h, if_pos]
   rwa [not_and_or, UInt8.not_le, UInt8.not_le] at h

theorem follows_cons (low high b : UInt8) (w : Bytes) :
  Follows low high (b :: w) ↔ (low ≤ b ∧ b ≤ high) ∧ Follows 0x80 0xBF w := by
 cases w <;> simp [Follows]

/-- Between characters the state is the first one again, and some byte can always follow. -/
structure Utf8State.Sound (s : Utf8State) : Prop where
 between : s.remaining = 0 → s.low = 0x80 ∧ s.high = 0xBF
 range : s.low ≤ s.high

theorem sound_continuing (n : ℕ) : (⟨n, 0x80, 0xBF⟩ : Utf8State).Sound :=
 ⟨fun _ => ⟨rfl, rfl⟩, show (0x80 : UInt8) ≤ 0xBF by decide⟩

theorem sound_leading (c : UInt8) :
  (⟨(shapeOf c).length - 1, (shapeOf c).secondMin, (shapeOf c).secondMax⟩ : Utf8State).Sound := by
 have h := forall_byte (p := fun c => ((shapeOf c).length - 1 = 0 →
   (shapeOf c).secondMin = 0x80 ∧ (shapeOf c).secondMax = 0xBF) ∧
  (shapeOf c).secondMin ≤ (shapeOf c).secondMax) (by decide +kernel) c
 exact ⟨h.1, h.2⟩

theorem feedAll_iff {low high : UInt8} (h : (⟨n, low, high⟩ : Utf8State).Sound) (s : Bytes) :
  (⟨n, low, high⟩ : Utf8State).feedAll s = some {} ↔
   ∃ w rest, s = w ++ rest ∧ w.length = n ∧ Follows low high w ∧
    ({} : Utf8State).feedAll rest = some {} := by
 induction n generalizing low high s with
 | zero =>
  obtain ⟨rfl, rfl⟩ := h.between rfl
  constructor
  · intro hs
    exact ⟨[], s, rfl, rfl, by simp [Follows], hs⟩
  · rintro ⟨w, rest, rfl, hw, -, hs⟩
    rw [length_eq_zero_iff.1 hw]
    exact hs
 | succ n ih =>
  cases s with
  | nil =>
   constructor
   · intro hs
     exact absurd (congrArg Utf8State.remaining (Option.some.inj hs)) (Nat.succ_ne_zero n)
   · rintro ⟨w, rest, hnil, hw, -⟩
     rw [(append_eq_nil_iff.1 hnil.symm).1] at hw
     exact absurd hw.symm (Nat.succ_ne_zero n)
  | cons b s =>
   rw [Utf8State.feedAll, feed_inside]
   constructor
   · intro hs
     split_ifs at hs with hb
     · obtain ⟨w, rest, rfl, hw, hfollows, hrest⟩ := (ih (sound_continuing n) s).1 hs
       exact ⟨b :: w, rest, rfl, by rw [length_cons, hw], (follows_cons ..).2 ⟨hb, hfollows⟩, hrest⟩
     · exact absurd hs (Option.some_ne_none _).symm
   · rintro ⟨w, rest, heq, hw, hfollows, hrest⟩
     cases w with
     | nil => exact absurd hw.symm (Nat.succ_ne_zero n)
     | cons c w =>
      obtain ⟨rfl, rfl⟩ := List.cons.inj heq
      obtain ⟨hb, hfollows⟩ := (follows_cons ..).1 hfollows
      rw [if_pos hb]
      exact (ih (sound_continuing n) _).2 ⟨w, rest, rfl, Nat.succ.inj hw, hfollows, hrest⟩

theorem feedAll_cons (c : UInt8) (after : Bytes) : ({} : Utf8State).feedAll (c :: after) = some {} ↔
  c ≠ 0 ∧ ∃ w rest, after = w ++ rest ∧ WellFormed (c :: w) ∧ ({} : Utf8State).feedAll rest = some {} := by
 rw [Utf8State.feedAll, feed_lead]
 constructor
 · intro h
   split_ifs at h with hbad
   · exact absurd h (Option.some_ne_none _).symm
   · obtain ⟨hc, hlen⟩ := not_or.1 hbad
     obtain ⟨w, rest, rfl, hw, hfollows, hrest⟩ := (feedAll_iff (sound_leading c) after).1 h
     exact ⟨hc, w, rest, rfl, ⟨c, w, rfl, by omega, hfollows⟩, hrest⟩
 · rintro ⟨hc, w, rest, rfl, ⟨c', w', heq, hlen, hfollows⟩, hrest⟩
   obtain ⟨rfl, rfl⟩ := List.cons.inj heq
   rw [if_neg (not_or.2 ⟨hc, by omega⟩)]
   exact (feedAll_iff (sound_leading c) _).2 ⟨w, rest, rfl, by omega, hfollows, hrest⟩

theorem nul_wellFormed {w : Bytes} (h : WellFormed (c :: w)) : 0 ∈ c :: w ↔ c = 0 := by
 obtain ⟨c', w', heq, -, htail⟩ := wellFormed_synchronizing.starts h
 obtain ⟨rfl, rfl⟩ := List.cons.inj heq
 rw [mem_cons, or_iff_left fun h0 => htail 0 h0 rfl]
 exact eq_comm

theorem feedAll_valid (s : Bytes) : ({} : Utf8State).feedAll s = some {} ↔ Valid s ∧ 0 ∉ s := by
 constructor
 · intro h
   induction hn : s.length using Nat.strong_induction_on generalizing s with
   | _ n ih =>
    cases s with
    | nil => exact ⟨.nil, not_mem_nil⟩
    | cons c after =>
     obtain ⟨hc, w, rest, rfl, hw, hrest⟩ := (feedAll_cons c after).1 h
     have hlt : rest.length < n := by
      rw [← hn, length_cons, length_append]
      omega
     obtain ⟨hvalid, hnul⟩ := ih _ hlt rest hrest rfl
     rw [← cons_append, mem_append, nul_wellFormed hw]
     exact ⟨.cons hw hvalid, not_or.2 ⟨hc, hnul⟩⟩
 · rintro ⟨h, hnul⟩
   induction h with
   | nil => rfl
   | @cons w rest hw _ ih =>
    obtain ⟨c, tail, rfl, -⟩ := wellFormed_synchronizing.starts hw
    rw [mem_append, nul_wellFormed hw, not_or] at hnul
    exact (feedAll_cons c _).2 ⟨hnul.1, tail, rest, rfl, hw, ih hnul.2⟩

variable {s : Utf8State}

theorem feed_sound {s' : Utf8State} (hs : s.Sound) (h : s.feed b = some s') : s'.Sound := by
 obtain ⟨n, low, high⟩ := s
 cases n with
 | zero =>
  obtain ⟨rfl, rfl⟩ := hs.between rfl
  have hlead := feed_lead b
  rw [h] at hlead
  split_ifs at hlead
  rw [Option.some.inj hlead]
  exact sound_leading b
 | succ n =>
  rw [feed_inside] at h
  split_ifs at h
  rw [← Option.some.inj h]
  exact sound_continuing n

theorem feedAll_sound {s' : Utf8State} {bytes : Bytes} (hs : s.Sound) (h : s.feedAll bytes = some s') :
  s'.Sound := by
 induction bytes generalizing s with
 | nil =>
  rw [← Option.some.inj h]
  exact hs
 | cons b bytes ih =>
  obtain ⟨t, ht, hrest⟩ := Option.bind_eq_some_iff.1 h
  exact ih (feed_sound hs ht) hrest

/-- The character begun can be completed: by the least byte allowed, then any continuation bytes. -/
theorem completed (hs : s.Sound) : ∃ more, s.feedAll more = some {} := by
 obtain ⟨n, low, high⟩ := s
 have hrange : low ≤ high := hs.range
 have hall : ∀ b ∈ List.replicate (n - 1) (0x80 : UInt8), 0x80 ≤ b ∧ b ≤ 0xBF := by
  intro b hb
  rw [eq_of_mem_replicate hb]
  decide
 have hfollows : Follows low high (low :: List.replicate (n - 1) 0x80) := by
  rw [follows_cons]
  exact ⟨⟨UInt8.le_refl low, hrange⟩, fun b hb => hall b (mem_of_mem_head? hb),
   fun b hb => hall b (mem_of_mem_tail hb)⟩
 cases n with
 | zero =>
  obtain ⟨rfl, rfl⟩ := hs.between rfl
  exact ⟨[], rfl⟩
 | succ n =>
  refine ⟨low :: List.replicate n 0x80, (feedAll_iff hs _).2 ⟨_, [], ?_, ?_, hfollows, rfl⟩⟩
  · exact (append_nil _).symm
  · rw [length_cons, length_replicate]
    rfl

theorem feedAll_isSome (text : Bytes) : (({} : Utf8State).feedAll text).isSome = true ↔
  ∃ more, isValidUtf8 (text ++ more) = true ∧ 0 ∉ text ++ more := by
 rw [Option.isSome_iff_exists]
 constructor
 · rintro ⟨s, hs⟩
   obtain ⟨more, hmore⟩ := completed (feedAll_sound (sound_continuing 0) hs)
   refine ⟨more, ?_⟩
   rw [isValidUtf8_iff, ← feedAll_valid, feedAll_append, hs]
   exact hmore
 · rintro ⟨more, hmore⟩
   rw [isValidUtf8_iff, ← feedAll_valid, feedAll_append] at hmore
   obtain ⟨s, hs, -⟩ := Option.bind_eq_some_iff.1 hmore
   exact ⟨s, hs⟩

def Utf8Prefix.offer (text : Bytes) (p : Utf8Prefix) : List Bytes → Bytes × Utf8Prefix
 | [] => (text, p)
 | piece :: pieces =>
  offer (if (p.append piece).1 then text ++ piece else text) (p.append piece).2 pieces

def Tracked (text : Bytes) (p : Utf8Prefix) : Prop := ({} : Utf8State).feedAll text = some p.state

variable {text : Bytes} {p : Utf8Prefix}

theorem tracked_append (h : Tracked text p) (piece : Bytes) :
  Tracked (if (p.append piece).1 then text ++ piece else text) (p.append piece).2 := by
 cases hfeed : p.state.feedAll piece with
 | none =>
  simp only [Utf8Prefix.append, hfeed]
  exact h
 | some s =>
  simp only [Utf8Prefix.append, hfeed, if_true]
  rw [Tracked, feedAll_append, h]
  exact hfeed

theorem tracked_offer (h : Tracked text p) (pieces : List Bytes) :
  Tracked (p.offer text pieces).1 (p.offer text pieces).2 := by
 induction pieces generalizing text p with
 | nil => exact h
 | cons piece pieces ih => exact ih (tracked_append h piece)

theorem canAppend_eq (p : Utf8Prefix) (piece : Bytes) : p.canAppend piece = (p.append piece).1 := by
 rw [Utf8Prefix.canAppend, Utf8Prefix.append]
 cases p.state.feedAll piece <;> rfl

theorem refused_unchanged {piece : Bytes} (h : (p.append piece).1 = false) :
  (p.append piece).2 = p := by
 rw [Utf8Prefix.append] at h ⊢
 cases hfeed : p.state.feedAll piece with
 | none => rfl
 | some s =>
  rw [hfeed] at h
  exact Bool.noConfusion h

theorem append_iff (h : Tracked text p) (piece : Bytes) :
  (p.append piece).1 = true ↔
   ∃ more, isValidUtf8 (text ++ piece ++ more) = true ∧ 0 ∉ text ++ piece ++ more := by
 rw [← feedAll_isSome, feedAll_append, h, ← canAppend_eq]
 rfl

/-! ## The JSON reader -/

theorem continueWith_fails (cp : ℕ) (w : Bytes) :
  (∃ n, continueWith cp w = .ok n) ∨ continueWith cp w = fail .syntaxError := by
 induction w generalizing cp with
 | nil => exact Or.inl ⟨cp, rfl⟩
 | cons b w ih =>
  rw [continueWith]
  split_ifs
  · exact Or.inr rfl
  · exact ih _

theorem readUtf8Char_fails (s : Bytes) :
  (∃ w rest, readUtf8Char s = .ok (w, rest)) ∨ readUtf8Char s = fail .syntaxError := by
 rw [readUtf8Char]
 cases leadByte (peek s) with
 | none => exact Or.inr rfl
 | some lead =>
  dsimp only
  split_ifs
  · exact Or.inr rfl
  · rcases continueWith_fails lead.2 (s.take lead.1).tail with ⟨cp, hcp⟩ | hfail
    · rw [hcp, bind_ok]
      split_ifs
      · exact Or.inr rfl
      · exact Or.inl ⟨_, _, rfl⟩
    · rw [hfail]
      exact Or.inr rfl

theorem readUtf8Char_iff (s w rest : Bytes) : readUtf8Char s = .ok (w, rest) ↔
  ∃ c : Char, 0x80 ≤ c.toNat ∧ w = encode c ∧ s = w ++ rest := by
 constructor
 · exact readUtf8Char_split
 · rintro ⟨c, hc, rfl, rfl⟩
   exact readUtf8Char_append hc rest

/-- The validator takes the concatenated encodings of scalar values; the sampler, whatever it was
offered before, the prefixes of those without NUL; the reader exactly one that isn't ASCII. -/
theorem recognisers_agree :
  (∀ s : Bytes, isValidUtf8 s = true ↔ ∃ chars : List Char, s = chars.flatMap encode) ∧
   (∀ (pieces : List Bytes) (piece : Bytes),
    let text := (({} : Utf8Prefix).offer [] pieces).1
    let p := (({} : Utf8Prefix).offer [] pieces).2
    ((p.append piece).1 = true ↔
      ∃ more, isValidUtf8 (text ++ piece ++ more) = true ∧ 0 ∉ text ++ piece ++ more) ∧
     p.canAppend piece = (p.append piece).1 ∧
     ((p.append piece).1 = false → (p.append piece).2 = p)) ∧
   ∀ s : Bytes,
    (∀ w rest, readUtf8Char s = .ok (w, rest) ↔
     ∃ c : Char, 0x80 ≤ c.toNat ∧ w = encode c ∧ s = w ++ rest) ∧
    ((∀ w rest, readUtf8Char s ≠ .ok (w, rest)) → readUtf8Char s = fail .syntaxError) := by
 refine ⟨fun s => (isValidUtf8_iff s).trans (valid_iff_chars s), fun pieces piece => ?_, fun s => ?_⟩
 · have htracked : Tracked [] ({} : Utf8Prefix) := rfl
   exact ⟨append_iff (tracked_offer htracked pieces) piece, canAppend_eq _ piece, refused_unchanged⟩
 · refine ⟨readUtf8Char_iff s, fun h => ?_⟩
   rcases readUtf8Char_fails s with ⟨w, rest, hok⟩ | hfail
   · exact absurd hok (h w rest)
   · exact hfail

end MoltBrowser.GrammarTokens
