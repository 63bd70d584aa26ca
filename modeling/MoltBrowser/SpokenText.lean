import MoltBrowser.DisplayText

set_option autoImplicit false

/-!
# Decoding what is spoken

The voice code's own readers of UTF-8: one for the browser's texts, one in the speech
helper. Both take exactly the well-formed sequences.
-/
namespace MoltBrowser.Voice
open StreamFilters SelfSynchronizing List

/-- How long a character with this first byte is, and the range of its second; no length for a
byte that can't be first. -/
def leadOf (b0 : UInt8) : ℕ × UInt8 × UInt8 :=
 if 0xC2 ≤ b0 ∧ b0 ≤ 0xDF then (2, 0x80, 0xBF)
 else if 0xE0 ≤ b0 ∧ b0 ≤ 0xEF then
  (3, if b0 = 0xE0 then 0xA0 else 0x80, if b0 = 0xED then 0x9F else 0xBF)
 else if 0xF0 ≤ b0 ∧ b0 ≤ 0xF4 then
  (4, if b0 = 0xF0 then 0x90 else 0x80, if b0 = 0xF4 then 0x8F else 0xBF)
 else (0, 0x80, 0xBF)

/-- The character at the front and its length in bytes, 0 if the bytes there aren't one. -/
def decodeAt : Bytes → ℕ × ℕ
 | [] => (0, 0)
 | b0 :: after =>
  if b0 < 0x80 then (1, b0.toNat)
  else
   let (length, lo, hi) := leadOf b0
   if length = 0 ∨ after.length + 1 < length then (0, 0)
   else
    let b1 := after.getD 0 0
    let more := (after.take (length - 1)).tail
    if b1 < lo ∨ hi < b1 then (0, 0)
    else if more.any fun b => b < 0x80 || 0xBF < b then (0, 0)
    else
     (length, more.foldl (fun value b => value <<< 6 ||| (b.toNat &&& 0x3F))
      ((b0.toNat &&& (0x7F >>> length)) <<< 6 ||| (b1.toNat &&& 0x3F)))

def isValidUtf8 : Bytes → Bool
 | [] => true
 | b0 :: after =>
  let length := (decodeAt (b0 :: after)).1
  if length = 0 then false else isValidUtf8 (after.drop (length - 1))
termination_by s => s.length
decreasing_by simp only [length_drop, length_cons]; omega

theorem leadOf_eq (b0 : UInt8) (h : ¬ b0 < 0x80) :
  leadOf b0 = ((shapeOf b0).length, (shapeOf b0).secondMin, (shapeOf b0).secondMax) ∧ (shapeOf b0).length ≠ 1 :=
 forall_byte (p := fun b0 => ¬ b0 < 0x80 →
  leadOf b0 = ((shapeOf b0).length, (shapeOf b0).secondMin, (shapeOf b0).secondMax) ∧ (shapeOf b0).length ≠ 1)
  (by decide +kernel) b0 h

theorem shapeOf_ascii {b0 : UInt8} (h : b0 < 0x80) : (shapeOf b0).length = 1 := by
 simp [shapeOf, h]

theorem wellFormed_of_decodeAt {b0 : UInt8} {after : Bytes} (h : (decodeAt (b0 :: after)).1 ≠ 0) :
  WellFormed (b0 :: after.take ((decodeAt (b0 :: after)).1 - 1)) := by
 rw [decodeAt] at h ⊢
 split_ifs at h ⊢ with hascii
 · exact wellFormed_ascii hascii
 · obtain ⟨hlead, hone⟩ := leadOf_eq b0 hascii
   rw [hlead] at h ⊢
   dsimp only at h ⊢
   split_ifs at h ⊢ with hlen hsecond hmore
   · exact absurd rfl h
   · exact absurd rfl h
   · exact absurd rfl h
   · obtain ⟨hpos, hlong⟩ := not_or.1 hlen
     refine ⟨b0, _, rfl, ?_, ?_, ?_⟩
     · rw [length_take]
       omega
     · cases after with
       | nil =>
        simp only [length_nil] at hlong
        omega
       | cons b1 after =>
        obtain ⟨n, hn⟩ : ∃ n, (shapeOf b0).length - 1 = n + 1 := ⟨(shapeOf b0).length - 2, by omega⟩
        rw [hn, take_succ_cons]
        simpa [not_or, UInt8.not_lt] using hsecond
     · intro b hb
       simp only [any_eq_true, Bool.or_eq_true, decide_eq_true_eq, not_exists, not_and, not_or] at hmore
       obtain ⟨hlo, hhi⟩ := hmore b hb
       exact ⟨UInt8.not_lt.1 hlo, UInt8.not_lt.1 hhi⟩

theorem decodeAt_of_wellFormed {b0 : UInt8} {tail : Bytes} (h : WellFormed (b0 :: tail)) (more : Bytes) :
  (decodeAt (b0 :: (tail ++ more))).1 = tail.length + 1 := by
 obtain ⟨c, rest, heq, hlen, hsecond, hcont⟩ := h
 obtain ⟨rfl, rfl⟩ := List.cons.inj heq
 rw [decodeAt]
 split_ifs with hascii
 · rw [shapeOf_ascii hascii] at hlen
   exact hlen
 · obtain ⟨hlead, hone⟩ := leadOf_eq b0 hascii
   rw [hlead]
   dsimp only
   cases tail with
   | nil => exact absurd hlen hone
   | cons b1 tail =>
    obtain ⟨hlo, hhi⟩ := hsecond b1 (by simp)
    have htake : ((b1 :: tail ++ more).take ((shapeOf b0).length - 1)).tail = tail := by
     rw [hlen, Nat.add_sub_cancel, take_left]
     rfl
    rw [if_neg (by simp only [length_cons, length_append] at hlen ⊢; omega), if_neg (by simpa [not_or, UInt8.not_lt] using And.intro hlo hhi), htake, if_neg]
    · exact hlen
    · simp only [any_eq_true, Bool.or_eq_true, decide_eq_true_eq, not_exists, not_and, not_or]
      exact fun b hb => ⟨UInt8.not_lt.2 (hcont b hb).1, UInt8.not_lt.2 (hcont b hb).2⟩

theorem isValidUtf8_iff (s : Bytes) : isValidUtf8 s = true ↔ Valid s := by
 constructor
 · intro h
   induction s using isValidUtf8.induct with
   | case1 => exact .nil
   | case2 b0 after length hbad =>
    rw [isValidUtf8, if_pos hbad] at h
    exact absurd h (by simp)
   | case3 b0 after length hgood ih =>
    rw [isValidUtf8, if_neg hgood] at h
    have hrest := Text.cons (wellFormed_of_decodeAt hgood) (ih h)
    rwa [cons_append, take_append_drop] at hrest
 · intro h
   induction h with
   | nil => rw [isValidUtf8]
   | @cons w rest hw _ ih =>
    obtain ⟨c, tail, rfl, -⟩ := wellFormed_synchronizing.starts hw
    rw [cons_append, isValidUtf8, decodeAt_of_wellFormed hw, if_neg (by omega), Nat.add_sub_cancel,
     drop_left]
    exact ih

/-! ## The speech helper's reader -/

def inRange (b : UInt8) (lo hi : UInt8) : Bool := lo ≤ b && b ≤ hi

/-- The length of the character at the front and its code point. -/
def utf8Length (text : Bytes) : ℕ × ℕ :=
 let byte (i : ℕ) : UInt8 := text.getD i 0
 let b0 := byte 0
 if b0 < 0x80 then (if text = [] then 0 else 1, b0.toNat)
 else if inRange b0 0xC2 0xDF && inRange (byte 1) 0x80 0xBF then
  (2, (b0.toNat &&& 0x1F) <<< 6 ||| ((byte 1).toNat &&& 0x3F))
 else if inRange b0 0xE0 0xEF then
  let lo := if b0 = 0xE0 then 0xA0 else 0x80
  let hi := if b0 = 0xED then 0x9F else 0xBF
  if inRange (byte 1) lo hi && inRange (byte 2) 0x80 0xBF then
   (3, (b0.toNat &&& 0x0F) <<< 12 ||| ((byte 1).toNat &&& 0x3F) <<< 6 ||| ((byte 2).toNat &&& 0x3F))
  else (0, 0)
 else if inRange b0 0xF0 0xF4 then
  let lo := if b0 = 0xF0 then 0x90 else 0x80
  let hi := if b0 = 0xF4 then 0x8F else 0xBF
  if inRange (byte 1) lo hi && inRange (byte 2) 0x80 0xBF && inRange (byte 3) 0x80 0xBF then
   (4, (b0.toNat &&& 0x07) <<< 18 ||| ((byte 1).toNat &&& 0x3F) <<< 12 |||
    ((byte 2).toNat &&& 0x3F) <<< 6 ||| ((byte 3).toNat &&& 0x3F))
  else (0, 0)
 else (0, 0)

theorem shapeOf_inRange (b0 : UInt8) :
  (inRange b0 0xC2 0xDF → (shapeOf b0).length = 2 ∧ (shapeOf b0).secondMin = 0x80 ∧ (shapeOf b0).secondMax = 0xBF) ∧
  (inRange b0 0xE0 0xEF → (shapeOf b0).length = 3 ∧ (shapeOf b0).secondMin = (if b0 = 0xE0 then 0xA0 else 0x80) ∧
   (shapeOf b0).secondMax = (if b0 = 0xED then 0x9F else 0xBF)) ∧
  (inRange b0 0xF0 0xF4 → (shapeOf b0).length = 4 ∧ (shapeOf b0).secondMin = (if b0 = 0xF0 then 0x90 else 0x80) ∧
   (shapeOf b0).secondMax = (if b0 = 0xF4 then 0x8F else 0xBF)) :=
 forall_byte (p := fun b0 =>
  (inRange b0 0xC2 0xDF → (shapeOf b0).length = 2 ∧ (shapeOf b0).secondMin = 0x80 ∧ (shapeOf b0).secondMax = 0xBF) ∧
  (inRange b0 0xE0 0xEF → (shapeOf b0).length = 3 ∧ (shapeOf b0).secondMin = (if b0 = 0xE0 then 0xA0 else 0x80) ∧
   (shapeOf b0).secondMax = (if b0 = 0xED then 0x9F else 0xBF)) ∧
  (inRange b0 0xF0 0xF4 → (shapeOf b0).length = 4 ∧ (shapeOf b0).secondMin = (if b0 = 0xF0 then 0x90 else 0x80) ∧
   (shapeOf b0).secondMax = (if b0 = 0xF4 then 0x8F else 0xBF))) (by decide +kernel) b0

theorem inRange_iff (b lo hi : UInt8) : inRange b lo hi = true ↔ lo ≤ b ∧ b ≤ hi := by
 simp [inRange]

theorem not_inRange_nil {lo hi : UInt8} (hlo : 0 < lo) : inRange 0 lo hi = false := by
 rw [Bool.eq_false_iff, ne_eq, inRange_iff, not_and]
 exact fun h => absurd (UInt8.lt_of_lt_of_le hlo h) (UInt8.lt_irrefl 0)

theorem wellFormed_of_inRange {b0 b1 lo hi : UInt8} {s : Bytes} (hlen : (shapeOf b0).length = s.length + 2)
  (hlo : (shapeOf b0).secondMin = lo) (hhi : (shapeOf b0).secondMax = hi) (hsecond : inRange b1 lo hi = true)
  (hs : ∀ b ∈ s, inRange b 0x80 0xBF = true) :
  WellFormed (b0 :: b1 :: s) ∧ (¬ b0 < 0x80 → ∀ b ∈ b0 :: b1 :: s, ¬ b < 0x80) := by
 have hw : WellFormed (b0 :: b1 :: s) :=
  ⟨b0, b1 :: s, rfl, hlen, by simpa [hlo, hhi] using (inRange_iff ..).1 hsecond,
   fun b hb => (inRange_iff ..).1 (hs b hb)⟩
 refine ⟨hw, fun h0 b hb => ?_⟩
 obtain ⟨c, tail, heq, -, htail⟩ := wellFormed_synchronizing.starts hw
 obtain ⟨rfl, rfl⟩ := List.cons.inj heq
 rcases mem_cons.1 hb with rfl | hb
 · exact h0
 · have hcont := (isContinuation_iff b).1 (by simpa [Leads] using htail b hb)
   exact UInt8.not_lt.2 hcont.1

/-- What the helper takes for a character is one, of ASCII or of none but bytes from 0x80 on. -/
theorem utf8Length_spec {s : Bytes} (hn : (utf8Length s).1 ≠ 0) :
  (∃ b0 rest, s = b0 :: rest ∧ b0 < 0x80 ∧ utf8Length s = (1, b0.toNat)) ∨
   ((utf8Length s).1 ≤ s.length ∧ WellFormed (s.take (utf8Length s).1) ∧
    ∀ b ∈ s.take (utf8Length s).1, ¬ b < 0x80) := by
 cases s with
 | nil => exact absurd rfl hn
 | cons b0 after =>
  obtain ⟨htwo, hthree, hfour⟩ := shapeOf_inRange b0
  by_cases hascii : b0 < 0x80
  · exact .inl ⟨b0, after, rfl, hascii, by simp [utf8Length, hascii]⟩
  right
  rw [utf8Length] at hn ⊢
  simp only [getD_cons_zero, hascii, if_false] at hn ⊢
  -- The bounds of the second byte are the table's, in either of the two longer forms.
  generalize (if b0 = 0xE0 then (0xA0 : UInt8) else 0x80) = lo3 at hthree hn ⊢
  generalize (if b0 = 0xED then (0x9F : UInt8) else 0xBF) = hi3 at hthree hn ⊢
  generalize (if b0 = 0xF0 then (0x90 : UInt8) else 0x80) = lo4 at hfour hn ⊢
  generalize (if b0 = 0xF4 then (0x8F : UInt8) else 0xBF) = hi4 at hfour hn ⊢
  split_ifs at hn ⊢ with h2 h3 h3' h4 h4'
  · rw [Bool.and_eq_true] at h2
    obtain ⟨hlen, hlo, hhi⟩ := htwo h2.1
    cases after with
    | nil => exact absurd h2.2 (by simp [not_inRange_nil])
    | cons b1 rest =>
     obtain ⟨hw, hhigh⟩ := wellFormed_of_inRange (s := []) hlen hlo hhi h2.2 (by simp)
     exact ⟨by simp, hw, hhigh hascii⟩
  · rw [Bool.and_eq_true] at h3'
    obtain ⟨hlen, hlo, hhi⟩ := hthree h3
    match after, h3' with
    | [], h3' => exact absurd h3'.2 (by simp [not_inRange_nil])
    | [_], h3' => exact absurd h3'.2 (by simp [not_inRange_nil])
    | b1 :: b2 :: rest, h3' =>
     obtain ⟨hw, hhigh⟩ := wellFormed_of_inRange (s := [b2]) hlen hlo hhi h3'.1 (by simpa using h3'.2)
     exact ⟨by simp, hw, hhigh hascii⟩
  · exact absurd rfl hn
  · rw [Bool.and_eq_true, Bool.and_eq_true] at h4'
    obtain ⟨hlen, hlo, hhi⟩ := hfour h4
    match after, h4' with
    | [], h4' => exact absurd h4'.2 (by simp [not_inRange_nil])
    | [_], h4' => exact absurd h4'.2 (by simp [not_inRange_nil])
    | [_, _], h4' => exact absurd h4'.2 (by simp [not_inRange_nil])
    | b1 :: b2 :: b3 :: rest, h4' =>
     obtain ⟨hw, hhigh⟩ := wellFormed_of_inRange (s := [b2, b3]) hlen hlo hhi h4'.1.1
      (by simpa using And.intro h4'.1.2 h4'.2)
     exact ⟨by simp, hw, hhigh hascii⟩
  · exact absurd rfl hn
  · exact absurd rfl hn

end MoltBrowser.Voice
