import MoltBrowser.Bytes
import MoltBrowser.SelfSynchronizing

set_option autoImplicit false

/-!
# Text that can be displayed

UTF-8 as the stream filters check and repair it: what isn't well formed, and NUL, becomes
U+FFFD.
-/
namespace MoltBrowser.StreamFilters
open SelfSynchronizing List

/-- The bytes that may follow a leading byte; `length` 0 for a byte that can't lead. -/
structure SequenceShape where
 length : ℕ := 0
 secondMin : UInt8 := 0x80
 secondMax : UInt8 := 0xBF

def shapeOf (lead : UInt8) : SequenceShape :=
 if lead < 0x80 then { length := 1 }
 else if 0xC2 ≤ lead ∧ lead ≤ 0xDF then { length := 2 }
 else if 0xE0 ≤ lead ∧ lead ≤ 0xEF then
  { length := 3
    secondMin := if lead = 0xE0 then 0xA0 else 0x80
    secondMax := if lead = 0xED then 0x9F else 0xBF }
 else if 0xF0 ≤ lead ∧ lead ≤ 0xF4 then
  { length := 4
    secondMin := if lead = 0xF0 then 0x90 else 0x80
    secondMax := if lead = 0xF4 then 0x8F else 0xBF }
 else {}

/-- From the byte after the first `n` on, as long as the bytes fit the shape. -/
@[grind =] def matchedFrom (shape : SequenceShape) : ℕ → Bytes → ℕ
 | n, [] => n
 | n, b :: rest =>
  if n < shape.length then
   let lo := if n = 1 then shape.secondMin else 0x80
   let hi := if n = 1 then shape.secondMax else 0xBF
   if b < lo ∨ hi < b then n else matchedFrom shape (n + 1) rest
  else n

def matchedPrefix (shape : SequenceShape) (after : Bytes) : ℕ :=
 if shape.length = 0 then 0 else matchedFrom shape 1 after

def isValidUtf8 : Bytes → Bool
 | [] => true
 | lead :: after =>
  let shape := shapeOf lead
  let n := matchedPrefix shape after
  if n = 0 ∨ n ≠ shape.length then false else isValidUtf8 (after.drop (n - 1))
termination_by s => s.length
decreasing_by simp only [length_drop, length_cons]; omega

def replacementCharacter : Bytes := [0xEF, 0xBF, 0xBD]

/-- `kept` is valid and not yet in `out`; one replacement for each maximal subpart. -/
def replaceFrom (out kept : Bytes) : Bytes → Bytes
 | [] => out ++ kept
 | lead :: after =>
  let shape := shapeOf lead
  let n := matchedPrefix shape after
  if n ≠ 0 ∧ n = shape.length then
   replaceFrom out (kept ++ lead :: after.take (n - 1)) (after.drop (n - 1))
  else
   replaceFrom (out ++ kept ++ replacementCharacter) []
    (after.drop ((if n = 0 then 1 else n) - 1))
termination_by s => s.length
decreasing_by all_goals simp only [length_drop, length_cons]; omega

def replaceInvalidUtf8 (s : Bytes) : Bytes := replaceFrom [] [] s

def replaceNul (s : Bytes) : Bytes :=
 if 0 ∈ s then s.flatMap fun c => if c = 0 then replacementCharacter else [c] else s

def toDisplayText (s : Bytes) : Bytes := replaceNul (replaceInvalidUtf8 s)

def isContinuation (b : UInt8) : Bool := b &&& 0xC0 == 0x80

/-! ## The sequences that are well formed -/

def Leads (b : UInt8) : Prop := isContinuation b = false

/-- The well-formed sequences: the second byte in the range of the first, the rest
continuation bytes. -/
structure WellFormed (w : Bytes) : Prop where
 shape : ∃ c rest, w = c :: rest ∧ (shapeOf c).length = rest.length + 1 ∧
  (∀ b ∈ rest.head?, (shapeOf c).secondMin ≤ b ∧ b ≤ (shapeOf c).secondMax) ∧
  ∀ b ∈ rest.tail, 0x80 ≤ b ∧ b ≤ 0xBF

theorem forall_byte {p : UInt8 → Prop} (h : ∀ n < 256, p (UInt8.ofNat n)) (b : UInt8) : p b := by
 have hb := h b.toNat b.toNat_lt
 rwa [UInt8.ofNat_toNat] at hb

theorem isContinuation_iff (b : UInt8) : isContinuation b = true ↔ 0x80 ≤ b ∧ b ≤ 0xBF :=
 forall_byte (p := fun b => isContinuation b = true ↔ 0x80 ≤ b ∧ b ≤ 0xBF) (by decide +kernel) b

theorem shapeOf_spec (c : UInt8) : ((shapeOf c).length ≠ 0 → isContinuation c = false) ∧
  0x80 ≤ (shapeOf c).secondMin ∧ (shapeOf c).secondMax ≤ 0xBF ∧ (shapeOf c).length ≤ 4 :=
 forall_byte (p := fun c => ((shapeOf c).length ≠ 0 → isContinuation c = false) ∧
  0x80 ≤ (shapeOf c).secondMin ∧ (shapeOf c).secondMax ≤ 0xBF ∧ (shapeOf c).length ≤ 4)
  (by decide +kernel) c

theorem wellFormed_synchronizing : Synchronizing Leads WellFormed where
 starts := by
  rintro w ⟨c, rest, rfl, hlen, hsecond, htail⟩
  obtain ⟨hlead, hmin, hmax, -⟩ := shapeOf_spec c
  refine ⟨c, rest, rfl, hlead (by omega), fun b hb => ?_⟩
  rw [Leads, Bool.not_eq_false, isContinuation_iff]
  cases rest with
  | nil => exact absurd hb not_mem_nil
  | cons d rest =>
   rcases mem_cons.1 hb with rfl | hb
   · obtain ⟨hlo, hhi⟩ := hsecond b (by simp)
     exact ⟨UInt8.le_trans hmin hlo, UInt8.le_trans hhi hmax⟩
   · exact htail b hb

abbrev Valid : Bytes → Prop := Text WellFormed

theorem wellFormed_ascii {c : UInt8} (h : c < 0x80) : WellFormed [c] :=
 ⟨c, [], rfl, by simp [shapeOf, h], by simp, by simp⟩

theorem wellFormed_replacement : WellFormed replacementCharacter :=
 ⟨0xEF, [0xBF, 0xBD], rfl, rfl, by decide +kernel, by decide +kernel⟩

section Shape

variable {shape : SequenceShape} {rest : Bytes} {n : ℕ}

theorem matchedFrom_complete (hn : 2 ≤ n) (h : n ≤ shape.length)
  (hm : matchedFrom shape n rest = shape.length) :
  shape.length - n ≤ rest.length ∧ ∀ b ∈ rest.take (shape.length - n), 0x80 ≤ b ∧ b ≤ 0xBF := by
 induction rest generalizing n with
 | nil =>
  obtain rfl : n = shape.length := hm
  simp
 | cons b rest ih =>
  rw [matchedFrom] at hm
  simp only [show ¬ n = 1 by omega, if_false] at hm
  split_ifs at hm with hlt hout
  · omega
  · rw [not_or, UInt8.not_lt, UInt8.not_lt] at hout
    obtain ⟨hlen, hall⟩ := ih (by omega) hlt hm
    have hsub : shape.length - n = (shape.length - (n + 1)) + 1 := by omega
    rw [hsub, take_succ_cons, length_cons]
    refine ⟨by omega, fun d hd => ?_⟩
    rcases mem_cons.1 hd with rfl | hd
    · exact hout
    · exact hall d hd
  · obtain rfl : n = shape.length := hm
    simp

theorem matchedFrom_of_fits (hn : 2 ≤ n) (more : Bytes) (hlen : n + rest.length = shape.length)
  (h : ∀ b ∈ rest, 0x80 ≤ b ∧ b ≤ 0xBF) : matchedFrom shape n (rest ++ more) = shape.length := by
 induction rest generalizing n with
 | nil =>
  obtain rfl : n = shape.length := by simpa using hlen
  cases more with
  | nil => rfl
  | cons b more => simp [matchedFrom]
 | cons b rest ih =>
  rw [length_cons] at hlen
  obtain ⟨hlo, hhi⟩ := h b (mem_cons_self ..)
  have hin : ¬ (b < 0x80 ∨ 0xBF < b) := not_or.2 ⟨UInt8.not_lt.2 hlo, UInt8.not_lt.2 hhi⟩
  simp only [cons_append, matchedFrom, show n < shape.length by omega, show ¬ n = 1 by omega,
   if_true, if_false, hin]
  exact ih (by omega) (by omega) fun d hd => h d (mem_cons_of_mem _ hd)

end Shape

theorem wellFormed_of_matched {c : UInt8} {after : Bytes}
  (hne : matchedPrefix (shapeOf c) after ≠ 0)
  (h : matchedPrefix (shapeOf c) after = (shapeOf c).length) :
  WellFormed (c :: after.take (matchedPrefix (shapeOf c) after - 1)) := by
 have hpos : (shapeOf c).length ≠ 0 := h ▸ hne
 rw [h]
 rw [matchedPrefix, if_neg hpos] at h
 cases after with
 | nil =>
  have hone : (shapeOf c).length = 1 := h.symm
  exact ⟨c, [], by simp, by simp [hone], by simp, by simp⟩
 | cons b rest =>
  rw [matchedFrom] at h
  simp only [if_true] at h
  split_ifs at h with hlt hout
  · omega
  · rw [not_or, UInt8.not_lt, UInt8.not_lt] at hout
    obtain ⟨hlen, hall⟩ := matchedFrom_complete (le_refl 2) hlt h
    have hsub : (shapeOf c).length - 1 = ((shapeOf c).length - 2) + 1 := by omega
    refine ⟨c, _, rfl, ?_, ?_, ?_⟩
    · rw [hsub, take_succ_cons, length_cons, length_take]
      omega
    · rw [hsub, take_succ_cons]
      simpa using hout
    · rw [hsub, take_succ_cons]
      exact hall
  · have hone : (shapeOf c).length = 1 := h.symm
    exact ⟨c, [], by simp [hone], by simp [hone], by simp, by simp⟩

theorem matched_of_wellFormed {c : UInt8} {rest : Bytes} (h : WellFormed (c :: rest)) (more : Bytes) :
  matchedPrefix (shapeOf c) (rest ++ more) = rest.length + 1 ∧
   (shapeOf c).length = rest.length + 1 := by
 obtain ⟨c', rest', heq, hlen, hsecond, htail⟩ := h
 obtain ⟨rfl, rfl⟩ := List.cons.inj heq
 refine ⟨?_, hlen⟩
 rw [matchedPrefix, if_neg (by omega), ← hlen]
 cases rest with
 | nil =>
  cases more with
  | nil => exact hlen.symm
  | cons b more => simp [matchedFrom, hlen]
 | cons b rest =>
  rw [length_cons] at hlen
  obtain ⟨hlo, hhi⟩ := hsecond b (by simp)
  have hin : ¬ (b < (shapeOf c).secondMin ∨ (shapeOf c).secondMax < b) :=
   not_or.2 ⟨UInt8.not_lt.2 hlo, UInt8.not_lt.2 hhi⟩
  simp only [cons_append, matchedFrom, show 1 < (shapeOf c).length by omega, if_true, hin, if_false]
  exact matchedFrom_of_fits (le_refl 2) more (by omega) htail

theorem isValidUtf8_iff (s : Bytes) : isValidUtf8 s = true ↔ Valid s := by
 constructor
 · intro h
   induction s using isValidUtf8.induct with
   | case1 => exact .nil
   | case2 lead after shape n hbad =>
    rw [isValidUtf8, if_pos hbad] at h
    exact absurd h (by simp)
   | case3 lead after shape n hgood ih =>
    rw [isValidUtf8, if_neg hgood] at h
    obtain ⟨hne, heq⟩ := not_or.1 hgood
    have hrest := Text.cons (wellFormed_of_matched hne (not_not.1 heq)) (ih h)
    rwa [cons_append, take_append_drop] at hrest
 · intro h
   induction h with
   | nil => rw [isValidUtf8]
   | @cons w rest hw _ ih =>
    obtain ⟨c, tail, rfl, -⟩ := wellFormed_synchronizing.starts hw
    obtain ⟨hm, hlen⟩ := matched_of_wellFormed hw rest
    rw [cons_append, isValidUtf8, hm, if_neg (by omega), Nat.add_sub_cancel, drop_left]
    exact ih

/-! ## What is repaired is valid -/

theorem replaceFrom_valid {out kept s : Bytes} (hout : Valid out) (hkept : Valid kept) :
  Valid (replaceFrom out kept s) := by
 induction out, kept, s using replaceFrom.induct with
 | case1 out kept =>
  rw [replaceFrom]
  exact hout.append hkept
 | case2 out kept lead after shape n hgood ih =>
  rw [replaceFrom, if_pos hgood]
  exact ih hout (hkept.append (.single (wellFormed_of_matched hgood.1 hgood.2)))
 | case3 out kept lead after shape n hbad ih =>
  rw [replaceFrom, if_neg hbad]
  exact ih ((hout.append hkept).append (.single wellFormed_replacement)) .nil

theorem replaceNul_eq_flatMap (s : Bytes) :
  replaceNul s = s.flatMap fun c => if c = 0 then replacementCharacter else [c] := by
 rw [replaceNul]
 split_ifs with h
 · rfl
 · induction s with
   | nil => rfl
   | cons c s ih =>
    obtain ⟨hc, hs⟩ := not_or.1 (mt mem_cons.2 h)
    rw [flatMap_cons, if_neg (Ne.symm hc), ← ih hs]
    rfl

theorem replaceNul_append (s t : Bytes) : replaceNul (s ++ t) = replaceNul s ++ replaceNul t := by
 rw [replaceNul_eq_flatMap, replaceNul_eq_flatMap, replaceNul_eq_flatMap, flatMap_append]

theorem replaceNul_of_not_mem {s : Bytes} (h : 0 ∉ s) : replaceNul s = s := if_neg h

theorem not_mem_replaceNul (s : Bytes) : 0 ∉ replaceNul s := by
 rw [replaceNul_eq_flatMap, mem_flatMap]
 rintro ⟨c, -, hc⟩
 split_ifs at hc with h
 · exact absurd hc (by decide)
 · exact h (mem_singleton.1 hc).symm

theorem replaceNul_valid {s : Bytes} (h : Valid s) : Valid (replaceNul s) := by
 induction h with
 | nil => exact .nil
 | @cons w rest hw _ ih =>
  rw [replaceNul_eq_flatMap] at ih
  rw [replaceNul_eq_flatMap, flatMap_append]
  refine Text.append ?_ ih
  rw [← replaceNul_eq_flatMap]
  obtain ⟨c, tail, rfl, -, htail⟩ := wellFormed_synchronizing.starts hw
  have hzero : 0 ∉ tail := fun h0 => htail 0 h0 (by rfl)
  by_cases hc : c = 0
  · subst hc
    obtain rfl : tail = [] := by
     have hlen := (matched_of_wellFormed hw []).2
     exact length_eq_zero_iff.1 (Nat.succ.inj hlen).symm
    exact .single wellFormed_replacement
  · rw [replaceNul_of_not_mem (by simp [Ne.symm hc, hzero])]
    exact .single hw

theorem toDisplayText_valid (s : Bytes) : Valid (toDisplayText s) ∧ 0 ∉ toDisplayText s :=
 ⟨replaceNul_valid (replaceFrom_valid .nil .nil), not_mem_replaceNul _⟩

end MoltBrowser.StreamFilters
