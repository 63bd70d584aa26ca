import Mathlib.Data.List.TakeWhile

set_option autoImplicit false

/-!
# Texts that are cut at byte indices

A text is a list of characters, and its bytes are their UTF-8. Code that goes through the bytes and cuts the text at its indices faults
where an index is past the end or not on the boundary of a character; a loop that is cut short faults too.
-/
namespace MoltBrowser.ByteTexts
open List

abbrev Text := List Char

inductive Fault where
 | index
 | boundary
 | fuel
 deriving DecidableEq

abbrev Run := Except Fault

def Returns {α : Type} (run : Run α) (p : α → Prop) : Prop := ∃ a, run = .ok a ∧ p a

def bytes (s : Text) : List UInt8 := s.flatMap String.utf8EncodeChar

/-- `b[i]` -/
def byteAt (b : List UInt8) (i : ℕ) : Run UInt8 :=
 match b[i]? with
 | some c => .ok c
 | none => .error .index

/-- `i < b.len() && b[i] == c` -/
def isAt (b : List UInt8) (i : ℕ) (c : UInt8) : Run Bool := if i < b.length then (byteAt b i).map (· == c) else .ok false

def cutAt : Text → ℕ → Option (Text × Text)
 | s, 0 => some ([], s)
 | [], _ + 1 => none
 | c :: s, i + 1 => if c.utf8Size ≤ i + 1 then (cutAt s (i + 1 - c.utf8Size)).map fun r => (c :: r.1, r.2) else none

/-- `&s[i..j]` -/
def slice (s : Text) (i j : ℕ) : Run Text :=
 match (cutAt s i).bind fun r => if i ≤ j then (cutAt r.2 (j - i)).map Prod.fst else none with
 | some m => .ok m
 | none => .error .boundary

/-- `s.rfind(c)` -/
def rfind (s : Text) (c : Char) : Option ℕ :=
 if c ∈ s then some (bytes ((s.reverse.dropWhile (· != c)).drop 1).reverse).length else none

variable {α β : Type} {p : α → Prop} {q : β → Prop} {s u v : Text} {b : List UInt8} {c : Char} {i j : ℕ}

/-! ## Returning -/

theorem Returns.pure {a : α} (h : p a) : Returns (.ok a) p := ⟨a, rfl, h⟩

theorem Returns.bind {run : Run α} {f : α → Run β} (h : Returns run p) (hf : ∀ a, p a → Returns (f a) q) : Returns (run >>= f) q := by
 obtain ⟨a, rfl, ha⟩ := h
 exact hf a ha

theorem Returns.mono {p' : α → Prop} {run : Run α} (h : Returns run p) (hp : ∀ a, p a → p' a) : Returns run p' := by
 obtain ⟨a, hrun, ha⟩ := h
 exact ⟨a, hrun, hp a ha⟩

theorem byteAt_returns (h : i < b.length) : Returns (byteAt b i) (b[i]? = some ·) := by
 rw [byteAt, getElem?_eq_getElem h]
 exact .pure rfl

theorem isAt_returns (b : List UInt8) (i : ℕ) (c : UInt8) : Returns (isAt b i c) fun r => r = true → b[i]? = some c := by
 unfold isAt
 split_ifs with h
 · obtain ⟨d, hbyte, hd⟩ := byteAt_returns h
   rw [hbyte]
   exact .pure fun hc => by simpa [beq_iff_eq.mp hc] using hd
 · exact .pure (by simp)

/-! ## Boundaries -/

@[simp] theorem bytes_nil : bytes [] = [] := rfl

theorem bytes_cons (c : Char) (s : Text) : bytes (c :: s) = String.utf8EncodeChar c ++ bytes s := rfl

@[simp] theorem bytes_append (s t : Text) : bytes (s ++ t) = bytes s ++ bytes t := flatMap_append

theorem bytes_length_cons (c : Char) (s : Text) : (bytes (c :: s)).length = c.utf8Size + (bytes s).length := by
 rw [bytes_cons, length_append, String.length_utf8EncodeChar]

theorem length_le_bytes (s : Text) : s.length ≤ (bytes s).length := by
 induction s with
 | nil => exact Nat.zero_le _
 | cons c s ih =>
  rw [bytes_length_cons, length_cons]
  have hsize := c.utf8Size_pos
  omega

def Boundary (s : Text) (i : ℕ) : Prop := ∃ u v, s = u ++ v ∧ (bytes u).length = i

theorem boundary_zero (s : Text) : Boundary s 0 := ⟨[], s, rfl, rfl⟩

theorem boundary_end (s : Text) : Boundary s (bytes s).length := ⟨s, [], by simp, rfl⟩

theorem encode_high (hc : 0x7F < c.val.toNat) : ∀ x ∈ String.utf8EncodeChar c, 0x80 ≤ x.toNat := by
 intro x hx
 rw [String.utf8EncodeChar] at hx
 simp only [if_neg (Nat.not_le.mpr hc)] at hx
 split_ifs at hx <;> simp only [mem_cons, not_mem_nil, or_false] at hx
 · rcases hx with rfl | rfl <;> rw [UInt8.toNat_ofNat'] <;> omega
 · rcases hx with rfl | rfl | rfl <;> rw [UInt8.toNat_ofNat'] <;> omega
 · rcases hx with rfl | rfl | rfl | rfl <;> rw [UInt8.toNat_ofNat'] <;> omega

theorem encode_ascii {x : UInt8} (hx : (String.utf8EncodeChar c)[i]? = some x) (hascii : x.toNat < 0x80) : i = 0 ∧ c.utf8Size = 1 := by
 have hlow : c.val.toNat ≤ 0x7F := by
  by_contra hhigh
  have hle := encode_high (Nat.not_le.mp hhigh) x (mem_of_getElem? hx)
  omega
 have hlen : (String.utf8EncodeChar c).length = 1 := by
  rw [String.utf8EncodeChar]
  simp only [if_pos hlow, length_singleton]
 obtain ⟨hi, -⟩ := List.getElem?_eq_some_iff.mp hx
 rw [String.length_utf8EncodeChar] at hlen hi
 exact ⟨by omega, hlen⟩

theorem ascii_split {x : UInt8} (hx : (bytes s)[i]? = some x) (hascii : x.toNat < 0x80) :
  ∃ u c v, s = u ++ c :: v ∧ (bytes u).length = i ∧ c.utf8Size = 1 := by
 induction s generalizing i with
 | nil => simp at hx
 | cons d s ih =>
  rw [bytes_cons] at hx
  by_cases hi : i < (String.utf8EncodeChar d).length
  · rw [getElem?_append_left hi] at hx
    obtain ⟨rfl, hsize⟩ := encode_ascii hx hascii
    exact ⟨[], d, s, rfl, rfl, hsize⟩
  · rw [getElem?_append_right (by omega)] at hx
    obtain ⟨u, c, v, rfl, hu, hsize⟩ := ih hx
    refine ⟨d :: u, c, v, rfl, ?_, hsize⟩
    rw [bytes_cons, length_append, hu]
    omega

theorem boundary_ascii {x : UInt8} (hx : (bytes s)[i]? = some x) (hascii : x.toNat < 0x80) : Boundary s i ∧ Boundary s (i + 1) := by
 obtain ⟨u, c, v, rfl, hu, hsize⟩ := ascii_split hx hascii
 refine ⟨⟨u, c :: v, rfl, hu⟩, u ++ [c], v, by simp, ?_⟩
 rw [bytes_append, length_append, hu, bytes_length_cons, hsize]
 rfl

/-! ## Slices -/

theorem cutAt_append (u v : Text) : cutAt (u ++ v) (bytes u).length = some (u, v) := by
 induction u with
 | nil => cases v <;> rfl
 | cons c u ih =>
  have hsize := c.utf8Size_pos
  obtain ⟨n, hn⟩ : ∃ n, (bytes (c :: u)).length = n + 1 := Nat.exists_eq_succ_of_ne_zero (by rw [bytes_length_cons]; omega)
  have hle : c.utf8Size ≤ n + 1 := by rw [← hn, bytes_length_cons]; omega
  have hrest : n + 1 - c.utf8Size = (bytes u).length := by rw [← hn, bytes_length_cons]; omega
  rw [hn, cons_append, cutAt, if_pos hle, hrest, ih]
  rfl

theorem slice_append (u m v : Text) : slice (u ++ m ++ v) (bytes u).length (bytes (u ++ m)).length = .ok m := by
 have hle : (bytes u).length ≤ (bytes (u ++ m)).length := by simp
 have hlen : (bytes (u ++ m)).length - (bytes u).length = (bytes m).length := by simp
 rw [slice, append_assoc, cutAt_append, Option.bind_some, if_pos hle, hlen, cutAt_append]
 rfl

theorem bytes_length_eq_zero (h : (bytes s).length = 0) : s = [] := by
 have hle := length_le_bytes s
 exact length_eq_zero_iff.mp (by omega)

theorem slice_returns (hi : Boundary s i) (hj : Boundary s j) (hle : i ≤ j) :
  Returns (slice s i j) fun m => ∃ u v, s = u ++ m ++ v ∧ (bytes u).length = i ∧ (bytes (u ++ m)).length = j := by
 obtain ⟨u, t, rfl, rfl⟩ := hi
 obtain ⟨w, v, heq, rfl⟩ := hj
 obtain ⟨m, rfl⟩ : ∃ m, w = u ++ m := by
  rcases append_eq_append_iff.mp heq with ⟨m, hw, -⟩ | ⟨m, rfl, -⟩
  · exact ⟨m, hw⟩
  · rw [bytes_append, length_append] at hle
    obtain rfl : m = [] := bytes_length_eq_zero (by omega)
    exact ⟨[], by simp⟩
 exact ⟨m, heq ▸ slice_append u m v, u, v, heq, rfl, rfl⟩

theorem slice_length (hi : Boundary s i) (hj : Boundary s j) (hle : i ≤ j) :
  Returns (slice s i j) fun m => (bytes m).length = j - i := by
 refine (slice_returns hi hj hle).mono ?_
 rintro m ⟨u, v, -, rfl, rfl⟩
 simp

theorem rfind_some (h : rfind s c = some i) : ∃ u v, s = u ++ c :: v ∧ (bytes u).length = i := by
 unfold rfind at h
 split_ifs at h with hc
 cases h
 have hmem : c ∈ s.reverse := mem_reverse.mpr hc
 obtain ⟨d, t, hdrop⟩ : ∃ d t, s.reverse.dropWhile (· != c) = d :: t := by
  apply exists_cons_of_ne_nil
  intro hnil
  have hother := dropWhile_eq_nil_iff.mp hnil c hmem
  simp at hother
 have hd : d = c := by
  have hhead := head_dropWhile_not (· != c) (by rw [hdrop]; simp)
  simpa [hdrop] using hhead
 subst hd
 refine ⟨t.reverse, (s.reverse.takeWhile (· != d)).reverse, ?_, by simp [hdrop]⟩
 have hsplit := takeWhile_append_dropWhile (p := (· != d)) (l := s.reverse)
 rw [hdrop] at hsplit
 have hreverse := congrArg List.reverse hsplit
 simpa using hreverse.symm

end MoltBrowser.ByteTexts
