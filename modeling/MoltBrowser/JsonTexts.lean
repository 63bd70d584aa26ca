import MoltBrowser.BoundedJson
import Mathlib.Tactic.IntervalCases

set_option autoImplicit false

/-! # What the JSON reader takes for a character, a string or a number -/
namespace MoltBrowser.BoundedJson
open Json List

theorem bind_eq_ok {α β : Type} {x : Read α} {f : α → Read β} {b : β} :
  (x >>= f) = .ok b ↔ ∃ a, x = .ok a ∧ f a = .ok b := by
 cases x with
 | error e => exact ⟨fun h => absurd h (by simp [bind, Except.bind]), fun ⟨_, h, _⟩ => absurd h (by simp)⟩
 | ok a => simp [bind, Except.bind]

@[simp] theorem bind_ok {α β : Type} (a : α) (f : α → Read β) : ((.ok a : Read α) >>= f) = f a := rfl

@[simp] theorem fail_ne_ok {α : Type} {e : JsonError} {a : α} : (fail e : Read α) ≠ .ok a := by simp [fail]

/-! ## Spaces and literals -/

variable {s : Bytes}

theorem skipWhitespace_append {ws : Bytes} (hws : Spaces ws) (hs : ¬ IsSpace (peek s)) : skipWhitespace (ws ++ s) = s := by
 induction ws with
 | nil =>
  cases s with
  | nil => rfl
  | cons c s => exact dropWhile_cons_of_neg (by simpa [IsSpace, peek] using hs)
 | cons c ws ih =>
  have hc : IsSpace c := hws c mem_cons_self
  rw [cons_append, skipWhitespace, dropWhile_cons_of_pos (by simpa [IsSpace] using hc)]
  exact ih fun d hd => hws d (mem_cons_of_mem _ hd)

theorem skipWhitespace_split (s : Bytes) : ∃ ws, s = ws ++ skipWhitespace s ∧ Spaces ws := by
 refine ⟨s.takeWhile fun c => c = 0x20 ∨ c = 0x09 ∨ c = 0x0A ∨ c = 0x0D, (takeWhile_append_dropWhile ..).symm, ?_⟩
 intro c hc
 simpa [IsSpace] using mem_takeWhile_imp hc

theorem literal_eq {word rest : Bytes} : literal word s = .ok rest ↔ s = word ++ rest := by
 rw [literal]
 constructor
 · intro h
   split_ifs at h with hword
   · exact absurd h fail_ne_ok
   · have hsplit := (take_append_drop word.length s).symm
     rwa [not_not.1 hword, Except.ok.inj h] at hsplit
 · rintro rfl
   rw [take_left, if_neg (by simp), drop_left]

theorem cons_of_peek {c : UInt8} (h : peek s = c) (hc : c ≠ 0) : s = c :: s.tail := by
 cases s with
 | nil => exact absurd h.symm hc
 | cons d s => rw [peek, headD_cons] at h; rw [h, tail_cons]

@[simp] theorem peek_cons (c : UInt8) (s : Bytes) : peek (c :: s) = c := rfl

/-! ## Numbers -/

theorem numberDigits_append {ds : Bytes} (hds : Digits ds) (hs : isDigit (peek s) = false) :
  numberDigits (ds ++ s) = (ds, s) := by
 have hstop : s.takeWhile isDigit = [] ∧ s.dropWhile isDigit = s := by
  cases s with
  | nil => exact ⟨rfl, rfl⟩
  | cons c s =>
   rw [peek_cons] at hs
   exact ⟨takeWhile_cons_of_neg (by simp [hs]), dropWhile_cons_of_neg (by simp [hs])⟩
 rw [numberDigits, takeWhile_append_of_pos hds, dropWhile_append_of_pos hds, hstop.1, hstop.2, append_nil]

theorem numberDigits_split (s : Bytes) : s = (numberDigits s).1 ++ (numberDigits s).2 ∧ Digits (numberDigits s).1 :=
 ⟨(takeWhile_append_dropWhile ..).symm, fun _ hc => mem_takeWhile_imp hc⟩

theorem numberDigits_ne (h : isDigit (peek s) = true) : (numberDigits s).1 ≠ [] := by
 cases s with
 | nil => exact absurd h (by decide)
 | cons c s =>
  rw [numberDigits, takeWhile_cons_of_pos (by simpa using h)]
  exact cons_ne_nil _ _

def EndsNumber (c : UInt8) : Prop := isDigit c = false ∧ c ≠ 0x2E ∧ c ≠ 0x65 ∧ c ≠ 0x45

instance (c : UInt8) : Decidable (EndsNumber c) := inferInstanceAs (Decidable (_ ∧ _))

theorem numberSign_split (s : Bytes) :
  s = (numberSign s).1 ++ (numberSign s).2 ∧ ((numberSign s).1 = [] ∨ (numberSign s).1 = [0x2D]) := by
 rw [numberSign]
 split_ifs with h
 · exact ⟨cons_of_peek h (by decide), .inr rfl⟩
 · exact ⟨rfl, .inl rfl⟩

variable {w : Bytes}

theorem numberInt_split {rest : Bytes} (h : numberInt s = .ok (w, rest)) : s = w ++ rest ∧ IsInt w := by
 rw [numberInt] at h
 split_ifs at h with hzero hdigit
 · cases h
   exact ⟨cons_of_peek hzero (by decide), .inl rfl⟩
 · obtain ⟨hsplit, hds⟩ := numberDigits_split s
   cases s with
   | nil => exact absurd hdigit (by decide)
   | cons d s =>
    rw [peek_cons] at hdigit
    have hd : isDigit d = true := by
     rw [isDigit, Bool.and_eq_true, decide_eq_true_eq, decide_eq_true_eq]
     exact ⟨UInt8.le_trans (by decide : (0x30 : UInt8) ≤ 0x31) hdigit.1, hdigit.2⟩
    have hw : (numberDigits (d :: s)).1 = d :: s.takeWhile isDigit := takeWhile_cons_of_pos hd
    rw [Except.ok.inj h] at hsplit hds hw
    exact ⟨hsplit, .inr ⟨d, s.takeWhile isDigit, hw, hdigit, fun c hc => mem_takeWhile_imp hc⟩⟩
 · exact absurd h fail_ne_ok

theorem numberFrac_split {rest : Bytes} (h : numberFrac s = .ok (w, rest)) : s = w ++ rest ∧ IsFrac w := by
 rw [numberFrac] at h
 split_ifs at h with hpoint hdigit
 · cases h
   exact ⟨rfl, .inl rfl⟩
 · exact absurd h fail_ne_ok
 · obtain ⟨hsplit, hds⟩ := numberDigits_split s.tail
   have hne := numberDigits_ne (eq_true_of_ne_false hdigit)
   cases h
   refine ⟨?_, .inr ⟨_, rfl, hne, hds⟩⟩
   rw [cons_append, ← hsplit]
   exact cons_of_peek (not_not.1 hpoint) (by decide)

theorem exponentSign_split (s : Bytes) : s = (exponentSign s).1 ++ (exponentSign s).2 ∧
  ((exponentSign s).1 = [] ∨ (exponentSign s).1 = [0x2B] ∨ (exponentSign s).1 = [0x2D]) := by
 rw [exponentSign]
 split_ifs with h
 · rcases h with h | h
   · exact ⟨by rw [h]; exact cons_of_peek h (by decide), .inr (.inl (by rw [h]))⟩
   · exact ⟨by rw [h]; exact cons_of_peek h (by decide), .inr (.inr (by rw [h]))⟩
 · exact ⟨rfl, .inl rfl⟩

theorem numberExp_split {rest : Bytes} (h : numberExp s = .ok (w, rest)) : s = w ++ rest ∧ IsExp w := by
 obtain ⟨hsign, hsigns⟩ := exponentSign_split s.tail
 rw [numberExp] at h
 by_cases he : peek s = 0x65 ∨ peek s = 0x45
 · rw [if_neg (not_not.2 he)] at h
   generalize exponentSign s.tail = signed at h hsign hsigns
   obtain ⟨sign, after⟩ := signed
   dsimp only at h hsign hsigns
   split_ifs at h with hdigit
   · exact absurd h fail_ne_ok
   obtain ⟨hsplit, hds⟩ := numberDigits_split after
   have hne := numberDigits_ne (eq_true_of_ne_false hdigit)
   cases h
   refine ⟨?_, .inr ⟨_, _, _, rfl, he, hsigns, hne, hds⟩⟩
   rw [cons_append, append_assoc, ← hsplit, ← hsign]
   exact cons_of_peek rfl (by rcases he with h | h <;> rw [h] <;> decide)
 · rw [if_pos he] at h
   cases h
   exact ⟨rfl, .inl rfl⟩

theorem parseNumber_split {rest : Bytes} (h : parseNumber s = .ok (w, rest)) : s = w ++ rest ∧ IsNumber w := by
 obtain ⟨hsign, hsigns⟩ := numberSign_split s
 rw [parseNumber] at h
 simp only [bind_eq_ok, Prod.exists] at h
 obtain ⟨int, s', hint, frac, s'', hfrac, exp, s''', hexp, h⟩ := h
 obtain ⟨hi, hint'⟩ := numberInt_split hint
 obtain ⟨hf, hfrac'⟩ := numberFrac_split hfrac
 obtain ⟨he, hexp'⟩ := numberExp_split hexp
 cases h
 exact ⟨by rw [append_assoc, append_assoc, append_assoc, ← he, ← hf, ← hi, ← hsign],
  _, _, _, _, rfl, hsigns, hint', hfrac', hexp'⟩

theorem digits_head {ds s : Bytes} (hne : ds ≠ []) (hds : Digits ds) : isDigit (peek (ds ++ s)) = true := by
 cases ds with
 | nil => exact absurd rfl hne
 | cons d ds => exact hds d mem_cons_self

theorem peek_exp (h : IsExp w) (hs : EndsNumber (peek s)) :
  isDigit (peek (w ++ s)) = false ∧ peek (w ++ s) ≠ 0x2E := by
 rcases h with rfl | ⟨e, sign, ds, rfl, he, -, -, -⟩
 · exact ⟨hs.1, hs.2.1⟩
 · rw [cons_append, peek_cons]
   rcases he with rfl | rfl
   · exact ⟨by decide, by decide⟩
   · exact ⟨by decide, by decide⟩

theorem peek_frac (h : IsFrac w) (hs : isDigit (peek s) = false) : isDigit (peek (w ++ s)) = false := by
 rcases h with rfl | ⟨ds, rfl, -, -⟩
 · exact hs
 · rw [cons_append, peek_cons]
   decide

theorem numberExp_append (h : IsExp w) (hs : EndsNumber (peek s)) : numberExp (w ++ s) = .ok (w, s) := by
 rcases h with rfl | ⟨e, sign, ds, rfl, he, hsign, hne, hds⟩
 · rw [nil_append, numberExp, if_pos fun h => h.elim hs.2.2.1 hs.2.2.2]
 have hdigit := @digits_head ds s hne hds
 have hsigned : exponentSign (sign ++ ds ++ s) = (sign, ds ++ s) := by
  rcases hsign with rfl | rfl | rfl
  · rw [nil_append, exponentSign, if_neg]
    rintro (h | h)
    · exact absurd (h ▸ hdigit) (by decide)
    · exact absurd (h ▸ hdigit) (by decide)
  · rfl
  · rfl
 rw [cons_append, numberExp, peek_cons, if_neg (not_not.2 he), tail_cons, hsigned]
 dsimp only
 rw [hdigit, if_neg (by simp), numberDigits_append hds hs.1]

theorem numberFrac_append (h : IsFrac w) (hs : isDigit (peek s) = false ∧ peek s ≠ 0x2E) :
  numberFrac (w ++ s) = .ok (w, s) := by
 rcases h with rfl | ⟨ds, rfl, hne, hds⟩
 · rw [nil_append, numberFrac, if_pos hs.2]
 · rw [cons_append, numberFrac, peek_cons, if_neg (by simp), tail_cons, digits_head hne hds, if_neg (by simp),
    numberDigits_append hds hs.1]

theorem numberInt_append (h : IsInt w) (hs : isDigit (peek s) = false) : numberInt (w ++ s) = .ok (w, s) := by
 rcases h with rfl | ⟨d, ds, rfl, hd, hds⟩
 · rfl
 · have hzero : d ≠ 0x30 := by
    rintro rfl
    exact absurd hd.1 (by decide)
   have hall : Digits (d :: ds) := by
    intro c hc
    rcases mem_cons.1 hc with rfl | hc
    · rw [isDigit, Bool.and_eq_true, decide_eq_true_eq, decide_eq_true_eq]
      exact ⟨UInt8.le_trans (by decide : (0x30 : UInt8) ≤ 0x31) hd.1, hd.2⟩
    · exact hds c hc
   rw [numberInt, cons_append, peek_cons, if_neg hzero, if_pos hd, ← cons_append, numberDigits_append hall hs]

theorem numberSign_append {sign int : Bytes} (h : sign = [] ∨ sign = [0x2D]) (hint : IsInt int) :
  numberSign (sign ++ (int ++ s)) = (sign, int ++ s) := by
 rcases h with rfl | rfl
 · have hne : peek (int ++ s) ≠ 0x2D := by
    rcases hint with rfl | ⟨d, ds, rfl, hd, -⟩
    · rw [cons_append, peek_cons]
      decide
    · rintro rfl
      exact absurd hd.1 (by decide)
   rw [nil_append, numberSign, if_neg hne]
 · rfl

theorem parseNumber_append (h : IsNumber w) (hs : EndsNumber (peek s)) :
  parseNumber (w ++ s) = .ok (w, s) := by
 obtain ⟨sign, int, frac, exp, rfl, hsign, hint, hfrac, hexp⟩ := h
 have hafter := peek_exp hexp hs
 simp only [append_assoc]
 rw [parseNumber, numberSign_append hsign hint]
 dsimp only
 rw [numberInt_append hint (peek_frac hfrac hafter.1), bind_ok, numberFrac_append hfrac hafter, bind_ok,
  numberExp_append hexp hs, bind_ok]

end MoltBrowser.BoundedJson
