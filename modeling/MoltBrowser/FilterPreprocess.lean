import MoltBrowser.ConditionalBlocks
import MoltBrowser.FilterConditions
import Mathlib

set_option autoImplicit false

/-! # The preprocessor of filter lists -/
namespace MoltBrowser.FilterLists
open Conditional List

/-! ## Lines -/

/-- Unicode White_Space, which `str::trim` takes off. -/
def isWhitespace (c : Char) : Bool :=
 let n := c.toNat
 (0x09 ≤ n && n ≤ 0x0D) || n == 0x20 || n == 0x85 || n == 0xA0 || n == 0x1680 || (0x2000 ≤ n && n ≤ 0x200A) ||
  n == 0x2028 || n == 0x2029 || n == 0x202F || n == 0x205F || n == 0x3000

def trim (s : Text) : Text := ((s.dropWhile isWhitespace).reverse.dropWhile isWhitespace).reverse

def stripCr (line : Text) : Text := if line.getLast? = some '\r' then line.dropLast else line

/-- `str::lines`: the last line needs no end, and keeps its carriage return without one. -/
def linesFrom (line : Text) : Text → List Text
 | [] => if line.isEmpty then [] else [line]
 | c :: s => if c = '\n' then stripCr line :: linesFrom [] s else linesFrom (line ++ [c]) s

def lines (text : Text) : List Text := linesFrom [] text

def stripPrefix (start s : Text) : Option Text := if start.isPrefixOf s then some (s.drop start.length) else none

/-! ## Directives -/

def hashMark : Text := ['!', '#']
def ifMark : Text := ['!', '#', 'i', 'f']
def elseMark : Text := ['!', '#', 'e', 'l', 's', 'e']
def endifMark : Text := ['!', '#', 'e', 'n', 'd', 'i', 'f']
def includeMark : Text := ['!', '#', 'i', 'n', 'c', 'l', 'u', 'd', 'e']

/-- A block on the stack is its condition, and whether the parent block is active. -/
structure Preprocessing where
 stack : List (Bool × Bool) := []
 active : Bool := true
 out : Text := []

def Preprocessing.step (env : PreprocessEnv) (p : Preprocessing) (line : Text) : Preprocessing :=
 let trimmed := trim line
 match stripPrefix (ifMark ++ [' ']) trimmed with
 | some rest =>
  let cond := evalExpression rest env
  { p with stack := (cond, p.active) :: p.stack, active := p.active && cond }
 | none =>
  if trimmed = elseMark then
   match p.stack with
   | (cond, parent) :: _ => { p with active := parent && !cond }
   | [] => p
  else if trimmed = endifMark then
   match p.stack with
   | (_, parent) :: stack => { p with stack, active := parent }
   | [] => p
  else if includeMark.isPrefixOf trimmed then p
  else if p.active then { p with out := p.out ++ (line ++ ['\n']) }
  else p

def run (env : PreprocessEnv) (ls : List Text) : Preprocessing := ls.foldl (Preprocessing.step env) {}

def preprocess (text : Text) (env : PreprocessEnv) : Text :=
 if ¬ hashMark <:+: text then text else (run env (lines text)).out

/-- The line at the place gets into what `preprocess` gives. -/
def Keeps (env : PreprocessEnv) (text : Text) (i : ℕ) (line : Text) : Prop :=
 ¬ hashMark <:+: text ∨
  (run env ((lines text).take (i + 1))).out = (run env ((lines text).take i)).out ++ (line ++ ['\n'])

/-! ## Blocks -/

def IsOpener (line : Text) : Prop := ifMark <+: trim line

/-- The openers that `preprocess` reads. -/
def IsRead (line : Text) : Prop := ifMark ++ [' '] <+: trim line

def IsOtherDirective (line : Text) : Prop := trim line = elseMark ∨ trim line = endifMark ∨ includeMark <+: trim line

def IsDirective (line : Text) : Prop := IsOpener line ∨ IsOtherDirective line

def Unread (line : Text) : Prop := IsOpener line ∧ ¬ IsRead line

instance (line : Text) : Decidable (IsOpener line) := inferInstanceAs (Decidable (_ <+: _))
instance (line : Text) : Decidable (IsRead line) := inferInstanceAs (Decidable (_ <+: _))
instance (line : Text) : Decidable (IsOtherDirective line) := inferInstanceAs (Decidable (_ ∨ _))
instance (line : Text) : Decidable (IsDirective line) := inferInstanceAs (Decidable (_ ∨ _))
instance (line : Text) : Decidable (Unread line) := inferInstanceAs (Decidable (_ ∧ _))

/-- What the line does to the blocks, where `opener` says the condition of one it opens. -/
def markOf (opener : Text → Option Bool) (line : Text) : Mark :=
 match opener line with
 | some holds => .opens holds
 | none => if trim line = elseMark then .turns else if trim line = endifMark then .closes else .other

open Classical in
/-- Any `!#if` opens a block, and what follows it is its condition. -/
noncomputable def anyOpener (env : PreprocessEnv) (line : Text) : Option Bool :=
 (stripPrefix ifMark (trim line)).map fun cond => decide (Holds env cond)

/-- Only an `!#if` with a space opens a block. -/
def readOpener (env : PreprocessEnv) (line : Text) : Option Bool :=
 (stripPrefix (ifMark ++ [' ']) (trim line)).map fun cond => evalExpression cond env

def SelectedBy (opener : Text → Option Bool) (ls : List Text) : Prop := Selected (ls.map (markOf opener))

/-- A line is kept exactly when it is no directive and each block around it selects it. -/
def BlockStructured (env : PreprocessEnv) (text : Text) : Prop := ∀ i line, (lines text)[i]? = some line →
 (Keeps env text i line ↔ ¬ IsDirective line ∧ SelectedBy (anyOpener env) ((lines text).take i))

/-- The openers that aren't read stand where they and their ends change nothing. -/
structure Harmless (env : PreprocessEnv) (text : Text) : Prop where
 rejected : ∀ i line, (lines text)[i]? = some line → Unread line → ¬ SelectedBy (readOpener env) ((lines text).take i)
 alike : ∀ i line, (lines text)[i]? = some line → ¬ IsDirective line → (∃ l ∈ (lines text).take i, Unread l) →
  (SelectedBy (readOpener env) ((lines text).take i) ↔ SelectedBy (anyOpener env) ((lines text).take i))

/-! ## The stack is the blocks around -/

theorem stripPrefix_some {start s rest : Text} : stripPrefix start s = some rest ↔ s = start ++ rest := by
 rw [stripPrefix]
 constructor
 · intro h
   split_ifs at h with hstart
   obtain ⟨t, rfl⟩ := isPrefixOf_iff_prefix.1 hstart
   rw [drop_left] at h
   rw [Option.some.inj h]
 · rintro rfl
   rw [if_pos (List.isPrefixOf_iff_prefix.2 (prefix_append ..)), drop_left]

theorem stripPrefix_none {start s : Text} : stripPrefix start s = none ↔ ¬ start <+: s := by
 rw [stripPrefix, ← isPrefixOf_iff_prefix]
 split_ifs with h
 · simp [h]
 · simp [h]

theorem IsRead.opener {line : Text} (h : IsRead line) : IsOpener line := (prefix_append ifMark [' ']).trans h

/-- The stack of `preprocess` for the blocks. -/
def stackOf : Blocks → List (Bool × Bool)
 | [] => []
 | b :: rest => (b.1, rest.all fun b => b.1 != b.2) :: stackOf rest

/-- The state of `preprocess` inside the blocks. -/
def stateOf (blocks : Blocks) (out : Text) : Preprocessing :=
 { stack := stackOf blocks, active := blocks.all fun b => b.1 != b.2, out }

theorem active_iff {blocks : Blocks} {out : Text} : (stateOf blocks out).active = true ↔ blocks.Select := by
 simp [stateOf, Blocks.Select]

theorem step_stateOf (env : PreprocessEnv) (blocks : Blocks) (out line : Text) : (stateOf blocks out).step env line =
  stateOf (blocks.next (markOf (readOpener env) line))
   (if (¬ IsRead line ∧ ¬ IsOtherDirective line) ∧ (stateOf blocks out).active = true then out ++ (line ++ ['\n']) else out) := by
 have hread' : (¬ IsRead line ∧ ¬ IsOtherDirective line) ∧ (stateOf blocks out).active = true → ¬ IsRead line ∧
   ¬ IsOtherDirective line := And.left
 generalize hout : (if (¬ IsRead line ∧ ¬ IsOtherDirective line) ∧ (stateOf blocks out).active = true then
  out ++ (line ++ ['\n']) else out) = out'
 rw [Preprocessing.step, markOf, readOpener]
 dsimp only
 cases hread : stripPrefix (ifMark ++ [' ']) (trim line) with
 | some rest =>
  have hline : IsRead line := ⟨rest, (stripPrefix_some.1 hread).symm⟩
  rw [if_neg fun h => (hread' h).1 hline] at hout
  simp [stateOf, stackOf, Blocks.next, Bool.and_comm, hout]
 | none =>
  have hline : ¬ IsRead line := stripPrefix_none.1 hread
  simp only [Option.map_none]
  by_cases helse : trim line = elseMark
  · rw [if_neg fun h => (hread' h).2 (.inl helse)] at hout
    rw [if_pos helse, if_pos helse, ← hout]
    cases blocks with
    | nil => rfl
    | cons b rest => simp [stateOf, stackOf, Blocks.next, Bool.and_comm]
  rw [if_neg helse, if_neg helse]
  by_cases hendif : trim line = endifMark
  · rw [if_neg fun h => (hread' h).2 (.inr (.inl hendif))] at hout
    rw [if_pos hendif, if_pos hendif, ← hout]
    cases blocks with
    | nil => rfl
    | cons b rest => rfl
  rw [if_neg hendif, if_neg hendif]
  by_cases hinclude : includeMark.isPrefixOf (trim line) = true
  · rw [if_neg fun h => (hread' h).2 (.inr (.inr (List.isPrefixOf_iff_prefix.1 hinclude)))] at hout
    rw [if_pos hinclude, ← hout]
    rfl
  rw [if_neg hinclude]
  have hother : ¬ IsOtherDirective line := by
   rintro (h | h | h)
   · exact helse h
   · exact hendif h
   · exact hinclude (List.isPrefixOf_iff_prefix.2 h)
  by_cases hactive : (stateOf blocks out).active = true
  · rw [if_pos ⟨⟨hline, hother⟩, hactive⟩] at hout
    rw [if_pos hactive, ← hout]
    rfl
  · rw [if_neg fun h => hactive h.2] at hout
    rw [if_neg hactive, ← hout]
    rfl

theorem run_stateOf (env : PreprocessEnv) (ls : List Text) :
  ∃ out, run env ls = stateOf (Blocks.after [] (ls.map (markOf (readOpener env)))) out := by
 induction ls using List.reverseRecOn with
 | nil => exact ⟨[], rfl⟩
 | append_singleton ls line ih =>
  obtain ⟨out, hrun⟩ := ih
  rw [run, foldl_concat, ← run, hrun, step_stateOf, map_append, map_singleton, Blocks.after_concat]
  exact ⟨_, rfl⟩

theorem run_active (env : PreprocessEnv) (ls : List Text) : (run env ls).active = true ↔ SelectedBy (readOpener env) ls := by
 obtain ⟨out, hrun⟩ := run_stateOf env ls
 rw [hrun, active_iff, SelectedBy, selected_iff]

theorem run_snoc_out (env : PreprocessEnv) (ls : List Text) (line : Text) : (run env (ls ++ [line])).out =
  if (¬ IsRead line ∧ ¬ IsOtherDirective line) ∧ (run env ls).active = true then (run env ls).out ++ (line ++ ['\n'])
  else (run env ls).out := by
 obtain ⟨out, hrun⟩ := run_stateOf env ls
 rw [run, foldl_concat, ← run, hrun, step_stateOf]
 rfl

/-! ## Lines of a text without directives -/

theorem infix_linesFrom {text line l : Text} (h : l ∈ linesFrom line text) : l <:+: line ++ text := by
 induction text generalizing line with
 | nil =>
  rw [linesFrom] at h
  split_ifs at h
  · exact absurd h (by simp)
  · rw [append_nil]
    exact mem_singleton.1 h ▸ infix_refl line
 | cons c text ih =>
  rw [linesFrom] at h
  split_ifs at h with hc
  · rcases mem_cons.1 h with rfl | h
    · have hstart : stripCr line <+: line := by
       rw [stripCr]
       split_ifs
       · exact dropLast_prefix line
       · exact prefix_refl line
      exact (hstart.trans (prefix_append ..)).isInfix
    · exact (ih h).trans ((suffix_cons c text).trans (suffix_append line _)).isInfix
  · have hmore := ih h
    rwa [append_assoc, singleton_append] at hmore

theorem trim_within (s : Text) : trim s <:+: s := by
 have hback : (List.dropWhile isWhitespace (s.dropWhile isWhitespace).reverse).reverse <+: s.dropWhile isWhitespace := by
  rw [← reverse_suffix, reverse_reverse]
  exact dropWhile_suffix isWhitespace
 exact hback.isInfix.trans (dropWhile_suffix isWhitespace).isInfix

theorem no_directive {text line : Text} (htext : ¬ hashMark <:+: text) (h : line ∈ lines text) : ¬ IsDirective line := by
 intro hdirective
 have hmark : hashMark <+: trim line := by
  rcases hdirective with h | h | h | h
  · exact (show hashMark <+: ifMark by decide).trans h
  · rw [h]
    decide
  · rw [h]
    decide
  · exact (show hashMark <+: includeMark by decide).trans h
 exact htext (hmark.isInfix.trans ((trim_within line).trans (infix_linesFrom h)))

theorem markOf_other {opener : Text → Option Bool} {line : Text} (hopener : opener line = none) (h : ¬ IsOtherDirective line) :
  markOf opener line = .other := by
 rw [markOf, hopener]
 dsimp only
 rw [if_neg fun hl => h (.inl hl), if_neg fun hl => h (.inr (.inl hl))]

theorem readOpener_none {env : PreprocessEnv} {line : Text} (h : ¬ IsRead line) : readOpener env line = none := by
 rw [readOpener, stripPrefix_none.2 h, Option.map_none]

theorem anyOpener_none {env : PreprocessEnv} {line : Text} (h : ¬ IsOpener line) : anyOpener env line = none := by
 rw [anyOpener, stripPrefix_none.2 h, Option.map_none]

theorem anyOpener_some (env : PreprocessEnv) {line cond : Text} (h : trim line = ifMark ++ cond) :
  anyOpener env line = some (evalExpression cond env) := by
 classical
 rw [anyOpener, stripPrefix_some.2 h, Option.map_some, Option.some.injEq, Bool.eq_iff_iff, decide_eq_true_eq, evalExpression_iff]

theorem opener_eq (env : PreprocessEnv) {line : Text} (h : ¬ Unread line) : readOpener env line = anyOpener env line := by
 by_cases hopener : IsOpener line
 · have hread : IsRead line := by
    by_contra hnot
    exact h ⟨hopener, hnot⟩
   obtain ⟨cond, hcond⟩ := hread
   have hany : trim line = ifMark ++ ' ' :: cond := by
    rw [← hcond, append_assoc, singleton_append]
   rw [readOpener, stripPrefix_some.2 hcond.symm, anyOpener_some env hany, Option.map_some, Option.some.injEq,
    Bool.eq_iff_iff, evalExpression_iff, evalExpression_iff, holds_space]
 · rw [readOpener_none fun h => hopener h.opener, anyOpener_none hopener]

theorem selectedBy_eq (env : PreprocessEnv) {ls : List Text} (h : ∀ line ∈ ls, ¬ Unread line) :
  SelectedBy (readOpener env) ls ↔ SelectedBy (anyOpener env) ls := by
 have hmarks : ls.map (markOf (readOpener env)) = ls.map (markOf (anyOpener env)) := by
  apply map_congr_left
  intro line hline
  rw [markOf, markOf, opener_eq env (h line hline)]
 rw [SelectedBy, SelectedBy, hmarks]

theorem selectedBy_plain {opener : Text → Option Bool} {ls : List Text} (hopener : ∀ line ∈ ls, opener line = none)
  (h : ∀ line ∈ ls, ¬ IsOtherDirective line) : SelectedBy opener ls := by
 intro j holds turned hj
 obtain ⟨line, hline, hmark⟩ := mem_map.1 (mem_of_getElem? hj)
 rw [markOf_other (hopener line hline) (h line hline)] at hmark
 exact absurd hmark (by simp)

theorem keeps_iff {env : PreprocessEnv} {text line : Text} {i : ℕ} (h : (lines text)[i]? = some line) :
  Keeps env text i line ↔ (¬ IsRead line ∧ ¬ IsOtherDirective line) ∧ SelectedBy (readOpener env) ((lines text).take i) := by
 by_cases htext : hashMark <:+: text
 · have htake : (lines text).take (i + 1) = (lines text).take i ++ [line] := by rw [take_add_one, h]; rfl
   rw [Keeps, htake, run_snoc_out, ← run_active]
   split_ifs with hkept
   · simp [hkept]
   · simp [hkept, htext]
 · have hplain : ∀ l ∈ lines text, ¬ IsDirective l := fun l hl => no_directive htext hl
   have hline := hplain line (mem_of_getElem? h)
   have hselected : SelectedBy (readOpener env) ((lines text).take i) :=
    selectedBy_plain (fun l hl => readOpener_none fun hread => hplain l (mem_of_mem_take hl) (.inl hread.opener))
     fun l hl hother => hplain l (mem_of_mem_take hl) (.inr hother)
   exact iff_of_true (.inl htext) ⟨⟨fun hread => hline (.inl hread.opener), fun hother => hline (.inr hother)⟩, hselected⟩

/-- Preprocessing is block-structured exactly where the openers it doesn't read do no harm. -/
theorem preprocess_block_structured_iff (env : PreprocessEnv) (text : Text) : BlockStructured env text ↔ Harmless env text := by
 constructor
 · intro h
   constructor
   · rintro i line hline ⟨hopener, hread⟩ hselected
     have hother : ¬ IsOtherDirective line := by
      have hhash : ∀ {w : Text}, ¬ ifMark <+: w → trim line ≠ w := fun hw heq => hw (heq ▸ hopener)
      rintro (hl | hl | hl)
      · exact hhash (by decide) hl
      · exact hhash (by decide) hl
      · obtain ⟨s, hs⟩ := hl
        obtain ⟨t, ht⟩ := hopener
        exact absurd (ht.trans hs.symm) (by simp [ifMark, includeMark])
     exact ((h i line hline).1 ((keeps_iff hline).2 ⟨⟨hread, hother⟩, hselected⟩)).1 (.inl hopener)
   · intro i line hline hplain _
     have hkeeps := h i line hline
     rw [keeps_iff hline] at hkeeps
     have hread : ¬ IsRead line ∧ ¬ IsOtherDirective line :=
      ⟨fun hread => hplain (.inl hread.opener), fun hother => hplain (.inr hother)⟩
     constructor
     · exact fun hselected => (hkeeps.1 ⟨hread, hselected⟩).2
     · exact fun hselected => (hkeeps.2 ⟨hplain, hselected⟩).2
 · rintro ⟨hrejected, halike⟩ i line hline
   have hselect : ¬ IsDirective line → (SelectedBy (readOpener env) ((lines text).take i) ↔
     SelectedBy (anyOpener env) ((lines text).take i)) := by
    intro hplain
    by_cases hunread : ∃ l ∈ (lines text).take i, Unread l
    · exact halike i line hline hplain hunread
    · exact selectedBy_eq env fun l hl hu => hunread ⟨l, hl, hu⟩
   rw [keeps_iff hline]
   constructor
   · rintro ⟨⟨hread, hother⟩, hselected⟩
     have hplain : ¬ IsDirective line := by
      rintro (hopener | h)
      · exact hrejected i line hline ⟨hopener, hread⟩ hselected
      · exact hother h
     exact ⟨hplain, (hselect hplain).1 hselected⟩
   · rintro ⟨hplain, hselected⟩
     exact ⟨⟨fun hread => hplain (.inl hread.opener), fun hother => hplain (.inr hother)⟩, (hselect hplain).2 hselected⟩

/-- The end of a block that wasn't read closes the block around it, so a rule of that is kept. -/
theorem unread_opener_closes_outer :
  ¬ BlockStructured (.molt false) "!#if env_safari\n!#if\nx\n!#endif\ny\n!#endif\n".toList := by
 intro h
 have hlines : lines "!#if env_safari\n!#if\nx\n!#endif\ny\n!#endif\n".toList =
   ["!#if env_safari".toList, ifMark, ['x'], endifMark, ['y'], endifMark] := by decide
 have hkeeps : Keeps (.molt false) "!#if env_safari\n!#if\nx\n!#endif\ny\n!#endif\n".toList 4 ['y'] :=
  .inr (by decide)
 have hselected := ((h 4 ['y'] (by rw [hlines]; rfl)).1 hkeeps).2
 rw [hlines] at hselected
 have houter : markOf (anyOpener (.molt false)) "!#if env_safari".toList = .opens false := by
  rw [markOf, @anyOpener_some (.molt false) _ " env_safari".toList (by decide),
   show evalExpression " env_safari".toList (.molt false) = false by decide]
 have hinner : markOf (anyOpener (.molt false)) ifMark = .opens false := by
  rw [markOf, @anyOpener_some (.molt false) _ [] (by decide), show evalExpression [] (.molt false) = false by decide]
 have hx : markOf (anyOpener (.molt false)) ['x'] = .other := markOf_other (anyOpener_none (by decide)) (by decide)
 have hend : markOf (anyOpener (.molt false)) endifMark = .closes := by
  rw [markOf, anyOpener_none (by decide)]
  rfl
 simp only [List.take_succ_cons, List.take_zero, SelectedBy, List.map_cons, List.map_nil, houter, hinner, hx, hend] at hselected
 exact hselected 0 false false rfl rfl rfl

end MoltBrowser.FilterLists
