import Mathlib.Data.Nat.Notation
import Mathlib.Data.List.Basic

set_option autoImplicit false

/-!
# Lines inside conditional blocks

A list of marks opens blocks, turns them to their other part and closes them. What stands after
the list is selected if each block it is inside of selects it: a block's own end is found from
its opening, by counting the blocks that open and close on the way.
-/
namespace MoltBrowser.Conditional

inductive Mark where
 | opens (holds : Bool)
 | turns
 | closes
 | other
 deriving DecidableEq

/-- Whether a block, with `depth` more opened in it, is still open after the marks, and turned. -/
def inside : ℕ → Bool → List Mark → Option Bool
 | _, turned, [] => some turned
 | depth, turned, .opens _ :: marks => inside (depth + 1) turned marks
 | 0, _, .closes :: _ => none
 | depth + 1, turned, .closes :: marks => inside depth turned marks
 | 0, _, .turns :: marks => inside 0 true marks
 | depth + 1, turned, .turns :: marks => inside (depth + 1) turned marks
 | depth, turned, .other :: marks => inside depth turned marks

/-- Each block that the end of the list is inside of holds and isn't turned, or doesn't and is. -/
def Selected (marks : List Mark) : Prop := ∀ j holds turned, marks[j]? = some (.opens holds) →
 inside 0 false (marks.drop (j + 1)) = some turned → holds ≠ turned

/-! ## Reading the marks in turn -/

/-- The blocks open, the last opened first: whether each holds, and is turned. -/
abbrev Blocks := List (Bool × Bool)

def Blocks.next (blocks : Blocks) : Mark → Blocks
 | .opens holds => (holds, false) :: blocks
 | .turns => match blocks with
  | [] => []
  | (holds, _) :: rest => (holds, true) :: rest
 | .closes => blocks.tail
 | .other => blocks

def Blocks.after (blocks : Blocks) (marks : List Mark) : Blocks := marks.foldl Blocks.next blocks

theorem Blocks.after_concat (blocks : Blocks) (marks : List Mark) (m : Mark) :
  blocks.after (marks ++ [m]) = (blocks.after marks).next m := by
 rw [Blocks.after, List.foldl_concat, ← Blocks.after]

def Blocks.Select (blocks : Blocks) : Prop := ∀ b ∈ blocks, b.1 ≠ b.2

theorem selected_cons {m : Mark} {marks : List Mark} : Selected (m :: marks) ↔
  (∀ holds turned, m = .opens holds → inside 0 false marks = some turned → holds ≠ turned) ∧ Selected marks := by
 constructor
 · intro h
   refine ⟨fun holds turned hm hin => ?_, fun j holds turned hj hin => ?_⟩
   · exact h 0 holds turned (by rw [List.getElem?_cons_zero, hm]) hin
   · exact h (j + 1) holds turned (by rwa [List.getElem?_cons_succ]) hin
 · rintro ⟨hhead, htail⟩ j holds turned hj hin
   cases j with
   | zero =>
    rw [List.getElem?_cons_zero] at hj
    exact hhead holds turned (Option.some.inj hj) hin
   | succ j => exact htail j holds turned (by rwa [List.getElem?_cons_succ] at hj) hin

theorem selected_skip {m : Mark} {marks : List Mark} (hm : ∀ holds, m ≠ .opens holds) :
  Selected (m :: marks) ↔ Selected marks := by
 rw [selected_cons]
 exact and_iff_right fun holds _ h => absurd h (hm holds)

theorem select_after (blocks : Blocks) (marks : List Mark) : (blocks.after marks).Select ↔
  (∀ d b turned, blocks[d]? = some b → inside d b.2 marks = some turned → b.1 ≠ turned) ∧ Selected marks := by
 induction marks generalizing blocks with
 | nil =>
  have hnone : Selected [] := fun j holds turned hj => absurd hj (by simp)
  simp only [Blocks.after, List.foldl_nil, Blocks.Select, inside, Option.some.injEq, hnone, and_true]
  constructor
  · rintro h d b turned hd rfl
    exact h b (List.mem_of_getElem? hd)
  · intro h b hb
    obtain ⟨d, hd⟩ := List.mem_iff_getElem?.1 hb
    exact h d b b.2 hd rfl
 | cons m marks ih =>
  rw [Blocks.after, List.foldl_cons, ← Blocks.after, ih]
  cases m with
  | opens holds =>
   rw [selected_cons]
   constructor
   · rintro ⟨hblocks, hmarks⟩
     refine ⟨fun d b turned hd hin => hblocks (d + 1) b turned hd hin, fun h turned hm hin => ?_, hmarks⟩
     exact hblocks 0 (h, false) turned (by rw [Mark.opens.inj hm]; rfl) hin
   · rintro ⟨hblocks, hhead, hmarks⟩
     refine ⟨fun d b turned hd hin => ?_, hmarks⟩
     cases d with
     | zero =>
      obtain rfl := Option.some.inj hd
      exact hhead holds turned rfl hin
     | succ d => exact hblocks d b turned hd hin
  | turns =>
   rw [selected_skip (by simp)]
   refine and_congr_left fun _ => ?_
   cases blocks with
   | nil => simp [Blocks.next]
   | cons first rest =>
    constructor
    · intro h d b turned hd hin
      cases d with
      | zero =>
       obtain rfl := Option.some.inj hd
       exact h 0 (first.1, true) turned rfl hin
      | succ d => exact h (d + 1) b turned hd hin
    · intro h d b turned hd hin
      cases d with
      | zero =>
       obtain rfl := Option.some.inj hd
       exact h 0 first turned rfl hin
      | succ d => exact h (d + 1) b turned hd hin
  | closes =>
   rw [selected_skip (by simp)]
   refine and_congr_left fun _ => ?_
   rw [Blocks.next]
   constructor
   · intro h d b turned hd hin
     cases d with
     | zero => exact absurd hin (by simp [inside])
     | succ d => exact h d b turned (by rw [List.getElem?_tail]; exact hd) hin
   · intro h d b turned hd hin
     rw [List.getElem?_tail] at hd
     exact h (d + 1) b turned hd hin
  | other =>
   rw [selected_skip (by simp)]
   refine and_congr_left fun _ => ?_
   constructor
   · intro h d b turned hd hin
     exact h d b turned hd (by cases d <;> exact hin)
   · intro h d b turned hd hin
     exact h d b turned hd (by cases d <;> exact hin)

theorem selected_iff (marks : List Mark) : Selected marks ↔ (Blocks.after [] marks).Select := by
 rw [select_after]
 simp

end MoltBrowser.Conditional
