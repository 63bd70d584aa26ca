import MoltBrowser.SortedTable
import Mathlib.Data.Finset.Max
import Mathlib.Order.Lex

set_option autoImplicit false

/-!
# Ordered sets that are taken from at their first element

Records in a table go with their places in a set that says which is the next to go.
-/
namespace MoltBrowser.OrderedSets
open SortedTable

variable {α : Type} [LinearOrder α]

def first (s : Finset α) : Option α := s.min

theorem first_none {s : Finset α} : first s = none ↔ s = ∅ := Finset.min_eq_top

theorem first_some {s : Finset α} {a : α} (h : first s = some a) : a ∈ s ∧ ∀ b ∈ s, a ≤ b :=
 ⟨Finset.mem_of_min h, fun _ hb => Finset.min_le_of_eq hb h⟩

/-- The first elements, as long as they meet a condition, at most `n` of them; and what is left. -/
def takeFirst (p : α → Bool) : ℕ → Finset α → List α × Finset α
 | 0, s => ([], s)
 | n + 1, s =>
  match first s with
  | none => ([], s)
  | some a =>
   if p a then
    let (more, rest) := takeFirst p n (s.erase a)
    (a :: more, rest)
   else ([], s)

theorem takeFirst_spec (p : α → Bool) (n : ℕ) (s : Finset α) :
  (∀ a ∈ (takeFirst p n s).1, a ∈ s ∧ p a = true) ∧
   ∀ a, a ∈ (takeFirst p n s).2 ↔ a ∈ s ∧ a ∉ (takeFirst p n s).1 := by
 induction n generalizing s with
 | zero => simp [takeFirst]
 | succ n ih =>
  rw [takeFirst]
  cases hfirst : first s with
  | none => simp
  | some a =>
   dsimp only
   split_ifs with hp
   · obtain ⟨htaken, hrest⟩ := ih (s.erase a)
     refine ⟨fun b hb => ?_, ?_⟩
     · cases List.mem_cons.mp hb with
       | inl heq => exact heq ▸ ⟨(first_some hfirst).1, hp⟩
       | inr hlater => exact ⟨Finset.mem_of_mem_erase (htaken b hlater).1, (htaken b hlater).2⟩
     · intro b
       rw [hrest, Finset.mem_erase, List.mem_cons, not_or]
       tauto
   · simp

/-- With a condition that what comes before keeps, and no limit, all that meet it are taken. -/
theorem takeFirst_all {p : α → Bool} (hp : ∀ a b, a ≤ b → p b = true → p a = true) {n : ℕ} {s : Finset α} (hn : s.card ≤ n)
  {a : α} (ha : a ∈ s) (hpa : p a = true) : a ∈ (takeFirst p n s).1 := by
 induction n generalizing s with
 | zero => exact absurd (Finset.card_pos.mpr ⟨a, ha⟩) (by omega)
 | succ n ih =>
  rw [takeFirst]
  cases hfirst : first s with
  | none => exact absurd (first_none.mp hfirst ▸ ha) (Finset.notMem_empty a)
  | some b =>
   obtain ⟨hb, hleast⟩ := first_some hfirst
   dsimp only
   rw [if_pos (hp b a (hleast a ha) hpa)]
   by_cases heq : a = b
   · exact heq ▸ List.mem_cons_self
   · refine List.mem_cons_of_mem b (ih ?_ (Finset.mem_erase.mpr ⟨heq, ha⟩))
     rw [Finset.card_erase_of_mem hb]
     omega

/-! ## Records erased -/

variable {K V : Type} [LinearOrder K]

omit [LinearOrder α] in
theorem get_foldl_erase (name : α → K) (gone : List α) (t : Table K V) (k : K) :
  (gone.foldl (fun t a => t.erase (name a)) t).get k = if k ∈ gone.map name then none else t.get k := by
 induction gone generalizing t with
 | nil => rfl
 | cons a gone ih =>
  rw [List.foldl_cons, ih, Table.get_erase, List.map_cons]
  by_cases hlater : k ∈ gone.map name
  · rw [if_pos hlater, if_pos (List.mem_cons_of_mem _ hlater)]
  · rw [if_neg hlater]
    by_cases hk : k = name a
    · rw [if_pos hk, if_pos (hk ▸ List.mem_cons_self)]
    · rw [if_neg hk, if_neg fun h => (List.mem_cons.mp h).elim hk hlater]

end MoltBrowser.OrderedSets
