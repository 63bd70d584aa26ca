import Mathlib

set_option autoImplicit false

/-!
# Marking by a work list

Indices are marked and put on a list, and each index taken off it asks for its successors.
-/
namespace MoltBrowser.WorkLists
open List

def marked (marks : List Bool) (n : ℕ) : Bool := marks.getD n false

def request (state : List Bool × List ℕ) (n : ℕ) : List Bool × List ℕ :=
 if marked state.1 n then state else (state.1.set n true, n :: state.2)

def markAll (successors : ℕ → List ℕ) : ℕ → List Bool → List ℕ → List Bool
 | 0, marks, _ => marks
 | _ + 1, marks, [] => marks
 | fuel + 1, marks, n :: todo =>
  let state := (successors n).foldl request (marks, todo)
  markAll successors fuel state.1 state.2

def Closed (successors : ℕ → List ℕ) (marks : List Bool) (n : ℕ) : Prop :=
 ∀ m ∈ successors n, marked marks m = true

theorem marked_set {marks : List Bool} {n : ℕ} (h : n < marks.length) (k : ℕ) :
  marked (marks.set n true) k = true ↔ k = n ∨ marked marks k = true := by
 rw [marked, getD_eq_getElem?_getD, getElem?_set, marked, getD_eq_getElem?_getD]
 by_cases hkn : n = k
 · subst hkn
   simp [h]
 · simp [hkn, Ne.symm hkn]

theorem marked_replicate (size n : ℕ) : marked (List.replicate size false) n = false := by
 rw [marked, getD_eq_getElem?_getD, getElem?_replicate]
 split_ifs <;> rfl

/-- What a request leaves: nothing is lost, and what is new is on the list. -/
structure Grows (before after : List Bool × List ℕ) : Prop where
 length : after.1.length = before.1.length
 marks : ∀ n, marked before.1 n = true → marked after.1 n = true
 listed : ∀ n, marked after.1 n = true → marked before.1 n = true ∨ n ∈ after.2
 todo : ∀ n ∈ before.2, n ∈ after.2
 work : after.1.count false + after.2.length = before.1.count false + before.2.length

theorem Grows.refl (state : List Bool × List ℕ) : Grows state state :=
 ⟨rfl, fun _ h => h, fun _ h => Or.inl h, fun _ h => h, rfl⟩

theorem Grows.trans {a b c : List Bool × List ℕ} (hab : Grows a b) (hbc : Grows b c) : Grows a c where
 length := hbc.length.trans hab.length
 marks n hn := hbc.marks n (hab.marks n hn)
 listed n hn := (hbc.listed n hn).elim
  (fun hb => (hab.listed n hb).imp_right (hbc.todo n)) Or.inr
 todo n hn := hbc.todo n (hab.todo n hn)
 work := hbc.work.trans hab.work

theorem request_grows {state : List Bool × List ℕ} {n : ℕ} (h : n < state.1.length) :
  Grows state (request state n) ∧ marked (request state n).1 n = true := by
 rw [request]
 split_ifs with hmarked
 · exact ⟨.refl state, hmarked⟩
 · have hfalse : state.1[n] = false := by
    rw [marked, getD_eq_getElem?_getD, getElem?_eq_getElem h] at hmarked
    simpa using hmarked
   have hcount : state.1.count false = (state.1.set n true).count false + 1 := by
    rw [count_set h, hfalse]
    have hpos : 0 < state.1.count false := count_pos_iff.2 (hfalse ▸ getElem_mem h)
    simp
    omega
   refine ⟨⟨List.length_set, fun k hk => (marked_set h k).2 (Or.inr hk), fun k hk => ?_,
    fun k hk => mem_cons_of_mem n hk, ?_⟩, (marked_set h n).2 (Or.inl rfl)⟩
   · rcases (marked_set h k).1 hk with rfl | hold
     · exact Or.inr (mem_cons_self ..)
     · exact Or.inl hold
   · dsimp only
     rw [hcount, length_cons]
     omega

theorem foldl_request {state : List Bool × List ℕ} (l : List ℕ) (h : ∀ n ∈ l, n < state.1.length) :
  Grows state (l.foldl request state) ∧ ∀ n ∈ l, marked (l.foldl request state).1 n = true := by
 induction l generalizing state with
 | nil => exact ⟨.refl state, fun n hn => absurd hn not_mem_nil⟩
 | cons first l ih =>
  obtain ⟨hgrows, hfirst⟩ := request_grows (h first (mem_cons_self ..))
  obtain ⟨hrest, hall⟩ := ih fun n hn => hgrows.length.symm ▸ h n (mem_cons_of_mem first hn)
  refine ⟨hgrows.trans hrest, fun n hn => ?_⟩
  rcases mem_cons.1 hn with rfl | hn
  · exact hrest.marks n hfirst
  · exact hall n hn

section Marks

variable {successors : ℕ → List ℕ} {size : ℕ}

/-- With fuel for the list and what may still come onto it, everything marked ends up closed. -/
theorem markAll_closed (hsize : ∀ n, ∀ m ∈ successors n, m < size) {fuel : ℕ} {marks : List Bool}
  {todo : List ℕ} (hlength : marks.length = size) (hfuel : marks.count false + todo.length ≤ fuel)
  (hopen : ∀ n, marked marks n = true → n ∈ todo ∨ Closed successors marks n) (n : ℕ) :
  marked (markAll successors fuel marks todo) n = true → Closed successors (markAll successors fuel marks todo) n := by
 induction fuel generalizing marks todo with
 | zero =>
  intro hn
  have hnil : todo = [] := length_eq_zero_iff.1 (by omega)
  rw [hnil] at hopen
  exact (hopen n hn).resolve_left not_mem_nil
 | succ fuel ih =>
  cases todo with
  | nil => exact fun hn => (hopen n hn).resolve_left not_mem_nil
  | cons first todo =>
   obtain ⟨hgrows, hall⟩ := @foldl_request (marks, todo) (successors first)
    fun m hm => hlength.symm ▸ hsize first m hm
   apply ih (hgrows.length.trans hlength)
   · have hwork := hgrows.work
     dsimp only at hwork
     rw [length_cons] at hfuel
     omega
   · intro k hk
     rcases hgrows.listed k hk with hold | hnew
     · rcases hopen k hold with hlisted | hclosed
       · rcases mem_cons.1 hlisted with rfl | hlater
         · exact Or.inr hall
         · exact Or.inl (hgrows.todo k hlater)
       · exact Or.inr fun m hm => hgrows.marks m (hclosed m hm)
     · exact Or.inl hnew

theorem markAll_keeps (hsize : ∀ n, ∀ m ∈ successors n, m < size) {fuel : ℕ} {marks : List Bool}
  {todo : List ℕ} (hlength : marks.length = size) {n : ℕ} (hn : marked marks n = true) :
  marked (markAll successors fuel marks todo) n = true := by
 induction fuel generalizing marks todo with
 | zero => exact hn
 | succ fuel ih =>
  cases todo with
  | nil => exact hn
  | cons first todo =>
   obtain ⟨hgrows, -⟩ := @foldl_request (marks, todo) (successors first)
    fun m hm => hlength.symm ▸ hsize first m hm
   exact ih (hgrows.length.trans hlength) (hgrows.marks n hn)

end Marks

end MoltBrowser.WorkLists
