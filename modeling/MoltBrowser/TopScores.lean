import Mathlib

set_option autoImplicit false

/-!
# The best of a sequence, by a heap of the best so far

The heap operations are any that keep the documented contract of the standard library's: a
heap's front is a least value, which of several is open.
-/
namespace MoltBrowser.TopScores
open List

variable {β S : Type*} [LinearOrder S] {key : β → S}

def IsHeap (key : β → S) (v : List β) : Prop :=
 ∀ i (h : i + 1 < v.length), key v[i / 2] ≤ key v[i + 1]

structure HeapAlgorithms (key : β → S) where
 pushHeap : List β → List β
 popHeap : List β → List β
 sort : List β → List β
 push_perm : ∀ v, (pushHeap v).Perm v
 push_heap : ∀ {v x}, IsHeap key v → IsHeap key (pushHeap (v ++ [x]))
 pop_heap : ∀ {x v}, IsHeap key (x :: v) → ∃ w, popHeap (x :: v) = w ++ [x] ∧ w.Perm v ∧ IsHeap key w
 sort_perm : ∀ v, (sort v).Perm v
 sort_best : ∀ v, (sort v).Pairwise fun a b => key b ≤ key a

/-- The heap after one more value, with `k` at most. -/
def HeapAlgorithms.keep (alg : HeapAlgorithms key) (k : ℕ) (heap : List β) (x : β) : List β :=
 if heap.length < k then alg.pushHeap (heap ++ [x])
 else
  match heap.head? with
  | none => heap
  | some front =>
   if key front < key x then alg.pushHeap ((alg.popHeap heap).dropLast ++ [x]) else heap

def HeapAlgorithms.best (alg : HeapAlgorithms key) (k : ℕ) (xs : List β) : List β :=
 alg.sort (xs.foldl (alg.keep k) [])

theorem isHeap_nil : IsHeap key [] := fun _ h => absurd h (Nat.not_lt_zero _)

theorem IsHeap.front_le {front : β} {v : List β} (h : IsHeap key (front :: v)) :
  ∀ x ∈ v, key front ≤ key x := by
 have hnode : ∀ i (hi : i < (front :: v).length), key front ≤ key (front :: v)[i] := by
  intro i
  induction i using Nat.strong_induction_on with
  | _ i ih =>
   intro hi
   cases i with
   | zero => exact le_refl _
   | succ i => exact (ih (i / 2) (by omega) (by omega)).trans (h i hi)
 intro x hx
 obtain ⟨i, hi, rfl⟩ := getElem_of_mem hx
 exact hnode (i + 1) (Nat.succ_lt_succ hi)

/-- The heap holds the `k` best of `seen`; the `rest` are no better. -/
structure Selected (key : β → S) (k : ℕ) (seen heap rest : List β) : Prop where
 ordered : IsHeap key heap
 perm : (heap ++ rest).Perm seen
 length : heap.length = min k seen.length
 better : ∀ x ∈ heap, ∀ y ∈ rest, key y ≤ key x

theorem Selected.keep (alg : HeapAlgorithms key) {k : ℕ} (hk : 0 < k) {seen heap rest : List β}
  (h : Selected key k seen heap rest) (x : β) :
  ∃ rest', Selected key k (seen ++ [x]) (alg.keep k heap x) rest' := by
 have hlen := h.perm.length_eq
 rw [length_append] at hlen
 rw [HeapAlgorithms.keep]
 split_ifs with hroom
 · have hrest : rest = [] := by
    have := h.length
    exact length_eq_zero_iff.1 (by omega)
   subst hrest
   refine ⟨[], alg.push_heap h.ordered, ?_, ?_, by simp⟩
   · rw [append_nil]
     have hperm := h.perm
     rw [append_nil] at hperm
     exact (alg.push_perm _).trans (hperm.append_right [x])
   · rw [(alg.push_perm _).length_eq, length_append, length_append, length_singleton]
     have := h.length
     omega
 · obtain ⟨front, v, rfl⟩ : ∃ front v, heap = front :: v :=
    exists_cons_of_length_pos (by omega)
   have hk' : (front :: v).length = k := by
    have := h.length
    omega
   dsimp only [head?_cons]
   split_ifs with hlt
   · -- The front goes out: it is no better than any that stay, and worse than the new one.
     obtain ⟨w, hpop, hperm, hheap⟩ := alg.pop_heap h.ordered
     rw [hpop, dropLast_concat]
     refine ⟨front :: rest, alg.push_heap hheap, ?_, ?_, ?_⟩
     · have hout : (alg.pushHeap (w ++ [x]) ++ front :: rest).Perm ((v ++ [x]) ++ front :: rest) :=
        ((alg.push_perm _).trans (hperm.append_right _)).append_right _
       have hswap : ((v ++ [x]) ++ front :: rest).Perm ((front :: v ++ rest) ++ [x]) := by
        rw [append_assoc, singleton_append]
        refine perm_middle.trans (.trans (List.Perm.cons x perm_middle) ?_)
        exact @perm_append_comm _ [x] _
       exact (hout.trans hswap).trans (h.perm.append_right _)
     · rw [(alg.push_perm _).length_eq, length_append, hperm.length_eq, length_append]
       simp only [length_cons, length_nil] at hk' hlen ⊢
       omega
     · intro a ha y hy
       rcases mem_append.1 ((alg.push_perm _).mem_iff.1 ha) with ha | ha
       · have hav := hperm.mem_iff.1 ha
         rcases mem_cons.1 hy with rfl | hy
         · exact h.ordered.front_le a hav
         · exact h.better a (mem_cons_of_mem _ hav) y hy
       · obtain rfl := mem_singleton.1 ha
         rcases mem_cons.1 hy with rfl | hy
         · exact hlt.le
         · exact (h.better front (mem_cons_self ..) y hy).trans hlt.le
   · refine ⟨rest ++ [x], h.ordered, ?_, ?_, fun a ha y hy => ?_⟩
     · rw [← append_assoc]
       exact h.perm.append_right _
     · have := h.length
       rw [length_append, length_singleton]
       omega
     · rcases mem_append.1 hy with hy | hy
       · exact h.better a ha y hy
       · obtain rfl := mem_singleton.1 hy
         rcases mem_cons.1 ha with rfl | ha
         · exact not_lt.1 hlt
         · exact (not_lt.1 hlt).trans (h.ordered.front_le a ha)

theorem Selected.foldl (alg : HeapAlgorithms key) {k : ℕ} (hk : 0 < k) (xs : List β) {seen heap rest : List β}
  (h : Selected key k seen heap rest) :
  ∃ rest', Selected key k (seen ++ xs) (xs.foldl (alg.keep k) heap) rest' := by
 induction xs generalizing seen heap rest with
 | nil => exact ⟨rest, by simpa using h⟩
 | cons x xs ih =>
  obtain ⟨rest', h'⟩ := h.keep alg hk x
  simpa using ih h'

theorem best_spec (alg : HeapAlgorithms key) {k : ℕ} (hk : 0 < k) (xs : List β) :
  ∃ rest, (alg.best k xs ++ rest).Perm xs ∧ (alg.best k xs).length = min k xs.length ∧
   (alg.best k xs).Pairwise (fun a b => key b ≤ key a) ∧
   ∀ x ∈ alg.best k xs, ∀ y ∈ rest, key y ≤ key x := by
 have hnil : Selected key k [] [] [] := ⟨isHeap_nil, List.Perm.refl _, by simp, by simp⟩
 obtain ⟨rest, h⟩ := hnil.foldl alg hk xs
 rw [nil_append] at h
 have hsort := alg.sort_perm (xs.foldl (alg.keep k) [])
 refine ⟨rest, (hsort.append_right rest).trans h.perm, hsort.length_eq.trans h.length,
  alg.sort_best _, fun x hx => h.better x (hsort.mem_iff.1 hx)⟩

end MoltBrowser.TopScores
