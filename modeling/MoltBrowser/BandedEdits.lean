import Mathlib

set_option autoImplicit false

/-!
# Edits of one list into another, near the diagonal

What an edit costs at least, and what it costs at least when no beginning of it takes many more symbols from one list than it
gives to the other.
-/
namespace MoltBrowser.BandedEdits
open List

variable {α : Type}

inductive Edit (α : Type) where
 | replace (x y : α)
 | delete (x : α)
 | insert (y : α)

structure Costs (α : Type) where
 replace : α → α → ℕ
 delete : α → ℕ
 insert : α → ℕ

def Edit.source : Edit α → List α
 | replace x _ => [x]
 | delete x => [x]
 | insert _ => []

def Edit.target : Edit α → List α
 | replace _ y => [y]
 | delete _ => []
 | insert y => [y]

def Costs.of (C : Costs α) : Edit α → ℕ
 | .replace x y => C.replace x y
 | .delete x => C.delete x
 | .insert y => C.insert y

def source (s : List (Edit α)) : List α := s.flatMap Edit.source
def target (s : List (Edit α)) : List α := s.flatMap Edit.target
def Costs.cost (C : Costs α) (s : List (Edit α)) : ℕ := (s.map C.of).sum

@[simp] theorem source_cons (e : Edit α) (s : List (Edit α)) : source (e :: s) = e.source ++ source s := flatMap_cons
@[simp] theorem target_cons (e : Edit α) (s : List (Edit α)) : target (e :: s) = e.target ++ target s := flatMap_cons
@[simp] theorem source_append (s t : List (Edit α)) : source (s ++ t) = source s ++ source t := flatMap_append
@[simp] theorem target_append (s t : List (Edit α)) : target (s ++ t) = target s ++ target t := flatMap_append
@[simp] theorem cost_nil (C : Costs α) : C.cost [] = 0 := rfl
@[simp] theorem cost_cons (C : Costs α) (e : Edit α) (s : List (Edit α)) : C.cost (e :: s) = C.of e + C.cost s := rfl

@[simp] theorem cost_append (C : Costs α) (s t : List (Edit α)) : C.cost (s ++ t) = C.cost s + C.cost t := by
 rw [Costs.cost, Costs.cost, Costs.cost, map_append, sum_append]

structure Edits (xs ys : List α) (s : List (Edit α)) : Prop where
 source_eq : source s = xs
 target_eq : target s = ys

theorem Edits.nil : Edits ([] : List α) [] [] := ⟨rfl, rfl⟩

/-! ## The distance -/

def editDistance (C : Costs α) : List α → List α → ℕ
 | [], [] => 0
 | [], y :: ys => C.insert y + editDistance C [] ys
 | x :: xs, [] => C.delete x + editDistance C xs []
 | x :: xs, y :: ys =>
  min (C.replace x y + editDistance C xs ys)
   (min (C.delete x + editDistance C xs (y :: ys)) (C.insert y + editDistance C (x :: xs) ys))
termination_by xs ys => xs.length + ys.length

theorem editDistance_attained (C : Costs α) (xs ys : List α) : ∃ s, Edits xs ys s ∧ C.cost s = editDistance C xs ys := by
 induction xs, ys using editDistance.induct with
 | case1 => exact ⟨[], .nil, by rw [editDistance]; rfl⟩
 | case2 y ys ih =>
  obtain ⟨s, hs, hcost⟩ := ih
  refine ⟨.insert y :: s, ⟨hs.source_eq, congrArg (y :: ·) hs.target_eq⟩, ?_⟩
  rw [editDistance, cost_cons, hcost]
  rfl
 | case3 x xs ih =>
  obtain ⟨s, hs, hcost⟩ := ih
  refine ⟨.delete x :: s, ⟨congrArg (x :: ·) hs.source_eq, hs.target_eq⟩, ?_⟩
  rw [editDistance, cost_cons, hcost]
  rfl
 | case4 x xs y ys ihreplace ihdelete ihinsert =>
  obtain ⟨s₁, hs₁, hcost₁⟩ := ihreplace
  obtain ⟨s₂, hs₂, hcost₂⟩ := ihdelete
  obtain ⟨s₃, hs₃, hcost₃⟩ := ihinsert
  rw [editDistance]
  rcases min_choice (C.replace x y + editDistance C xs ys)
   (min (C.delete x + editDistance C xs (y :: ys)) (C.insert y + editDistance C (x :: xs) ys)) with hmin | hmin
  · refine ⟨.replace x y :: s₁, ⟨congrArg (x :: ·) hs₁.source_eq, congrArg (y :: ·) hs₁.target_eq⟩, ?_⟩
    rw [hmin, ← hcost₁]
    rfl
  · rw [hmin]
    rcases min_choice (C.delete x + editDistance C xs (y :: ys)) (C.insert y + editDistance C (x :: xs) ys) with hmin | hmin
    · refine ⟨.delete x :: s₂, ⟨congrArg (x :: ·) hs₂.source_eq, hs₂.target_eq⟩, ?_⟩
      rw [hmin, ← hcost₂]
      rfl
    · refine ⟨.insert y :: s₃, ⟨hs₃.source_eq, congrArg (y :: ·) hs₃.target_eq⟩, ?_⟩
      rw [hmin, ← hcost₃]
      rfl

theorem editDistance_le (C : Costs α) (s : List (Edit α)) : editDistance C (source s) (target s) ≤ C.cost s := by
 induction s with
 | nil =>
  rw [show source ([] : List (Edit α)) = [] from rfl, show target ([] : List (Edit α)) = [] from rfl, editDistance]
  exact Nat.zero_le _
 | cons e s ih =>
  have hdelete : ∀ x, editDistance C (x :: source s) (target s) ≤ C.delete x + editDistance C (source s) (target s) := by
   intro x
   cases target s with
   | nil => rw [editDistance]
   | cons y ys =>
    rw [editDistance]
    exact (min_le_right _ _).trans (min_le_left _ _)
  have hinsert : ∀ y, editDistance C (source s) (y :: target s) ≤ C.insert y + editDistance C (source s) (target s) := by
   intro y
   cases source s with
   | nil => rw [editDistance]
   | cons x xs =>
    rw [editDistance]
    exact (min_le_right _ _).trans (min_le_right _ _)
  cases e with
  | replace x y =>
   have hle : editDistance C (x :: source s) (y :: target s) ≤ C.replace x y + editDistance C (source s) (target s) := by
    rw [editDistance]
    exact min_le_left _ _
   exact hle.trans (Nat.add_le_add_left ih _)
  | delete x => exact (hdelete x).trans (Nat.add_le_add_left ih _)
  | insert y => exact (hinsert y).trans (Nat.add_le_add_left ih _)

theorem editDistance_isLeast (C : Costs α) (xs ys : List α) :
  IsLeast {c | ∃ s, Edits xs ys s ∧ C.cost s = c} (editDistance C xs ys) := by
 constructor
 · exact editDistance_attained C xs ys
 · rintro c ⟨s, hs, rfl⟩
   rw [← hs.source_eq, ← hs.target_eq]
   exact editDistance_le C s

/-! ## Near the diagonal -/

def Near (band : ℕ) (xs ys : List α) : Prop := xs.length ≤ ys.length + band ∧ ys.length ≤ xs.length + band

def Within (band : ℕ) (s : List (Edit α)) : Prop := ∀ p, p <+: s → Near band (source p) (target p)

variable {s : List (Edit α)}

theorem Within.of_prefix {band : ℕ} {p : List (Edit α)} (h : Within band s) (hp : p <+: s) : Within band p :=
 fun q hq => h q (hq.trans hp)

theorem Within.mono {band wider : ℕ} (h : Within band s) (hle : band ≤ wider) : Within wider s :=
 fun p hp => ⟨(h p hp).1.trans (Nat.add_le_add_left hle _), (h p hp).2.trans (Nat.add_le_add_left hle _)⟩

theorem Within.near {band : ℕ} {xs ys : List α} (h : Within band s) (hs : Edits xs ys s) : Near band xs ys := by
 have hnear := h s prefix_rfl
 rwa [hs.source_eq, hs.target_eq] at hnear

variable {e : Edit α}

theorem Within.snoc {band : ℕ} (h : Within band s)
  (hnear : Near band (source (s ++ [e])) (target (s ++ [e]))) : Within band (s ++ [e]) := by
 intro p hp
 cases prefix_concat_iff.mp hp with
 | inl heq => exact heq ▸ hnear
 | inr hp => exact h p hp

/-- Where each symbol put in or taken out costs something, an edit goes no further from the diagonal than it costs. -/
theorem near_of_cost {C : Costs α} (hdelete : ∀ x ∈ source s, 1 ≤ C.delete x) (hinsert : ∀ y ∈ target s, 1 ≤ C.insert y) :
  Near (C.cost s) (source s) (target s) := by
 induction s with
 | nil => exact ⟨Nat.zero_le _, Nat.zero_le _⟩
 | cons e s ih =>
  rw [source_cons] at hdelete
  rw [target_cons] at hinsert
  obtain ⟨hleft, hright⟩ := ih (fun x hx => hdelete x (mem_append_right _ hx)) fun y hy => hinsert y (mem_append_right _ hy)
  rw [Near, source_cons, target_cons, cost_cons, length_append, length_append]
  cases e with
  | replace x y =>
   simp only [Edit.source, Edit.target, length_singleton]
   omega
  | delete x =>
   have hx := hdelete x (mem_append_left _ (mem_singleton_self x))
   simp only [Edit.source, Edit.target, Costs.of, length_singleton, length_nil]
   omega
  | insert y =>
   have hy := hinsert y (mem_append_left _ (mem_singleton_self y))
   simp only [Edit.source, Edit.target, Costs.of, length_singleton, length_nil]
   omega

theorem within_of_cost {C : Costs α} {band : ℕ} (hdelete : ∀ x ∈ source s, 1 ≤ C.delete x)
  (hinsert : ∀ y ∈ target s, 1 ≤ C.insert y) (hs : C.cost s ≤ band) : Within band s := by
 rintro p ⟨rest, rfl⟩
 rw [source_append] at hdelete
 rw [target_append] at hinsert
 obtain ⟨hleft, hright⟩ := near_of_cost (fun x hx => hdelete x (mem_append_left _ hx)) fun y hy => hinsert y (mem_append_left _ hy)
 rw [cost_append] at hs
 exact ⟨by omega, by omega⟩

/-! ## Cells -/

/-- What the edits near the diagonal cost at least, where that is less than too far. -/
structure IsCell (C : Costs α) (band tooFar : ℕ) (xs ys : List α) (v : ℕ) : Prop where
 capped : v ≤ tooFar
 lower : ∀ s, Edits xs ys s → Within band s → v ≤ C.cost s
 attained : v = tooFar ∨ ∃ s, Edits xs ys s ∧ Within band s ∧ C.cost s = v

variable {C : Costs α} {band tooFar v w : ℕ} {xs ys : List α}

theorem IsCell.le_of (hv : IsCell C band tooFar xs ys v) (hw : IsCell C band tooFar xs ys w) : v ≤ w := by
 cases hw.attained with
 | inl h => exact h ▸ hv.capped
 | inr h =>
  obtain ⟨s, hs, hwithin, rfl⟩ := h
  exact hv.lower s hs hwithin

theorem IsCell.unique (hv : IsCell C band tooFar xs ys v) (hw : IsCell C band tooFar xs ys w) : v = w :=
 le_antisymm (hv.le_of hw) (hw.le_of hv)

theorem isCell_nil : IsCell C band tooFar ([] : List α) [] 0 where
 capped := Nat.zero_le _
 lower _ _ _ := Nat.zero_le _
 attained := .inr ⟨[], .nil, fun _ hp => prefix_nil.mp hp ▸ ⟨Nat.zero_le _, Nat.zero_le _⟩, rfl⟩

theorem isCell_far (h : ¬ Near band xs ys) : IsCell C band tooFar xs ys tooFar where
 capped := le_rfl
 lower _ hs hwithin := absurd (hwithin.near hs) h
 attained := .inl rfl

theorem Edits.last (h : Edits xs ys s) (hne : xs ≠ [] ∨ ys ≠ []) :
  ∃ s' e xs' ys', s = s' ++ [e] ∧ Edits xs' ys' s' ∧ xs' ++ e.source = xs ∧ ys' ++ e.target = ys := by
 have hs : s ≠ [] := by
  rintro rfl
  exact hne.elim (fun hx => hx h.source_eq.symm) (fun hy => hy h.target_eq.symm)
 obtain ⟨s', e, rfl⟩ := eq_nil_or_concat' s |>.resolve_left hs
 refine ⟨s', e, source s', target s', rfl, ⟨rfl, rfl⟩, ?_, ?_⟩
 · rw [← h.source_eq, source_append]
   exact congrArg (source s' ++ ·) (append_nil _).symm
 · rw [← h.target_eq, target_append]
   exact congrArg (target s' ++ ·) (append_nil _).symm

theorem Edits.snoc (h : Edits xs ys s) : Edits (xs ++ e.source) (ys ++ e.target) (s ++ [e]) where
 source_eq := by
  rw [source_append, h.source_eq]
  exact congrArg (xs ++ ·) (append_nil _)
 target_eq := by
  rw [target_append, h.target_eq]
  exact congrArg (ys ++ ·) (append_nil _)

theorem IsCell.extend (h : IsCell C band tooFar xs ys v) (hnear : Near band (xs ++ e.source) (ys ++ e.target)) :
  tooFar ≤ v + C.of e ∨ ∃ s, Edits (xs ++ e.source) (ys ++ e.target) s ∧ Within band s ∧ C.cost s = v + C.of e := by
 cases h.attained with
 | inl heq => exact .inl (heq ▸ Nat.le_add_right _ _)
 | inr hs =>
  obtain ⟨s, hs, hwithin, hcost⟩ := hs
  refine .inr ⟨s ++ [e], hs.snoc, hwithin.snoc ?_, ?_⟩
  · rw [(hs.snoc (e := e)).source_eq, (hs.snoc (e := e)).target_eq]
    exact hnear
  · rw [cost_append, hcost]
    rfl

theorem isCell_step {x y : α} {replaced deleted inserted : ℕ} (hnear : Near band (xs ++ [x]) (ys ++ [y]))
  (hreplace : IsCell C band tooFar xs ys replaced) (hdelete : IsCell C band tooFar xs (ys ++ [y]) deleted)
  (hinsert : IsCell C band tooFar (xs ++ [x]) ys inserted) :
  IsCell C band tooFar (xs ++ [x]) (ys ++ [y])
   (min (min (min (replaced + C.replace x y) (deleted + C.delete x)) (inserted + C.insert y)) tooFar) where
 capped := min_le_right _ _
 lower s hs hwithin := by
  obtain ⟨s', e, xs', ys', rfl, hs', hsource, htarget⟩ := hs.last (.inl (append_ne_nil_of_right_ne_nil xs (cons_ne_nil x [])))
  have hbefore : Within band s' := hwithin.of_prefix (prefix_append _ _)
  rw [cost_append]
  have hcost : C.cost [e] = C.of e := rfl
  rw [hcost]
  cases e with
  | replace x' y' =>
   obtain ⟨rfl, hx⟩ := append_inj' hsource rfl
   obtain ⟨rfl, hy⟩ := append_inj' htarget rfl
   obtain rfl := (List.cons.inj hx).1
   obtain rfl := (List.cons.inj hy).1
   have hle := hreplace.lower s' hs' hbefore
   exact (min_le_left _ _).trans ((min_le_left _ _).trans ((min_le_left _ _).trans (Nat.add_le_add_right hle _)))
  | delete x' =>
   obtain ⟨rfl, hx⟩ := append_inj' hsource rfl
   obtain rfl := (List.cons.inj hx).1
   obtain rfl := (append_nil ys').symm.trans htarget
   have hle := hdelete.lower s' hs' hbefore
   exact (min_le_left _ _).trans ((min_le_left _ _).trans ((min_le_right _ _).trans (Nat.add_le_add_right hle _)))
  | insert y' =>
   obtain ⟨rfl, hy⟩ := append_inj' htarget rfl
   obtain rfl := (List.cons.inj hy).1
   obtain rfl := (append_nil xs').symm.trans hsource
   have hle := hinsert.lower s' hs' hbefore
   exact (min_le_left _ _).trans ((min_le_right _ _).trans (Nat.add_le_add_right hle _))
 attained := by
  have hreplaced := hreplace.extend (e := .replace x y) hnear
  have hdeleted := hdelete.extend (e := .delete x) (by rw [Edit.target, append_nil]; exact hnear)
  have hinserted := hinsert.extend (e := .insert y) (by rw [Edit.source, append_nil]; exact hnear)
  rw [Edit.target, append_nil] at hdeleted
  rw [Edit.source, append_nil] at hinserted
  have hkeep : ∀ {c : ℕ}, (tooFar ≤ c ∨ ∃ s, Edits (xs ++ [x]) (ys ++ [y]) s ∧ Within band s ∧ C.cost s = c) →
    min c tooFar = tooFar ∨ ∃ s, Edits (xs ++ [x]) (ys ++ [y]) s ∧ Within band s ∧ C.cost s = min c tooFar := by
   intro c hc
   cases le_total tooFar c with
   | inl hle => exact .inl (min_eq_right hle)
   | inr hle =>
    rw [min_eq_left hle]
    exact hc.imp_left fun hge => le_antisymm hle hge
  rcases min_choice (min (replaced + C.replace x y) (deleted + C.delete x)) (inserted + C.insert y) with hmin | hmin
  · rw [hmin]
    rcases min_choice (replaced + C.replace x y) (deleted + C.delete x) with hmin | hmin
    · rw [hmin]
      exact hkeep hreplaced
    · rw [hmin]
      exact hkeep hdeleted
  · rw [hmin]
    exact hkeep hinserted

theorem isCell_delete {x : α} (hnear : Near band (xs ++ [x]) []) (h : IsCell C band tooFar xs [] v) :
  IsCell C band tooFar (xs ++ [x]) [] (min tooFar (v + C.delete x)) where
 capped := min_le_left _ _
 lower s hs hwithin := by
  obtain ⟨s', e, xs', ys', rfl, hs', hsource, htarget⟩ := hs.last (.inl (append_ne_nil_of_right_ne_nil xs (cons_ne_nil x [])))
  obtain ⟨rfl, htarget⟩ := append_eq_nil_iff.mp htarget
  cases e with
  | replace x' y' => exact absurd htarget (cons_ne_nil _ _)
  | insert y' => exact absurd htarget (cons_ne_nil _ _)
  | delete x' =>
   obtain ⟨rfl, hx⟩ := append_inj' hsource rfl
   obtain rfl := (List.cons.inj hx).1
   rw [cost_append]
   exact (min_le_right _ _).trans (Nat.add_le_add_right (h.lower s' hs' (hwithin.of_prefix (prefix_append _ _))) _)
 attained := by
  cases h.extend (e := .delete x) hnear with
  | inl hle => exact .inl (min_eq_left hle)
  | inr hs =>
   cases le_total tooFar (v + C.delete x) with
   | inl hle => exact .inl (min_eq_left hle)
   | inr hle =>
    rw [min_eq_right hle]
    exact .inr hs

theorem isCell_insert {y : α} (hnear : Near band [] (ys ++ [y])) (h : IsCell C band tooFar [] ys v) :
  IsCell C band tooFar [] (ys ++ [y]) (min tooFar (v + C.insert y)) where
 capped := min_le_left _ _
 lower s hs hwithin := by
  obtain ⟨s', e, xs', ys', rfl, hs', hsource, htarget⟩ := hs.last (.inr (append_ne_nil_of_right_ne_nil ys (cons_ne_nil y [])))
  obtain ⟨rfl, hsource⟩ := append_eq_nil_iff.mp hsource
  cases e with
  | replace x' y' => exact absurd hsource (cons_ne_nil _ _)
  | delete x' => exact absurd hsource (cons_ne_nil _ _)
  | insert y' =>
   obtain ⟨rfl, hy⟩ := append_inj' htarget rfl
   obtain rfl := (List.cons.inj hy).1
   rw [cost_append]
   exact (min_le_right _ _).trans (Nat.add_le_add_right (h.lower s' hs' (hwithin.of_prefix (prefix_append _ _))) _)
 attained := by
  cases h.extend (e := .insert y) hnear with
  | inl hle => exact .inl (min_eq_left hle)
  | inr hs =>
   cases le_total tooFar (v + C.insert y) with
   | inl hle => exact .inl (min_eq_left hle)
   | inr hle =>
    rw [min_eq_right hle]
    exact .inr hs

theorem isCell_after_row {more : List α} (hrow : ∀ j ≤ ys.length, Near band xs (ys.take j) → IsCell C band tooFar xs (ys.take j) tooFar) :
  IsCell C band tooFar (xs ++ more) ys tooFar where
 capped := le_rfl
 attained := .inl rfl
 lower s hs hwithin := by
  -- the beginning of the edit that uses up the row's symbols
  have hsplit : ∀ s : List (Edit α), ∀ xs : List α, xs <+: source s → ∃ p, p <+: s ∧ source p = xs := by
   intro s
   induction s with
   | nil => exact fun xs h => ⟨[], prefix_rfl, (prefix_nil.mp h).symm⟩
   | cons e s ih =>
    intro xs h
    cases xs with
    | nil => exact ⟨[], nil_prefix, rfl⟩
    | cons x xs =>
     have htail : ∀ xs', e.source ++ xs' = x :: xs → ∃ p, p <+: e :: s ∧ source p = x :: xs := by
      intro xs' heq
      rw [source_cons, ← heq] at h
      obtain ⟨p, hp, hsource⟩ := ih xs' ((prefix_append_right_inj _).mp h)
      exact ⟨e :: p, cons_prefix_cons.mpr ⟨rfl, hp⟩, by rw [source_cons, hsource, heq]⟩
     cases e with
     | insert y => exact htail (x :: xs) rfl
     | replace x' y =>
      obtain rfl := (cons_prefix_cons.mp h).1
      exact htail xs rfl
     | delete x' =>
      obtain rfl := (cons_prefix_cons.mp h).1
      exact htail xs rfl
  obtain ⟨p, hp, hsource⟩ := hsplit s xs (by rw [hs.source_eq]; exact prefix_append _ _)
  have hwithin' := hwithin.of_prefix hp
  obtain ⟨rest, rfl⟩ := hp
  have htarget : target p = ys.take (target p).length := by
   rw [← hs.target_eq, target_append, take_left]
  have hedits : Edits xs (ys.take (target p).length) p := ⟨hsource, htarget⟩
  have hlen : (target p).length ≤ ys.length := by
   rw [← hs.target_eq, target_append, length_append]
   exact Nat.le_add_right _ _
  rw [cost_append]
  exact ((hrow _ hlen (hwithin'.near hedits)).lower p hedits hwithin').trans (Nat.le_add_right _ _)

/-! ## The other way round -/

def Edit.swap : Edit α → Edit α
 | replace x y => .replace y x
 | delete x => .insert x
 | insert y => .delete y

theorem Edit.source_swap (e : Edit α) : e.swap.source = e.target := by cases e <;> rfl
theorem Edit.target_swap (e : Edit α) : e.swap.target = e.source := by cases e <;> rfl

theorem source_swap (s : List (Edit α)) : source (s.map Edit.swap) = target s := by
 rw [source, flatMap_map]
 exact congrArg (fun f => s.flatMap f) (funext Edit.source_swap)

theorem target_swap (s : List (Edit α)) : target (s.map Edit.swap) = source s := by
 rw [target, flatMap_map]
 exact congrArg (fun f => s.flatMap f) (funext Edit.target_swap)

structure Costs.Symmetric (C : Costs α) : Prop where
 replace : ∀ x y, C.replace x y = C.replace y x
 insert : ∀ x, C.insert x = C.delete x

theorem cost_swap (hC : C.Symmetric) (s : List (Edit α)) : C.cost (s.map Edit.swap) = C.cost s := by
 induction s with
 | nil => rfl
 | cons e s ih =>
  have he : C.of e.swap = C.of e := by
   cases e with
   | replace x y => exact hC.replace y x
   | delete x => exact hC.insert x
   | insert y => exact (hC.insert y).symm
  rw [map_cons, cost_cons, cost_cons, ih, he]

theorem Within.swap (h : Within band s) : Within band (s.map Edit.swap) := by
 intro p hp
 obtain ⟨n, rfl⟩ : ∃ n, p = (s.take n).map Edit.swap := ⟨p.length, by rw [map_take, ← prefix_iff_eq_take]; exact hp⟩
 rw [source_swap, target_swap]
 exact (h _ (List.take_prefix n s)).symm

theorem IsCell.swap (hC : C.Symmetric) (h : IsCell C band tooFar xs ys v) : IsCell C band tooFar ys xs v where
 capped := h.capped
 lower s hs hwithin := by
  rw [← cost_swap hC]
  refine h.lower _ ⟨?_, ?_⟩ hwithin.swap
  · rw [source_swap, hs.target_eq]
  · rw [target_swap, hs.source_eq]
 attained := by
  refine h.attained.imp_right ?_
  rintro ⟨s, hs, hwithin, hcost⟩
  refine ⟨s.map Edit.swap, ⟨?_, ?_⟩, hwithin.swap, (cost_swap hC s).trans hcost⟩
  · rw [source_swap, hs.target_eq]
  · rw [target_swap, hs.source_eq]

end MoltBrowser.BandedEdits
