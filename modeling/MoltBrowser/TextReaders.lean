import Mathlib.Data.List.Basic
import Mathlib.Data.List.Infix
import Mathlib.Tactic.Linarith

set_option autoImplicit false

/-!
# Readers that a symbol stops

A reader takes a part off the front of a text. It is local to a symbol when a reading that leaves
the symbol unread doesn't depend on what comes after the symbol: so a text with the symbol where a
reading ends can be read up to there on its own.
-/
namespace MoltBrowser.TextReaders
open List

variable {σ α β γ : Type}

abbrev Reads (σ α : Type) := List σ → α × List σ

structure Local (x : σ) (f : Reads σ α) : Prop where
 rest : ∀ s, (f s).2 <:+ s
 stable : ∀ u t, t.length < (f (u ++ x :: t)).2.length → ∃ y, ∀ t', f (u ++ x :: t') = ((f (u ++ x :: t)).1, y ++ x :: t')

def Settled (x : σ) (p : List σ → γ) : Prop := ∀ u t t', p (u ++ x :: t) = p (u ++ x :: t')

theorem Local.pure (x : σ) (a : α) : Local x (fun s => (a, s)) where
 rest s := suffix_refl s
 stable u _ _ := ⟨u, fun _ => rfl⟩

variable {x : σ} {f : Reads σ α}

theorem Local.bind {g : α → Reads σ β} (hf : Local x f) (hg : ∀ a, Local x (g a)) :
  Local x (fun s => g (f s).1 (f s).2) where
 rest s := ((hg _).rest _).trans (hf.rest s)
 stable u t h := by
  have hle := ((hg (f (u ++ x :: t)).1).rest (f (u ++ x :: t)).2).length_le
  obtain ⟨y, hy⟩ := hf.stable u t (by omega)
  have hread : (f (u ++ x :: t)).2 = y ++ x :: t := by rw [hy t]
  rw [hread] at h
  obtain ⟨z, hz⟩ := (hg (f (u ++ x :: t)).1).stable y t h
  refine ⟨z, fun t' => ?_⟩
  rw [hy t', hread]
  exact hz t'

theorem Local.settled {p : List σ → γ} {f : γ → Reads σ α} (hp : Settled x p) (hf : ∀ c, Local x (f c)) :
  Local x (fun s => f (p s) s) where
 rest s := (hf _).rest s
 stable u t h := by
  obtain ⟨y, hy⟩ := (hf (p (u ++ x :: t))).stable u t h
  refine ⟨y, fun t' => ?_⟩
  rw [hp u t' t]
  exact hy t'

theorem Local.ite {p : List σ → Bool} {g : Reads σ α} (hp : Settled x p) (hf : Local x f) (hg : Local x g) :
  Local x (fun s => if p s then f s else g s) := by
 have hchoice : ∀ c : Bool, Local x (fun s => if c then f s else g s) := by
  intro c
  cases c with
  | true => exact hf
  | false => exact hg
 exact Local.settled hp hchoice

theorem Local.drop (hf : Local x f) (n : ℕ) : Local x (fun s => f (s.drop n)) where
 rest s := (hf.rest _).trans (drop_suffix n s)
 stable u t h := by
  have hle := (hf.rest ((u ++ x :: t).drop n)).length_le
  rw [length_drop, length_append, length_cons] at hle
  have hn : n ≤ u.length := by omega
  have hdrop : ∀ t, (u ++ x :: t).drop n = u.drop n ++ x :: t := fun t => drop_append_of_le_length hn
  rw [hdrop] at h
  obtain ⟨y, hy⟩ := hf.stable (u.drop n) t h
  exact ⟨y, fun t' => by rw [hdrop, hdrop, hy t']⟩

variable {p : σ → Bool}

theorem dropWhile_stop (hx : p x = false) (u t : List σ) :
  (u ++ x :: t).dropWhile p = u.dropWhile p ++ x :: t := by
 induction u with
 | nil => rw [nil_append, dropWhile_cons, hx, if_neg (by simp), dropWhile_nil, nil_append]
 | cons c u ih =>
  rw [cons_append, dropWhile_cons, dropWhile_cons]
  split_ifs
  · exact ih
  · rfl

theorem prefix_before {w u t : List σ} (hx : x ∉ w) (h : w <+: u ++ x :: t) : w <+: u := by
 have hu : u <+: u ++ x :: t := prefix_append u _
 obtain hle | hle := prefix_or_prefix_of_prefix h hu
 · exact hle
 · obtain ⟨v, rfl⟩ := hle
   cases v with
   | nil => rw [append_nil]
   | cons c v =>
    rw [prefix_append_right_inj, cons_prefix_cons] at h
    exact absurd (mem_append_right u (h.1 ▸ mem_cons_self)) hx

theorem append_cons_first {u v t t' : List σ} (hu : x ∉ u) (hv : x ∉ v) (h : u ++ x :: t = v ++ x :: t') :
  u = v ∧ t = t' := by
 have huv : u <+: v := prefix_before hu (h ▸ prefix_append u _)
 have hvu : v <+: u := prefix_before hv (h ▸ prefix_append v _)
 obtain rfl := huv.eq_of_length_le hvu.length_le
 exact ⟨rfl, (List.cons.inj (append_cancel_left h)).2⟩

theorem Local.dropWhile (hf : Local x f) (hx : p x = false) :
  Local x (fun s => f (s.dropWhile p)) where
 rest s := (hf.rest _).trans (dropWhile_suffix p)
 stable u t h := by
  rw [dropWhile_stop hx] at h
  obtain ⟨y, hy⟩ := hf.stable (u.dropWhile p) t h
  exact ⟨y, fun t' => by rw [dropWhile_stop hx, dropWhile_stop hx, hy t']⟩

theorem Local.map (hf : Local x f) (g : α → β) : Local x (fun s => (g (f s).1, (f s).2)) :=
 hf.bind fun a => .pure x (g a)

theorem settled_head (x : σ) : Settled x (List.head? : List σ → Option σ) := by
 intro u t t'
 cases u <;> rfl

theorem Settled.comp {δ : Type} {p : List σ → γ} (hp : Settled x p) (g : γ → δ) : Settled x (fun s => g (p s)) :=
 fun u t t' => congrArg g (hp u t t')

theorem Settled.both {δ ε : Type} {p : List σ → γ} {q : List σ → δ} (hp : Settled x p) (hq : Settled x q)
  (g : γ → δ → ε) : Settled x (fun s => g (p s) (q s)) := by
 intro u t t'
 dsimp only
 rw [hp u t t', hq u t t']

theorem Settled.ite {p : List σ → Bool} {f g : List σ → γ} (hp : Settled x p) (hf : Settled x f) (hg : Settled x g) :
  Settled x (fun s => if p s then f s else g s) := by
 intro u t t'
 dsimp only
 rw [hp u t t', hf u t t', hg u t t']

def headIs (p : σ → Bool) (s : List σ) : Bool := s.head?.any p

theorem settled_headIs (x : σ) (p : σ → Bool) : Settled x (headIs p) := (settled_head x).comp _

theorem Settled.after {q : List σ → Bool} (hq : Settled x q) (hx : p x = false) :
  Settled x (fun s => headIs p s && q (s.drop 1)) := by
 intro u t t'
 cases u with
 | nil => simp [headIs, hx]
 | cons c u => exact congrArg (headIs p (c :: u) && ·) (hq u t t')

theorem settled_dropWhile {q : List σ → γ} (hq : Settled x q) (hx : p x = false) :
  Settled x (fun s => q (s.dropWhile p)) := by
 intro u t t'
 dsimp only
 rw [dropWhile_stop hx, dropWhile_stop hx]
 exact hq _ t t'

theorem settled_takeWhile (hx : p x = false) : Settled x (List.takeWhile p) := by
 intro u t t'
 induction u with
 | nil => rw [nil_append, nil_append, takeWhile_cons, takeWhile_cons, hx]; rfl
 | cons c u ih => rw [cons_append, cons_append, takeWhile_cons, takeWhile_cons, ih]

theorem settled_isPrefixOf [BEq σ] [LawfulBEq σ] {w : List σ} (hx : x ∉ w) : Settled x w.isPrefixOf := by
 intro u t t'
 induction w generalizing u with
 | nil => rfl
 | cons c w ih =>
  rw [mem_cons, not_or] at hx
  cases u with
  | nil =>
   have hc : (c == x) = false := beq_eq_false_iff_ne.mpr (Ne.symm hx.1)
   simp [List.isPrefixOf, hc]
  | cons d u => exact congrArg ((c == d) && ·) (ih hx.2 u)

theorem settled_isEmpty (x : σ) : Settled x (List.isEmpty : List σ → Bool) := by
 intro u t t'
 cases u <;> rfl

/-! ## What was read -/

def taken (s rest : List σ) : List σ := s.take (s.length - rest.length)

variable {s : List σ}

theorem taken_append {rest : List σ} (h : rest <:+ s) : taken s rest ++ rest = s := by
 obtain ⟨u, rfl⟩ := h
 rw [taken, length_append, Nat.add_sub_cancel, take_left]

theorem Local.taken (hf : Local x f) :
  Local x (fun s => (((f s).1, taken s (f s).2), (f s).2)) where
 rest s := hf.rest s
 stable u t h := by
  obtain ⟨y, hy⟩ := hf.stable u t h
  have hread : (f (u ++ x :: t)).2 = y ++ x :: t := by rw [hy t]
  have hle := (hf.rest (u ++ x :: t)).length_le
  rw [hread, length_append, length_append, length_cons] at hle
  have htaken : ∀ t, TextReaders.taken (u ++ x :: t) (y ++ x :: t) = u.take (u.length - y.length) := by
   intro t
   rw [TextReaders.taken, length_append, length_append, Nat.add_sub_add_right]
   exact take_append_of_le_length (Nat.sub_le _ _)
  refine ⟨y, fun t' => ?_⟩
  dsimp only
  rw [hy t', hread, htaken, htaken]

/-! ## Reading on and on -/

variable {δ : Type}

/-- Readings as long as the text and the state say to go on, each giving the next state. It stops
where a reading takes nothing off the text; `fuel` bounds the number of readings. -/
def manyOf (go : δ → List σ → Bool) (step : δ → Reads σ (α × δ)) : ℕ → δ → Reads σ (List α)
 | 0, _, s => ([], s)
 | fuel + 1, d, s =>
  if go d s ∧ (step d s).2.length < s.length then
   let later := manyOf go step fuel (step d s).1.2 (step d s).2
   ((step d s).1.1 :: later.1, later.2)
  else ([], s)

def many (go : δ → List σ → Bool) (step : δ → Reads σ (α × δ)) (d : δ) : Reads σ (List α) :=
 fun s => manyOf go step (s.length + 1) d s

theorem manyOf_fuel (go : δ → List σ → Bool) (step : δ → Reads σ (α × δ)) {fuel fuel' : ℕ} {d : δ}
  (h : s.length < fuel) (h' : s.length < fuel') : manyOf go step fuel d s = manyOf go step fuel' d s := by
 induction fuel generalizing fuel' d s with
 | zero => omega
 | succ fuel ih =>
  cases fuel' with
  | zero => omega
  | succ fuel' =>
   rw [manyOf, manyOf]
   by_cases hgo : go d s ∧ (step d s).2.length < s.length
   · rw [if_pos hgo, if_pos hgo, @ih _ fuel' _ (by omega) (by omega)]
   · rw [if_neg hgo, if_neg hgo]

theorem many_eq (go : δ → List σ → Bool) (step : δ → Reads σ (α × δ)) (d : δ) (s : List σ) : many go step d s =
  if go d s ∧ (step d s).2.length < s.length then
   ((step d s).1.1 :: (many go step (step d s).1.2 (step d s).2).1, (many go step (step d s).1.2 (step d s).2).2)
  else ([], s) := by
 rw [many, manyOf]
 by_cases hgo : go d s ∧ (step d s).2.length < s.length
 · rw [if_pos hgo, if_pos hgo, many, manyOf_fuel go step (show (step d s).2.length < s.length by omega) (Nat.lt_succ_self _)]
 · rw [if_neg hgo, if_neg hgo]

theorem many_rest {go : δ → List σ → Bool} {step : δ → Reads σ (α × δ)} (h : ∀ d s, (step d s).2 <:+ s) (d : δ) (s : List σ) :
  (many go step d s).2 <:+ s := by
 induction hn : s.length using Nat.strong_induction_on generalizing d s with
 | _ n ih =>
  rw [many_eq]
  by_cases hgo : go d s ∧ (step d s).2.length < s.length
  · rw [if_pos hgo]
    exact (ih _ (hn ▸ hgo.2) _ _ rfl).trans (h d s)
  · rw [if_neg hgo]

variable {go : δ → List σ → Bool}

theorem many_ends {step : δ → Reads σ (α × δ)} (h : ∀ d s, go d s = true → (step d s).2.length < s.length)
  (d : δ) (s : List σ) : ∃ d', go d' (many go step d s).2 = false := by
 induction hn : s.length using Nat.strong_induction_on generalizing d s with
 | _ n ih =>
  rw [many_eq]
  cases hgo : go d s with
  | true =>
   rw [if_pos ⟨rfl, h d s hgo⟩]
   exact ih _ (hn ▸ h d s hgo) _ _ rfl
  | false =>
   rw [if_neg fun hon => Bool.false_ne_true hon.1]
   exact ⟨d, hgo⟩

theorem many_taken {step : δ → Reads σ (α × δ)} {source : α → List σ}
  (h : ∀ d s, source (step d s).1.1 ++ (step d s).2 = s) (d : δ) (s : List σ) :
  (many go step d s).1.flatMap source ++ (many go step d s).2 = s := by
 induction hn : s.length using Nat.strong_induction_on generalizing d s with
 | _ n ih =>
  rw [many_eq]
  by_cases hgo : go d s ∧ (step d s).2.length < s.length
  · rw [if_pos hgo, flatMap_cons, append_assoc, ih _ (hn ▸ hgo.2) _ _ rfl]
    exact h d s
  · rw [if_neg hgo, flatMap_nil, nil_append]

theorem many_mem {step : δ → Reads σ (α × δ)} {a : α} {d : δ} (h : a ∈ (many go step d s).1) :
  ∃ d' s', a = (step d' s').1.1 := by
 induction hn : s.length using Nat.strong_induction_on generalizing d s with
 | _ n ih =>
  rw [many_eq] at h
  by_cases hgo : go d s ∧ (step d s).2.length < s.length
  · rw [if_pos hgo] at h
    cases mem_cons.mp h with
    | inl heq => exact ⟨d, s, heq⟩
    | inr hlater => exact ih _ (hn ▸ hgo.2) hlater rfl
  · rw [if_neg hgo] at h
    cases h

theorem Local.many {step : δ → Reads σ (α × δ)} (hgo : ∀ d, Settled x (go d))
  (h : ∀ d, Local x (step d)) (d : δ) : Local x (many go step d) := by
 have hrest := @many_rest σ α δ go step fun d => (h d).rest
 refine ⟨hrest d, fun u t => ?_⟩
 induction hn : u.length using Nat.strong_induction_on generalizing d u with
 | _ n ih =>
  intro hlt
  by_cases hon : go d (u ++ x :: t) ∧ (step d (u ++ x :: t)).2.length < (u ++ x :: t).length
  · have hlong : t.length < (step d (u ++ x :: t)).2.length := by
     rw [many_eq, if_pos hon] at hlt
     exact hlt.trans_le (hrest _ _).length_le
    obtain ⟨y, hy⟩ := (h d).stable u t hlong
    have hshort : y.length < u.length := by
     have hlen := hon.2
     rw [hy t, length_append, length_append] at hlen
     omega
    have hread : ∀ t', TextReaders.many go step d (u ++ x :: t') =
      ((step d (u ++ x :: t)).1.1 :: (TextReaders.many go step (step d (u ++ x :: t)).1.2 (y ++ x :: t')).1,
       (TextReaders.many go step (step d (u ++ x :: t)).1.2 (y ++ x :: t')).2) := by
     intro t'
     rw [many_eq, hy t', if_pos]
     refine ⟨hgo d u t t' ▸ hon.1, ?_⟩
     rw [length_append, length_append]
     omega
    rw [hread] at hlt
    obtain ⟨z, hz⟩ := ih y.length (hn ▸ hshort) _ y rfl hlt
    refine ⟨z, fun t' => ?_⟩
    rw [hread, hread, hz t']
  · have hoff : ∀ t', ¬ (go d (u ++ x :: t') ∧ (step d (u ++ x :: t')).2.length < (u ++ x :: t').length) := by
     intro t' hon'
     have hgot : go d (u ++ x :: t) = true := hgo d u t' t ▸ hon'.1
     -- a reading that takes nothing leaves the symbol unread, so it takes nothing before any other text
     have hlong : t.length < (step d (u ++ x :: t)).2.length := by
      have hlen := not_lt.mp fun hlt => hon ⟨hgot, hlt⟩
      rw [length_append, length_cons] at hlen
      omega
     obtain ⟨y, hy⟩ := (h d).stable u t hlong
     have hlen := hon'.2
     have hsame := not_lt.mp fun hlt => hon ⟨hgot, hlt⟩
     rw [hy t', length_append, length_append] at hlen
     rw [hy t, length_append, length_append] at hsame
     simp only [length_cons] at hlen hsame
     omega
    have hread : ∀ t', TextReaders.many go step d (u ++ x :: t') = ([], u ++ x :: t') := by
     intro t'
     rw [many_eq, if_neg (hoff t')]
    exact ⟨u, fun t' => by rw [hread, hread]⟩

def repeated (go : List σ → Bool) (step : Reads σ α) : Reads σ (List α) :=
 many (fun _ : Unit => go) (fun _ s => (((step s).1, ()), (step s).2)) ()

theorem repeated_eq (go : List σ → Bool) (step : Reads σ α) (s : List σ) : repeated go step s =
  if go s ∧ (step s).2.length < s.length then
   ((step s).1 :: (repeated go step (step s).2).1, (repeated go step (step s).2).2)
  else ([], s) :=
 many_eq _ _ () s

theorem Local.repeated {go : List σ → Bool} {step : Reads σ α} (hgo : Settled x go) (h : Local x step) :
  Local x (repeated go step) :=
 Local.many (fun _ => hgo) (fun _ => h.map fun a => (a, ())) ()

/-! ## One symbol -/

def one [Inhabited σ] : Reads σ σ := fun s => (s.head?.getD default, s.drop 1)

theorem local_one [Inhabited σ] (x : σ) : Local x (one : Reads σ σ) where
 rest s := drop_suffix 1 s
 stable u t h := by
  cases u with
  | nil => exact absurd h (lt_irrefl _)
  | cons c u => exact ⟨u, fun _ => rfl⟩

end MoltBrowser.TextReaders
