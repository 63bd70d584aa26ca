import Mathlib

set_option autoImplicit false

/-!
# Walks through a list that grows

A walk goes through a list item by item. It may go back to after an item that it left a frame at,
as often as the frame says, and an item may put new ones after itself. When what an item puts in
ranks below it, no walk goes on for ever.
-/
namespace MoltBrowser.GrowingWalks
open List

structure Frame where
 start : ℕ
 remaining : ℤ

/-- `attempts` counts the steps that stayed at the item at hand. -/
structure Walk (β : Type*) where
 items : List β
 index : ℕ
 frames : List Frame
 attempts : ℕ

variable {β : Type*}

/-- The frames after a step forward: as they were, without the last, or with one for this item. -/
def Forward (w : Walk β) (frames : List Frame) : Prop :=
 frames = w.frames ∨ frames = w.frames.tail ∨ ∃ n, frames = ⟨w.index, n⟩ :: w.frames

inductive Step (rank limit : β → ℕ) (w : Walk β) : Walk β → Prop
 | stay {x : β} : w.items[w.index]? = some x → w.attempts < limit x →
   Step rank limit w { w with attempts := w.attempts + 1 }
 | next {x : β} {frames : List Frame} (n : ℕ) : w.items[w.index]? = some x → Forward w frames →
   Step rank limit w { w with index := w.index + 1, frames := frames, attempts := n }
 | jump {x : β} {f : Frame} {frames : List Frame} (n : ℕ) : w.items[w.index]? = some x →
   w.frames = f :: frames → 1 < f.remaining →
   Step rank limit w { w with
    index := f.start + 1
    frames := { f with remaining := f.remaining - 1 } :: frames
    attempts := n }
 | grow {x : β} {new : List β} (n : ℕ) : w.items[w.index]? = some x → (∀ y ∈ new, rank y < rank x) →
   Step rank limit w { w with
    items := w.items.take (w.index + 1) ++ (new ++ w.items.drop (w.index + 1))
    index := w.index + 1
    attempts := n }

/-! ## Items before the index -/

section Steps

variable {rank limit : β → ℕ} {w w' : Walk β} {b : ℕ}

theorem Step.item (h : Step rank limit w w') : ∃ x, w.items[w.index]? = some x := by
 cases h with
 | stay hx => exact ⟨_, hx⟩
 | next n hx => exact ⟨_, hx⟩
 | jump n hx => exact ⟨_, hx⟩
 | grow n hx => exact ⟨_, hx⟩

theorem split_at {l : List β} {i : ℕ} {x : β} (h : l[i]? = some x) :
  i < l.length ∧ l = l.take i ++ x :: l.drop (i + 1) := by
 obtain ⟨hlt, hget⟩ := List.getElem?_eq_some_iff.1 h
 refine ⟨hlt, ?_⟩
 rw [← hget, ← drop_eq_getElem_cons hlt, take_append_drop]

theorem Step.take_eq (h : Step rank limit w w') (hb : b ≤ w.index) :
  w'.items.take (b + 1) = w.items.take (b + 1) := by
 cases h with
 | stay => rfl
 | next => rfl
 | jump => rfl
 | grow n hx hnew =>
  have hlt := (split_at hx).1
  dsimp only
  rw [take_append_of_le_length, take_take, Nat.min_eq_left (Nat.succ_le_succ hb)]
  rw [length_take]
  omega

/-- The items of rank `M` before the first one above. -/
def pending (rank : β → ℕ) (M : ℕ) : List β → ℕ
 | [] => 0
 | x :: l => if rank x ≤ M then (if rank x = M then 1 else 0) + pending rank M l else 0

theorem pending_low {rank : β → ℕ} {M : ℕ} {low : List β} (hlow : ∀ x ∈ low, rank x < M) (l : List β) :
  pending rank M (low ++ l) = pending rank M l := by
 induction low with
 | nil => rfl
 | cons x low ih =>
  have hx := hlow x (mem_cons_self ..)
  rw [cons_append, pending, if_pos (Nat.le_of_lt hx), if_neg (Nat.ne_of_lt hx), Nat.zero_add]
  exact ih fun y hy => hlow y (mem_cons_of_mem x hy)

theorem pending_put {rank : β → ℕ} (M : ℕ) {x : β} {new : List β} (hnew : ∀ y ∈ new, rank y < rank x)
  (l front : List β) : pending rank M (front ++ x :: (new ++ l)) = pending rank M (front ++ x :: l) := by
 induction front with
 | nil =>
  rw [nil_append, nil_append, pending, pending]
  by_cases hx : rank x ≤ M
  · rw [if_pos hx, if_pos hx, pending_low fun y hy => Nat.lt_of_lt_of_le (hnew y hy) hx]
  · rw [if_neg hx, if_neg hx]
 | cons y front ih =>
  rw [cons_append, cons_append, pending, pending, ih]

theorem Step.pending_eq (h : Step rank limit w w') (hb : b ≤ w.index) (M : ℕ) :
  pending rank M (w'.items.drop b) = pending rank M (w.items.drop b) := by
 cases h with
 | stay => rfl
 | next => rfl
 | jump => rfl
 | @grow x new n hx hnew =>
  obtain ⟨hlt, hsplit⟩ := split_at hx
  have htake : w.items.take (w.index + 1) = w.items.take w.index ++ [x] := by
   rw [take_add_one, hx]
   rfl
  have hdrop : ∀ l, (w.items.take w.index ++ x :: l).drop b = (w.items.take w.index).drop b ++ x :: l := by
   intro l
   rw [drop_append_of_le_length]
   rw [length_take]
   omega
  dsimp only
  rw [htake, append_assoc, singleton_append, hdrop, pending_put M hnew, ← hdrop, ← hsplit]

/-! ## Turns at one place -/

/-- How often the frames can bring the walk back to `b`, and how often it can stay there. -/
def returns (b : ℕ) (frames : List Frame) : ℕ :=
 (frames.map fun f => if f.start + 1 = b then f.remaining.toNat else 0).sum

def stays (limit : β → ℕ) (b : ℕ) (w : Walk β) : ℕ :=
 if w.index = b then
  match w.items[b]? with
  | some x => limit x - w.attempts + 1
  | none => 0
 else 0

def turns (limit : β → ℕ) (b : ℕ) (w : Walk β) : ℕ ×ₗ ℕ := toLex (returns b w.frames, stays limit b w)

theorem returns_forward {frames : List Frame} (h : Forward w frames) (hb : b ≤ w.index) :
  returns b frames ≤ returns b w.frames := by
 rcases h with rfl | rfl | ⟨n, rfl⟩
 · exact le_rfl
 · cases w.frames with
   | nil => exact le_rfl
   | cons f frames => exact Nat.le_add_left _ _
 · have hne : w.index + 1 ≠ b := by omega
   simp [returns, hne]

theorem stays_pos (h : Step rank limit w w') (hb : w.index = b) : 0 < stays limit b w := by
 obtain ⟨x, hx⟩ := h.item
 rw [stays, if_pos hb, ← hb, hx]
 exact Nat.succ_pos _

theorem stays_of_ne (h : w.index ≠ b) : stays limit b w = 0 := if_neg h

theorem turns_away (hreturns : returns b w'.frames ≤ returns b w.frames) (haway : w'.index ≠ b) :
  turns limit b w' ≤ turns limit b w ∧ (0 < stays limit b w → turns limit b w' < turns limit b w) := by
 rw [turns, turns, stays_of_ne haway, Prod.Lex.toLex_le_toLex, Prod.Lex.toLex_lt_toLex]
 dsimp only
 omega

/-- No step adds to the turns left at a place the walk doesn't go below, and one taken there is used. -/
theorem Step.turns_le (h : Step rank limit w w') (hb : b ≤ w.index) :
  turns limit b w' ≤ turns limit b w ∧ (w.index = b → turns limit b w' < turns limit b w) := by
 have hpos := fun heq => @stays_pos _ _ _ _ _ b h heq
 cases h with
 | @stay x hx hlimit =>
  by_cases heq : w.index = b
  · have hless : stays limit b { w with attempts := w.attempts + 1 } < stays limit b w := by
     rw [stays, stays, if_pos heq, if_pos heq]
     dsimp only
     rw [← heq, hx]
     dsimp only
     omega
    have hlt : turns limit b { w with attempts := w.attempts + 1 } < turns limit b w := by
     rw [turns, turns, Prod.Lex.toLex_lt_toLex]
     exact .inr ⟨rfl, hless⟩
    exact ⟨hlt.le, fun _ => hlt⟩
  · exact ⟨(@turns_away _ limit w { w with attempts := w.attempts + 1 } b le_rfl heq).1, fun h => absurd h heq⟩
 | next n hx hforward =>
  have haway : w.index + 1 ≠ b := by omega
  obtain ⟨hle, hlt⟩ := @turns_away _ limit w { w with index := w.index + 1, frames := _, attempts := n } b
   (returns_forward hforward hb) haway
  exact ⟨hle, fun heq => hlt (hpos heq)⟩
 | @jump x f frames n hx hframes hmore =>
  by_cases hback : f.start + 1 = b
  · have hless : returns b ({ f with remaining := f.remaining - 1 } :: frames) < returns b w.frames := by
     rw [hframes, returns, returns, map_cons, map_cons, sum_cons, sum_cons, if_pos hback,
      if_pos hback]
     dsimp only
     omega
    have hlt : turns limit b { w with
      index := f.start + 1
      frames := { f with remaining := f.remaining - 1 } :: frames
      attempts := n } < turns limit b w := by
     rw [turns, turns, Prod.Lex.toLex_lt_toLex]
     exact .inl hless
    exact ⟨hlt.le, fun _ => hlt⟩
  · have hsame : returns b ({ f with remaining := f.remaining - 1 } :: frames) ≤ returns b w.frames := by
     rw [hframes, returns, returns, map_cons, map_cons, sum_cons, sum_cons, if_neg hback,
      if_neg hback]
    obtain ⟨hle, hlt⟩ := @turns_away _ limit w { w with
     index := f.start + 1
     frames := { f with remaining := f.remaining - 1 } :: frames
     attempts := n } b hsame hback
    exact ⟨hle, fun heq => hlt (hpos heq)⟩
 | grow n hx hnew =>
  have haway : w.index + 1 ≠ b := by omega
  obtain ⟨hle, hlt⟩ := @turns_away _ limit w { w with
   items := w.items.take (w.index + 1) ++ (_ ++ w.items.drop (w.index + 1))
   index := w.index + 1
   attempts := n } b le_rfl haway
  exact ⟨hle, fun heq => hlt (hpos heq)⟩

end Steps

/-! ## Walks without end -/

section Endless

variable {rank limit : β → ℕ} {w : ℕ → Walk β} {n b : ℕ}

/-- From the `n`th step on the walk doesn't go back below `b`. -/
def Settled (w : ℕ → Walk β) (n b : ℕ) : Prop := ∀ m, n ≤ m → b ≤ (w m).index

variable (hw : ∀ n, Step rank limit (w n) (w (n + 1)))

include hw

theorem Settled.take_eq (h : Settled w n b) {m : ℕ} (hm : n ≤ m) :
  (w m).items.take (b + 1) = (w n).items.take (b + 1) := by
 induction m, hm using Nat.le_induction with
 | base => rfl
 | succ m hm ih => exact ((hw m).take_eq (h m hm)).trans ih

theorem Settled.pending_eq (h : Settled w n b) {m : ℕ} (hm : n ≤ m) (M : ℕ) :
  pending rank M ((w m).items.drop b) = pending rank M ((w n).items.drop b) := by
 induction m, hm using Nat.le_induction with
 | base => rfl
 | succ m hm ih => exact ((hw m).pending_eq (h m hm) M).trans ih

theorem Settled.turns_le (h : Settled w n b) {m k : ℕ} (hm : n ≤ m) (hk : m ≤ k) :
  turns limit b (w k) ≤ turns limit b (w m) := by
 induction k, hk using Nat.le_induction with
 | base => exact le_rfl
 | succ k hk ih => exact ((hw k).turns_le (h k (hm.trans hk))).1.trans ih

theorem Settled.pass (h : Settled w n b) : ∃ m, n ≤ m ∧ Settled w m (b + 1) := by
 have hne : {t | ∃ m, n ≤ m ∧ turns limit b (w m) = t}.Nonempty := ⟨_, n, le_rfl, rfl⟩
 obtain ⟨m, hm, hmin⟩ := wellFounded_lt.min_mem _ hne
 refine ⟨m, hm, fun k hk => ?_⟩
 have hplace := h k (hm.trans hk)
 apply Nat.lt_of_le_of_ne hplace
 intro heq
 have hless := ((hw k).turns_le hplace).2 heq.symm
 have hmem : turns limit b (w (k + 1)) ∈ {t | ∃ m, n ≤ m ∧ turns limit b (w m) = t} := ⟨k + 1, by omega, rfl⟩
 have hleast := wellFounded_lt.not_lt_min _ hmem
 rw [← hmin] at hleast
 exact hleast (hless.trans_le (h.turns_le hw hm hk))

theorem Settled.front (h : Settled w n b) {m : ℕ} (hm : n ≤ m) {x : β} (hx : (w n).items[b]? = some x) {c : ℕ}
  (hc : b + 1 ≤ c) :
  (w m).items.take c = (w n).items.take b ++ x :: ((w m).items.take c).drop (b + 1) := by
 have htake : ((w m).items.take c).take (b + 1) = (w n).items.take b ++ [x] := by
  rw [take_take, Nat.min_eq_left hc, h.take_eq hw hm, take_add_one, hx]
  rfl
 conv_lhs => rw [← take_append_drop (b + 1) ((w m).items.take c), htake, append_assoc]
 rfl

/-- Sooner or later the walk has left behind for ever what comes before an item of rank `M` or more. -/
theorem Settled.pass_low (M : ℕ) (h : Settled w n b) : ∃ m c, n ≤ m ∧ b ≤ c ∧ Settled w m c ∧
  (∀ x ∈ ((w m).items.take c).drop b, rank x < M) ∧ ∀ x, (w m).items[c]? = some x → M ≤ rank x := by
 induction M generalizing n b with
 | zero =>
  refine ⟨n, b, le_rfl, le_rfl, h, fun x hx => ?_, fun x _ => Nat.zero_le _⟩
  rw [drop_eq_nil_of_le (length_take_le _ _)] at hx
  exact absurd hx not_mem_nil
 | succ M ih =>
  generalize hk : pending rank M ((w n).items.drop b) = k
  induction k using Nat.strong_induction_on generalizing n b with
  | _ k ihk =>
   obtain ⟨m, c, hm, hc, hset, hlow, hhead⟩ := ih h
   by_cases hmore : ∀ x, (w m).items[c]? = some x → M + 1 ≤ rank x
   · exact ⟨m, c, hm, hc, hset, fun x hx => Nat.lt_succ_of_lt (hlow x hx), hmore⟩
   · -- An item of rank `M` is next: once it is passed there is one less before the first above.
     push Not at hmore
     obtain ⟨x, hx, hrank⟩ := hmore
     have hxM : rank x = M := Nat.le_antisymm (Nat.le_of_lt_succ hrank) (hhead x hx)
     have hlen : b ≤ ((w m).items.take c).length := by
      have := (split_at hx).1
      rw [length_take]
      omega
     obtain ⟨m', hm', hset'⟩ := hset.pass hw
     have hdrop : (w m').items.drop b =
       ((w m).items.take c).drop b ++ x :: (w m').items.drop (c + 1) := by
      have hall := hset.front hw hm' hx (le_max_left (c + 1) (w m').items.length)
      rw [take_of_length_le (le_max_right _ _)] at hall
      conv_lhs => rw [hall]
      rw [drop_append_of_le_length hlen]
     have hless : pending rank M ((w m').items.drop (c + 1)) < k := by
      rw [← hk, ← h.pending_eq hw (hm.trans hm') M, hdrop, pending_low hlow, pending, if_pos hxM.le, if_pos hxM]
      omega
     obtain ⟨m'', c', hm'', hc', hset'', hlow', hhead'⟩ := ihk _ hless hset' rfl
     refine ⟨m'', c', by omega, by omega, hset'', fun y hy => ?_, hhead'⟩
     rw [hset.front hw (hm'.trans hm'') hx hc', drop_append_of_le_length hlen] at hy
     rcases mem_append.1 hy with hy | hy
     · exact Nat.lt_succ_of_lt (hlow y hy)
     · rcases mem_cons.1 hy with rfl | hy
       · exact hrank
       · exact hlow' y hy

end Endless

theorem no_endless_walk {rank limit : β → ℕ} {T : ℕ} (hT : ∀ x, rank x < T) (w : ℕ → Walk β)
  (hw : ∀ n, Step rank limit (w n) (w (n + 1))) : False := by
 have hstart : Settled w 0 0 := fun m _ => Nat.zero_le _
 obtain ⟨m, c, -, -, hset, -, hhead⟩ := hstart.pass_low hw T
 obtain ⟨x, hx⟩ := (hw m).item
 have hlen : c < (w m).items.length := (hset m le_rfl).trans_lt (split_at hx).1
 have hrank := hhead _ (getElem?_eq_getElem hlen)
 exact absurd (hT _) (Nat.not_lt.2 hrank)

end MoltBrowser.GrowingWalks
