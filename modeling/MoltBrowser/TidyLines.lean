import Mathlib

set_option autoImplicit false

/-!
# Lines laid out from a text

A text is read turn by turn: each turn takes letters off its front and shows a
sign, or leaves a gap. Gaps become one blank between two signs.
-/
namespace MoltBrowser.TidyLines
open List

variable {α β : Type*} {blank ellipsis a : α} {Sign : α → Prop} {l shown : List α} {max : ℕ}

/-- `gap`: a blank is due before the next sign. -/
structure Line (α : Type*) where
 shown : List α := []
 gap : Bool := false

def Line.lay (blank : α) (line : Line α) : Option α → Line α
 | none => { line with gap := !line.shown.isEmpty }
 | some a => { shown := line.shown ++ (if line.gap then [blank, a] else [a]) }

/-- A turn gives the letters it takes, at least one, and what it shows; the text is left where it
stands when there is no room. -/
def layOut (turn : List β → ℕ × Option α) (room : ℕ → Bool) (blank : α) (line : Line α) :
  List β → Line α
 | [] => line
 | b :: s =>
  if room line.shown.length then
   layOut turn room blank (line.lay blank (turn (b :: s)).2) (s.drop ((turn (b :: s)).1 - 1))
  else line
termination_by s => s.length
decreasing_by simp only [length_drop, length_cons]; omega

/-- At most `max` signs and blanks, the last one an ellipsis if some are left out. -/
def cut [DecidableEq α] (blank ellipsis : α) (max : ℕ) (l : List α) : List α :=
 if max < l.length then (l.take (max - 1)).rdropWhile (· = blank) ++ [ellipsis] else l

structure Tidy (blank : α) (l : List α) : Prop where
 start : l.head? ≠ some blank
 finish : l.getLast? ≠ some blank
 single : l.IsChain fun a b => ¬(a = blank ∧ b = blank)

theorem Tidy.nil : Tidy blank [] := ⟨by simp, by simp, .nil⟩

theorem Tidy.concat (h : Tidy blank l) (ha : a ≠ blank) : Tidy blank (l ++ [a]) where
 start := by
  cases l with
  | nil => simpa using ha
  | cons b l => exact h.start
 finish := by simpa using ha
 single := isChain_append.2 ⟨h.single, .singleton a, by simpa using fun _ _ _ => ha⟩

theorem Tidy.concat_blank (h : Tidy blank l) (hne : l ≠ []) (ha : a ≠ blank) :
  Tidy blank (l ++ [blank, a]) where
 start := by
  cases l with
  | nil => exact absurd rfl hne
  | cons b l => exact h.start
 finish := by simpa using ha
 single := by
  refine isChain_append.2 ⟨h.single, by simpa using ha, fun x hx y _ hxy => ?_⟩
  rw [hxy.1] at hx
  exact h.finish hx

/-- What a line shows is tidy, and no blank is due at its start. -/
structure Line.Neat (blank : α) (Sign : α → Prop) (line : Line α) : Prop where
 tidy : Tidy blank line.shown
 due : line.gap = true → line.shown ≠ []
 signs : ∀ a ∈ line.shown, a = blank ∨ Sign a

theorem Line.Neat.new : ({} : Line α).Neat blank Sign := ⟨.nil, by simp, by simp⟩

theorem Line.Neat.lay {line : Line α} (h : line.Neat blank Sign) {item : Option α}
  (hitem : ∀ a ∈ item, a ≠ blank ∧ Sign a) : (line.lay blank item).Neat blank Sign := by
 cases item with
 | none => exact ⟨h.tidy, fun hgap => by simpa [Line.lay] using hgap, h.signs⟩
 | some a =>
  obtain ⟨ha, hsign⟩ := hitem a rfl
  cases hgap : line.gap with
  | false =>
   simp only [Line.lay, hgap, Bool.false_eq_true, if_false]
   refine ⟨h.tidy.concat ha, by simp, fun b hb => ?_⟩
   rcases mem_append.1 hb with hb | hb
   · exact h.signs b hb
   · exact .inr (by rwa [mem_singleton.1 hb])
  | true =>
   simp only [Line.lay, hgap, if_true]
   refine ⟨h.tidy.concat_blank (h.due hgap) ha, by simp, fun b hb => ?_⟩
   rcases mem_append.1 hb with hb | hb
   · exact h.signs b hb
   · simp only [mem_cons, not_mem_nil, or_false] at hb
     exact hb.imp_right fun hb => by rwa [hb]

section Turns

variable {turn : List β → ℕ × Option α} {room : ℕ → Bool}

theorem neat_layOut (hturn : ∀ s, ∀ a ∈ (turn s).2, a ≠ blank ∧ Sign a) {line : Line α}
  (h : line.Neat blank Sign) (s : List β) : (layOut turn room blank line s).Neat blank Sign := by
 fun_induction layOut turn room blank line s with
 | case1 => exact h
 | case2 line b s _ ih => exact ih (h.lay (hturn _))
 | case3 => exact h

theorem length_layOut_first (hroom : ∀ n, room n = true → n = 0)
  (hturn : ∀ s, ∀ a ∈ (turn s).2, a ≠ blank ∧ Sign a) {line : Line α} (h : line.Neat blank Sign)
  (hlen : line.shown.length ≤ 1) (s : List β) :
  (layOut turn room blank line s).shown.length ≤ 1 := by
 fun_induction layOut turn room blank line s with
 | case1 => exact hlen
 | case2 line b s hfree ih =>
  refine ih (h.lay (hturn _)) ?_
  have hempty : line.shown = [] := length_eq_zero_iff.1 (hroom _ hfree)
  have hgap : line.gap = false := Bool.eq_false_iff.2 fun hgap => h.due hgap hempty
  cases (turn (b :: s)).2 with
  | none => simp [Line.lay, hempty]
  | some a => simp [Line.lay, hempty, hgap]
 | case3 => exact hlen

/-- Signs and blanks as a turn reads them from how they are spelled. -/
structure Spelling (turn : List β → ℕ × Option α) (blank : α) (Sign : α → Prop)
  (spell : α → List β) : Prop where
 nonempty : ∀ a, a = blank ∨ Sign a → spell a ≠ []
 sign : ∀ a, Sign a → ∀ rest, turn (spell a ++ rest) = ((spell a).length, some a)
 gap : ∀ rest, turn (spell blank ++ rest) = ((spell blank).length, none)

variable {spell : α → List β}

theorem layOut_turn {s : List β} {item : Option α} {rest : List β} {line : Line α} (hs : s ≠ [])
  (hroom : room line.shown.length = true) (hturn : turn (s ++ rest) = (s.length, item)) :
  layOut turn room blank line (s ++ rest) =
   layOut turn room blank (line.lay blank item) rest := by
 cases s with
 | nil => exact absurd rfl hs
 | cons b s =>
  rw [cons_append] at hturn ⊢
  rw [layOut, if_pos hroom, hturn, length_cons, Nat.add_sub_cancel, drop_left]

/-- From the middle of a line on: no blank is due, and the next sign or blank may stand here. -/
theorem layOut_rest (hs : Spelling turn blank Sign spell) (hsigns : ∀ a ∈ l, a = blank ∨ Sign a)
  (hstart : shown = [] → l.head? ≠ some blank) (hfinish : l.getLast? ≠ some blank)
  (hsingle : l.IsChain fun a b => ¬(a = blank ∧ b = blank))
  (hroom : ∀ n < shown.length + l.length, room n = true) :
  layOut turn room blank { shown } (l.flatMap spell) = { shown := shown ++ l } := by
 induction hlen : l.length using Nat.strong_induction_on generalizing l shown with
 | _ k ih =>
  have hfront : shown.length < shown.length + l.length → room shown.length = true := hroom _
  match l, hsigns, hstart, hfinish, hsingle with
  | [], _, _, _, _ => rw [flatMap_nil, layOut, append_nil]
  | a :: l, hsigns, hstart, hfinish, hsingle =>
   rw [length_cons] at hfront hlen hroom
   rw [flatMap_cons]
   by_cases ha : a = blank
   · -- A blank stands between two signs: the gap, then the sign that shows it.
     subst ha
     match l, hsigns, hfinish, hsingle with
     | [], _, hfinish, _ => exact absurd rfl hfinish
     | b :: l, hsigns, hfinish, hsingle =>
      have hshown : shown ≠ [] := fun h => hstart h rfl
      rw [isChain_cons_cons] at hsingle
      obtain ⟨hab, hsingle⟩ := hsingle
      have hb : Sign b := (hsigns b (by simp)).resolve_left fun hb => hab ⟨rfl, hb⟩
      rw [length_cons] at hlen hroom
      rw [layOut_turn (hs.nonempty a (.inl rfl)) (hfront (by omega)) (hs.gap _),
       flatMap_cons,
       layOut_turn (hs.nonempty b (.inr hb)) (hfront (by omega)) (hs.sign b hb _)]
      have hline : (({ shown } : Line α).lay a none).lay a (some b) =
        { shown := shown ++ [a, b] } := by
       simp [Line.lay, hshown]
      have hlast : l.getLast? ≠ some a := fun h => hfinish (by
       rw [getLast?_cons_cons, getLast?_cons, h]
       rfl)
      have hmore : ∀ n < (shown ++ [a, b]).length + l.length, room n = true := fun n hn =>
       hroom n (by simp only [length_append, length_cons, length_nil] at hn; omega)
      rw [hline, ih l.length (by omega) (fun c hc => hsigns c (by simp [hc])) (by simp) hlast
       hsingle.of_cons hmore rfl]
      simp
   · have hsign : Sign a := (hsigns a (by simp)).resolve_left ha
     rw [layOut_turn (hs.nonempty a (.inr hsign)) (hfront (by omega)) (hs.sign a hsign _)]
     have hline : ({ shown } : Line α).lay blank (some a) = { shown := shown ++ [a] } := by
      simp [Line.lay]
     have hlast : l.getLast? ≠ some blank := fun h => hfinish (by
      rw [getLast?_cons, h]
      rfl)
     have hmore : ∀ n < (shown ++ [a]).length + l.length, room n = true := fun n hn =>
      hroom n (by simp only [length_append, length_singleton] at hn; omega)
     rw [hline, ih l.length (by omega) (fun c hc => hsigns c (by simp [hc])) (by simp) hlast
      hsingle.of_cons hmore rfl]
     simp

theorem layOut_spelled (hs : Spelling turn blank Sign spell) (hl : Tidy blank l)
  (hsigns : ∀ a ∈ l, a = blank ∨ Sign a) (hroom : ∀ n < l.length, room n = true) :
  layOut turn room blank {} (l.flatMap spell) = { shown := l } := by
 have h : layOut turn room blank { shown := [] } (l.flatMap spell) = { shown := [] ++ l } :=
  layOut_rest hs hsigns (fun _ => hl.start) hl.finish hl.single (by simpa using hroom)
 rwa [nil_append] at h

end Turns

section Cut

variable [DecidableEq α]

theorem cut_of_le (h : l.length ≤ max) : cut blank ellipsis max l = l := if_neg (by omega)

theorem length_cut (hmax : 0 < max) : (cut blank ellipsis max l).length ≤ max := by
 rw [cut]
 split_ifs with hlong
 · have htrim := (List.rdropWhile_prefix (· = blank) (l.take (max - 1))).length_le
   rw [length_take] at htrim
   rw [length_append, length_singleton]
   omega
 · omega

theorem Tidy.cut (h : Tidy blank l) (hne : ellipsis ≠ blank) :
  Tidy blank (cut blank ellipsis max l) := by
 rw [TidyLines.cut]
 split_ifs with hlong
 · have hprefix : (l.take (max - 1)).rdropWhile (· = blank) <+: l :=
    (List.rdropWhile_prefix _ _).trans (List.take_prefix ..)
   refine Tidy.concat ⟨fun hstart => h.start ?_, fun hlast => ?_, h.single.prefix hprefix⟩ hne
   · obtain ⟨rest, hrest⟩ := hprefix
     rw [← hrest, head?_append, hstart, Option.some_or]
   · have hsome := getLast?_eq_some_getLast (ne_nil_of_mem (mem_of_getLast? hlast))
     have hlast' := rdropWhile_last_not (· = blank) _
      (ne_nil_of_mem (mem_of_getLast? hlast))
     rw [hsome, Option.some.injEq] at hlast
     exact hlast' (by simpa using hlast)
 · exact h

theorem signs_cut (hsigns : ∀ a ∈ l, a = blank ∨ Sign a) (hellipsis : Sign ellipsis) :
  ∀ a ∈ cut blank ellipsis max l, a = blank ∨ Sign a := by
 intro a ha
 rw [cut] at ha
 split_ifs at ha with hlong
 · rcases mem_append.1 ha with ha | ha
   · exact hsigns a (mem_of_mem_take ((List.rdropWhile_prefix _ _).subset ha))
   · exact .inr (by rwa [mem_singleton.1 ha])
 · exact hsigns a ha

end Cut

/-- What is laid out and cut is short and tidy, and laid out and cut again it stays as it is. -/
theorem normal_form [DecidableEq α] {turn : List β → ℕ × Option α} {room : ℕ → Bool}
  {spell : α → List β} (hs : Spelling turn blank Sign spell)
  (hturn : ∀ s, ∀ a ∈ (turn s).2, a ≠ blank ∧ Sign a) (hellipsis : ellipsis ≠ blank ∧ Sign ellipsis)
  (hmax : 0 < max) (s : List β)
  (hroom : ∀ n < (cut blank ellipsis max (layOut turn room blank {} s).shown).length,
   room n = true) :
  let line := cut blank ellipsis max (layOut turn room blank {} s).shown
  line.length ≤ max ∧ Tidy blank line ∧ (∀ a ∈ line, a = blank ∨ Sign a) ∧
   cut blank ellipsis max (layOut turn room blank {} (line.flatMap spell)).shown = line := by
 have hneat : (layOut turn room blank {} s).Neat blank Sign := neat_layOut hturn .new s
 intro line
 have hlen : line.length ≤ max := length_cut hmax
 have htidy : Tidy blank line := hneat.tidy.cut hellipsis.1
 have hsigns : ∀ a ∈ line, a = blank ∨ Sign a := signs_cut hneat.signs hellipsis.2
 refine ⟨hlen, htidy, hsigns, ?_⟩
 rw [layOut_spelled hs htidy hsigns hroom]
 exact cut_of_le hlen

theorem Tidy.of_map {γ : Type*} {f : γ → α} {b : γ} {l : List γ} (h : Tidy (f b) (l.map f)) :
  Tidy b l where
 start hl := h.start (by rw [head?_map, hl, Option.map_some])
 finish hl := h.finish (by rw [getLast?_map, hl, Option.map_some])
 single := ((isChain_map f).1 h.single).imp fun x y hxy hblank =>
  hxy ⟨congrArg f hblank.1, congrArg f hblank.2⟩

theorem exists_map {γ : Type*} {f : γ → α} {Q : γ → Prop} (h : ∀ a ∈ l, ∃ c, a = f c ∧ Q c) :
  ∃ line : List γ, l = line.map f ∧ ∀ c ∈ line, Q c := by
 induction l with
 | nil => exact ⟨[], rfl, by simp⟩
 | cons a l ih =>
  obtain ⟨c, rfl, hc⟩ := h a (mem_cons_self ..)
  obtain ⟨line, rfl, hline⟩ := ih fun b hb => h b (mem_cons_of_mem _ hb)
  exact ⟨c :: line, rfl, forall_mem_cons.2 ⟨hc, hline⟩⟩

end MoltBrowser.TidyLines
