import Mathlib

set_option autoImplicit false

/-!
# Replacing what a text must not contain

A pattern is replaced wherever it occurs by a copy of it that a separating letter breaks up.
What has no separator in it then occurs only where it did before, and the pattern not at all.
-/
namespace MoltBrowser.Rewriting
open List

variable {α : Type*}

section Replace

variable [DecidableEq α]

/-- Replaces the occurrences of `pat` in what `f` makes of the text, leftmost first. -/
@[grind =] def rewrite (f : α → α) (pat repl : List α) : List α → List α
 | [] => []
 | c :: s =>
  if pat.isPrefixOf ((c :: s).map f) then repl ++ rewrite f pat repl (s.drop (pat.length - 1))
  else c :: rewrite f pat repl s
termination_by s => s.length
decreasing_by all_goals simp only [length_drop, length_cons]; omega

end Replace

/-- `repl` is broken up by `b`, and what is left of it between comes from `pat`. -/
structure Barrier (b : α) (pat repl : List α) : Prop where
 free : b ∉ pat
 mem : b ∈ repl
 starts : ∀ x, b ∉ x → x <+: repl → x <+: pat ∧ x ≠ pat
 middle : ∀ t, t <:+ repl → b ∈ t → ∀ x, b ∉ x → x <+: t → x <:+: pat ∧ x ≠ pat
 ends : ∀ t, t <:+ repl → b ∉ t → t <:+ pat ∧ (t ≠ [] → ¬ t <+: pat)

theorem Barrier.of_parts [DecidableEq α] {b : α} {pat repl : List α} (hfree : b ∉ pat) (hmem : b ∈ repl)
  (hmiddle : ∀ t ∈ repl.tails, b ∈ t → ∀ x ∈ t.inits, b ∉ x → x <:+: pat ∧ x ≠ pat)
  (hstarts : ∀ x ∈ repl.inits, b ∉ x → x <+: pat)
  (hends : ∀ t ∈ repl.tails, b ∉ t → t <:+ pat ∧ (t ≠ [] → ¬ t <+: pat)) : Barrier b pat repl where
 free := hfree
 mem := hmem
 starts x hx h := by
  have hinit := (mem_inits _ _).2 h
  exact ⟨hstarts x hinit hx, (hmiddle repl ((mem_tails _ _).2 (suffix_refl _)) hmem x hinit hx).2⟩
 middle t ht hb x hx h := hmiddle t ((mem_tails _ _).2 ht) hb x ((mem_inits _ _).2 h) hx
 ends t ht hb := hends t ((mem_tails _ _).2 ht) hb

theorem barrier_singleton {b : α} {pat : List α} (hfree : b ∉ pat) (hne : pat ≠ []) : Barrier b pat [b] := by
 have hnil : ∀ {x t : List α}, b ∉ x → x <+: t → t <:+ [b] → x = [] := by
  intro x t hx hpre ht
  rcases suffix_cons_iff.1 ht with rfl | ht
  · rcases prefix_cons_iff.1 hpre with rfl | ⟨y, rfl, -⟩
    · rfl
    · exact absurd (mem_cons_self ..) hx
  · rw [suffix_nil.1 ht] at hpre
    exact prefix_nil.1 hpre
 refine ⟨hfree, mem_singleton_self b, fun x hx h => ?_, fun t ht _ x hx h => ?_, fun t ht hb => ?_⟩
 · rw [hnil hx h (suffix_refl _)]
   exact ⟨List.nil_prefix, hne.symm⟩
 · rw [hnil hx h ht]
   exact ⟨List.nil_infix, hne.symm⟩
 · rw [hnil hb (prefix_refl t) ht]
   exact ⟨nil_suffix, fun h => absurd rfl h⟩

theorem prefix_append_of_not_mem {b : α} {x t r : List α} (hx : b ∉ x) (ht : b ∈ t) (h : x <+: t ++ r) :
  x <+: t := by
 rcases prefix_or_prefix_of_prefix h (prefix_append t r) with hpre | hpre
 · exact hpre
 · exact absurd (hpre.subset ht) hx

theorem append_cons_split {b : α} {x u v left right : List α} (hx : b ∉ x)
  (h : u ++ x ++ v = left ++ b :: right) :
  (∃ r, left = u ++ x ++ r) ∨ ∃ r, u = left ++ b :: r ∧ right = r ++ x ++ v := by
 rcases append_eq_append_iff.1 h with ⟨r, hleft, -⟩ | ⟨r, hux, hr⟩
 · exact .inl ⟨r, hleft⟩
 · cases r with
   | nil => exact .inl ⟨[], by simpa using hux.symm⟩
   | cons c r =>
    obtain ⟨rfl, rfl⟩ := List.cons.inj hr
    rcases append_eq_append_iff.1 hux with ⟨y, -, hy⟩ | ⟨y, hu, hy⟩
    · exact absurd (hy ▸ mem_append_right y (mem_cons_self ..)) hx
    · cases y with
      | nil => exact absurd ((nil_append x ▸ hy) ▸ mem_cons_self ..) hx
      | cons d y =>
       obtain ⟨rfl, rfl⟩ := List.cons.inj hy
       exact .inr ⟨y, hu, rfl⟩

theorem infix_append_cons {b : α} {x u v : List α} (hx : b ∉ x) (h : x <:+: u ++ b :: v) :
  x <:+: u ∨ x <:+: v := by
 obtain ⟨before, after, h⟩ := h
 rcases append_cons_split hx h with ⟨r, hu⟩ | ⟨r, -, hv⟩
 · exact .inl ⟨before, r, hu.symm⟩
 · exact .inr ⟨r, after, hv.symm⟩

theorem infix_of_map {f : α → α} {x s : List α} (hx : ∀ a ∈ x, ∀ c, f c = a → c = a)
  (h : x <:+: s.map f) : x <:+: s := by
 obtain ⟨u, v, h⟩ := h
 obtain ⟨uv, v', rfl, huv, -⟩ := append_eq_map_iff.1 h
 obtain ⟨u', x', rfl, -, hx'⟩ := append_eq_map_iff.1 huv.symm
 have heq : x' = x := by
  rw [← hx']
  conv_lhs => rw [← map_id x']
  refine map_congr_left fun c hc => ?_
  exact hx (f c) (hx' ▸ mem_map_of_mem hc) c rfl
 exact ⟨u', v', by rw [heq]⟩

section Spec

variable [DecidableEq α] {f : α → α} {pat repl s : List α} {b : α}

theorem rewrite_of_not_infix (h : ¬ pat <:+: s.map f) : rewrite f pat repl s = s := by
 induction s with
 | nil => rw [rewrite]
 | cons c s ih =>
  have hpre : pat.isPrefixOf ((c :: s).map f) = false := by
   rw [Bool.eq_false_iff, ne_eq, isPrefixOf_iff_prefix]
   exact fun hp => h hp.isInfix
  rw [rewrite, hpre]
  refine congrArg (c :: ·) (ih fun hin => h ?_)
  exact hin.trans (suffix_cons (f c) _).isInfix

theorem mem_rewrite {c : α} (h : c ∈ rewrite f pat repl s) : c ∈ s ∨ c ∈ repl := by
 induction s using rewrite.induct f pat with
 | case1 =>
  rw [rewrite] at h
  exact absurd h not_mem_nil
 | case2 d s hpre ih =>
  rw [rewrite, if_pos hpre] at h
  rcases mem_append.1 h with h | h
  · exact .inr h
  · exact (ih h).imp (fun hm => mem_cons_of_mem _ (mem_of_mem_drop hm)) id
 | case3 d s hpre ih =>
  rw [rewrite, if_neg hpre] at h
  rcases mem_cons.1 h with rfl | h
  · exact .inl (mem_cons_self ..)
  · exact (ih h).imp (mem_cons_of_mem _) id

theorem map_rewrite (s : List α) :
  (rewrite f pat repl s).map f = rewrite id pat (repl.map f) (s.map f) := by
 induction s using rewrite.induct f pat with
 | case1 => rw [rewrite, map_nil, rewrite]
 | case2 d s hpre ih =>
  rw [rewrite, if_pos hpre, map_append, ih, List.map_drop, map_cons, rewrite, map_id,
   ← map_cons, if_pos hpre]
 | case3 d s hpre ih =>
  rw [rewrite, if_neg hpre, map_cons, ih, map_cons, rewrite, map_id, ← map_cons,
   if_neg hpre]

theorem prefix_of_prefix_rewrite (hb : Barrier b pat repl) {x : List α} (hx : b ∉ x)
  (h : x <+: rewrite id pat repl s) : x <+: s := by
 induction s using rewrite.induct id pat generalizing x with
 | case1 => rwa [rewrite] at h
 | case2 d s hpre ih =>
  rw [rewrite, if_pos hpre] at h
  rw [map_id, isPrefixOf_iff_prefix] at hpre
  exact (hb.starts x hx (prefix_append_of_not_mem hx hb.mem h)).1.trans hpre
 | case3 d s hpre ih =>
  rw [rewrite, if_neg hpre] at h
  cases x with
  | nil => exact nil_prefix
  | cons c x =>
   obtain ⟨hc, htail⟩ := cons_prefix_cons.1 h
   exact cons_prefix_cons.2 ⟨hc, ih (fun hm => hx (mem_cons_of_mem _ hm)) htail⟩

theorem infix_after_part (hb : Barrier b pat repl) {x rest t : List α} (hx : b ∉ x) (ht : t <:+ repl)
  (hrest : x <:+: rewrite id pat repl rest → x <:+: rest ∧ x ≠ pat)
  (h : x <:+: t ++ rewrite id pat repl rest) : x <:+: pat ++ rest ∧ x ≠ pat := by
 induction t with
 | nil =>
  obtain ⟨hin, hne⟩ := hrest h
  exact ⟨hin.trans (suffix_append pat rest).isInfix, hne⟩
 | cons c t ih =>
  rcases infix_cons_iff.1 h with hpre | hin
  · by_cases hmem : b ∈ c :: t
    · obtain ⟨hin, hne⟩ := hb.middle _ ht hmem x hx (prefix_append_of_not_mem (t := c :: t) hx hmem hpre)
      exact ⟨hin.trans (prefix_append pat rest).isInfix, hne⟩
    · obtain ⟨hsuf, hborder⟩ := hb.ends _ ht hmem
      have hborder := hborder (by simp)
      have hpre : x <+: (c :: t) ++ rewrite id pat repl rest := hpre
      rcases prefix_or_prefix_of_prefix hpre (prefix_append _ _) with hshort | ⟨x', rfl⟩
      · refine ⟨(hshort.isInfix.trans hsuf.isInfix).trans (prefix_append pat rest).isInfix, ?_⟩
        rintro rfl
        exact hborder (hsuf.eq_of_length_le hshort.length_le ▸ prefix_refl _)
      · have hx' : b ∉ x' := fun hm => hx (mem_append_right _ hm)
        have hkept := prefix_of_prefix_rewrite hb hx' ((prefix_append_right_inj _).1 hpre)
        refine ⟨?_, ?_⟩
        · refine ((prefix_append_right_inj _).2 hkept).isInfix.trans ?_
          obtain ⟨before, hbefore⟩ := hsuf
          exact ⟨before, [], by simp [← hbefore]⟩
        · rintro rfl
          exact hborder (prefix_append _ _)
  · exact ih ((suffix_cons c t).trans ht) hin

theorem infix_of_infix_rewrite (hb : Barrier b pat repl) {x : List α} (hx : b ∉ x) (hne : x ≠ [])
  (h : x <:+: rewrite id pat repl s) : x <:+: s ∧ x ≠ pat := by
 induction s using rewrite.induct id pat with
 | case1 =>
  rw [rewrite] at h
  exact absurd (infix_nil.1 h) hne
 | case2 d s hpre ih =>
  rw [rewrite, if_pos hpre] at h
  rw [map_id, isPrefixOf_iff_prefix] at hpre
  obtain ⟨rest, hrest⟩ := hpre
  have hpat : pat ≠ [] := (hb.starts [] not_mem_nil nil_prefix).2.symm
  have hdrop : s.drop (pat.length - 1) = rest := by
   cases pat with
   | nil => exact absurd rfl hpat
   | cons c pat =>
    obtain ⟨-, rfl⟩ := List.cons.inj hrest
    simp
  rw [hdrop] at h ih
  rw [← hrest]
  exact infix_after_part hb hx (suffix_refl _) ih h
 | case3 d s hpre ih =>
  have hcons : rewrite id pat repl (d :: s) = d :: rewrite id pat repl s := by rw [rewrite, if_neg hpre]
  rw [hcons] at h
  rcases infix_cons_iff.1 h with hfirst | hin
  · rw [← hcons] at hfirst
    have hkept := prefix_of_prefix_rewrite hb hx hfirst
    refine ⟨hkept.isInfix, ?_⟩
    rintro rfl
    rw [map_id, isPrefixOf_iff_prefix] at hpre
    exact hpre hkept
  · obtain ⟨hin, hxne⟩ := ih hin
    exact ⟨hin.trans (suffix_cons d s).isInfix, hxne⟩

theorem not_infix_rewrite (hb : Barrier b pat repl) : ¬ pat <:+: rewrite id pat repl s :=
 fun h => (infix_of_infix_rewrite hb hb.free
  (hb.starts [] not_mem_nil nil_prefix).2.symm h).2 rfl

end Spec

end MoltBrowser.Rewriting
