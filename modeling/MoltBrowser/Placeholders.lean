import MoltBrowser.Rewriting

set_option autoImplicit false

/-!
# Filling in placeholders one after another

Each placeholder is replaced over the whole text, where an earlier one's value stands too. A letter
keeps its place in the text it comes from, so that what was replaced can be compared with what the
text itself spells.
-/
namespace MoltBrowser.Placeholders
open Rewriting List

structure Placeholder (α : Type*) where
 token : List α
 value : List α
 nonempty : token ≠ []
 deriving DecidableEq

/-- A letter, and its place when it is one of the text's own. -/
abbrev Letter (α : Type*) := α × Option ℕ

abbrev Piece (α : Type*) := α ⊕ Placeholder α

section Readings

variable {α : Type*}

def letter (c : α) : Letter α := (c, none)

def plain (c : Letter α) : Letter α := letter c.1

def source : List (Piece α) → List α
 | [] => []
 | .inl c :: p => c :: source p
 | .inr h :: p => h.token ++ source p

def filled : List (Piece α) → List α
 | [] => []
 | .inl c :: p => c :: filled p
 | .inr h :: p => h.value ++ filled p

/-- The letters it says; the first piece is at `k` in the text. -/
def spell : ℕ → List (Piece α) → List (Letter α)
 | _, [] => []
 | k, .inl c :: p => (c, some k) :: spell (k + 1) p
 | k, .inr h :: p => h.value.map letter ++ spell (k + h.token.length) p

def unread (text : List α) : List (Piece α) := text.map .inl

/-- Letters of a text itself, one after another from the place `k`. -/
def placed (k : ℕ) (text : List α) : List (Letter α) := spell k (unread text)

def own (text : List α) : List (Letter α) := placed 0 text

theorem letter_injective : Function.Injective (letter : α → Letter α) := fun _ _ h => congrArg Prod.fst h

theorem source_unread (text : List α) : source (unread text) = text := by
 induction text with
 | nil => rfl
 | cons c text ih => exact congrArg (c :: ·) ih

theorem source_append (p q : List (Piece α)) : source (p ++ q) = source p ++ source q := by
 induction p with
 | nil => rfl
 | cons piece p ih =>
  cases piece with
  | inl c => exact congrArg (c :: ·) ih
  | inr h =>
   rw [cons_append, source, ih, source, append_assoc]

theorem filled_unread (text : List α) : filled (unread text) = text := by
 induction text with
 | nil => rfl
 | cons c text ih => exact congrArg (c :: ·) ih

theorem spell_append (p q : List (Piece α)) (k : ℕ) :
  spell k (p ++ q) = spell k p ++ spell (k + (source p).length) q := by
 induction p generalizing k with
 | nil => rfl
 | cons piece p ih =>
  cases piece with
  | inl c =>
   rw [cons_append, spell, ih, spell, source, length_cons, cons_append]
   congr 3
   omega
  | inr h =>
   rw [cons_append, spell, ih, spell, source, length_append, append_assoc]
   congr 3
   omega

theorem map_fst_spell (p : List (Piece α)) (k : ℕ) : (spell k p).map Prod.fst = filled p := by
 induction p generalizing k with
 | nil => rfl
 | cons piece p ih =>
  cases piece with
  | inl c => exact congrArg (c :: ·) (ih (k + 1))
  | inr h =>
   rw [spell, map_append, ih, map_map, filled]
   congr 1
   exact map_id h.value

theorem map_plain (s : List (Letter α)) : s.map plain = (s.map Prod.fst).map letter := by
 rw [map_map]
 rfl

variable {c : α}

theorem spell_place (p : List (Piece α)) (k : ℕ) {i : ℕ} (h : (c, some i) ∈ spell k p) : k ≤ i := by
 induction p generalizing k with
 | nil => exact absurd h not_mem_nil
 | cons piece p ih =>
  cases piece with
  | inl d =>
   rcases mem_cons.1 h with heq | h
   · injection heq with _ hi
     injection hi with hi
     omega
   · have := ih (k + 1) h
     omega
  | inr g =>
   rcases mem_append.1 h with h | h
   · obtain ⟨d, -, heq⟩ := mem_map.1 h
     injection heq with _ hi
     cases hi
   · have := ih (k + g.token.length) h
     omega

@[simp] theorem placed_cons (k : ℕ) (c : α) (text : List α) :
  placed k (c :: text) = (c, some k) :: placed (k + 1) text := rfl

theorem letter_not_mem_placed (c : α) (k : ℕ) (text : List α) : letter c ∉ placed k text := by
 induction text generalizing k with
 | nil => exact not_mem_nil
 | cons d text ih =>
  intro h
  rcases mem_cons.1 h with heq | h
  · injection heq with _ hi
    cases hi
  · exact ih (k + 1) h

theorem placed_append (k : ℕ) (s t : List α) : placed k (s ++ t) = placed k s ++ placed (k + s.length) t := by
 rw [placed, unread, map_append, spell_append, ← unread, source_unread]
 rfl

theorem placed_infix (s t u : List α) : placed s.length t <:+: own (s ++ t ++ u) := by
 refine ⟨own s, placed (s ++ t).length u, ?_⟩
 change _ = placed 0 _
 rw [placed_append, placed_append, Nat.zero_add, Nat.zero_add]
 rfl

theorem prefix_placed {seg : List (Letter α)} {k : ℕ} {text : List α} (h : seg <+: placed k text) :
  seg = placed k (seg.map Prod.fst) := by
 induction seg generalizing k text with
 | nil => rfl
 | cons c seg ih =>
  cases text with
  | nil => exact absurd (prefix_nil.1 h) (cons_ne_nil c seg)
  | cons d text =>
   obtain ⟨rfl, htail⟩ := cons_prefix_cons.1 h
   exact congrArg ((d, some k) :: ·) (ih htail)

variable {k : ℕ}

theorem infix_placed {seg : List (Letter α)} {i : ℕ} {text : List α}
  (h : (c, some i) :: seg <:+: placed k text) : (c, some i) :: seg = placed i (c :: seg.map Prod.fst) := by
 induction text generalizing k with
 | nil => exact absurd (infix_nil.1 h) (cons_ne_nil _ _)
 | cons d text ih =>
  rcases infix_cons_iff.1 h with hpre | hin
  · have hk : i = k := by
     injection (cons_prefix_cons.1 hpre).1 with _ hi
     injection hi
    subst hk
    exact @prefix_placed _ _ _ (d :: text) hpre
  · exact ih hin

theorem token_prefix_iff {token : List α} {s : List (Letter α)} :
  token.map letter <+: s.map plain ↔ token <+: s.map Prod.fst := by
 rw [map_plain, prefix_map_iff_of_injective letter_injective]

theorem map_fst_within (v : List α) (k : ℕ) (p : List (Piece α)) :
  (v.map letter ++ spell k p).map Prod.fst = v ++ filled p := by
 rw [map_append, map_fst_spell, map_map]
 exact congrArg (· ++ filled p) (map_id v)

theorem spell_literal (s : List α) (k : ℕ) (p : List (Piece α)) :
  spell k (unread s ++ p) = placed k s ++ spell (k + s.length) p := by
 rw [spell_append, source_unread, placed]

theorem map_plain_placed (s : List α) (k : ℕ) : (placed k s).map plain = s.map letter := by
 rw [map_plain, placed, map_fst_spell, filled_unread]

theorem token_ne_nil (h : Placeholder α) : h.token.map letter ≠ [] :=
 fun hnil => h.nonempty (map_eq_nil_iff.1 hnil)

theorem unread_ne_nil {s : List α} (h : s ≠ []) : unread s ≠ [] := fun hnil => h (map_eq_nil_iff.1 hnil)

theorem not_prefix_single {token : List α} {p : List (Piece α)}
  (h : ¬ token <+: c :: filled p) : ¬ token.map letter <+: ((c, some k) :: spell (k + 1) p).map plain := by
 rw [token_prefix_iff, map_cons, map_fst_spell]
 exact h

theorem not_infix_own {c : α} {seg : List (Letter α)} {text : List α} (h : letter c ∈ seg) : ¬ seg <:+: own text :=
 fun hin => letter_not_mem_placed c 0 text (hin.subset h)

/-- A stretch of the text's own letters that begins a reading is read letter by letter. -/
theorem unread_prefix {s : List α} {p : List (Piece α)} (h : placed k s <+: spell k p) : unread s <+: p := by
 induction s generalizing k p with
 | nil => exact nil_prefix
 | cons c s ih =>
  cases p with
  | nil => exact absurd (prefix_nil.1 h) (cons_ne_nil _ _)
  | cons piece p =>
   cases piece with
   | inl d =>
    obtain ⟨heq, htail⟩ := cons_prefix_cons.1 h
    injection heq with hc _
    subst hc
    exact cons_prefix_cons.2 ⟨rfl, ih htail⟩
   | inr g =>
    -- A placeholder's value isn't the text's own, and what comes after it has later places.
    exfalso
    rcases mem_append.1 (h.subset (mem_cons_self ..)) with hm | hm
    · obtain ⟨d, -, heq⟩ := mem_map.1 hm
      injection heq with _ hi
      cases hi
    · have hplace := spell_place p _ hm
      have hlen := length_pos_of_ne_nil g.nonempty
      omega

theorem not_unread_prefix (h g : Placeholder α) (p : List (Piece α)) : ¬ unread h.token <+: .inr g :: p := by
 intro hpre
 cases htoken : h.token with
 | nil => exact h.nonempty htoken
 | cons c t =>
  rw [htoken] at hpre
  cases (cons_prefix_cons.1 hpre).1

theorem map_fst_take {token : List α} {s : List (Letter α)} (h : token.map letter <+: s.map plain) :
  (s.take (token.map letter).length).map Prod.fst = token := by
 rw [token_prefix_iff] at h
 rw [length_map, map_take]
 exact (prefix_iff_eq_take.1 h).symm

theorem not_mem_unread (h : Placeholder α) (text : List α) : .inr h ∉ unread text := by
 intro hm
 obtain ⟨c, -, hc⟩ := mem_map.1 hm
 cases hc

theorem mark_barrier (h : Placeholder α) : Barrier (.inr h) (unread h.token) [.inr h] :=
 barrier_singleton (not_mem_unread h h.token) (unread_ne_nil h.nonempty)

theorem map_fst_own (text : List α) : (own text).map Prod.fst = text := by
 rw [own, placed, map_fst_spell, filled_unread]

end Readings

section Rewrites

variable {β : Type*}

/-- The texts that `rewrite` replaces. -/
def segments [DecidableEq β] (f : β → β) (pat : List β) : List β → List (List β)
 | [] => []
 | c :: s =>
  if pat.isPrefixOf ((c :: s).map f) then (c :: s).take pat.length :: segments f pat (s.drop (pat.length - 1))
  else segments f pat s
termination_by s => s.length
decreasing_by all_goals simp only [length_drop, length_cons]; omega

variable {c : β} {x s : List β}

theorem drop_tail_of_prefix {t : List β} (h : c :: s = x ++ t) (hne : x ≠ []) :
  s.drop (x.length - 1) = t := by
 cases x with
 | nil => exact absurd rfl hne
 | cons d x =>
  obtain ⟨-, rfl⟩ := List.cons.inj h
  simp

variable [DecidableEq β] {f : β → β} {pat repl : List β}

theorem rewrite_append (hx : x.map f = pat) (hne : pat ≠ []) :
  rewrite f pat repl (x ++ s) = repl ++ rewrite f pat repl s := by
 cases x with
 | nil => exact absurd hx.symm hne
 | cons c x =>
  have hpre : pat.isPrefixOf ((c :: (x ++ s)).map f) := by
   rw [List.isPrefixOf_iff_prefix, ← cons_append, map_append, hx]
   exact prefix_append _ _
  have hlen : pat.length = (c :: x).length := by rw [← hx, length_map]
  rw [cons_append, rewrite, if_pos hpre, hlen,
   drop_tail_of_prefix (@cons_append _ c x s).symm (cons_ne_nil c x)]

theorem rewrite_cons (h : ¬ pat <+: (c :: s).map f) :
  rewrite f pat repl (c :: s) = c :: rewrite f pat repl s := by
 rw [rewrite, if_neg fun hpre => h (List.isPrefixOf_iff_prefix.1 hpre)]

theorem rewrite_replaced (h : pat <+: (c :: s).map f) :
  rewrite f pat repl (c :: s) = repl ++ rewrite f pat repl (s.drop (pat.length - 1)) := by
 rw [rewrite, if_pos (List.isPrefixOf_iff_prefix.2 h)]

theorem rewrite_induction {motive : List β → Prop} (nil : motive [])
  (replaced : ∀ c s, pat <+: (c :: s).map f → motive (s.drop (pat.length - 1)) → motive (c :: s))
  (kept : ∀ c s, ¬ pat <+: (c :: s).map f → motive s → motive (c :: s)) (s : List β) : motive s := by
 induction s using rewrite.induct f pat with
 | case1 => exact nil
 | case2 c s hpre ih => exact replaced c s (List.isPrefixOf_iff_prefix.1 hpre) ih
 | case3 c s hpre ih => exact kept c s (fun h => hpre (List.isPrefixOf_iff_prefix.2 h)) ih

theorem segments_append (hx : x.map f = pat) (hne : pat ≠ []) :
  segments f pat (x ++ s) = x :: segments f pat s := by
 cases x with
 | nil => exact absurd hx.symm hne
 | cons c x =>
  have hpre : pat.isPrefixOf ((c :: (x ++ s)).map f) := by
   rw [List.isPrefixOf_iff_prefix, ← cons_append, map_append, hx]
   exact prefix_append _ _
  have hlen : pat.length = (c :: x).length := by rw [← hx, length_map]
  rw [cons_append, segments, if_pos hpre, hlen,
   drop_tail_of_prefix (@cons_append _ c x s).symm (cons_ne_nil c x),
   ← cons_append, take_left]

theorem segments_cons (h : ¬ pat <+: (c :: s).map f) :
  segments f pat (c :: s) = segments f pat s := by
 rw [segments, if_neg fun hpre => h (List.isPrefixOf_iff_prefix.1 hpre)]

theorem take_mem_segments (h : pat <+: (c :: s).map f) :
  (c :: s).take pat.length ∈ segments f pat (c :: s) := by
 rw [segments, if_pos (List.isPrefixOf_iff_prefix.2 h)]
 exact mem_cons_self ..

end Rewrites

section Filling

variable {α : Type*} [DecidableEq α]

def fill (h : Placeholder α) (s : List (Letter α)) : List (Letter α) :=
 rewrite plain (h.token.map letter) (h.value.map letter) s

/-- What `fill` takes for the placeholder. -/
def taken (h : Placeholder α) (s : List (Letter α)) : List (List (Letter α)) :=
 segments plain (h.token.map letter) s

def mark (h : Placeholder α) (p : List (Piece α)) : List (Piece α) :=
 rewrite id (unread h.token) [.inr h] p

/-- The token is spelled from somewhere within a value that `rest` comes after. -/
def spelledWithin (token rest : List α) : List α → Bool
 | [] => false
 | c :: v => token.isPrefixOf (c :: v ++ rest) || spelledWithin token rest v

/-- Nothing but the text's own token reads as the token. -/
@[grind =] def undisturbed (token : List α) : List (Piece α) → Bool
 | [] => true
 | .inl c :: p =>
  if unread token <+: .inl c :: p then undisturbed token (p.drop (token.length - 1))
  else !token.isPrefixOf (c :: filled p) && undisturbed token p
 | .inr h :: p => !spelledWithin token (filled p) h.value && undisturbed token p
termination_by p => p.length
decreasing_by all_goals simp only [length_drop, length_cons]; omega

variable {token : List α}

/-- A reading ends, goes on with the token in the text's own letters, or with a piece by itself. -/
theorem reading_induction (hne : token ≠ []) {motive : List (Piece α) → Prop} (nil : motive [])
  (literal : ∀ p, motive p → motive (unread token ++ p))
  (single : ∀ c p, ¬ unread token <+: .inl c :: p → motive p → motive (.inl c :: p))
  (placeholder : ∀ h p, motive p → motive (.inr h :: p)) (p : List (Piece α)) : motive p := by
 induction p using undisturbed.induct token with
 | case1 => exact nil
 | case2 c p hpre ih =>
  obtain ⟨rest, hrest⟩ := hpre
  have hdrop := drop_tail_of_prefix hrest.symm fun h => hne (map_eq_nil_iff.1 h)
  rw [unread, length_map] at hdrop
  rw [hdrop] at ih
  exact hrest ▸ literal rest ih
 | case3 c p hpre ih => exact single c p hpre ih
 | case4 h p ih => exact placeholder h p ih

theorem undisturbed_literal (hne : token ≠ []) (p : List (Piece α)) :
  undisturbed token (unread token ++ p) = undisturbed token p := by
 cases token with
 | nil => exact absurd rfl hne
 | cons c t =>
  have hpre : unread (c :: t) <+: .inl c :: (unread t ++ p) := prefix_append (unread (c :: t)) p
  change undisturbed (c :: t) (.inl c :: (unread t ++ p)) = _
  rw [undisturbed, if_pos hpre]
  congr 1
  simp [unread]

variable {p : List (Piece α)}

theorem undisturbed_single {c : α} (h : ¬ unread token <+: .inl c :: p) :
  undisturbed token (.inl c :: p) = (!token.isPrefixOf (c :: filled p) && undisturbed token p) := by
 rw [undisturbed, if_neg h]

theorem undisturbed_placeholder (h : Placeholder α) (p : List (Piece α)) :
  undisturbed token (.inr h :: p) = (!spelledWithin token (filled p) h.value && undisturbed token p) := by
 rw [undisturbed]

/-! ### One placeholder's turn -/

theorem not_prefix_of_not_within {c : α} {v : List α} {k : ℕ} {p : List (Piece α)}
  (h : spelledWithin token (filled p) (c :: v) = false) :
  ¬ token.map letter <+: (letter c :: (v.map letter ++ spell k p)).map plain ∧
   spelledWithin token (filled p) v = false := by
 rw [spelledWithin, Bool.or_eq_false_iff, Bool.eq_false_iff, ne_eq, isPrefixOf_iff_prefix] at h
 refine ⟨fun hpre => h.1 ?_, h.2⟩
 rw [token_prefix_iff, map_cons, map_fst_within] at hpre
 exact hpre

variable {v : List α} {k : ℕ}

theorem fill_within (h : Placeholder α)
  (hv : spelledWithin h.token (filled p) v = false) :
  fill h (v.map letter ++ spell k p) = v.map letter ++ fill h (spell k p) := by
 induction v with
 | nil => rfl
 | cons c v ih =>
  obtain ⟨hpre, hv⟩ := @not_prefix_of_not_within _ _ _ _ _ k _ hv
  rw [fill, map_cons, cons_append, rewrite_cons hpre]
  exact congrArg (letter c :: ·) (ih hv)

theorem taken_within (h : Placeholder α)
  (hv : spelledWithin h.token (filled p) v = false) :
  taken h (v.map letter ++ spell k p) = taken h (spell k p) := by
 induction v with
 | nil => rfl
 | cons c v ih =>
  obtain ⟨hpre, hv⟩ := @not_prefix_of_not_within _ _ _ _ _ k _ hv
  rw [taken, map_cons, cons_append, segments_cons hpre]
  exact ih hv

theorem fill_spell (h : Placeholder α) (p : List (Piece α)) (k : ℕ) (hp : undisturbed h.token p = true) :
  fill h (spell k p) = spell k (mark h p) := by
 induction p using reading_induction h.nonempty generalizing k with
 | nil =>
  rw [spell, fill, rewrite, mark, rewrite, spell]
 | literal p ih =>
  rw [undisturbed_literal h.nonempty] at hp
  rw [spell_literal, fill, rewrite_append (map_plain_placed h.token k) (token_ne_nil h), mark,
   rewrite_append (map_id _) (unread_ne_nil h.nonempty)]
  exact congrArg (h.value.map letter ++ ·) (ih _ hp)
 | single c p hpre ih =>
  rw [undisturbed_single hpre, Bool.and_eq_true, Bool.not_eq_true', Bool.eq_false_iff, ne_eq,
   isPrefixOf_iff_prefix] at hp
  rw [spell, fill, rewrite_cons (not_prefix_single hp.1), mark, rewrite_cons (by rwa [map_id])]
  exact congrArg ((c, some k) :: ·) (ih _ hp.2)
 | placeholder g p ih =>
  rw [undisturbed_placeholder, Bool.and_eq_true, Bool.not_eq_true'] at hp
  rw [spell, fill_within h hp.1, mark, rewrite_cons (by rw [map_id]; exact not_unread_prefix h g p)]
  exact congrArg (g.value.map letter ++ ·) (ih _ hp.2)

theorem taken_own (h : Placeholder α) {text before : List α} (p : List (Piece α))
  (htext : text = before ++ source p) (hp : undisturbed h.token p = true) :
  ∀ seg ∈ taken h (spell before.length p), seg <:+: own text := by
 induction p using reading_induction h.nonempty generalizing before with
 | nil =>
  rw [spell, taken, segments]
  exact fun seg hseg => absurd hseg not_mem_nil
 | literal p ih =>
  rw [undisturbed_literal h.nonempty] at hp
  rw [source_append, source_unread, ← append_assoc] at htext
  rw [spell_literal, taken, segments_append (map_plain_placed h.token _) (token_ne_nil h),
   ← length_append]
  intro seg hseg
  rcases mem_cons.1 hseg with rfl | hseg
  · exact htext ▸ placed_infix before h.token (source p)
  · exact ih htext hp seg hseg
 | single c p hpre ih =>
  rw [undisturbed_single hpre, Bool.and_eq_true, Bool.not_eq_true', Bool.eq_false_iff, ne_eq,
   isPrefixOf_iff_prefix] at hp
  rw [spell, taken, segments_cons (not_prefix_single hp.1)]
  have ih := @ih (before ++ [c]) (by rw [htext, source, append_assoc]; rfl) hp.2
  rwa [length_append] at ih
 | placeholder g p ih =>
  rw [undisturbed_placeholder, Bool.and_eq_true, Bool.not_eq_true'] at hp
  rw [spell, taken_within h hp.1]
  have ih := @ih (before ++ g.token) (by rw [htext, source, append_assoc]) hp.2
  rwa [length_append] at ih

/-- A token spelled from within a value is taken, and its first letter isn't the text's own. -/
theorem taken_from_within (h : Placeholder α) (text : List α)
  (hv : spelledWithin h.token (filled p) v = true) :
  ∃ seg ∈ taken h (v.map letter ++ spell k p), ¬ seg <:+: own text := by
 induction v with
 | nil => cases hv
 | cons c v ih =>
  by_cases hpre : h.token.map letter <+: (letter c :: (v.map letter ++ spell k p)).map plain
  · refine ⟨_, take_mem_segments hpre, @not_infix_own _ c _ _ ?_⟩
    obtain ⟨n, hn⟩ := Nat.exists_eq_succ_of_ne_zero fun hlen => token_ne_nil h (length_eq_zero_iff.1 hlen)
    rw [hn, take_succ_cons]
    exact mem_cons_self ..
  · have hfirst : h.token.isPrefixOf (c :: v ++ filled p) = false := by
     rw [Bool.eq_false_iff, ne_eq, isPrefixOf_iff_prefix]
     rw [token_prefix_iff, map_cons, map_fst_within] at hpre
     exact hpre
    rw [spelledWithin, hfirst, Bool.false_or] at hv
    have hskip : taken h ((c :: v).map letter ++ spell k p) = taken h (v.map letter ++ spell k p) :=
     segments_cons hpre
    rw [hskip]
    exact ih hv

theorem taken_disturbed (h : Placeholder α) (text : List α) (p : List (Piece α)) (k : ℕ)
  (hp : undisturbed h.token p = false) : ∃ seg ∈ taken h (spell k p), ¬ seg <:+: own text := by
 induction p using reading_induction h.nonempty generalizing k with
 | nil =>
  rw [undisturbed] at hp
  cases hp
 | literal p ih =>
  rw [undisturbed_literal h.nonempty] at hp
  obtain ⟨seg, hseg, hown⟩ := ih (k + h.token.length) hp
  refine ⟨seg, ?_, hown⟩
  rw [spell_literal, taken, segments_append (map_plain_placed h.token _) (token_ne_nil h)]
  exact mem_cons_of_mem _ hseg
 | single c p hpre ih =>
  by_cases hsaid : h.token <+: c :: filled p
  · have htaken : h.token.map letter <+: ((c, some k) :: spell (k + 1) p).map plain := by
     rw [token_prefix_iff, map_cons, map_fst_spell]
     exact hsaid
    refine ⟨_, take_mem_segments htaken, fun hin => hpre ?_⟩
    have hfst := map_fst_take htaken
    obtain ⟨n, hn⟩ := Nat.exists_eq_succ_of_ne_zero fun hlen => token_ne_nil h (length_eq_zero_iff.1 hlen)
    rw [hn, take_succ_cons] at hin hfst
    rw [map_cons] at hfst
    have hplaced := infix_placed hin
    rw [hfst] at hplaced
    refine unread_prefix (k := k) ?_
    rw [← hplaced, ← take_succ_cons]
    exact take_prefix _ _
  · have hfirst : h.token.isPrefixOf (c :: filled p) = false := by
     rw [Bool.eq_false_iff, ne_eq, isPrefixOf_iff_prefix]
     exact hsaid
    rw [undisturbed_single hpre, hfirst, Bool.not_false, Bool.true_and] at hp
    rw [spell, taken, segments_cons (not_prefix_single hsaid)]
    exact ih _ hp
 | placeholder g p ih =>
  by_cases hv : spelledWithin h.token (filled p) g.value = true
  · exact taken_from_within h text hv
  · rw [Bool.not_eq_true] at hv
    rw [undisturbed_placeholder, hv, Bool.not_false, Bool.true_and] at hp
    rw [spell, taken_within h hv]
    exact ih _ hp

/-! ### All of them -/

def fillAll (hs : List (Placeholder α)) (s : List (Letter α)) : List (Letter α) := hs.foldl (fun s h => fill h s) s

def markAll (hs : List (Placeholder α)) (p : List (Piece α)) : List (Piece α) := hs.foldl (fun p h => mark h p) p

def readsOwn (text : List α) : List (Placeholder α) → List (Letter α) → Bool
 | [], _ => true
 | h :: hs, s => decide (∀ seg ∈ taken h s, seg <:+: own text) && readsOwn text hs (fill h s)

/-- At no placeholder's turn does anything but the text's own token read as its token. -/
def undisturbedAll : List (Placeholder α) → List (Piece α) → Bool
 | [], _ => true
 | h :: hs, p => undisturbed h.token p && undisturbedAll hs (mark h p)

/-- The text has a reading with none of the tokens left over, and the result is this reading with
the placeholders filled in; nothing else was taken for a placeholder. -/
structure Simultaneous (hs : List (Placeholder α)) (text : List α) : Prop where
 reads : readsOwn text hs (own text) = true
 reading : ∃ p, source p = text ∧ (∀ h, .inr h ∈ p → h ∈ hs) ∧ (∀ h ∈ hs, ¬ unread h.token <:+: p) ∧
  fillAll hs (own text) = spell 0 p

theorem source_mark (h : Placeholder α) (p : List (Piece α)) : source (mark h p) = source p := by
 induction p using reading_induction h.nonempty with
 | nil => rw [mark, rewrite]
 | literal p ih =>
  rw [mark, rewrite_append (map_id _) (unread_ne_nil h.nonempty), source_append, source_append,
   source_unread]
  change h.token ++ [] ++ source (mark h p) = _
  rw [append_nil, ih]
 | single c p hpre ih =>
  rw [mark, rewrite_cons (by rwa [map_id])]
  exact congrArg (c :: ·) ih
 | placeholder g p ih =>
  rw [mark, rewrite_cons (by rw [map_id]; exact not_unread_prefix h g p)]
  exact congrArg (g.token ++ ·) ih

/-- A reading keeps the text, takes in its own placeholder only, and leaves none of its tokens. -/
theorem markAll_reading (hs : List (Placeholder α)) (p : List (Piece α)) :
  source (markAll hs p) = source p ∧ (∀ h, .inr h ∈ markAll hs p → .inr h ∈ p ∨ h ∈ hs) ∧
   (∀ token, token ≠ [] → unread token <:+: markAll hs p → unread token <:+: p ∧ ∀ h ∈ hs, h.token ≠ token) := by
 induction hs generalizing p with
 | nil => exact ⟨rfl, fun h hm => .inl hm, fun token _ hin => ⟨hin, fun h hh => absurd hh not_mem_nil⟩⟩
 | cons g hs ih =>
  obtain ⟨hsource, hmem, hleft⟩ := ih (mark g p)
  refine ⟨hsource.trans (source_mark g p), fun h hm => ?_, fun token hne hin => ?_⟩
  · rcases hmem h hm with hm | hm
    · rcases mem_rewrite hm with hm | hm
      · exact .inl hm
      · injection mem_singleton.1 hm with hg
        exact .inr (hg ▸ mem_cons_self ..)
    · exact .inr (mem_cons_of_mem g hm)
  · obtain ⟨hin, htokens⟩ := hleft token hne hin
    obtain ⟨hin, hne'⟩ := infix_of_infix_rewrite (mark_barrier g) (not_mem_unread g token) (unread_ne_nil hne) hin
    refine ⟨hin, fun h hh => ?_⟩
    rcases mem_cons.1 hh with rfl | hh
    · rintro rfl
      exact hne' rfl
    · exact htokens h hh

theorem readsOwn_iff (text : List α) (hs : List (Placeholder α)) (p : List (Piece α)) (hp : source p = text) :
  readsOwn text hs (spell 0 p) = undisturbedAll hs p ∧
   (undisturbedAll hs p = true → fillAll hs (spell 0 p) = spell 0 (markAll hs p)) := by
 induction hs generalizing p with
 | nil => exact ⟨rfl, fun _ => rfl⟩
 | cons h hs ih =>
  cases hturn : undisturbed h.token p with
  | false =>
   obtain ⟨seg, hseg, hown⟩ := taken_disturbed h text p 0 hturn
   rw [readsOwn, undisturbedAll, hturn, Bool.false_and, decide_eq_false fun hall => hown (hall seg hseg)]
   exact ⟨Bool.false_and _, fun hfalse => by cases hfalse⟩
  | true =>
   have hown : ∀ seg ∈ taken h (spell 0 p), seg <:+: own text := @taken_own _ _ h text [] p hp.symm hturn
   rw [readsOwn, undisturbedAll, hturn, Bool.true_and, decide_eq_true hown, Bool.true_and,
    fill_spell h p 0 hturn]
   obtain ⟨hreads, hfills⟩ := ih (mark h p) ((source_mark h p).trans hp)
   refine ⟨hreads, fun hall => ?_⟩
   rw [fillAll, foldl_cons, fill_spell h p 0 hturn]
   exact hfills hall

theorem simultaneous_iff (hs : List (Placeholder α)) (text : List α) :
  Simultaneous hs text ↔ undisturbedAll hs (unread text) = true := by
 obtain ⟨hreads, hfills⟩ := readsOwn_iff text hs (unread text) (source_unread text)
 constructor
 · intro h
   rw [← hreads]
   exact h.reads
 · intro hall
   obtain ⟨hsource, hmem, hleft⟩ := markAll_reading hs (unread text)
   refine ⟨hreads.trans hall, markAll hs (unread text), hsource.trans (source_unread text), fun h hm => ?_,
    fun h hh hin => ?_, hfills hall⟩
   · rcases hmem h hm with hm | hm
     · exact absurd hm (not_mem_unread h text)
     · exact hm
   · exact (hleft h.token h.nonempty hin).2 h hh rfl

theorem map_fst_fill (h : Placeholder α) (s : List (Letter α)) :
  (fill h s).map Prod.fst = rewrite id h.token h.value (s.map Prod.fst) := by
 rw [fill]
 induction s using @rewrite_induction _ _ plain (h.token.map letter) with
 | nil =>
  rw [rewrite, map_nil, rewrite]
 | replaced c s hpre ih =>
  have hvalue : (h.value.map letter).map Prod.fst = h.value := by
   rw [map_map]
   exact map_id h.value
  rw [rewrite_replaced hpre, map_append, hvalue, ih, map_cons, rewrite_replaced, List.map_drop,
   length_map]
  rw [map_id]
  exact token_prefix_iff.1 hpre
 | kept c s hpre ih =>
  rw [rewrite_cons hpre, map_cons, ih, map_cons, rewrite_cons]
  rw [map_id]
  exact fun h => hpre (token_prefix_iff.2 h)

theorem map_fst_fillAll (hs : List (Placeholder α)) (s : List (Letter α)) :
  (fillAll hs s).map Prod.fst = hs.foldl (fun t h => rewrite id h.token h.value t) (s.map Prod.fst) := by
 induction hs generalizing s with
 | nil => rfl
 | cons h hs ih =>
  rw [foldl_cons, ← map_fst_fill]
  exact ih (fill h s)

end Filling

end MoltBrowser.Placeholders
