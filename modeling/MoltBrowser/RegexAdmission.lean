import MoltBrowser.SafeRegex

set_option autoImplicit false

/-!
# What the check of regular expressions admits

The turns of the check follow the grammar of patterns where both read classes and braces alike: where no class closes at once (`[]`
and `[^]`, which the grammar ends there and the check doesn't), and where braces hold no sign and no number of more than 64 bits.
-/
namespace MoltBrowser.Procedural
open EcmaPatterns List
open TextReaders (headIs)

/-- Here the grammar and the check take a class or a quantifier alike. -/
def Fits (s : Text) : Prop :=
 match s with
 | '[' :: t => headIs (· == ']') (if headIs (· == '^') t then t.drop 1 else t) = false
 | '{' :: _ => (parseBraces s).map (fun b => (b.1, b.2.1, s.drop b.2.2)) = braced s
 | _ => True

instance (s : Text) : Decidable (Fits s) := by
 unfold Fits
 split <;> infer_instance

def turnsFrom : ℕ → RegexScan → Text → List Text
 | _, _, [] => []
 | 0, _, _ => []
 | fuel + 1, q, s => s :: ((scanStep q s).elim [] fun r => turnsFrom fuel r.1 r.2)

def turns (src : Text) : List Text := turnsFrom src.length {} src

/-! ## Runs of the loop -/

inductive Scans (final : RegexScan) : RegexScan → Text → Prop
 | ended : Scans final final []
 | turn {q q' : RegexScan} {s s' : Text} (hfits : Fits s) (hstep : scanStep q s = some (q', s')) (h : Scans final q' s') : Scans final q s

variable {final q q' : RegexScan} {s s' t rest : Text} {c : Char}

theorem scans_of_scanFrom : ∀ {fuel : ℕ} {q : RegexScan} {s : Text}, scanFrom fuel q s = some final →
  (∀ t ∈ turnsFrom fuel q s, Fits t) → Scans final q s
 | _, _, [], h, _ => by
  rw [scanFrom] at h
  cases h
  exact .ended
 | 0, _, _ :: _, h, _ => by simp [scanFrom] at h
 | fuel + 1, q, c :: s, h, hfits => by
  simp only [scanFrom, Option.bind_eq_some_iff] at h
  obtain ⟨⟨q', s'⟩, hstep, hrun⟩ := h
  simp only [turnsFrom, hstep] at hfits
  have hhere : Fits (c :: s) := hfits _ mem_cons_self
  exact .turn hhere hstep (scans_of_scanFrom hrun fun t ht => hfits t (mem_cons_of_mem _ ht))

theorem Scans.fits (h : Scans final q (c :: s)) : Fits (c :: s) := by
 cases h with
 | turn hfits _ _ => exact hfits

theorem Scans.stepped (h : Scans final q (c :: s)) : ∃ q' s', scanStep q (c :: s) = some (q', s') ∧ Scans final q' s' := by
 cases h with
 | turn _ hstep h => exact ⟨_, _, hstep, h⟩

theorem Scans.next (h : Scans final q (c :: s)) (hstep : scanStep q (c :: s) = some (q', s')) : Scans final q' s' := by
 obtain ⟨_, _, hstep', h⟩ := h.stepped
 rw [hstep] at hstep'
 cases hstep'
 exact h

theorem Scans.eq_final (h : Scans final q []) : q = final := by
 cases h with
 | ended => rfl
 | turn _ hstep _ => simp [scanStep] at hstep

/-! ## Characters that stand for themselves -/

def special : List Char := ['\\', '[', '(', ')', '|', '*', '+', '?', '{']

theorem not_special {p : Char → Bool} (hp : ∀ c ∈ special, p c = false) (hc : p c = true) : c ∉ special := by
 intro h
 rw [hp c h] at hc
 exact absurd hc (by decide)

theorem isAlpha_plain (hc : c.isAlpha = true) : c ∉ special :=
 not_special (by simp [special, Char.isAlpha, Char.isUpper, Char.isLower]) hc

theorem isHexDigit_plain (hc : isHexDigit c = true) : c ∉ special :=
 not_special (by simp [special, isHexDigit, Char.isDigit]) hc

theorem isOctalDigit_plain (hc : isOctalDigit c = true) : c ∉ special :=
 not_special (by simp [special, isOctalDigit]) hc

theorem scanStep_plain (h : c ∉ special) : scanStep q (c :: s) = some (q.atom, s) := by
 simp only [special, mem_cons, not_mem_nil, or_false, not_or] at h
 simp [scanStep, h]

theorem fits_plain (h : c ∉ special) : Fits (c :: s) := by
 unfold Fits
 split
 · rename_i heq
   cases heq
   exact absurd (by decide) h
 · rename_i heq
   cases heq
   exact absurd (by decide) h
 · trivial

@[simp] theorem atom_atom : q.atom.atom = q.atom := rfl

theorem Scans.plain (hs : ∀ c ∈ s, c ∉ special) (h : Scans final q.atom (s ++ rest)) : Scans final q.atom rest := by
 induction s with
 | nil => exact h
 | cons c s ih =>
  have hnext := h.next (scanStep_plain (hs c mem_cons_self))
  exact ih (fun d hd => hs d (mem_cons_of_mem _ hd)) hnext

/-! ## Each token -/

theorem scanStep_escape (hdigit : (c.isDigit && c != '0') = false) (hk : c ≠ 'k') :
  scanStep q ('\\' :: c :: s) = some (q.atom, s) := by
 simp [scanStep, hdigit, hk]

theorem Scans.escaped (h : Scans final q ('\\' :: c :: s)) :
  (c.isDigit && c != '0') = false ∧ c ≠ 'k' ∧ Scans final q.atom s := by
 obtain ⟨q', s', hstep, hnext⟩ := h.stepped
 by_cases hback : ((c.isDigit && c != '0') || c == 'k') = true
 · simp [scanStep, hback] at hstep
 · rw [Bool.not_eq_true, Bool.or_eq_false_iff, beq_eq_false_iff_ne] at hback
   exact ⟨hback.1, hback.2, h.next (scanStep_escape hback.1 hback.2)⟩

theorem skipClass_contents (h : ClassContents s rest) : skipClass s = some rest := by
 induction h with
 | @close rest => cases rest <;> simp [skipClass]
 | @character c s rest hclose hescape h ih =>
  cases h <;> simpa [skipClass, hclose, hescape] using ih
 | escape _ ih => simpa [skipClass] using ih

theorem classEnd_fits (hfits : Fits ('[' :: s)) : classEnd s = skipClass (if headIs (· == '^') s then s.drop 1 else s) := by
 rw [classEnd, Bool.eq_false_iff.mp hfits |> if_neg]

theorem Scans.class (hclass : Class s rest) (h : Scans final q ('[' :: s)) : Scans final q.atom rest := by
 have hend : classEnd s = some rest := by
  rw [classEnd_fits h.fits]
  cases hclass with
  | plain hnegated hcontents =>
   rw [hnegated]
   exact skipClass_contents hcontents
  | negated hcontents => exact skipClass_contents hcontents
 exact h.next (by simp [scanStep, hend])

theorem Scans.opened (hgroup : groupStart s = some rest) (h : Scans final q ('(' :: s)) : Scans final q.opened rest :=
 h.next (by simp [scanStep, hgroup])

theorem Scans.started (h : Scans final q ('(' :: s)) : ∃ t, groupStart s = some t := by
 obtain ⟨q', s', hstep, -⟩ := h.stepped
 cases hstart : groupStart s with
 | none => simp [scanStep, hstart] at hstep
 | some t => exact ⟨t, rfl⟩

theorem Scans.closed (h : Scans final q (')' :: s)) : ∃ q', q.closed = some q' ∧ Scans final q' s := by
 obtain ⟨q', s', hstep, hnext⟩ := h.stepped
 cases hclosed : q.closed with
 | none => simp [scanStep, hclosed] at hstep
 | some q' => exact ⟨q', rfl, h.next (by simp [scanStep, hclosed])⟩

theorem Scans.alternated (h : Scans final q ('|' :: s)) : Scans final q.alternated s :=
 h.next (by simp [scanStep])

theorem Scans.brace (hbraced : braced ('{' :: s) = none) (h : Scans final q ('{' :: s)) : Scans final q.atom s := by
 have hfits := h.fits
 simp only [Fits, hbraced, Option.map_eq_none_iff] at hfits
 exact h.next (by simp [scanStep, quantityAt, hfits, headIs])

theorem braced_starts {b : ℕ × Option ℕ × Text} (h : braced s = some b) : ∃ t, s = '{' :: t := by
 unfold braced at h
 split at h
 · exact ⟨_, rfl⟩
 · cases h

theorem quantifierPrefix_starts {b : ℕ × Option ℕ × Text} (h : quantifierPrefix s = some b) :
  ∃ c t, s = c :: t ∧ (c = '*' ∨ c = '+' ∨ c = '?' ∨ c = '{') := by
 unfold quantifierPrefix at h
 split at h
 · exact ⟨_, _, rfl, .inl rfl⟩
 · exact ⟨_, _, rfl, .inr (.inl rfl)⟩
 · exact ⟨_, _, rfl, .inr (.inr (.inl rfl))⟩
 · obtain ⟨t, ht⟩ := braced_starts h
   exact ⟨_, t, ht, .inr (.inr (.inr rfl))⟩

variable {min : ℕ} {max : Option ℕ}

theorem quantityAt_prefix (hfits : Fits s) (h : quantifierPrefix s = some (min, max, rest)) :
  quantityAt s = .refused ∨ ∃ len, quantityAt s = .quantity (repeats max) max.isNone len ∧ s.drop len = rest := by
 unfold quantifierPrefix at h
 split at h
 · cases h
   exact .inr ⟨1, rfl, rfl⟩
 · cases h
   exact .inr ⟨1, rfl, rfl⟩
 · cases h
   exact .inr ⟨1, rfl, rfl⟩
 · obtain ⟨t, rfl⟩ := braced_starts h
   simp only [Fits, h, Option.map_eq_some_iff] at hfits
   obtain ⟨⟨least, most, len⟩, hbraces, heq⟩ := hfits
   cases heq
   by_cases hless : (most.any fun m => m < least) = true
   · exact .inl (by simp [quantityAt, headIs, hbraces, hless])
   · exact .inr ⟨len, by simp [quantityAt, headIs, hbraces, hless, repeats], rfl⟩

theorem scanStep_quantity (hc : c = '*' ∨ c = '+' ∨ c = '?' ∨ c = '{') : scanStep q (c :: s) =
  match quantityAt (c :: s) with
  | .refused => none
  | .literal => some (q.atom, s)
  | .quantity repeats isUnbounded len =>
   let rest := (c :: s).drop len
   (q.quantified repeats isUnbounded).map fun q => (q, if headIs (· == '?') rest then rest.drop 1 else rest) := by
 rcases hc with rfl | rfl | rfl | rfl <;> rfl

theorem Scans.quantified (hquantifier : quantifier s = some (min, max, rest)) (h : Scans final q s) :
  ∃ q', q.quantified (repeats max) max.isNone = some q' ∧ Scans final q' rest := by
 rw [quantifier, Option.map_eq_some_iff] at hquantifier
 obtain ⟨⟨_, _, t⟩, hprefix, heq⟩ := hquantifier
 cases heq
 obtain ⟨c, s, rfl, hc⟩ := quantifierPrefix_starts hprefix
 obtain ⟨q', s', hstep, hnext⟩ := h.stepped
 rw [scanStep_quantity hc] at hstep
 rcases quantityAt_prefix h.fits hprefix with hrefused | ⟨len, hquantity, rfl⟩
 · rw [hrefused] at hstep
   cases hstep
 · simp only [hquantity, Option.map_eq_some_iff, Prod.mk.injEq] at hstep
   obtain ⟨q', hquantified, rfl, rfl⟩ := hstep
   exact ⟨q', hquantified, hnext⟩

theorem RegexScan.quantified_spec (h : q.quantified (repeats max) max.isNone = some q') :
  q'.stack = q.stack.modifyHead (fun top => (top.1 || repeats max, top.2)) ∧
   q'.unbounded = q.unbounded + (if max = none then 1 else 0) ∧
   (repeats max = true → q.lastGroup.getD (false, false) = (false, false)) := by
 unfold RegexScan.quantified at h
 split at h
 · cases h
 · split at h
   · cases h
   · rename_i hgroup
     split at h
     · cases h
     · cases h
       refine ⟨?_, ?_, ?_⟩
       · cases repeats max <;> cases q.stack <;> simp
       · cases max <;> rfl
       · intro hrepeats
         rw [hrepeats, Bool.true_and] at hgroup
         cases hlast : q.lastGroup with
         | none => rfl
         | some inner =>
          rw [hlast, Option.any_some, Bool.or_eq_true, not_or, Bool.not_eq_true, Bool.not_eq_true] at hgroup
          exact Prod.ext hgroup.1 hgroup.2

/-! ## Patterns -/

structure After (q : RegexScan) (r : Regex) (q' : RegexScan) : Prop where
 stack : q'.stack = q.stack.modifyHead fun top => (top.1 || r.hasRepeat, top.2 || r.hasAlternation)
 unbounded : q'.unbounded = q.unbounded + r.unbounded
 simple : r.Simple
 noBackreference : r.hasBackreference = false

def Holds (q : RegexScan) (r : Regex) : Prop := q.lastGroup.getD (false, false) = (r.hasRepeat, r.hasAlternation)

theorem After.refl (q : RegexScan) : After q .empty q where
 stack := by cases h : q.stack <;> simp [Regex.hasRepeat, Regex.hasAlternation]
 unbounded := rfl
 simple := trivial
 noBackreference := rfl

theorem After.leaf {l : Leaf} (hl : l ≠ .backreference) : After q (.leaf l) q.atom where
 stack := by cases h : q.stack <;> simp [RegexScan.atom, h, Regex.hasRepeat, Regex.hasAlternation]
 unbounded := rfl
 simple := trivial
 noBackreference := by simpa [Regex.hasBackreference] using hl

variable {q'' : RegexScan}

theorem After.seq {a b : Regex} (ha : After q a q') (hb : After q' b q'') : After q (.seq a b) q'' where
 stack := by
  rw [hb.stack, ha.stack, modifyHead_modifyHead]
  simp [Function.comp_def, Regex.hasRepeat, Regex.hasAlternation, Bool.or_assoc]
 unbounded := by rw [hb.unbounded, ha.unbounded, Regex.unbounded, Nat.add_assoc]
 simple := ⟨ha.simple, hb.simple⟩
 noBackreference := by simp [Regex.hasBackreference, ha.noBackreference, hb.noBackreference]

theorem After.alt {a b : Regex} (ha : After q a q') (hb : After q'.alternated b q'') : After q (.alt a b) q'' where
 stack := by
  rw [hb.stack, RegexScan.alternated, ha.stack, modifyHead_modifyHead, modifyHead_modifyHead]
  simp [Function.comp_def, Regex.hasRepeat, Regex.hasAlternation, Bool.or_assoc]
 unbounded := by
  have halternated : q'.alternated.unbounded = q'.unbounded := rfl
  rw [hb.unbounded, halternated, ha.unbounded, Regex.unbounded, Nat.add_assoc]
 simple := ⟨ha.simple, hb.simple⟩
 noBackreference := by simp [Regex.hasBackreference, ha.noBackreference, hb.noBackreference]

theorem After.rep {a : Regex} (ha : After q a q') (hlast : Holds q' a)
  (hquantified : q'.quantified (repeats max) max.isNone = some q'') : After q (.rep a min max) q'' where
 stack := by
  rw [(RegexScan.quantified_spec hquantified).1, ha.stack, modifyHead_modifyHead]
  simp [Function.comp_def, Regex.hasRepeat, Regex.hasAlternation, Bool.or_assoc, Bool.or_comm (repeats max)]
 unbounded := by rw [(RegexScan.quantified_spec hquantified).2.1, ha.unbounded, Regex.unbounded, Nat.add_assoc]
 simple := by
  refine ⟨ha.simple, fun hrepeats => ?_⟩
  have hnone := (RegexScan.quantified_spec hquantified).2.2 hrepeats
  rw [Holds, hnone, Prod.mk.injEq] at hlast
  exact ⟨hlast.1.symm, hlast.2.symm⟩
 noBackreference := ha.noBackreference

theorem After.group {a : Regex} {kind : GroupKind} (ha : After q.opened a q') (hclosed : q'.closed = some q'') :
  After q (.group kind a) q'' ∧ Holds q'' (.group kind a) := by
 have hstack : q'.stack = (a.hasRepeat, a.hasAlternation) :: q.stack := by
  simp [ha.stack, RegexScan.opened]
 have hunbounded : q'.unbounded = q.unbounded + a.unbounded := ha.unbounded
 rw [RegexScan.closed, hstack] at hclosed
 cases hq : q.stack with
 | nil => simp [hq] at hclosed
 | cons top below =>
  simp only [hq, Option.some.injEq] at hclosed
  subst hclosed
  exact ⟨⟨by simp [hq, Regex.hasRepeat, Regex.hasAlternation], hunbounded, ha.simple, ha.noBackreference⟩, rfl⟩

variable {groups : ℕ} {named : Bool} {r : Regex}

theorem Scans.escape {l : Leaf} (hescape : Escape groups named s l rest) (h : Scans final q ('\\' :: s)) :
  l ≠ .backreference ∧ Scans final q.atom rest := by
 cases hescape with
 | decimal hc hzero =>
  have hback := h.escaped.1
  simp [hc, hzero] at hback
 | name => exact absurd rfl h.escaped.2.1
 | @control c _ hc =>
  have hplain : ∀ d ∈ [c], d ∉ special := by simpa using isAlpha_plain hc
  exact ⟨by simp, h.escaped.2.2.plain hplain⟩
 | hex hdigits => exact ⟨by simp, h.escaped.2.2.plain fun d hd => isHexDigit_plain (hdigits d hd)⟩
 | unicode hdigits => exact ⟨by simp, h.escaped.2.2.plain fun d hd => isHexDigit_plain (hdigits d hd)⟩
 | octal _ _ hdigits => exact ⟨by simp, h.escaped.2.2.plain fun d hd => isOctalDigit_plain (hdigits d hd)⟩
 | single => exact ⟨by simp, h.escaped.2.2⟩

theorem Scans.character (hc : c ∉ syntaxCharacters) (hbraced : braced (c :: s) = none) (h : Scans final q (c :: s)) :
  Scans final q.atom s := by
 by_cases hbrace : c = '{'
 · subst c
   exact h.brace hbraced
 · have hplain : c ∉ special := by
    simp only [syntaxCharacters, special, mem_cons, not_mem_nil, or_false, not_or] at hc ⊢
    simp only [hc, hbrace, not_false_eq_true, and_self]
   exact h.next (scanStep_plain hplain)

theorem groupStart_capturing (hs : headIs (· == '?') s = false) : groupStart s = some s := by
 unfold groupStart
 split <;> first | rfl | simp [headIs] at hs

theorem groupStart_named {name : Text} (hname : '>' ∉ name) (hfirst : headIs (fun c => c == '=' || c == '!') name = false) :
  groupStart ('?' :: '<' :: (name ++ '>' :: s)) = some s := by
 have hdrop : (name ++ '>' :: s).dropWhile (· != '>') = '>' :: s := by
  rw [dropWhile_append_of_pos fun c hc => by simpa using ne_of_mem_of_not_mem hc hname]
  rfl
 cases name with
 | nil => rfl
 | cons c name =>
  simp only [headIs, head?_cons, Option.any_some, Bool.or_eq_false_iff, beq_eq_false_iff_ne] at hfirst
  simp only [cons_append] at hdrop ⊢
  simp [groupStart, hfirst, hdrop]

theorem groupStart_flags {flags : Text} (hflags : ∀ c ∈ flags, c ∈ ['i', 'm', 's', '-'])
  (hstart : groupStart ('?' :: (flags ++ ':' :: s)) = some t) : t = s := by
 cases flags with
 | nil =>
  cases hstart
  rfl
 | cons c flags =>
  have hc := hflags c mem_cons_self
  simp only [mem_cons, not_mem_nil, or_false] at hc
  rcases hc with rfl | rfl | rfl | rfl <;> cases hstart

/-- Wherever a run comes to this part, it leaves what the part has in it, and after an atom what the atom has. -/
def Scanned (final : RegexScan) (part : Part) (s : Text) (r : Regex) (rest : Text) : Prop :=
 ∀ q, Scans final q s → ∃ q', Scans final q' rest ∧ After q r q' ∧ (part = .atom ∨ part = .quantifiable → Holds q' r)

section

variable {part part' : Part} {a b : Regex}

theorem Scanned.weaken (h : Scanned final part s r rest) (hpart : ¬(part' = .atom ∨ part' = .quantifiable)) :
  Scanned final part' s r rest := by
 intro q hscan
 obtain ⟨q', hscan, hafter, -⟩ := h q hscan
 exact ⟨q', hscan, hafter, fun h => absurd h hpart⟩

theorem Scanned.seq (ha : Scanned final part s a t) (hb : Scanned final part' t b rest) : Scanned final .alternative s (.seq a b) rest := by
 intro q hscan
 obtain ⟨qa, hscan, hafter, -⟩ := ha q hscan
 obtain ⟨qb, hscan, hafter', -⟩ := hb qa hscan
 exact ⟨qb, hscan, hafter.seq hafter', by simp⟩

theorem Scanned.alt (ha : Scanned final part s a ('|' :: t)) (hb : Scanned final part' t b rest) :
  Scanned final .disjunction s (.alt a b) rest := by
 intro q hscan
 obtain ⟨qa, hscan, hafter, -⟩ := ha q hscan
 obtain ⟨qb, hscan, hafter', -⟩ := hb _ hscan.alternated
 exact ⟨qb, hscan, hafter.alt hafter', by simp⟩

theorem Scanned.rep {min : ℕ} {max : Option ℕ} (ha : Scanned final part s a t) (hpart : part = .atom ∨ part = .quantifiable)
  (hquantifier : quantifier t = some (min, max, rest)) : Scanned final .term s (.rep a min max) rest := by
 intro q hscan
 obtain ⟨q', hscan, hafter, hlast⟩ := ha q hscan
 obtain ⟨q'', hquantified, hscan⟩ := hscan.quantified hquantifier
 exact ⟨q'', hscan, hafter.rep (hlast hpart) hquantified, by simp⟩

theorem Scanned.leaf {l : Leaf} (h : ∀ q, Scans final q s → l ≠ .backreference ∧ Scans final q.atom rest) :
  Scanned final part s (.leaf l) rest := by
 intro q hscan
 obtain ⟨hl, hscan⟩ := h q hscan
 exact ⟨q.atom, hscan, .leaf hl, fun _ => rfl⟩

theorem Scanned.group {kind : GroupKind} (hstart : groupStart s = some t) (h : Scanned final .disjunction t a (')' :: rest)) :
  Scanned final part ('(' :: s) (.group kind a) rest := by
 intro q hscan
 obtain ⟨q', hscan, hafter, -⟩ := h _ (hscan.opened hstart)
 obtain ⟨q'', hclosed, hscan⟩ := hscan.closed
 obtain ⟨hafter, hlast⟩ := hafter.group hclosed
 exact ⟨q'', hscan, hafter, fun _ => hlast⟩

end

theorem scanned_of_reads {part : Part} (h : Reads groups named part s r rest) : Scanned final part s r rest := by
 induction h with
 | one _ ih => exact ih.weaken (by simp)
 | or _ _ iha ihb => exact iha.alt ihb
 | none => exact fun q hscan => ⟨q, hscan, .refl q, by simp⟩
 | next _ _ iha ihb => exact iha.seq ihb
 | assertion _ ih => exact ih.weaken (by simp)
 | quantifiedAssertion _ hquantifier ih => exact ih.rep (.inr rfl) hquantifier
 | atom _ ih => exact ih.weaken (by simp)
 | quantified _ hquantifier ih => exact ih.rep (.inl rfl) hquantifier
 | bound hc =>
  apply Scanned.leaf
  intro q hscan
  exact ⟨by simp, hscan.next (scanStep_plain (by rcases hc with rfl | rfl <;> decide))⟩
 | wordBoundary => exact .leaf fun q hscan => ⟨by simp, hscan.escaped.2.2⟩
 | quantifiable _ ih => exact ih.weaken (by simp)
 | lookbehind hc _ ih => exact ih.group (by rcases hc with rfl | rfl <;> rfl)
 | lookahead hc _ ih => exact ih.group (by rcases hc with rfl | rfl <;> rfl)
 | dot => exact .leaf fun q hscan => ⟨by simp, hscan.next (scanStep_plain (by decide))⟩
 | escape hescape => exact .leaf fun q hscan => hscan.escape hescape
 | @backslash rest hc =>
  cases rest with
  | nil => simp [headIs] at hc
  | cons c rest =>
   -- The check takes the letter with the backslash; by itself it would leave the same state.
   obtain rfl : c = 'c' := by simpa [headIs] using hc
   apply Scanned.leaf
   intro q hscan
   have hplain : 'c' ∉ special := by decide
   have hstep : scanStep q.atom ('c' :: rest) = some (q.atom, rest) := scanStep_plain hplain
   exact ⟨by simp, .turn (fits_plain hplain) hstep hscan.escaped.2.2⟩
 | characterClass hclass => exact .leaf fun q hscan => ⟨by simp, hscan.class hclass⟩
 | capturing hs _ ih => exact ih.group (groupStart_capturing hs)
 | named hname hfirst _ ih => exact ih.group (groupStart_named hname hfirst)
 | nonCapturing hflags _ ih =>
  intro q hscan
  obtain ⟨t, hstart⟩ := hscan.started
  obtain rfl := groupStart_flags hflags hstart
  exact ih.group hstart q hscan
 | character hc hbraced => exact .leaf fun q hscan => ⟨by simp, hscan.character hc hbraced⟩

/-! ## The bound on quantifiers -/

theorem RegexScan.quantified_bounded {repeats isUnbounded : Bool} (hq : q.unbounded ≤ maxUnboundedQuantifiers)
  (h : q.quantified repeats isUnbounded = some q') : q'.unbounded ≤ maxUnboundedQuantifiers := by
 unfold RegexScan.quantified at h
 split at h
 · cases h
 · split at h
   · cases h
   · split at h
     · cases h
     · rename_i hbound
       cases h
       cases isUnbounded
       · exact hq
       · simpa using hbound

theorem RegexScan.closed_unbounded (h : q.closed = some q') : q'.unbounded = q.unbounded := by
 unfold RegexScan.closed at h
 split at h
 · cases h
   rfl
 · cases h

theorem scanStep_unbounded (h : scanStep q s = some (q', s')) :
  q'.unbounded = q.unbounded ∨ ∃ repeats isUnbounded, q.quantified repeats isUnbounded = some q' := by
 cases s with
 | nil => cases h
 | cons c s =>
  unfold scanStep at h
  simp only at h
  split_ifs at h with hescape hclass hopen hclose halternation hquantifier
  · split at h
    · cases h
    · split_ifs at h
      cases h
      exact .inl rfl
  · obtain ⟨_, _, heq⟩ := Option.map_eq_some_iff.mp h
    cases heq
    exact .inl rfl
  · obtain ⟨_, _, heq⟩ := Option.map_eq_some_iff.mp h
    cases heq
    exact .inl rfl
  · obtain ⟨_, hclosed, heq⟩ := Option.map_eq_some_iff.mp h
    cases heq
    exact .inl (RegexScan.closed_unbounded hclosed)
  · cases h
    exact .inl rfl
  · split at h
    · cases h
    · cases h
      exact .inl rfl
    · obtain ⟨_, hquantified, heq⟩ := Option.map_eq_some_iff.mp h
      cases heq
      exact .inr ⟨_, _, hquantified⟩
  · cases h
    exact .inl rfl

theorem scanStep_bounded (hq : q.unbounded ≤ maxUnboundedQuantifiers) (h : scanStep q s = some (q', s')) :
  q'.unbounded ≤ maxUnboundedQuantifiers := by
 rcases scanStep_unbounded h with hsame | ⟨_, _, hquantified⟩
 · rw [hsame]
   exact hq
 · exact RegexScan.quantified_bounded hq hquantified

theorem Scans.bounded (hscan : Scans final q s) (hq : q.unbounded ≤ maxUnboundedQuantifiers) :
  final.unbounded ≤ maxUnboundedQuantifiers := by
 induction hscan with
 | ended => exact hq
 | turn _ hstep _ ih => exact ih (scanStep_bounded hq hstep)

/-- Where every class and every quantifier is taken as the grammar takes it, what is admitted is safe. -/
theorem admitted_safe {src : Text} (hsafe : isSafeRegex src = true) (hfits : ∀ t ∈ turns src, Fits t)
  (hpattern : Pattern groups named src r) :
  r.Simple ∧ r.hasBackreference = false ∧ r.unbounded ≤ maxUnboundedQuantifiers := by
 unfold isSafeRegex at hsafe
 split at hsafe
 · cases hsafe
 · split at hsafe
   · cases hsafe
   · rename_i final hrun
     have hscan := scans_of_scanFrom hrun hfits
     obtain ⟨q', hended, hafter, -⟩ := scanned_of_reads hpattern _ hscan
     have hbounded := hscan.bounded (Nat.zero_le _)
     rw [← hended.eq_final, hafter.unbounded] at hbounded
     exact ⟨hafter.simple, hafter.noBackreference, by simpa using hbounded⟩

theorem admitted_safe_group : ∃ r, Pattern 0 false ['(', '?', ':', 'a', ')', '+', 'b'] r ∧
  r.Simple ∧ r.hasBackreference = false ∧ r.unbounded ≤ maxUnboundedQuantifiers := by
 have hgroup : Reads 0 false .atom ['(', '?', ':', 'a', ')', '+', 'b'] (.group .nonCapturing (.seq (.leaf .character) .empty)) ['+', 'b'] :=
  @Reads.nonCapturing 0 false [] _ _ _ (by simp) (.one (.next (.atom (.character (by decide) rfl)) .none))
 have hpattern : Pattern 0 false ['(', '?', ':', 'a', ')', '+', 'b'] _ :=
  .one (.next (.quantified hgroup rfl) (.next (.atom (.character (by decide) rfl)) .none))
 have hsafe : isSafeRegex ['(', '?', ':', 'a', ')', '+', 'b'] = true := by decide
 exact ⟨_, hpattern, admitted_safe hsafe (by decide) hpattern⟩

/-- The class of `[](a+)+]` ends at its second character; the check takes all of it as one class. -/
theorem closed_class_hides_group : isSafeRegex ['[', ']', '(', 'a', '+', ')', '+', ']'] = true ∧
  ∃ r, Pattern 1 false ['[', ']', '(', 'a', '+', ')', '+', ']'] r ∧ ¬r.Simple := by
 have hclass : Reads 1 false .atom ['[', ']', '(', 'a', '+', ')', '+', ']'] (.leaf .character) ['(', 'a', '+', ')', '+', ']'] :=
  .characterClass (.plain rfl .close)
 have hgroup : Reads 1 false .atom ['(', 'a', '+', ')', '+', ']'] (.group .capturing (.seq (.rep (.leaf .character) 1 none) .empty))
   ['+', ']'] :=
  .capturing rfl (.one (.next (.quantified (.character (by decide) rfl) rfl) .none))
 have hlast : Reads 1 false .alternative [']'] (.seq (.leaf .character) .empty) [] :=
  .next (.atom (.character (by decide) rfl)) .none
 exact ⟨by decide, _, .one (.next (.atom hclass) (.next (.quantified hgroup rfl) hlast)), by
  simp [Regex.Simple, Regex.hasRepeat, repeats]⟩

end MoltBrowser.Procedural
