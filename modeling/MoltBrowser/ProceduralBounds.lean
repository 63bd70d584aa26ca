import MoltBrowser.ProceduralFilters

set_option autoImplicit false

/-! # What a procedural filter is bounded by -/
namespace MoltBrowser.Procedural
open ByteTexts List
open FilterLists (trim isAsciiWhitespace)
open TextReaders (headIs)

/-! ## Vetted filters -/

def Matcher.Safe : Matcher → Prop
 | .re source _ => isSafeRegex source = true
 | _ => True

def Op.Vetted : Op → Prop
 | .hasText arg => arg.Safe
 | .upward n => 1 ≤ n ∧ n ≤ maxUpward
 | .matchesAttr name value => name.Safe ∧ ∀ m ∈ value, m.Safe
 | .matchesCss _ _ value => value.Safe
 | .has _ | .not _ => False
 | _ => True

/-- It is written with at most this many operators in one another; `:if-not` is one, and stands as an operator in another. -/
inductive Op.Written : ℕ → Op → Prop
 | leaf {n : ℕ} {op : Op} (h : op.Vetted) : Written n op
 | has {n : ℕ} {inner : List Op} (h : ∀ op ∈ inner, Written n op) : Written (n + 1) (.has inner)
 | not {n : ℕ} {inner : List Op} (h : ∀ op ∈ inner, Written n op) : Written (n + 1) (.not inner)
 | ifNot {n : ℕ} {inner : List Op} (h : ∀ op ∈ inner, Written n op) : Written (n + 1) (.not [.has inner])

mutual

def Op.nesting : Op → ℕ
 | .has inner => nestings inner + 1
 | .not inner => nestings inner + 1
 | _ => 0

def nestings : List Op → ℕ
 | [] => 0
 | op :: ops => max op.nesting (nestings ops)

end

structure Filter.Vetted (f : Filter) : Prop where
 path : ∀ m ∈ f.path, m.Safe
 watch : ∀ a ∈ f.watch, isAttrName a = true

variable {n : ℕ} {ops : List Op}

theorem nestings_le (h : ∀ op ∈ ops, op.nesting ≤ n) : nestings ops ≤ n := by
 induction ops with
 | nil => exact Nat.zero_le n
 | cons op ops ih =>
  rw [nestings, Nat.max_le]
  exact ⟨h op mem_cons_self, ih fun op' hop => h op' (mem_cons_of_mem _ hop)⟩

theorem Op.Vetted.nesting {op : Op} (h : op.Vetted) : op.nesting = 0 := by
 cases op with
 | has => exact h.elim
 | not => exact h.elim
 | _ => rfl

theorem Op.Written.nesting {op : Op} (h : op.Written n) : op.nesting ≤ 2 * n := by
 induction h with
 | leaf h => simp [h.nesting]
 | has _ ih =>
  have hinner := nestings_le ih
  rw [Op.nesting]
  omega
 | not _ ih =>
  have hinner := nestings_le ih
  rw [Op.nesting]
  omega
 | ifNot _ ih =>
  have hinner := nestings_le ih
  simp only [Op.nesting, nestings]
  omega

/-! ## The arguments of operators -/

def StringOp.Vetted : StringOp → Prop
 | .op o => o.Vetted
 | .path m => m.Safe
 | .watch attrs => ∀ a ∈ attrs, isAttrName a = true

variable {s : Text}

variable {c : Char}

theorem boundary_first (h : s.head? = some c) (hc : c.utf8Size = 1) : Boundary s 1 := by
 obtain ⟨t, rfl⟩ := head?_eq_some_iff.mp h
 exact ⟨[c], t, rfl, by simp [bytes_length_cons, hc]⟩

theorem boundary_last (h : s.getLast? = some c) (hc : c.utf8Size = 1) : Boundary s ((bytes s).length - 1) := by
 obtain ⟨t, rfl⟩ := getLast?_eq_some_iff.mp h
 exact ⟨t, [c], rfl, by simp [bytes_length_cons, hc]⟩

theorem head_of_headIs (h : headIs (· == c) s = true) : s.head? = some c := by
 cases s with
 | nil => cases h
 | cons d s => simpa [headIs] using h

theorem unquote_returns (s : Text) : Returns (unquote s) fun _ => True := by
 unfold unquote
 split_ifs with h
 · obtain ⟨hlen, ⟨hfirst, hlast⟩ | ⟨hfirst, hlast⟩⟩ := h
   · exact (slice_length (boundary_first hfirst (by decide)) (boundary_last hlast (by decide)) (by omega)).mono fun _ _ => trivial
   · exact (slice_length (boundary_first hfirst (by decide)) (boundary_last hlast (by decide)) (by omega)).mono fun _ _ => trivial
 · exact .pure trivial

theorem regexMatcher_returns (arg : Text) {plain : Matcher} (hplain : plain.Safe) :
  Returns (regexMatcher arg plain) fun r => ∀ m ∈ r, m.Safe := by
 have hother : Returns (.ok (some plain)) fun r => ∀ m ∈ r, m.Safe := .pure (by simpa using hplain)
 unfold regexMatcher
 split_ifs with hslash
 · split
   · rename_i last hlast
     split_ifs with hpos
     · obtain ⟨u, v, rfl, hu⟩ := rfind_some hlast
       have hsize : '/'.utf8Size = 1 := by decide
       have hfirst : Boundary (u ++ '/' :: v) 1 := boundary_first (head_of_headIs hslash.2) hsize
       have hlast : Boundary (u ++ '/' :: v) last := ⟨u, '/' :: v, rfl, hu⟩
       have hafter : Boundary (u ++ '/' :: v) (last + 1) := ⟨u ++ ['/'], v, by simp, by simp [hu, bytes_length_cons, hsize]⟩
       have hle : last + 1 ≤ (bytes (u ++ '/' :: v)).length := by
        rw [bytes_append, length_append, hu, bytes_length_cons, hsize]
        omega
       refine (slice_length hfirst hlast hpos).bind fun source _ => ?_
       refine (slice_length hafter (boundary_end _) hle).bind fun flags _ => ?_
       refine .pure ?_
       intro m hm
       split_ifs at hm with hflags hsafe
       · cases hm
         exact hsafe
       · cases hm
       · cases hm
         exact hplain
     · exact hother
   · exact hother
 · exact hother

theorem textMatcher_returns (arg : Text) (exact : Bool) : Returns (textMatcher arg exact) fun r => ∀ m ∈ r, m.Safe := by
 unfold textMatcher
 by_cases hlen : maxArgLen < (bytes arg).length
 · rw [if_pos hlen]
   exact .pure (by simp)
 · rw [if_neg hlen]
   cases exact with
   | true => exact (unquote_returns arg).bind fun arg _ => regexMatcher_returns arg trivial
   | false => exact regexMatcher_returns arg trivial

theorem matchesAttr_returns (arg : Text) : Returns (matchesAttr arg) fun r => ∀ o ∈ r, o.Vetted := by
 refine (splitKeyValue_returns arg).bind fun (name, value) _ => ?_
 refine (textMatcher_returns name true).bind fun r hname => ?_
 cases r with
 | none => exact .pure (by simp)
 | some m =>
  have hm := hname m rfl
  cases value with
  | none =>
   refine .pure ?_
   rintro _ ⟨⟩
   exact ⟨hm, by simp⟩
  | some value =>
   refine (textMatcher_returns value true).bind fun r hvalue => ?_
   cases r with
   | none => exact .pure (by simp)
   | some m' =>
    refine .pure ?_
    rintro _ ⟨⟩
    exact ⟨hm, hvalue⟩

theorem matchesCss_returns (name arg : Text) : Returns (matchesCss name arg) fun r => ∀ o ∈ r, o.Vetted := by
 unfold matchesCss
 by_cases hcolon : ':' ∉ arg
 · rw [if_pos hcolon]
   exact .pure (by simp)
 · rw [if_neg hcolon]
   simp only
   split_ifs
   · exact .pure (by simp)
   · refine (textMatcher_returns _ true).bind fun r hr => ?_
     refine .pure ?_
     intro o ho
     obtain ⟨m, hm, rfl⟩ := Option.map_eq_some_iff.mp ho
     exact hr m hm

theorem upward_returns (name arg : Text) : Returns (upward name arg) fun r => ∀ o ∈ r, o.Vetted := by
 unfold upward
 split
 · refine .pure ?_
   split_ifs with hn
   · simp
   · rintro _ ⟨⟩
     rw [not_or, Nat.not_lt] at hn
     exact ⟨Nat.pos_of_ne_zero hn.1, hn.2⟩
 · split_ifs
   · refine (hasProceduralSyntax_returns arg).bind fun procedural _ => ?_
     refine .pure ?_
     split_ifs
     · simp
     · rintro _ ⟨⟩
       trivial
   · exact .pure (by simp)

theorem watchAttr_vetted (arg : Text) : ∀ o ∈ watchAttr arg, o.Vetted := by
 unfold watchAttr
 simp only
 split_ifs with hattrs
 · simp
 · rintro _ ⟨⟩
   rw [Bool.not_eq_true, Bool.or_eq_false_iff, Bool.not_eq_false'] at hattrs
   exact all_eq_true.mp hattrs.2

theorem stringOp_returns (name arg : Text) : Returns (stringOp name arg) fun r => ∀ o ∈ r, o.Vetted := by
 unfold stringOp
 simp only
 split_ifs
 · refine (textMatcher_returns _ false).bind fun r hr => ?_
   refine .pure ?_
   intro o ho
   obtain ⟨m, hm, rfl⟩ := Option.map_eq_some_iff.mp ho
   exact hr m hm
 · refine .pure ?_
   intro o ho
   obtain ⟨n, -, hn⟩ := Option.bind_eq_some_iff.mp ho
   split_ifs at hn
   cases hn
   trivial
 · exact upward_returns name _
 · refine (unquote_returns _).bind fun expr _ => ?_
   refine .pure ?_
   split_ifs
   · simp
   · rintro _ ⟨⟩
     trivial
 · exact matchesAttr_returns _
 · exact matchesCss_returns name _
 · refine (textMatcher_returns _ false).bind fun r hr => ?_
   refine .pure ?_
   intro o ho
   obtain ⟨m, hm, rfl⟩ := Option.map_eq_some_iff.mp ho
   exact hr m hm
 · exact .pure (watchAttr_vetted _)
 · exact .pure (by simp)

/-! ## The parts of a selector -/

theorem trim_length (s : Text) : (trim s).length ≤ s.length := by
 have hsuffix := dropWhile_suffix FilterLists.isWhitespace (l := s)
 have hback := dropWhile_suffix FilterLists.isWhitespace (l := (s.dropWhile FilterLists.isWhitespace).reverse)
 have hle := hback.length_le
 have hle' := hsuffix.length_le
 rw [length_reverse] at hle
 rw [trim, length_reverse]
 omega

theorem cssPart_sibling {isFirst : Bool} {text part : Text} {ctx : Context} (h : cssPart isFirst text ctx = some part)
  (hsibling : headIs (fun c => c == '+' || c == '~') part = true) : part = trim text := by
 have hspace : ∀ {t : Text}, headIs (fun c => c == '+' || c == '~') (' ' :: t) = false := by simp [headIs]
 unfold cssPart at h
 simp only at h
 split at h
 · split at h
   · split_ifs at h
     cases h
     rfl
   · split_ifs at h
     · cases h
       rfl
     · cases h
       rw [hspace] at hsibling
       cases hsibling
   · cases h
     rfl
 · split_ifs at h
   · cases h
     rfl
   · cases h
     rw [hspace] at hsibling
     cases hsibling
   · cases h
     rfl

def AddsCss (ops : List Op) (r : Option (List Op)) : Prop := ∀ ops' ∈ r, ∀ op ∈ ops', op ∈ ops ∨ ∃ arg, op = .cssSelector arg

theorem addsCss_append (ops : List Op) (arg : Text) : AddsCss ops (some (ops ++ [.cssSelector arg])) := by
 rintro _ ⟨⟩ op hop
 rw [mem_append, mem_singleton] at hop
 exact hop.imp id fun h => ⟨arg, h⟩

theorem flushCssFrom_returns {fuel : ℕ} {text : Text} {ctx : Context} (h : text.length < fuel) :
  Returns (flushCssFrom fuel ops text ctx) (AddsCss ops) := by
 induction fuel generalizing ops text with
 | zero => omega
 | succ fuel ih =>
  rw [flushCssFrom]
  by_cases hblank : (trim text).isEmpty = true
  · rw [if_pos hblank]
    refine .pure ?_
    rintro _ ⟨⟩ op hop
    exact .inl hop
  · rw [if_neg hblank]
    split
    · exact .pure (by simp [AddsCss])
    · rename_i part hpart
      split_ifs with hlen hsibling
      · exact .pure (by simp [AddsCss])
      · refine (splitFirstCompound_returns part).bind fun (step, rest) hrest => ?_
        by_cases hrestBlank : (trim rest).isEmpty = true
        · simp only [if_pos hrestBlank]
          exact .pure (addsCss_append ops step)
        · simp only [if_neg hrestBlank]
          have hshorter : rest.length < part.length := by
           refine hrest.resolve_left ?_
           rintro rfl
           exact hrestBlank rfl
          have htrim := trim_length text
          rw [← cssPart_sibling hpart hsibling] at htrim
          refine (ih (by omega)).mono fun r hr ops' hops op hop => ?_
          rcases hr ops' hops op hop with hmem | hcss
          · exact addsCss_append ops step _ rfl op hmem
          · exact .inr hcss
      · exact .pure (addsCss_append ops part)

theorem flushCss_returns (ops : List Op) (text : Text) (ctx : Context) : Returns (flushCss ops text ctx) (AddsCss ops) :=
 flushCssFrom_returns (Nat.lt_succ_self _)

/-! ## Selectors -/

/-- What the parser keeps true: every operator fits in the levels that are left. -/
structure Parse.Valid (sel : Text) (depth : ℕ) (p : Parse) : Prop where
 ops : ∀ op ∈ p.ops, op.Written (maxDepth - depth)
 filter : p.filter.Vetted
 segment : Boundary sel p.segStart
 past : p.segStart ≤ p.i

def Parsed (depth : ℕ) (r : List Op × Filter) : Prop := (∀ op ∈ r.1, op.Written (maxDepth - depth)) ∧ r.2.Vetted

variable {sel name arg : Text} {depth close : ℕ} {ctx : Context} {p p' : Parse} {inner : Inner} {i : ℕ}

theorem written_flushed {ops' : List Op} {r : Option (List Op)} (hops : ∀ op ∈ ops, op.Written n) (h : AddsCss ops r)
  (hr : ops' ∈ r) : ∀ op ∈ ops', op.Written n := by
 intro op hop
 rcases h ops' hr op hop with hmem | ⟨arg, rfl⟩
 · exact hops op hmem
 · exact .leaf trivial

theorem written_selectorOp (h : ∀ op ∈ ops, op.Written n) : (selectorOp name ops).Written (n + 1) := by
 have hinner : ∀ op ∈ innerOps name ops, op.Written n := by
  unfold innerOps
  split_ifs
  · rw [forall_mem_cons]
    exact ⟨.leaf trivial, h⟩
  · exact h
 unfold selectorOp
 split_ifs
 · exact .not hinner
 · exact .ifNot hinner
 · exact .has hinner

theorem Parse.Valid.next (hp : p.Valid sel depth) (hi : p.i < i) : ∀ p' ∈ p.next i, p'.Valid sel depth ∧ p.i < p'.i := by
 unfold Parse.next
 split_ifs
 · simp
 · rintro _ ⟨⟩
   exact ⟨⟨hp.ops, hp.filter, hp.segment, hp.past.trans hi.le⟩, hi⟩

def InnerReturns (inner : Inner) (len depth : ℕ) : Prop :=
 ∀ arg ctx filter, (bytes arg).length < len → filter.Vetted → Returns (inner arg (depth + 1) ctx filter) fun r => ∀ x ∈ r,
  depth < maxDepth ∧ Parsed (depth + 1) x

def Advances (sel : Text) (depth : ℕ) (p : Parse) (r : Option Parse) : Prop := ∀ p' ∈ r, p'.Valid sel depth ∧ p.i < p'.i

theorem nativeCss_returns (hi : Boundary sel i) (hclose : Boundary sel (close + 1)) (hle : i ≤ close + 1) :
  Returns (nativeCss sel name arg i close) fun _ => True := by
 unfold nativeCss
 split_ifs
 · exact (slice_length hi hclose hle).mono fun _ _ => trivial
 · exact .pure trivial
 · exact .pure trivial

theorem parseSelectorOp_returns (hp : p.Valid sel depth) (hi : Boundary sel p.i) (hclose : Boundary sel (close + 1)) (hle : p.i ≤ close)
  {len : ℕ} (hinner : InnerReturns inner len depth) (hlen : (bytes arg).length < len) :
  Returns (parseSelectorOp inner sel depth ctx p name arg close) (Advances sel depth p) := by
 refine (slice_length hp.segment hi hp.past).bind fun segment _ => ?_
 refine (hasProceduralSyntax_returns arg).bind fun procedural _ => ?_
 cases procedural with
 | false =>
  refine (nativeCss_returns hi hclose (by omega)).bind fun plain _ => ?_
  refine .pure ?_
  rintro _ ⟨⟩
  exact ⟨⟨hp.ops, hp.filter, hclose, Nat.le_refl _⟩, Nat.lt_succ_of_le hle⟩
 | true =>
  refine (flushCss_returns _ _ _).bind fun r hr => ?_
  cases r with
  | none => exact .pure (by simp [Advances])
  | some ops =>
   refine (hinner arg _ _ hlen hp.filter).bind fun x hx => ?_
   cases x with
   | none => exact .pure (by simp [Advances])
   | some x =>
    obtain ⟨hdepth, hwritten, hfilter⟩ := hx x rfl
    refine .pure ?_
    rintro _ ⟨⟩
    refine ⟨⟨?_, hfilter, hclose, Nat.le_refl _⟩, Nat.lt_succ_of_le hle⟩
    have hlevel : maxDepth - depth = maxDepth - (depth + 1) + 1 := by omega
    intro op hop
    rw [mem_append, mem_singleton] at hop
    rcases hop with hop | rfl
    · exact written_flushed hp.ops hr rfl op hop
    · rw [hlevel]
      exact written_selectorOp hwritten

theorem addStringOp_valid {filter : Filter} {o : StringOp} {r : List Op × Filter} (ho : o.Vetted)
  (hops : ∀ op ∈ ops, op.Written n) (hfilter : filter.Vetted) (h : addStringOp depth ops filter o = some r) :
  (∀ op ∈ r.1, op.Written n) ∧ r.2.Vetted := by
 cases o with
 | op o =>
  cases h
  refine ⟨fun op hop => ?_, hfilter⟩
  rw [mem_append, mem_singleton] at hop
  rcases hop with hop | rfl
  · exact hops op hop
  · exact .leaf ho
 | path m =>
  rw [addStringOp] at h
  split_ifs at h
  cases h
  exact ⟨hops, by rintro _ ⟨⟩; exact ho, hfilter.watch⟩
 | watch attrs =>
  cases h
  refine ⟨hops, hfilter.path, fun a ha => ?_⟩
  exact (mem_append.mp ha).elim (hfilter.watch a) (ho a)

theorem parseStringOp_returns (hp : p.Valid sel depth) (hi : Boundary sel p.i) (hclose : Boundary sel (close + 1)) (hle : p.i ≤ close) :
  Returns (parseStringOp sel depth ctx p name arg close) (Advances sel depth p) := by
 refine (slice_length hp.segment hi hp.past).bind fun segment _ => ?_
 refine (flushCss_returns _ _ _).bind fun r hr => ?_
 cases r with
 | none => exact .pure (by simp [Advances])
 | some ops =>
  refine (stringOp_returns name arg).bind fun o ho => ?_
  refine .pure ?_
  intro p' hp'
  obtain ⟨r, hadded, rfl⟩ := Option.map_eq_some_iff.mp hp'
  obtain ⟨o, rfl, hadded⟩ := Option.bind_eq_some_iff.mp hadded
  obtain ⟨hops, hfilter⟩ := addStringOp_valid (ho o rfl) (written_flushed hp.ops hr rfl) hp.filter hadded
  exact ⟨⟨hops, hfilter, hclose, Nat.le_refl _⟩, Nat.lt_succ_of_le hle⟩

theorem parseFunction_returns (hp : p.Valid sel depth) (hi : Boundary sel p.i) (hclose : Boundary sel (close + 1)) (hle : p.i ≤ close)
  {len : ℕ} (hinner : InnerReturns inner len depth) (hlen : (bytes arg).length < len) :
  Returns (parseFunction inner sel depth ctx p name arg close) (Advances sel depth p) := by
 unfold parseFunction
 split_ifs
 · exact .pure (by simp [Advances])
 · exact parseSelectorOp_returns hp hi hclose hle hinner hlen
 · exact parseStringOp_returns hp hi hclose hle
 · refine (hasProceduralSyntax_returns arg).bind fun procedural _ => ?_
   refine .pure ?_
   split_ifs
   · simp [Advances]
   · exact hp.next (Nat.lt_succ_of_le hle)

theorem parseTurn_returns (hp : p.Valid sel depth) (hlt : p.i < (bytes sel).length)
  (hinner : InnerReturns inner ((bytes sel).length - p.i) depth) :
  Returns (parseTurn inner sel depth ctx p) (Advances sel depth p) := by
 refine (byteAt_returns hlt).bind fun c hc => ?_
 split_ifs with hescape hbracket hcolon hdouble
 · exact .pure (hp.next (by omega))
 · refine (skipBrackets_returns _ _).bind fun past hpast => ?_
   refine .pure ?_
   intro p' hp'
   obtain ⟨j, hj, hp'⟩ := Option.bind_eq_some_iff.mp hp'
   exact hp.next (hpast j hj).1 p' hp'
 · exact .pure (hp.next (by omega))
 · subst hcolon
   obtain ⟨hi, hstart⟩ := boundary_ascii hc (by decide)
   refine (skipWhile_returns (by omega)).bind fun j hj => ?_
   refine (isAt_returns _ _ _).bind fun found hfound => ?_
   cases found with
   | false =>
    refine .pure ?_
    rintro _ ⟨⟩
    have hmax : p.i < max j (p.i + 1) := by omega
    exact ⟨⟨hp.ops, hp.filter, hp.segment, hp.past.trans hmax.le⟩, hmax⟩
   | true =>
    have hopen := hfound rfl
    refine (findCloseParen_after hopen).bind fun r hr => ?_
    cases r with
    | none => exact .pure (by simp [Advances])
    | some close =>
     obtain ⟨hle, hclose, -⟩ := hr close rfl
     have hname := boundary_ascii hopen (by decide)
     have hend := boundary_close hr rfl
     refine (slice_length hstart hname.1 hj.1).bind fun name _ => ?_
     refine (slice_length hname.2 hend.1 hle).bind fun arg harg => ?_
     exact parseFunction_returns hp hi hend.2 (by omega) hinner (by omega)
 · exact .pure (hp.next (by omega))

theorem boundary_le (h : Boundary sel i) : i ≤ (bytes sel).length := by
 obtain ⟨u, v, rfl, rfl⟩ := h
 simp

theorem parseEnd_returns (hp : p.Valid sel depth) : Returns (parseEnd sel ctx p) fun r => ∀ x ∈ r, Parsed depth x := by
 have hle := boundary_le hp.segment
 unfold parseEnd
 rw [Nat.min_eq_left hle]
 refine (slice_length hp.segment (boundary_end sel) hle).bind fun segment _ => ?_
 refine (flushCss_returns _ _ _).bind fun r hr => ?_
 refine .pure ?_
 intro x hx
 obtain ⟨ops, hops, hx⟩ := Option.bind_eq_some_iff.mp hx
 split_ifs at hx
 cases hx
 exact ⟨written_flushed hp.ops hr hops, hp.filter⟩

theorem valid_start {filter : Filter} (h : filter.Vetted) : Parse.Valid sel depth { filter } where
 ops := by simp
 filter := h
 segment := boundary_zero sel
 past := Nat.le_refl 0

theorem parseFrom_returns {fuel : ℕ} (hp : p.Valid sel depth) (hdepth : depth ≤ maxDepth) (h : (bytes sel).length - p.i < fuel) :
  Returns (parseFrom fuel sel depth ctx p) fun r => ∀ x ∈ r, Parsed depth x := by
 induction fuel generalizing sel depth ctx p with
 | zero => omega
 | succ fuel ih =>
  rw [parseFrom]
  by_cases hlt : p.i < (bytes sel).length
  · rw [if_pos hlt]
    have hinner : InnerReturns (fun arg depth ctx filter => if maxDepth < depth then .ok none else parseFrom fuel arg depth ctx { filter })
      ((bytes sel).length - p.i) depth := by
     intro arg ctx filter hlen hfilter
     by_cases hdeep : maxDepth < depth + 1
     · simp only [if_pos hdeep]
       exact .pure (by simp)
     · simp only [if_neg hdeep]
       refine (ih (valid_start hfilter) (by omega) (by simp only; omega)).mono fun r hr x hx => ?_
       exact ⟨by omega, hr x hx⟩
    refine (parseTurn_returns hp hlt hinner).bind fun r hr => ?_
    cases r with
    | none => exact .pure (by simp)
    | some p' =>
     obtain ⟨hvalid, hnext⟩ := hr p' rfl
     exact ih hvalid hdepth (by omega)
  · rw [if_neg hlt]
    exact parseEnd_returns hp

/-! ## Filters -/

structure Filter.Bounded (f : Filter) : Prop where
 written : ∀ op ∈ f.ops, op.Written maxDepth
 nesting : nestings f.ops ≤ 2 * maxDepth
 vetted : f.Vetted

theorem parseFilter_returns (selector : Text) : Returns (parseFilter selector) fun r => ∀ f ∈ r, f.Bounded := by
 unfold parseFilter
 by_cases hlen : maxSelectorLen < (bytes selector).length
 · rw [if_pos hlen]
   exact .pure (by simp)
 · rw [if_neg hlen]
   have hempty : Filter.Vetted {} := ⟨by simp, by simp⟩
   have hparsed : Returns (parseSelector selector 0 .document {}) fun r => ∀ x ∈ r, Parsed 0 x :=
    parseFrom_returns (valid_start hempty) (Nat.zero_le _) (Nat.lt_succ_self _)
   refine hparsed.bind fun r hr => ?_
   refine .pure ?_
   intro f hf
   obtain ⟨x, hx, hf⟩ := Option.bind_eq_some_iff.mp hf
   obtain ⟨hwritten, hvetted⟩ := hr x hx
   split_ifs at hf
   cases hf
   exact ⟨hwritten, nestings_le fun op hop => (hwritten op hop).nesting, hvetted.path, hvetted.watch⟩

/-- No scanner faults or goes on forever, on any text and from any index, and what is parsed is bounded. -/
theorem procedural_bounded (s : Text) :
  Returns (parseFilter s) (fun r => ∀ f ∈ r, f.Bounded) ∧ Returns (scanPseudos s) (fun _ => True) ∧
   (∀ i, Returns (skipBrackets (bytes s) i) fun r => ∀ j ∈ r, i < j ∧ j ≤ (bytes s).length) ∧
   (∀ i, Returns (findCloseParen (bytes s) i) (ClosesAfter (bytes s) i)) ∧
   Returns (splitFirstCompound s) (fun _ => True) ∧ Returns (splitKeyValue s) (fun _ => True) := by
 refine ⟨parseFilter_returns s, scanPseudos_returns s, skipBrackets_returns _, findCloseParen_returns _, ?_, splitKeyValue_returns s⟩
 exact (splitFirstCompound_returns s).mono fun _ _ => trivial

/-- `:if-not(:if-not(:xpath(a)))` -/
theorem ifNot_nests_twice : ∃ f, parseFilter [':', 'i', 'f', '-', 'n', 'o', 't', '(', ':', 'i', 'f', '-', 'n', 'o', 't', '(', ':', 'x', 'p',
  'a', 't', 'h', '(', 'a', ')', ')', ')'] = .ok (some f) ∧ maxDepth < nestings f.ops := by
 have hinner : nestings [.not [.has [.cssSelector [' ', '*'], .not [.has [.cssSelector [' ', '*'], .xpath ['a']]]]]] = 4 := by decide
 exact ⟨{ ops := [.not [.has [.cssSelector [' ', '*'], .not [.has [.cssSelector [' ', '*'], .xpath ['a']]]]]] }, rfl, by rw [hinner]; decide⟩

end MoltBrowser.Procedural
