import MoltBrowser.Bytes
import MoltBrowser.Rewriting

set_option autoImplicit false

/-!
# The fence around page text

Text of a page is rewritten before the model sees it, so that nothing in it can pass for the
markers it stands between.
-/
namespace MoltBrowser.AgentSafety
open Rewriting List

def asciiLower (c : UInt8) : UInt8 := if 0x41 ≤ c ∧ c ≤ 0x5A then c - 0x41 + 0x61 else c

def replaceAll (s pat repl : Bytes) : Bytes := rewrite id pat repl s

def replaceAllCaseInsensitive (haystack needle replacement : Bytes) : Bytes :=
 if needle = [] then haystack else rewrite asciiLower needle replacement haystack

def kUntrustedBegin : Bytes := "<<<UNTRUSTED_PAGE_CONTENT>>>"
def kUntrustedEnd : Bytes := "<<<END_UNTRUSTED_PAGE_CONTENT>>>"

def lt : UInt8 := 0x3C
def gt : UInt8 := 0x3E

def kAngleLookalikes : List (Bytes × UInt8) :=
 [([0xEF, 0xBC, 0x9C], lt), ([0xEF, 0xBC, 0x9E], gt), ([0xE2, 0x80, 0xB9], lt), ([0xE2, 0x80, 0xBA], gt),
  ([0xC2, 0xAB], lt), ([0xC2, 0xBB], gt), ([0xE3, 0x80, 0x88], lt), ([0xE3, 0x80, 0x89], gt)]

def isDropped (c : UInt8) : Bool := (c < 0x20 && c != 0x0A && c != 0x09) || c == 0x7F

/-- No more than two angle brackets of a kind in a row. -/
@[grind =] def capRuns : Bytes → Bytes
 | [] => []
 | c :: s =>
  if c = lt ∨ c = gt then
   List.replicate (min ((s.takeWhile (· == c)).length + 1) 2) c ++ capRuns (s.dropWhile (· == c))
  else c :: capRuns s
termination_by s => s.length
decreasing_by
 · have := (dropWhile_suffix (l := s) (· == c)).length_le
   simp only [length_cons]
   omega
 · simp

def foldLookalikes (s : Bytes) : Bytes :=
 kAngleLookalikes.foldl (fun s l => replaceAll s l.1 [l.2]) s

def sanitizeUntrustedText (text : Bytes) : Bytes :=
 let folded := foldLookalikes (text.filter fun c => !isDropped c)
 let out := capRuns folded
 let out := replaceAll out "<|" "< |"
 let out := replaceAll out "|>" "| >"
 replaceAllCaseInsensitive out "untrusted_page_content" "untrusted page content"

def fenceUntrustedText (text : Bytes) : Bytes :=
 kUntrustedBegin ++ utf8 "\n" ++ sanitizeUntrustedText text ++ utf8 "\n" ++ kUntrustedEnd

/-! ## What stays out -/

def wording : Bytes := "untrusted_page_content"

structure Clean (s : Bytes) : Prop where
 control : ∀ c ∈ s, isDropped c = false
 lookalike : ∀ l ∈ kAngleLookalikes, ¬ l.1 <:+: s
 opening : ¬ [lt, lt, lt] <:+: s
 closing : ¬ [gt, gt, gt] <:+: s
 tokenStart : ¬ utf8 "<|" <:+: s
 tokenEnd : ¬ utf8 "|>" <:+: s
 worded : ¬ wording <:+: s.map asciiLower

theorem lookalike_barrier : ∀ l ∈ kAngleLookalikes, Barrier l.2 l.1 [l.2] := by
 have hchecks : ∀ l ∈ kAngleLookalikes, l.2 ∉ l.1 ∧ l.1 ≠ [] := by decide
 exact fun l hl => barrier_singleton (hchecks l hl).1 (hchecks l hl).2

theorem tokenStart_barrier : Barrier 0x20 (utf8 "<|") (utf8 "< |") :=
 .of_parts (by decide) (by decide) (by decide) (by decide) (by decide)

theorem tokenEnd_barrier : Barrier 0x20 (utf8 "|>") (utf8 "| >") :=
 .of_parts (by decide) (by decide) (by decide) (by decide) (by decide)

theorem wording_barrier : Barrier 0x20 wording (utf8 "untrusted page content") :=
 .of_parts (by decide) (by decide) (by decide) (by decide) (by decide)

/-! ## Folding and capping -/

theorem fold_clean (s : Bytes) : ∀ l ∈ kAngleLookalikes, ¬ l.1 <:+: foldLookalikes s := by
 have hdisjoint : ∀ l ∈ kAngleLookalikes, ∀ l' ∈ kAngleLookalikes, l'.2 ∉ l.1 := by decide
 have hne : ∀ l ∈ kAngleLookalikes, l.1 ≠ [] := by decide
 have hfold : ∀ (todo done : List (Bytes × UInt8)) (s : Bytes), done ++ todo = kAngleLookalikes →
   (∀ l ∈ done, ¬ l.1 <:+: s) →
   ∀ l ∈ kAngleLookalikes, ¬ l.1 <:+: todo.foldl (fun s l => replaceAll s l.1 [l.2]) s := by
  intro todo
  induction todo with
  | nil =>
   intro done s hsplit hdone l hl
   rw [append_nil] at hsplit
   exact hdone l (hsplit ▸ hl)
  | cons l' todo ih =>
   intro done s hsplit hdone
   have hl' : l' ∈ kAngleLookalikes := hsplit ▸ by simp
   refine ih (done ++ [l']) _ (by simpa using hsplit) fun l hl => ?_
   rcases mem_append.1 hl with hl | hl
   · have hmem : l ∈ kAngleLookalikes := hsplit ▸ mem_append_left _ hl
     exact fun h => hdone l hl
      (infix_of_infix_rewrite (lookalike_barrier l' hl') (hdisjoint l hmem l' hl') (hne l hmem) h).1
   · rw [mem_singleton.1 hl]
     exact not_infix_rewrite (lookalike_barrier l' hl')
 exact hfold kAngleLookalikes [] s rfl (by simp)

variable {s : Bytes} {c : UInt8}

theorem mem_fold (h : c ∈ foldLookalikes s) : c ∈ s ∨ c = lt ∨ c = gt := by
 have hbrackets : ∀ l ∈ kAngleLookalikes, l.2 = lt ∨ l.2 = gt := by decide
 have hfold : ∀ (todo : List (Bytes × UInt8)) (s : Bytes), (∀ l ∈ todo, l.2 = lt ∨ l.2 = gt) →
   c ∈ todo.foldl (fun s l => replaceAll s l.1 [l.2]) s → c ∈ s ∨ c = lt ∨ c = gt := by
  intro todo
  induction todo with
  | nil => exact fun s _ h => .inl h
  | cons l todo ih =>
   intro s htodo h
   rcases ih _ (fun l' hl' => htodo l' (mem_cons_of_mem _ hl')) h with h | h
   · rcases mem_rewrite h with h | h
     · exact .inl h
     · rw [mem_singleton.1 h]
       exact .inr (htodo l (mem_cons_self ..))
   · exact .inr h
 exact hfold kAngleLookalikes s hbrackets h

theorem mem_capRuns (h : c ∈ capRuns s) : c ∈ s := by
 induction s using capRuns.induct with
 | case1 => rwa [capRuns] at h
 | case2 d s hd ih =>
  rw [capRuns, if_pos hd] at h
  rcases mem_append.1 h with h | h
  · rw [eq_of_mem_replicate h]
    exact mem_cons_self ..
  · exact mem_cons_of_mem _ ((dropWhile_suffix _).subset (ih h))
 | case3 d s hd ih =>
  rw [capRuns, if_neg hd] at h
  rcases mem_cons.1 h with rfl | h
  · exact mem_cons_self ..
  · exact mem_cons_of_mem _ (ih h)

theorem head?_capRuns (s : Bytes) : (capRuns s).head? = s.head? := by
 cases s with
 | nil => rw [capRuns]
 | cons c s =>
  rw [capRuns]
  split_ifs
  · rw [Nat.min_def]
    split_ifs <;> simp [replicate_succ]
  · rfl

variable {a : UInt8}

theorem no_run_of_two {rest : Bytes} (hhead : rest.head? ≠ some c) :
  ¬ [a, a, a] <+: c :: rest ∧ ¬ [a, a, a] <+: c :: c :: rest := by
 cases rest with
 | nil => simp
 | cons b rest =>
  have hb : b ≠ c := fun h => hhead (congrArg some h)
  constructor
  · intro h
    obtain ⟨hac, hrest⟩ := cons_prefix_cons.1 h
    exact hb ((cons_prefix_cons.1 hrest).1.symm.trans hac)
  · intro h
    obtain ⟨hac, hrest⟩ := cons_prefix_cons.1 h
    exact hb ((cons_prefix_cons.1 (cons_prefix_cons.1 hrest).2).1.symm.trans hac)

theorem capRuns_runs (ha : a = lt ∨ a = gt) (s : Bytes) : ¬ [a, a, a] <:+: capRuns s := by
 induction s using capRuns.induct with
 | case1 =>
  rw [capRuns]
  exact fun h => absurd (infix_nil.1 h) (by simp)
 | case2 c s hc ih =>
  have hhead : (capRuns (s.dropWhile (· == c))).head? ≠ some c := by
   intro hb
   rw [head?_capRuns] at hb
   have hnot := head?_dropWhile_not (· == c) s
   rw [hb] at hnot
   simp at hnot
  obtain ⟨hone, htwo⟩ := no_run_of_two (a := a) hhead
  have hfirst : ¬ [a, a, a] <:+: c :: capRuns (s.dropWhile (· == c)) := fun h =>
   (infix_cons_iff.1 h).elim hone ih
  have hshort : min ((s.takeWhile (· == c)).length + 1) 2 = 1 ∨
    min ((s.takeWhile (· == c)).length + 1) 2 = 2 := by omega
  rw [capRuns, if_pos hc]
  rcases hshort with hlen | hlen
  · rw [hlen]
    exact hfirst
  · rw [hlen]
    exact fun h => (infix_cons_iff.1 h).elim htwo hfirst
 | case3 c s hc ih =>
  rw [capRuns, if_neg hc]
  intro h
  rcases infix_cons_iff.1 h with h | h
  · exact hc ((cons_prefix_cons.1 h).1 ▸ ha)
  · exact ih h

variable {x : Bytes}

theorem prefix_of_prefix_capRuns (hx : lt ∉ x ∧ gt ∉ x) (h : x <+: capRuns s) : x <+: s := by
 induction s using capRuns.induct generalizing x with
 | case1 => rwa [capRuns] at h
 | case2 c s hc ih =>
  cases x with
  | nil => exact nil_prefix
  | cons b x =>
   have hb : b = c := by
    obtain ⟨rest, hrest⟩ := h
    have hhead := head?_capRuns (c :: s)
    rw [← hrest] at hhead
    exact Option.some.inj hhead
   rcases hc with rfl | rfl
   · exact absurd (hb ▸ mem_cons_self ..) hx.1
   · exact absurd (hb ▸ mem_cons_self ..) hx.2
 | case3 c s hc ih =>
  rw [capRuns, if_neg hc] at h
  cases x with
  | nil => exact nil_prefix
  | cons b x =>
   obtain ⟨hb, hrest⟩ := cons_prefix_cons.1 h
   exact cons_prefix_cons.2 ⟨hb, ih ⟨fun hm => hx.1 (mem_cons_of_mem _ hm),
    fun hm => hx.2 (mem_cons_of_mem _ hm)⟩ hrest⟩

theorem infix_of_infix_capRuns (hx : lt ∉ x ∧ gt ∉ x) (h : x <:+: capRuns s) : x <:+: s := by
 induction s using capRuns.induct with
 | case1 => rwa [capRuns] at h
 | case2 c s hc ih =>
  have hfree : c ∉ x := by
   rcases hc with rfl | rfl
   · exact hx.1
   · exact hx.2
  have hpeel : ∀ {v : Bytes}, x <:+: c :: v → x <:+: v := fun hin => by
   rcases infix_append_cons (u := []) hfree hin with hnil | hin
   · rw [infix_nil.1 hnil]
     exact nil_infix
   · exact hin
  have hrest : x <:+: capRuns (s.dropWhile (· == c)) := by
   rw [capRuns, if_pos hc, Nat.min_def] at h
   split_ifs at h with hshort
   · obtain ⟨n, hn⟩ : ∃ n, (s.takeWhile (· == c)).length = n := ⟨_, rfl⟩
     rw [hn] at h
     clear hshort hn
     induction n with
     | zero => exact hpeel h
     | succ n ihn => exact ihn (hpeel h)
   · exact hpeel (hpeel h)
  exact (ih hrest).trans ((dropWhile_suffix _).trans (suffix_cons c s)).isInfix
 | case3 c s hc ih =>
  rw [capRuns, if_neg hc] at h
  rcases infix_cons_iff.1 h with hpre | hin
  · have hkept : x <+: capRuns (c :: s) := by rwa [capRuns, if_neg hc]
    exact (prefix_of_prefix_capRuns hx hkept).isInfix
  · exact (ih hin).trans (suffix_cons c s).isInfix

theorem capRuns_of_short (hopening : ¬ [lt, lt, lt] <:+: s) (hclosing : ¬ [gt, gt, gt] <:+: s) :
  capRuns s = s := by
 induction s using capRuns.induct with
 | case1 => rw [capRuns]
 | case2 c s hc ih =>
  have hsuffix : s.dropWhile (· == c) <:+ c :: s := (dropWhile_suffix _).trans (suffix_cons c s)
  have hrun : s.takeWhile (· == c) = List.replicate (s.takeWhile (· == c)).length c :=
   eq_replicate_iff.2 ⟨rfl, fun b hb => by simpa using mem_takeWhile_imp hb⟩
  have hthree : ¬ [c, c, c] <:+: c :: s := by
   rcases hc with rfl | rfl
   · exact hopening
   · exact hclosing
  have hshort : (s.takeWhile (· == c)).length ≤ 1 := by
   by_contra hlong
   refine hthree (List.IsPrefix.isInfix (cons_prefix_cons.2 ⟨rfl, ?_⟩))
   refine List.IsPrefix.trans ?_ (List.takeWhile_prefix (· == c))
   rw [hrun]
   exact (prefix_replicate_iff.2 ⟨by simp; omega, rfl⟩)
  have hih := ih (fun h => hopening (h.trans hsuffix.isInfix)) (fun h => hclosing (h.trans hsuffix.isInfix))
  rw [capRuns, if_pos hc, hih, min_eq_left (by omega), replicate_succ, ← hrun, cons_append,
   takeWhile_append_dropWhile]
 | case3 c s hc ih =>
  have hsuffix : s <:+ c :: s := suffix_cons c s
  rw [capRuns, if_neg hc, ih (fun h => hopening (h.trans hsuffix.isInfix))
   (fun h => hclosing (h.trans hsuffix.isInfix))]

/-! ## The whole rewriting -/

def IsLetter (a : UInt8) : Prop := (0x41 ≤ a ∧ a ≤ 0x5A) ∨ (0x61 ≤ a ∧ a ≤ 0x7A)

instance (a : UInt8) : Decidable (IsLetter a) := inferInstanceAs (Decidable (_ ∨ _))

theorem asciiLower_eq_iff (ha : ¬ IsLetter a) : asciiLower c = a ↔ c = a := by
 have hall : ∀ n < 256, (¬ IsLetter (asciiLower (UInt8.ofNat n)) ∨ ¬ IsLetter (UInt8.ofNat n)) →
   asciiLower (UInt8.ofNat n) = UInt8.ofNat n := by decide +kernel
 have hc := hall c.toNat c.toNat_lt
 rw [UInt8.ofNat_toNat] at hc
 constructor
 · rintro rfl
   exact (hc (.inl ha)).symm
 · rintro rfl
   exact hc (.inr ha)

theorem infix_of_infix_reworded (hspace : 0x20 ∉ x) (hne : x ≠ [])
  (hletters : ∀ a ∈ x, ¬ IsLetter a)
  (h : x <:+: replaceAllCaseInsensitive s wording "untrusted page content") : x <:+: s := by
 have hlower : x.map asciiLower = x := by
  conv_rhs => rw [← map_id x]
  exact map_congr_left fun a ha => (asciiLower_eq_iff (hletters a ha)).2 rfl
 have hmap := h.map asciiLower
 rw [hlower, replaceAllCaseInsensitive, if_neg (by decide), map_rewrite,
  show (utf8 "untrusted page content").map asciiLower = utf8 "untrusted page content" by decide] at hmap
 exact infix_of_map (fun a ha c hc => (asciiLower_eq_iff (hletters a ha)).1 hc)
  (infix_of_infix_rewrite wording_barrier hspace hne hmap).1

theorem infix_of_infix_defanged (hspace : 0x20 ∉ x) (hne : x ≠ [])
  (hletters : ∀ a ∈ x, ¬ IsLetter a)
  (h : x <:+: replaceAllCaseInsensitive (replaceAll (replaceAll s "<|" "< |") "|>" "| >") wording
   "untrusted page content") :
  x <:+: s ∧ x ≠ utf8 "<|" ∧ x ≠ utf8 "|>" := by
 obtain ⟨h, hend⟩ := infix_of_infix_rewrite tokenEnd_barrier hspace hne
  (infix_of_infix_reworded hspace hne hletters h)
 obtain ⟨h, hstart⟩ := infix_of_infix_rewrite tokenStart_barrier hspace hne h
 exact ⟨h, hstart, hend⟩

theorem control_sanitize (text : Bytes) : ∀ c ∈ sanitizeUntrustedText text, isDropped c = false := by
 intro c hc
 have hadded : ∀ c ∈ utf8 "< |" ++ utf8 "| >" ++ utf8 "untrusted page content" ++ [lt, gt],
   isDropped c = false := by decide +kernel
 rw [sanitizeUntrustedText, replaceAllCaseInsensitive, if_neg (by decide)] at hc
 rcases mem_rewrite hc with hc | hc
 · rcases mem_rewrite hc with hc | hc
   · rcases mem_rewrite hc with hc | hc
     · rcases mem_fold (mem_capRuns hc) with hc | rfl | rfl
       · simpa using (mem_filter.1 hc).2
       · exact hadded lt (by simp)
       · exact hadded gt (by simp)
     · exact hadded c (by simp [hc])
   · exact hadded c (by simp [hc])
 · exact hadded c (by simp [hc])

theorem sanitize_clean (text : Bytes) : Clean (sanitizeUntrustedText text) := by
 have hlookalikes : ∀ l ∈ kAngleLookalikes, (0x20 ∉ l.1 ∧ l.1 ≠ [] ∧ ∀ a ∈ l.1, ¬ IsLetter a) ∧
   lt ∉ l.1 ∧ gt ∉ l.1 := by decide +kernel
 have hmarks : ∀ x ∈ [[lt, lt, lt], [gt, gt, gt], utf8 "<|", utf8 "|>"],
   0x20 ∉ x ∧ x ≠ [] ∧ ∀ a ∈ x, ¬ IsLetter a := by decide +kernel
 have hdefanged : ∀ {x}, x ∈ [[lt, lt, lt], [gt, gt, gt], utf8 "<|", utf8 "|>"] →
   x <:+: sanitizeUntrustedText text → _ := fun {x} hx h =>
  infix_of_infix_defanged (hmarks x hx).1 (hmarks x hx).2.1 (hmarks x hx).2.2 h
 refine ⟨control_sanitize text, fun l hl h => ?_, fun h => ?_, fun h => ?_, fun h => ?_, fun h => ?_, fun h => ?_⟩
 · obtain ⟨⟨hspace, hne, hletters⟩, hbrackets⟩ := hlookalikes l hl
   exact fold_clean _ l hl (infix_of_infix_capRuns hbrackets (infix_of_infix_defanged hspace hne hletters h).1)
 · exact capRuns_runs (.inl rfl) _ (hdefanged (by simp) h).1
 · exact capRuns_runs (.inr rfl) _ (hdefanged (by simp) h).1
 · exact (hdefanged (by simp) h).2.1 rfl
 · exact (hdefanged (by simp) h).2.2 rfl
 · rw [sanitizeUntrustedText, replaceAllCaseInsensitive, if_neg (by decide), map_rewrite,
    show (utf8 "untrusted page content").map asciiLower = utf8 "untrusted page content" by decide] at h
   exact not_infix_rewrite wording_barrier h

theorem sanitize_of_clean (h : Clean s) : sanitizeUntrustedText s = s := by
 have hfilter : (s.filter fun c => !isDropped c) = s :=
  filter_eq_self.2 fun c hc => by simp [h.control c hc]
 have hreplace : ∀ {pat repl : Bytes}, ¬ pat <:+: s → replaceAll s pat repl = s := fun hn =>
  rewrite_of_not_infix (by rwa [map_id])
 have hfold : ∀ (ls : List (Bytes × UInt8)), (∀ l ∈ ls, ¬ l.1 <:+: s) →
   ls.foldl (fun s l => replaceAll s l.1 [l.2]) s = s := by
  intro ls
  induction ls with
  | nil => exact fun _ => rfl
  | cons l ls ih =>
   intro hls
   rw [foldl_cons, hreplace (hls l (mem_cons_self ..))]
   exact ih fun l' hl' => hls l' (mem_cons_of_mem _ hl')
 have hwording : replaceAllCaseInsensitive s wording "untrusted page content" = s := by
  rw [replaceAllCaseInsensitive, if_neg (by decide)]
  exact rewrite_of_not_infix h.worded
 rw [sanitizeUntrustedText, hfilter, foldLookalikes, hfold _ h.lookalike,
  capRuns_of_short h.opening h.closing, hreplace h.tokenStart, hreplace h.tokenEnd]
 exact hwording

theorem marker_not_infix (h : Clean s) : ¬ kUntrustedBegin <:+: s ∧ ¬ kUntrustedEnd <:+: s := by
 have hbegin : [lt, lt, lt] <:+: kUntrustedBegin := by decide
 have hend : [lt, lt, lt] <:+: kUntrustedEnd := by decide
 exact ⟨fun hin => h.opening (hbegin.trans hin), fun hin => h.opening (hend.trans hin)⟩

theorem fence_eq (text : Bytes) : fenceUntrustedText text =
  kUntrustedBegin ++ 0x0A :: (sanitizeUntrustedText text ++ 0x0A :: kUntrustedEnd) := by
 rw [fenceUntrustedText, show utf8 "\n" = [0x0A] by decide]
 simp

theorem fence_begin {text u v : Bytes} (h : fenceUntrustedText text = u ++ kUntrustedBegin ++ v) : u = [] := by
 have hfree : (0x0A : UInt8) ∉ kUntrustedBegin := by decide
 rw [fence_eq] at h
 rcases append_cons_split hfree h.symm with ⟨r, hr⟩ | ⟨r, -, hr⟩
 · have hlen := congrArg List.length hr
   simp only [length_append] at hlen
   exact length_eq_zero_iff.1 (by omega)
 · rcases append_cons_split hfree hr.symm with ⟨r', hr'⟩ | ⟨r', -, hr'⟩
   · exact absurd ⟨r, r', hr'.symm⟩ ( marker_not_infix (sanitize_clean text)).1
   · have hother : ¬ kUntrustedBegin <:+: kUntrustedEnd := by decide
     exact absurd ⟨r', v, hr'.symm⟩ hother

theorem fence_end {text u v : Bytes} (h : fenceUntrustedText text = u ++ kUntrustedEnd ++ v) : v = [] := by
 have hfree : (0x0A : UInt8) ∉ kUntrustedEnd := by decide
 rw [fence_eq] at h
 rcases append_cons_split hfree h.symm with ⟨r, hr⟩ | ⟨r, -, hr⟩
 · have hother : ¬ kUntrustedEnd <:+: kUntrustedBegin := by decide
   exact absurd ⟨u, r, hr.symm⟩ hother
 · rcases append_cons_split hfree hr.symm with ⟨r', hr'⟩ | ⟨r', -, hr'⟩
   · exact absurd ⟨r, r', hr'.symm⟩ ( marker_not_infix (sanitize_clean text)).2
   · have hlen := congrArg List.length hr'
     simp only [length_append] at hlen
     exact length_eq_zero_iff.1 (by omega)

/-- Whatever the page's bytes, their text comes out clean and stays so, and the fence around it has its
markers at its two ends and nowhere else. -/
theorem untrusted_text_fenced (text : Bytes) :
  Clean (sanitizeUntrustedText text) ∧
   sanitizeUntrustedText (sanitizeUntrustedText text) = sanitizeUntrustedText text ∧
   kUntrustedBegin <+: fenceUntrustedText text ∧ kUntrustedEnd <:+ fenceUntrustedText text ∧
   (∀ u v, fenceUntrustedText text = u ++ kUntrustedBegin ++ v → u = []) ∧
   ∀ u v, fenceUntrustedText text = u ++ kUntrustedEnd ++ v → v = [] := by
 refine ⟨sanitize_clean text, sanitize_of_clean (sanitize_clean text), ?_, ?_, fun _ _ => fence_begin,
  fun _ _ => fence_end⟩
 · rw [fence_eq]
   exact List.prefix_append _ _
 · rw [fenceUntrustedText]
   exact List.suffix_append _ _

end MoltBrowser.AgentSafety
