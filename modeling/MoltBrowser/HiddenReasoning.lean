import MoltBrowser.StreamMarkers

set_option autoImplicit false

/-!
# Reasoning is hidden, however the stream is cut

What the thinking tags and Gemma's markers hide of a whole text, and that the filters show
exactly the rest of it from any pieces.
-/
namespace MoltBrowser.StreamFilters
open List

/-! ## Thinking tags over a whole text -/

/-- After the first `tag`; nothing if there is none. -/
def dropThrough (tag s : Bytes) : Bytes :=
 match find tag s with
 | some i => s.drop (i + tag.length)
 | none => []

theorem dropThrough_length (tag s : Bytes) : (dropThrough tag s).length ≤ s.length := by
 rw [dropThrough]
 split
 · rw [length_drop]
   omega
 · exact Nat.zero_le _

/-- The answer, from its first byte that isn't a space, a thought or the end of one. -/
@[grind =] def strip : Bytes → Bytes
 | [] => []
 | c :: s =>
  if isSpace c then strip s
  else if openTag.isPrefixOf (c :: s) then strip (dropThrough closeTag (s.drop (openTag.length - 1)))
  else if closeTag.isPrefixOf (c :: s) then strip (s.drop (closeTag.length - 1))
  else c :: s
termination_by s => s.length
decreasing_by
 · exact Nat.lt_succ_self _
 · have := dropThrough_length closeTag (s.drop (openTag.length - 1))
   rw [length_drop] at this
   rw [length_cons]
   omega
 · rw [length_drop, length_cons]
   omega

def stripFrom (startInside : Bool) (s : Bytes) : Bytes :=
 if startInside then strip (dropThrough closeTag s) else strip s

variable {s : Bytes}

theorem strip_spaces {ws : Bytes} (h : ∀ c ∈ ws, isSpace c = true) : strip (ws ++ s) = strip s := by
 induction ws with
 | nil => rfl
 | cons c ws ih =>
  rw [cons_append, strip, if_pos (h c (mem_cons_self ..))]
  exact ih fun d hd => h d (mem_cons_of_mem _ hd)

theorem openTag_eq : openTag = [0x3C, 0x74, 0x68, 0x69, 0x6E, 0x6B, 0x3E] := by decide

theorem closeTag_eq : closeTag = [0x3C, 0x2F, 0x74, 0x68, 0x69, 0x6E, 0x6B, 0x3E] := by decide

theorem strip_open (s : Bytes) : strip (openTag ++ s) = strip (dropThrough closeTag s) := by
 have hspace : isSpace 0x3C = false := by decide
 rw [openTag_eq, cons_append, strip, hspace, if_neg (by simp), if_pos (by simp [openTag_eq]), openTag_eq]
 rfl

theorem strip_close (s : Bytes) : strip (closeTag ++ s) = strip s := by
 have hspace : isSpace 0x3C = false := by decide
 rw [closeTag_eq, cons_append, strip, hspace, if_neg (by simp), if_neg (by simp [openTag_eq]),
  if_pos (by simp [closeTag_eq]), closeTag_eq]
 rfl

theorem strip_visible {c : UInt8} (hspace : isSpace c = false) (hopen : ¬ openTag <+: c :: s)
  (hclose : ¬ closeTag <+: c :: s) : strip (c :: s) = c :: s := by
 rw [strip, hspace, if_neg (by simp), if_neg (by rwa [List.isPrefixOf_iff_prefix]),
  if_neg (by rwa [List.isPrefixOf_iff_prefix])]

theorem dropThrough_drop {tag : Bytes} {n : ℕ} (hn : n ≤ s.length) (h : ∀ j < n, ¬ tag <+: s.drop j) :
  dropThrough tag s = dropThrough tag (s.drop n) := by
 rw [dropThrough, dropThrough, find_drop hn h]
 cases find tag (s.drop n) with
 | none => rfl
 | some i =>
  simp only [Option.map_some, drop_drop]
  congr 1
  omega

theorem dropThrough_found {tag : Bytes} {i : ℕ} (h : find tag s = some i) (htag : tag ≠ []) (more : Bytes) :
  dropThrough tag (s ++ more) = s.drop (i + tag.length) ++ more := by
 have hlen := find_length h htag
 rw [dropThrough, find_append h htag]
 simp only [drop_append_of_le_length hlen]

theorem openTag_ne : openTag ≠ [] := by rw [openTag_eq]; simp

theorem closeTag_ne : closeTag ≠ [] := by rw [closeTag_eq]; simp

theorem spaces_split (text : Bytes) : (∀ c ∈ text, isSpace c = true) ∨
  ∃ ws c s, text = ws ++ c :: s ∧ (∀ d ∈ ws, isSpace d = true) ∧ isSpace c = false := by
 induction text with
 | nil => exact .inl (by simp)
 | cons c text ih =>
  cases hc : isSpace c with
  | false => exact .inr ⟨[], c, text, rfl, by simp, hc⟩
  | true =>
   rcases ih with hall | ⟨ws, d, s, rfl, hws, hd⟩
   · exact .inl fun d hd => (mem_cons.1 hd).elim (fun h => h ▸ hc) (hall d)
   · exact .inr ⟨c :: ws, d, s, rfl, fun e he => (mem_cons.1 he).elim (fun h => h ▸ hc) (hws e), hd⟩

theorem strip_started {ws s rest : Bytes} {c : UInt8} (hws : ∀ d ∈ ws, isSpace d = true) (hc : isSpace c = false)
  (hopen : ¬ openTag <+: c :: s ++ rest) (hclose : ¬ closeTag <+: c :: s ++ rest) :
  strip (ws ++ c :: s ++ rest) = c :: s ++ rest := by
 rw [append_assoc, strip_spaces hws]
 exact strip_visible hc hopen hclose

/-! ## The filter of the thinking tags -/

namespace ThinkTagFilter

/-- Spaces are stripped as long as nothing was shown, and thoughts come before the answer. -/
structure Inv (f : ThinkTagFilter) : Prop where
 strips : f.stripLeadingWs = !f.visibleStarted
 before : f.inThink = true → f.visibleStarted = false

structure Settled (f : ThinkTagFilter) : Prop where
 thought : f.inThink = true → find closeTag f.pending = none
 waiting : f.inThink = false → f.visibleStarted = false → find openTag f.pending = none ∧ find closeTag f.pending = none
 answer : f.inThink = false → f.visibleStarted = true → f.pending = []

def shown (f : ThinkTagFilter) (s : Bytes) : Bytes :=
 if f.inThink then strip (dropThrough closeTag s) else if f.visibleStarted then s else strip s

variable {f : ThinkTagFilter}

theorem emitVisible_visible (h : f.Inv) (hv : f.visibleStarted = true) (text : Bytes) :
  f.emitVisible text = (text, f) := by
 have hstrip : f.stripLeadingWs = false := by rw [h.strips, hv]; rfl
 cases f
 simp_all [emitVisible]

theorem emitVisible_spaces (h : f.Inv) (hv : f.visibleStarted = false) {text : Bytes}
  (hspaces : ∀ c ∈ text, isSpace c = true) : f.emitVisible text = ([], f) := by
 have hstrip : f.stripLeadingWs = true := by rw [h.strips, hv]; rfl
 have hnil : text.dropWhile isSpace = [] := dropWhile_eq_nil_iff.2 hspaces
 cases f
 simp_all [emitVisible]

theorem emitVisible_starts (h : f.Inv) (hv : f.visibleStarted = false) {ws s : Bytes} {c : UInt8}
  (hspaces : ∀ c ∈ ws, isSpace c = true) (hc : isSpace c = false) :
  f.emitVisible (ws ++ c :: s) = (c :: s, { f with stripLeadingWs := false, visibleStarted := true }) := by
 have hstrip : f.stripLeadingWs = true := by rw [h.strips, hv]; rfl
 have hdrop : (ws ++ c :: s).dropWhile isSpace = c :: s := by
  rw [dropWhile_append_of_pos hspaces, dropWhile_cons_of_neg (by simp [hc])]
 cases f
 simp_all [emitVisible]

/-- The text in front of the place `n` is shown or was spaces, where no tag begins before `n`. -/
theorem emitVisible_spec {f : ThinkTagFilter} (h : f.Inv) (hv : f.visibleStarted = false) (hthink : f.inThink = false)
  {pending more : Bytes} {n : ℕ}
  (hopen : ∀ j < n, ¬ openTag <+: pending.drop j ++ more) (hclose : ∀ j < n, ¬ closeTag <+: pending.drop j ++ more) :
  ((f.emitVisible (pending.take n)).1 = [] ∧ (f.emitVisible (pending.take n)).2 = f ∧
   strip (pending ++ more) = strip (pending.drop n ++ more)) ∨
  ((f.emitVisible (pending.take n)).2.Inv ∧ (f.emitVisible (pending.take n)).2.visibleStarted = true ∧
   (f.emitVisible (pending.take n)).2.inThink = false ∧
   strip (pending ++ more) = (f.emitVisible (pending.take n)).1 ++ (pending.drop n ++ more)) := by
 have hsplit : pending ++ more = pending.take n ++ (pending.drop n ++ more) := by
  rw [← append_assoc, take_append_drop]
 rcases spaces_split (pending.take n) with hall | ⟨ws, c, s, htake, hws, hc⟩
 · left
   rw [emitVisible_spaces h hv hall]
   exact ⟨rfl, rfl, by rw [hsplit, strip_spaces hall]⟩
 · right
   have hlt : ws.length < n := by
    have := congrArg List.length htake
    simp only [length_take, length_append, length_cons] at this
    omega
   have hdrop : pending.drop ws.length ++ more = c :: s ++ (pending.drop n ++ more) := by
    have hpending : pending = ws ++ (c :: s ++ pending.drop n) := by
     rw [← append_assoc, ← htake, take_append_drop]
    conv_lhs => rw [hpending]
    rw [drop_left]
    simp
   have hshown := strip_started hws hc (hdrop ▸ hopen ws.length hlt) (hdrop ▸ hclose ws.length hlt)
   rw [htake, emitVisible_starts h hv hws hc]
   refine ⟨⟨rfl, fun hin => absurd (hthink.symm.trans hin) (by simp)⟩, rfl, hthink, ?_⟩
   rw [hsplit, htake, hshown]

/-- What a step of the filter shows, and what it keeps, make up what is to be shown. -/
structure Drained (f : ThinkTagFilter) (pending : Bytes) (r : Bytes × ThinkTagFilter) : Prop where
 inv : r.2.Inv
 settled : r.2.Settled
 shown : ∀ more, f.shown (pending ++ more) = r.1 ++ r.2.shown (r.2.pending ++ more)

theorem Drained.after {f g : ThinkTagFilter} {pending rest out : Bytes} {r : Bytes × ThinkTagFilter} (h : Drained g rest r)
  (hshown : ∀ more, f.shown (pending ++ more) = out ++ g.shown (rest ++ more)) : Drained f pending (out ++ r.1, r.2) :=
 ⟨h.inv, h.settled, fun more => by rw [hshown, h.shown, append_assoc]⟩

theorem drain_spec (f : ThinkTagFilter) (pending : Bytes) (h : f.Inv) : Drained f pending (f.drain pending) := by
 have hopenHead : 0x3C ∉ openTag.tail ∧ openTag.head? = some 0x3C := by rw [openTag_eq]; decide
 have hcloseHead : 0x3C ∉ closeTag.tail ∧ closeTag.head? = some 0x3C := by rw [closeTag_eq]; decide
 induction hm : pending.length + (if f.visibleStarted then 0 else 1) using Nat.strong_induction_on generalizing f pending with
 | _ m ih =>
  rw [drain]
  by_cases hne : pending = []
  · rw [dif_pos hne, hne]
    exact ⟨⟨h.strips, h.before⟩, ⟨fun _ => find_nil closeTag_ne, fun _ _ => ⟨find_nil openTag_ne, find_nil closeTag_ne⟩,
     fun _ _ => rfl⟩, fun more => rfl⟩
  rw [dif_neg hne]
  have hpos := length_pos_iff.2 hne
  have hless : ∀ {g : ThinkTagFilter} (rest : Bytes), g.Inv →
    rest.length + (if g.visibleStarted then 0 else 1) < m → Drained g rest (g.drain rest) := fun _ hg hlt => ih _ hlt _ _ hg rfl
  by_cases hthink : f.inThink = true
  · have hvisible := h.before hthink
    rw [if_pos hthink]
    rw [hvisible, if_neg (by simp)] at hm
    cases hclose : find closeTag pending with
    | some pos =>
     have hlen := find_length hclose closeTag_ne
     have hclosed : closeTag.length = 8 := by rw [closeTag_eq]; rfl
     have hg : ({ f with inThink := false, stripLeadingWs := true } : ThinkTagFilter).Inv :=
      ⟨by simp [hvisible], fun hin => absurd hin (by simp)⟩
     have hrest := hless (pending.drop (pos + closeTag.length)) hg
      (by simp only [hvisible, length_drop, Bool.false_eq_true, if_false]; omega)
     refine @Drained.after _ _ _ _ [] _ hrest fun more => ?_
     rw [shown, if_pos hthink, dropThrough_found hclose closeTag_ne, shown, if_neg (by simp), if_neg (by simp [hvisible])]
     rfl
    | none =>
     dsimp only
     refine ⟨⟨h.strips, h.before⟩, ⟨fun _ => find_drop_none closeTag_ne hclose _, fun hin => absurd hin (by simp [hthink]),
      fun hin => absurd hin (by simp [hthink])⟩, fun more => ?_⟩
     have hle := partialTagSuffix_le pending closeTag
     rw [shown, if_pos hthink, shown, if_pos hthink, nil_append,
      dropThrough_drop (n := pending.length - partialTagSuffix pending closeTag) (by rw [length_append]; omega)]
     · rw [drop_append_of_le_length (by omega)]
     · intro j hj
       rw [drop_append_of_le_length (by omega)]
       exact no_tag_before_hold closeTag_ne hclose (le_refl _) hj more
  rw [if_neg hthink]
  rw [Bool.not_eq_true] at hthink
  by_cases hvisible : f.visibleStarted = true
  · rw [dif_pos hvisible, emitVisible_visible h hvisible]
    exact ⟨⟨h.strips, h.before⟩, ⟨fun hin => absurd hin (by simp [hthink]), fun _ hv => absurd hv (by simp [hvisible]),
     fun _ _ => rfl⟩, fun more => by simp [shown, hthink, hvisible]⟩
  rw [dif_neg hvisible]
  rw [Bool.not_eq_true] at hvisible
  rw [hvisible, if_neg (by simp)] at hm
  have hshownF : ∀ s, f.shown s = strip s := fun s => by simp [shown, hthink, hvisible]
  have hshownV : ∀ {g : ThinkTagFilter}, g.inThink = false → g.visibleStarted = true → ∀ s, g.shown s = s :=
   fun hin hv s => by simp [shown, hin, hv]
  dsimp only
  cases hfirst : firstOf (find openTag pending) (find closeTag pending) with
  | some first =>
   obtain ⟨hone, hopenLe, hcloseLe⟩ := firstOf_some hfirst
   have hmarker : ∃ marker, marker <+: pending.drop first ∧ marker.head? = some 0x3C ∧ first + marker.length ≤ pending.length := by
    rcases hone with hone | hone
    · exact ⟨openTag, (find_some hone).1, hopenHead.2, find_length hone openTag_ne⟩
    · exact ⟨closeTag, (find_some hone).1, hcloseHead.2, find_length hone closeTag_ne⟩
   obtain ⟨marker, hat, hhead, hfits⟩ := hmarker
   have hspec := fun more => @emitVisible_spec f h hvisible hthink pending more first
    (no_tag_before_first hat hhead hopenLe openTag_ne hopenHead.1 more)
    (no_tag_before_first hat hhead hcloseLe closeTag_ne hcloseHead.1 more)
   dsimp only
   by_cases hs : (f.emitVisible (pending.take first)).2.visibleStarted = true
   · rw [dif_pos hs]
     have hstarted := fun more => (hspec more).resolve_left fun hspaces => by
      rw [hspaces.2.1, hvisible] at hs
      exact absurd hs (by simp)
     obtain ⟨hinv, -, hin, -⟩ := hstarted []
     refine (hless (pending.drop first) hinv
      (by rw [if_pos hs, length_drop]; omega)).after fun more => ?_
     rw [hshownF, (hstarted more).2.2.2, hshownV hin hs]
   · rw [dif_neg hs]
     have hspaces := fun more => (hspec more).resolve_right fun hstarted => hs hstarted.2.1
     rw [(hspaces []).1, (hspaces []).2.1]
     by_cases hopen : find openTag pending = some first
     · rw [if_pos hopen]
       have hlen := find_length hopen openTag_ne
       have hopened : openTag.length = 7 := by rw [openTag_eq]; rfl
       have hg : ({ f with inThink := true, sawThink := true } : ThinkTagFilter).Inv := ⟨h.strips, fun _ => hvisible⟩
       refine (hless (pending.drop (first + openTag.length)) hg
        (by simp only [hvisible, length_drop, Bool.false_eq_true, if_false]; omega)).after fun more => ?_
       obtain ⟨rest, hrest⟩ := (find_some hopen).1
       have hdrop : pending.drop (first + openTag.length) = rest := by
        rw [← drop_drop, ← hrest, drop_left]
       rw [hshownF, (hspaces more).2.2, ← hrest, append_assoc, strip_open, hdrop, shown, if_pos rfl]
       rfl
     · rw [if_neg hopen]
       have hclose := hone.resolve_left hopen
       have hlen := find_length hclose closeTag_ne
       have hclosed : closeTag.length = 8 := by rw [closeTag_eq]; rfl
       have hg : ({ f with stripLeadingWs := true } : ThinkTagFilter).Inv := ⟨by simp [hvisible], h.before⟩
       refine (hless (pending.drop (first + closeTag.length)) hg
        (by simp only [hvisible, length_drop, Bool.false_eq_true, if_false]; omega)).after fun more => ?_
       obtain ⟨rest, hrest⟩ := (find_some hclose).1
       have hdrop : pending.drop (first + closeTag.length) = rest := by
        rw [← drop_drop, ← hrest, drop_left]
       rw [hshownF, (hspaces more).2.2, ← hrest, append_assoc, strip_close, hdrop, shown, if_neg (by simp [hthink]),
        if_neg (by simp [hvisible])]
       rfl
  | none =>
   obtain ⟨hopen, hclose⟩ := firstOf_none hfirst
   dsimp only
   have hleOpen := partialTagSuffix_le pending openTag
   have hleClose := partialTagSuffix_le pending closeTag
   have hmaxOpen := Nat.le_max_left (partialTagSuffix pending openTag) (partialTagSuffix pending closeTag)
   have hmaxClose := Nat.le_max_right (partialTagSuffix pending openTag) (partialTagSuffix pending closeTag)
   have hle := Nat.max_le.2 ⟨hleOpen, hleClose⟩
   generalize max (partialTagSuffix pending openTag) (partialTagSuffix pending closeTag) = hold at hmaxOpen hmaxClose hle ⊢
   have hspec := fun more => @emitVisible_spec f h hvisible hthink pending more (pending.length - hold)
    (fun j hj => no_tag_before_hold openTag_ne hopen hmaxOpen hj more)
    (fun j hj => no_tag_before_hold closeTag_ne hclose hmaxClose hj more)
   by_cases hs : (f.emitVisible (pending.take (pending.length - hold))).2.visibleStarted = true
   · have hstarted := fun more => (hspec more).resolve_left fun hspaces => by
      rw [hspaces.2.1, hvisible] at hs
      exact absurd hs (by simp)
     obtain ⟨hinv, -, hin, -⟩ := hstarted []
     by_cases hhold : 0 < hold
     · rw [dif_pos ⟨hs, hhold⟩]
       refine (hless (pending.drop (pending.length - hold)) hinv
        (by rw [if_pos hs, length_drop]; omega)).after fun more => ?_
       rw [hshownF, (hstarted more).2.2.2, hshownV hin hs]
     · rw [dif_neg (fun hand => hhold hand.2)]
       obtain rfl : hold = 0 := by omega
       refine ⟨⟨hinv.strips, hinv.before⟩, ⟨fun hin' => absurd (hin.symm.trans hin') (by simp),
        fun _ hv => absurd (hs.symm.trans hv) (by simp), fun _ _ => by simp⟩, fun more => ?_⟩
       rw [hshownF, (hstarted more).2.2.2]
       congr 1
       exact (hshownV (g := { (f.emitVisible (pending.take (pending.length - 0))).2 with
        pending := pending.drop (pending.length - 0) }) hin hs _).symm
   · rw [dif_neg (fun hand => hs hand.1)]
     have hspaces := fun more => (hspec more).resolve_right fun hstarted => hs hstarted.2.1
     rw [(hspaces []).1, (hspaces []).2.1]
     refine ⟨⟨h.strips, h.before⟩, ⟨fun hin => absurd (hthink.symm.trans hin) (by simp),
      fun _ _ => ⟨find_drop_none openTag_ne hopen _, find_drop_none closeTag_ne hclose _⟩,
      fun _ hv => absurd (hvisible.symm.trans hv) (by simp)⟩, fun more => ?_⟩
     rw [hshownF, (hspaces more).2.2, shown, if_neg (by simp [hthink]), if_neg (by simp [hvisible])]
     rfl

def feedAll (f : ThinkTagFilter) : List Bytes → Bytes × ThinkTagFilter
 | [] => ([], f)
 | piece :: pieces =>
  let (out, f) := f.feed piece
  let (more, f) := f.feedAll pieces
  (out ++ more, f)

theorem feedAll_spec (h : f.Inv) (hs : f.Settled) (pieces : List Bytes) :
  (f.feedAll pieces).2.Inv ∧ (f.feedAll pieces).2.Settled ∧
   f.shown (f.pending ++ pieces.flatten) =
    (f.feedAll pieces).1 ++ (f.feedAll pieces).2.shown (f.feedAll pieces).2.pending := by
 induction pieces generalizing f with
 | nil => exact ⟨h, hs, by simp [feedAll]⟩
 | cons piece pieces ih =>
  have hfed := drain_spec f (f.pending ++ piece) h
  obtain ⟨hinv, hsettled, hshown⟩ := ih hfed.inv hfed.settled
  refine ⟨hinv, hsettled, ?_⟩
  rw [flatten_cons, ← append_assoc, hfed.shown, hshown, ← append_assoc]
  rfl

theorem flush_shown (h : f.Inv) (hs : f.Settled) : f.flush.1 = f.shown f.pending := by
 rw [flush, shown]
 by_cases hthink : f.inThink = true
 · have hnil : strip [] = [] := by rw [strip]
   rw [if_pos hthink, if_pos hthink, dropThrough, hs.thought hthink]
   exact hnil.symm
 rw [if_neg hthink, if_neg hthink]
 rw [Bool.not_eq_true] at hthink
 by_cases hvisible : f.visibleStarted = true
 · rw [if_pos hvisible, emitVisible_visible h hvisible]
 · rw [if_neg hvisible]
   rw [Bool.not_eq_true] at hvisible
   obtain ⟨hopen, hclose⟩ := hs.waiting hthink hvisible
   rcases spaces_split f.pending with hall | ⟨ws, c, s, hpending, hws, hc⟩
   · have hstrip := strip_spaces (s := []) hall
     rw [append_nil] at hstrip
     rw [emitVisible_spaces h hvisible hall, hstrip, strip]
   · have hdrop : f.pending.drop ws.length = c :: s := by rw [hpending, drop_left]
     have hstrip := @strip_started _ _ [] _ hws hc (by rw [append_nil, ← hdrop]; exact find_none openTag_ne hopen _)
      (by rw [append_nil, ← hdrop]; exact find_none closeTag_ne hclose _)
     rw [append_nil, append_nil] at hstrip
     rw [hpending, emitVisible_starts h hvisible hws hc, hstrip]

/-- The thoughts are hidden and the answer shown, however the stream is cut. -/
theorem think_filter_refines (startInside : Bool) (pieces : List Bytes) :
  ((create startInside).feedAll pieces).1 ++ ((create startInside).feedAll pieces).2.flush.1 =
   stripFrom startInside pieces.flatten := by
 have hinv : (create startInside).Inv := ⟨rfl, fun _ => rfl⟩
 have hsettled : (create startInside).Settled :=
  ⟨fun _ => find_nil closeTag_ne, fun _ _ => ⟨find_nil openTag_ne, find_nil closeTag_ne⟩, fun _ _ => rfl⟩
 obtain ⟨hinv', hsettled', hshown⟩ := feedAll_spec hinv hsettled pieces
 rw [flush_shown hinv' hsettled', ← hshown]
 cases startInside <;> rfl

example : (((create false).feedAll [utf8 " <thi", utf8 "nk>a</", utf8 "think>\n <", utf8 "b>"]).1) = utf8 "<b>" := by
 decide +kernel

end ThinkTagFilter

/-! ## Gemma's markers over a whole text -/

/-- The bytes outside the markers at depth 0, and the depth at the end. -/
def scanThoughts : ℕ → Bytes → Bytes × ℕ
 | depth, [] => ([], depth)
 | depth, c :: s =>
  if openMarker.isPrefixOf (c :: s) then scanThoughts (depth + 1) (s.drop (openMarker.length - 1))
  else if closeMarker.isPrefixOf (c :: s) then scanThoughts (depth - 1) (s.drop (closeMarker.length - 1))
  else
   let (kept, last) := scanThoughts depth s
   (if depth = 0 then c :: kept else kept, last)
termination_by _ s => s.length
decreasing_by
 · rw [length_drop, length_cons]
   omega
 · rw [length_drop, length_cons]
   omega
 · exact Nat.lt_succ_self _

theorem openMarker_eq : openMarker = [0x3C, 0x7C, 0x63, 0x68, 0x61, 0x6E, 0x6E, 0x65, 0x6C, 0x3E] := by decide

theorem closeMarker_eq : closeMarker = [0x3C, 0x63, 0x68, 0x61, 0x6E, 0x6E, 0x65, 0x6C, 0x7C, 0x3E] := by decide

theorem openMarker_ne : openMarker ≠ [] := by rw [openMarker_eq]; simp

theorem closeMarker_ne : closeMarker ≠ [] := by rw [closeMarker_eq]; simp

theorem scanThoughts_open (depth : ℕ) (s : Bytes) : scanThoughts depth (openMarker ++ s) = scanThoughts (depth + 1) s := by
 rw [openMarker_eq, cons_append, scanThoughts, if_pos (by simp [openMarker_eq]), openMarker_eq]
 rfl

theorem scanThoughts_close (depth : ℕ) (s : Bytes) : scanThoughts depth (closeMarker ++ s) = scanThoughts (depth - 1) s := by
 rw [closeMarker_eq, cons_append, scanThoughts, if_neg (by simp [openMarker_eq]), if_pos (by simp [closeMarker_eq]),
  closeMarker_eq]
 rfl

theorem scanThoughts_plain {n : ℕ} (hn : n ≤ s.length) (hopen : ∀ j < n, ¬ openMarker <+: s.drop j)
  (hclose : ∀ j < n, ¬ closeMarker <+: s.drop j) (depth : ℕ) :
  scanThoughts depth s = ((if depth = 0 then s.take n else []) ++ (scanThoughts depth (s.drop n)).1,
   (scanThoughts depth (s.drop n)).2) := by
 induction n generalizing s with
 | zero => simp
 | succ n ih =>
  cases s with
  | nil => exact absurd hn (by simp)
  | cons c s =>
   have hrest := ih (s := s) (Nat.le_of_succ_le_succ hn) (fun j hj => hopen (j + 1) (Nat.succ_lt_succ hj))
    (fun j hj => hclose (j + 1) (Nat.succ_lt_succ hj))
   have hopenHead : ¬ openMarker.isPrefixOf (c :: s) = true := fun h =>
    hopen 0 (Nat.succ_pos n) (List.isPrefixOf_iff_prefix.1 h)
   have hcloseHead : ¬ closeMarker.isPrefixOf (c :: s) = true := fun h =>
    hclose 0 (Nat.succ_pos n) (List.isPrefixOf_iff_prefix.1 h)
   rw [scanThoughts, if_neg hopenHead, if_neg hcloseHead, hrest]
   split_ifs <;> rfl

/-- What is shown of a text: what the thoughts leave, without the spaces it begins with. -/
def withoutThoughts (startInside : Bool) (s : Bytes) : Bytes :=
 (scanThoughts (if startInside then 1 else 0) s).1.dropWhile isSpace

namespace GemmaThoughtFilter

def isHiding (f : GemmaThoughtFilter) : Bool := 0 < f.depth

def trimmed (f : GemmaThoughtFilter) (s : Bytes) : Bytes := if f.stripLeadingWs then s.dropWhile isSpace else s

theorem emitOutside_spec (f : GemmaThoughtFilter) (text : Bytes) : (f.emitOutside text).2.depth = f.depth ∧
  ∀ s, f.trimmed ((if f.depth = 0 then text else []) ++ s) = (f.emitOutside text).1 ++ (f.emitOutside text).2.trimmed s := by
 rw [emitOutside]
 split_ifs with hdepth
 · rw [emitVisible]
   by_cases hstrip : f.stripLeadingWs = true
   · rw [if_pos hstrip]
     refine ⟨rfl, fun s => ?_⟩
     rw [trimmed, if_pos hstrip, dropWhile_append, trimmed]
     cases hdrop : text.dropWhile isSpace with
     | nil => rfl
     | cons c rest => rfl
   · rw [if_neg hstrip]
     exact ⟨rfl, fun s => by rw [trimmed, if_neg hstrip, trimmed, if_neg hstrip]⟩
 · exact ⟨rfl, fun s => rfl⟩

/-- What a step of the filter shows, and what it keeps, make up what is to be shown. -/
structure Drained (f : GemmaThoughtFilter) (pending : Bytes) (r : Bytes × GemmaThoughtFilter) : Prop where
 noOpen : find openMarker r.2.pending = none
 noClose : find closeMarker r.2.pending = none
 shown : ∀ more, f.trimmed (scanThoughts f.depth (pending ++ more)).1 =
  r.1 ++ r.2.trimmed (scanThoughts r.2.depth (r.2.pending ++ more)).1
 depth : ∀ more, (scanThoughts f.depth (pending ++ more)).2 = (scanThoughts r.2.depth (r.2.pending ++ more)).2

theorem drain_spec (f : GemmaThoughtFilter) (pending : Bytes) : Drained f pending (f.drain pending) := by
 have hopenHead : 0x3C ∉ openMarker.tail ∧ openMarker.head? = some 0x3C := by rw [openMarker_eq]; decide
 have hcloseHead : 0x3C ∉ closeMarker.tail ∧ closeMarker.head? = some 0x3C := by rw [closeMarker_eq]; decide
 induction hm : pending.length using Nat.strong_induction_on generalizing f pending with
 | _ m ih =>
  rw [drain]
  by_cases hne : pending = []
  · rw [dif_pos hne, hne]
    exact ⟨find_nil openMarker_ne, find_nil closeMarker_ne, fun more => rfl, fun more => rfl⟩
  rw [dif_neg hne]
  have hpos := length_pos_iff.2 hne
  dsimp only
  -- A part in front of which no marker begins is shown or hidden as a whole.
  have hplain : ∀ {n : ℕ}, n ≤ pending.length → ∀ more, (∀ j < n, ¬ openMarker <+: pending.drop j ++ more) →
    (∀ j < n, ¬ closeMarker <+: pending.drop j ++ more) →
    scanThoughts f.depth (pending ++ more) =
     ((if f.depth = 0 then pending.take n else []) ++ (scanThoughts f.depth (pending.drop n ++ more)).1,
      (scanThoughts f.depth (pending.drop n ++ more)).2) := by
   intro n hn more hopen hclose
   have hscan := scanThoughts_plain (s := pending ++ more) (n := n) (by rw [length_append]; omega)
    (fun j hj => by rw [drop_append_of_le_length (by omega)]; exact hopen j hj)
    (fun j hj => by rw [drop_append_of_le_length (by omega)]; exact hclose j hj) f.depth
   rwa [drop_append_of_le_length hn, take_append_of_le_length hn] at hscan
  cases hfirst : firstOf (find openMarker pending) (find closeMarker pending) with
  | none =>
   obtain ⟨hopen, hclose⟩ := firstOf_none hfirst
   dsimp only
   have hle := Nat.max_le.2 ⟨partialTagSuffix_le pending openMarker, partialTagSuffix_le pending closeMarker⟩
   have hmaxOpen := Nat.le_max_left (partialTagSuffix pending openMarker) (partialTagSuffix pending closeMarker)
   have hmaxClose := Nat.le_max_right (partialTagSuffix pending openMarker) (partialTagSuffix pending closeMarker)
   generalize max (partialTagSuffix pending openMarker) (partialTagSuffix pending closeMarker) = hold at hle hmaxOpen hmaxClose ⊢
   obtain ⟨hdepth, hemit⟩ := emitOutside_spec f (pending.take (pending.length - hold))
   have hscan := fun more => hplain (n := pending.length - hold) (by omega) more
    (fun j hj => no_tag_before_hold openMarker_ne hopen hmaxOpen hj more)
    (fun j hj => no_tag_before_hold closeMarker_ne hclose hmaxClose hj more)
   refine ⟨find_drop_none openMarker_ne hopen _, find_drop_none closeMarker_ne hclose _, fun more => ?_, fun more => ?_⟩
   · rw [hscan, hemit, hdepth]
     rfl
   · rw [hscan, hdepth]
  | some first =>
   obtain ⟨hone, hopenLe, hcloseLe⟩ := firstOf_some hfirst
   have hmarker : ∃ marker, marker <+: pending.drop first ∧ marker.head? = some 0x3C ∧ first + marker.length ≤ pending.length := by
    rcases hone with hone | hone
    · exact ⟨openMarker, (find_some hone).1, hopenHead.2, find_length hone openMarker_ne⟩
    · exact ⟨closeMarker, (find_some hone).1, hcloseHead.2, find_length hone closeMarker_ne⟩
   obtain ⟨marker, hat, hhead, hfits⟩ := hmarker
   have hscan := fun more => hplain (n := first) (by omega) more
    (no_tag_before_first hat hhead hopenLe openMarker_ne hopenHead.1 more)
    (no_tag_before_first hat hhead hcloseLe closeMarker_ne hcloseHead.1 more)
   obtain ⟨hdepth, hemit⟩ := emitOutside_spec f (pending.take first)
   dsimp only
   by_cases hopen : find openMarker pending = some first
   · rw [if_pos hopen]
     have hlen := find_length hopen openMarker_ne
     have hopened : openMarker.length = 10 := by rw [openMarker_eq]; rfl
     obtain ⟨rest, hrest⟩ := (find_some hopen).1
     have hdrop : pending.drop (first + openMarker.length) = rest := by
      rw [← drop_drop, ← hrest, drop_left]
     have hnext := ih _ (by rw [length_drop]; omega) { (f.emitOutside (pending.take first)).2 with
      depth := (f.emitOutside (pending.take first)).2.depth + 1 } (pending.drop (first + openMarker.length)) rfl
     rw [hdrop] at hnext ⊢
     refine ⟨hnext.noOpen, hnext.noClose, fun more => ?_, fun more => ?_⟩
     · rw [hscan, hemit, ← hrest, append_assoc, scanThoughts_open, append_assoc, ← hnext.shown, hdepth]
       rfl
     · rw [hscan, ← hrest, append_assoc, scanThoughts_open, ← hnext.depth, hdepth]
   · rw [if_neg hopen]
     have hclose := hone.resolve_left hopen
     have hlen := find_length hclose closeMarker_ne
     have hclosed : closeMarker.length = 10 := by rw [closeMarker_eq]; rfl
     obtain ⟨rest, hrest⟩ := (find_some hclose).1
     have hdrop : pending.drop (first + closeMarker.length) = rest := by
      rw [← drop_drop, ← hrest, drop_left]
     have hnext := ih _ (by rw [length_drop]; omega) { (f.emitOutside (pending.take first)).2 with
      depth := (f.emitOutside (pending.take first)).2.depth - 1 } (pending.drop (first + closeMarker.length)) rfl
     rw [hdrop] at hnext ⊢
     refine ⟨hnext.noOpen, hnext.noClose, fun more => ?_, fun more => ?_⟩
     · rw [hscan, hemit, ← hrest, append_assoc, scanThoughts_close, append_assoc, ← hnext.shown, hdepth]
       rfl
     · rw [hscan, ← hrest, append_assoc, scanThoughts_close, ← hnext.depth, hdepth]

def feedAll (f : GemmaThoughtFilter) : List Bytes → Bytes × GemmaThoughtFilter
 | [] => ([], f)
 | piece :: pieces =>
  let (out, f) := f.feed piece
  let (more, f) := f.feedAll pieces
  (out ++ more, f)

theorem feedAll_spec {f : GemmaThoughtFilter} (hopen : find openMarker f.pending = none)
  (hclose : find closeMarker f.pending = none) (pieces : List Bytes) : find openMarker (f.feedAll pieces).2.pending = none ∧
  find closeMarker (f.feedAll pieces).2.pending = none ∧
  f.trimmed (scanThoughts f.depth (f.pending ++ pieces.flatten)).1 = (f.feedAll pieces).1 ++
   (f.feedAll pieces).2.trimmed (scanThoughts (f.feedAll pieces).2.depth (f.feedAll pieces).2.pending).1 ∧
  (scanThoughts f.depth (f.pending ++ pieces.flatten)).2 =
   (scanThoughts (f.feedAll pieces).2.depth (f.feedAll pieces).2.pending).2 := by
 induction pieces generalizing f with
 | nil => exact ⟨hopen, hclose, by simp [feedAll], by simp [feedAll]⟩
 | cons piece pieces ih =>
  have hfed := drain_spec f (f.pending ++ piece)
  obtain ⟨hopen', hclose', hshown, hdepth⟩ := ih hfed.noOpen hfed.noClose
  refine ⟨hopen', hclose', ?_, ?_⟩
  · rw [flatten_cons, ← append_assoc, hfed.shown, hshown, ← append_assoc]
    rfl
  · rw [flatten_cons, ← append_assoc, hfed.depth, hdepth]
    rfl

theorem scanThoughts_held {s : Bytes} (hopen : find openMarker s = none) (hclose : find closeMarker s = none) (depth : ℕ) :
  scanThoughts depth s = (if depth = 0 then s else [], depth) := by
 rw [scanThoughts_plain (le_refl _) (fun j _ => find_none openMarker_ne hopen j)
  (fun j _ => find_none closeMarker_ne hclose j), drop_length, scanThoughts, take_length, append_nil]

/-- The thoughts are hidden and the rest shown, however the stream is cut, and the filter hides
exactly inside a thought. -/
theorem gemma_filter_refines (startInside : Bool) (pieces : List Bytes) :
  ((create startInside).feedAll pieces).1 ++ ((create startInside).feedAll pieces).2.flush.1 =
    withoutThoughts startInside pieces.flatten ∧
   (((create startInside).feedAll pieces).2.isHiding = true ↔
    0 < (scanThoughts (if startInside then 1 else 0) pieces.flatten).2) := by
 obtain ⟨hopen, hclose, hshown, hdepth⟩ := feedAll_spec (f := create startInside) (find_nil openMarker_ne)
  (find_nil closeMarker_ne) pieces
 rw [scanThoughts_held hopen hclose] at hshown hdepth
 generalize (create startInside).feedAll pieces = r at hshown hdepth
 obtain ⟨out, f⟩ := r
 constructor
 · have hflush : f.flush.1 = f.trimmed (if f.depth = 0 then f.pending else []) := by
    obtain ⟨-, hemit⟩ := emitOutside_spec f f.pending
    have hend := hemit []
    have hnil : (f.emitOutside f.pending).2.trimmed [] = [] := by
     rw [trimmed]
     split_ifs <;> rfl
    rw [hnil, List.append_nil, List.append_nil] at hend
    exact hend.symm
   rw [hflush]
   exact hshown.symm
 · rw [isHiding, decide_eq_true_eq]
   have hsame : f.depth = (scanThoughts (if startInside then 1 else 0) pieces.flatten).2 := hdepth.symm
   rw [hsame]

end GemmaThoughtFilter

end MoltBrowser.StreamFilters
