import MoltBrowser.StreamFilters
import MoltBrowser.TransitionRuns

set_option autoImplicit false

/-!
# What the filter of the Harmony channels shows

A piece is to be shown only in the body of a message whose header names the final channel. The filter keeps the name of the latest header beyond
the message it is of.
-/
namespace MoltBrowser.StreamFilters
open TransitionRuns List

def channelMarker : Bytes := utf8 "<|channel|>"
def messageMarker : Bytes := utf8 "<|message|>"

/-- What ends a message for good: all message boundaries but `<|constrain|>`. -/
def endsMessage (piece : Bytes) : Bool :=
 piece == utf8 "<|start|>" || piece == utf8 "<|end|>" || piece == utf8 "<|return|>" || piece == utf8 "<|call|>"

def isControlPiece (piece : Bytes) : Bool := piece == channelMarker || piece == messageMarker || messageBoundary piece

def harmonyAfter (pieces : List Bytes) : HarmonyChannelFilter := run (fun f piece => (f.feed piece).2) {} pieces

/-- The pieces of a header's name, up to the next control piece. -/
structure IsName (name rest : List Bytes) : Prop where
 plain : ∀ piece ∈ name, isControlPiece piece = false
 ends : ∀ piece, rest.head? = some piece → isControlPiece piece = true

def namesFinal (name : List Bytes) : Bool := (find "final" name.flatten).isSome

/-- The latest message comes after a header that names the final channel, with no message ended since the header, and no control piece comes
after it. -/
def Licensed (before : List Bytes) : Prop :=
 ∃ older name between body, before = older ++ channelMarker :: (name ++ (between ++ messageMarker :: body)) ∧
  IsName name (between ++ [messageMarker]) ∧ namesFinal name = true ∧ (∀ piece ∈ between, endsMessage piece = false) ∧
  ∀ piece ∈ body, isControlPiece piece = false

def FailsClosed (pieces : List Bytes) : Prop :=
 ∀ before piece, before <+: pieces → channelMarker ∈ before → ((harmonyAfter before).feed piece).1 ≠ [] → Licensed before

/-- The latest header, where it names the final channel, is of a message that hasn't ended. -/
def Headed (before : List Bytes) : Prop :=
 ∀ older name rest, before = older ++ channelMarker :: (name ++ rest) → IsName name rest → channelMarker ∉ rest → namesFinal name = true →
  ∀ piece ∈ rest, endsMessage piece = false

/-! ## The state by the latest header -/

theorem endsMessage_control {piece : Bytes} (h : endsMessage piece = true) : isControlPiece piece = true := by
 simp only [endsMessage, isControlPiece, messageBoundary, Bool.or_eq_true] at h ⊢
 grind

/-- What the filter has kept of the pieces since the latest header. -/
structure Follows (f : HarmonyChannelFilter) (name rest : List Bytes) : Prop where
 isName : IsName name rest
 latest : channelMarker ∉ rest
 harmony : f.harmony = true
 channel : f.channel = name.flatten
 inName : f.state = .channelName ↔ rest = []
 /-- Only a body is shown, and only by the name. -/
 emit : f.emit = true → namesFinal name = true ∧ ∃ between body, rest = between ++ messageMarker :: body ∧
  ∀ piece ∈ body, isControlPiece piece = false

section Follow

variable {f : HarmonyChannelFilter} {name rest : List Bytes}

variable {piece : Bytes}

theorem boundary_ne (h : messageBoundary piece = true) : piece ≠ channelMarker ∧ piece ≠ messageMarker := by
 refine ⟨fun heq => ?_, fun heq => ?_⟩
 · rw [heq] at h
   exact absurd h (by decide)
 · rw [heq] at h
   exact absurd h (by decide)

theorem ordinary_ne (h : isControlPiece piece = false) :
  piece ≠ channelMarker ∧ piece ≠ messageMarker ∧ messageBoundary piece = false := by
 simp only [isControlPiece, Bool.or_eq_false_iff, beq_eq_false_iff_ne] at h
 exact ⟨h.1.1, h.1.2, h.2⟩

theorem feed_eq (f : HarmonyChannelFilter) (piece : Bytes) : f.feed piece =
  if piece = channelMarker then ([], { harmony := true, state := .channelName, channel := [], emit := false })
  else if piece = messageMarker ∧ f.harmony = true then ([], { f with state := .body, emit := (find "final" f.channel).isSome })
  else if messageBoundary piece ∧ f.harmony = true then ([], { f with state := .outside, emit := false })
  else f.text piece := rfl

theorem feed_message (h : f.harmony = true) :
  (f.feed messageMarker).2 = { f with state := .body, emit := (find "final" f.channel).isSome } := by
 rw [feed_eq, if_neg (by decide), if_pos ⟨rfl, h⟩]

theorem feed_boundary (h : f.harmony = true) (hpiece : messageBoundary piece = true) :
  (f.feed piece).2 = { f with state := .outside, emit := false } := by
 obtain ⟨hchannel, hmessage⟩ := boundary_ne hpiece
 rw [feed_eq, if_neg hchannel, if_neg fun hm => hmessage hm.1, if_pos ⟨hpiece, h⟩]

theorem feed_ordinary (hpiece : isControlPiece piece = false) : f.feed piece = f.text piece := by
 obtain ⟨hchannel, hmessage, hboundary⟩ := ordinary_ne hpiece
 rw [feed_eq, if_neg hchannel, if_neg fun hm => hmessage hm.1, if_neg fun hb => by simp [hboundary] at hb]

theorem text_inName (h : f.harmony = true) (hname : f.state = .channelName) (piece : Bytes) :
  f.text piece = ([], { f with channel := f.channel ++ piece }) := by
 rw [HarmonyChannelFilter.text, h, if_neg (by decide), if_pos hname, ← h]

theorem text_afterName (h : f.harmony = true) (hname : f.state ≠ .channelName) (piece : Bytes) : (f.text piece).2 = f := by
 rw [HarmonyChannelFilter.text, h, if_neg (by decide), if_neg hname]
 split_ifs <;> rfl

theorem body_of_shown (h : f.harmony = true) (hshown : (f.feed piece).1 ≠ []) :
  f.state = .body ∧ f.emit = true := by
 rw [feed_eq] at hshown
 split_ifs at hshown
 · exact absurd rfl hshown
 · exact absurd rfl hshown
 · exact absurd rfl hshown
 · simp only [HarmonyChannelFilter.text, h, Bool.not_true, Bool.false_eq_true, if_false] at hshown
   split_ifs at hshown with hname hbody
   · exact absurd rfl hshown
   · exact hbody
   · exact absurd rfl hshown

theorem IsName.head_append (h : IsName name rest) (hpiece : rest ≠ [] ∨ isControlPiece piece = true) :
  IsName name (rest ++ [piece]) where
 plain := h.plain
 ends := by
  cases rest with
  | nil =>
   rintro p hp
   obtain rfl := Option.some.inj hp
   exact hpiece.resolve_left fun hne => hne rfl
  | cons first rest => exact h.ends

theorem follows_channel (f : HarmonyChannelFilter) : Follows (f.feed channelMarker).2 [] [] where
 isName := ⟨fun _ hp => absurd hp not_mem_nil, fun _ hp => by cases hp⟩
 latest := not_mem_nil
 harmony := rfl
 channel := rfl
 inName := ⟨fun _ => rfl, fun _ => rfl⟩
 emit := fun hemit => by cases hemit

theorem Follows.message (h : Follows f name rest) : Follows (f.feed messageMarker).2 name (rest ++ [messageMarker]) := by
 rw [feed_message h.harmony]
 exact
  { isName := h.isName.head_append (.inr (by decide))
    latest := fun hmem => by
     rcases mem_append.mp hmem with hmem | hmem
     · exact h.latest hmem
     · exact absurd (mem_singleton.mp hmem) (by decide)
    harmony := h.harmony
    channel := h.channel
    inName := by simp
    emit := fun hemit => ⟨by rwa [namesFinal, ← h.channel], rest, [], rfl, fun _ hp => absurd hp not_mem_nil⟩ }

theorem Follows.boundary (h : Follows f name rest) (hpiece : messageBoundary piece = true) :
  Follows (f.feed piece).2 name (rest ++ [piece]) := by
 obtain ⟨hchannel, -⟩ := boundary_ne hpiece
 rw [feed_boundary h.harmony hpiece]
 exact
  { isName := h.isName.head_append (.inr (by simp [isControlPiece, hpiece]))
    latest := fun hmem => by
     rcases mem_append.mp hmem with hmem | hmem
     · exact h.latest hmem
     · exact hchannel (mem_singleton.mp hmem).symm
    harmony := h.harmony
    channel := h.channel
    inName := by simp
    emit := fun hemit => by cases hemit }

theorem Follows.nameOn (h : Follows f name []) (hpiece : isControlPiece piece = false) :
  Follows (f.feed piece).2 (name ++ [piece]) [] := by
 rw [feed_ordinary hpiece, text_inName h.harmony (h.inName.mpr rfl)]
 exact
  { isName :=
     ⟨fun p hp => by
      rcases mem_append.mp hp with hp | hp
      · exact h.isName.plain p hp
      · rwa [mem_singleton.mp hp], fun _ hp => by cases hp⟩
    latest := not_mem_nil
    harmony := h.harmony
    channel := by simp [h.channel]
    inName := ⟨fun _ => rfl, fun _ => h.inName.mpr rfl⟩
    emit := fun hemit => by
     obtain ⟨-, between, body, hnil, -⟩ := h.emit hemit
     exact absurd hnil (by simp) }

theorem Follows.on (h : Follows f name rest) (hrest : rest ≠ []) (hpiece : isControlPiece piece = false) :
  Follows (f.feed piece).2 name (rest ++ [piece]) := by
 have hsame : (f.feed piece).2 = f := by
  rw [feed_ordinary hpiece, text_afterName h.harmony fun hname => hrest (h.inName.mp hname)]
 rw [hsame]
 exact
  { isName := h.isName.head_append (.inl hrest)
    latest := fun hmem => by
     rcases mem_append.mp hmem with hmem | hmem
     · exact h.latest hmem
     · exact (ordinary_ne hpiece).1 (mem_singleton.mp hmem).symm
    harmony := h.harmony
    channel := h.channel
    inName := ⟨fun hname => absurd (h.inName.mp hname) hrest, fun hnil => absurd hnil (by simp)⟩
    emit := fun hemit => by
     obtain ⟨hfinal, between, body, rfl, hbody⟩ := h.emit hemit
     refine ⟨hfinal, between, body ++ [piece], by simp, fun p hp => ?_⟩
     rcases mem_append.mp hp with hp | hp
     · exact hbody p hp
     · rwa [mem_singleton.mp hp] }

end Follow

def HeaderSeen (f : HarmonyChannelFilter) (pieces : List Bytes) : Prop :=
 ∃ older name rest, pieces = older ++ channelMarker :: (name ++ rest) ∧ Follows f name rest

theorem HeaderSeen.step {f : HarmonyChannelFilter} {pieces : List Bytes} (h : HeaderSeen f pieces) (piece : Bytes) :
  HeaderSeen (f.feed piece).2 (pieces ++ [piece]) := by
 obtain ⟨older, name, rest, rfl, hfollows⟩ := h
 by_cases hcontrol : isControlPiece piece = true
 · simp only [isControlPiece, Bool.or_eq_true, beq_iff_eq] at hcontrol
   obtain (rfl | rfl) | hboundary := hcontrol
   · exact ⟨_, [], [], rfl, follows_channel f⟩
   · exact ⟨older, name, rest ++ [messageMarker], by simp, hfollows.message⟩
   · exact ⟨older, name, rest ++ [piece], by simp, hfollows.boundary hboundary⟩
 · rw [Bool.not_eq_true] at hcontrol
   by_cases hrest : rest = []
   · subst hrest
     exact ⟨older, name ++ [piece], [], by simp, hfollows.nameOn hcontrol⟩
   · exact ⟨older, name, rest ++ [piece], by simp, hfollows.on hrest hcontrol⟩

theorem harmonyAfter_append (pieces : List Bytes) (piece : Bytes) :
  harmonyAfter (pieces ++ [piece]) = ((harmonyAfter pieces).feed piece).2 := by
 rw [harmonyAfter, run_append]
 rfl

theorem headerSeen_harmonyAfter {pieces : List Bytes} (h : channelMarker ∈ pieces) : HeaderSeen (harmonyAfter pieces) pieces := by
 induction pieces using List.reverseRecOn with
 | nil => exact absurd h not_mem_nil
 | append_singleton pieces piece ih =>
  rw [harmonyAfter_append]
  rcases mem_append.mp h with hearlier | hnow
  · exact (ih hearlier).step piece
  · rw [← mem_singleton.mp hnow]
    exact ⟨pieces, [], [], rfl, follows_channel _⟩

/-! ## Which messages may be shown -/

theorem IsName.unique {name rest name' rest' : List Bytes} (h : IsName name rest) (h' : IsName name' rest')
  (heq : name ++ rest = name' ++ rest') : name = name' ∧ rest = rest' := by
 induction name generalizing name' with
 | nil =>
  cases name' with
  | nil => exact ⟨rfl, heq⟩
  | cons piece name' =>
   have hcontrol := h.ends piece (by rw [← nil_append rest, heq]; rfl)
   rw [h'.plain piece mem_cons_self] at hcontrol
   cases hcontrol
 | cons piece name ih =>
  cases name' with
  | nil =>
   have hcontrol := h'.ends piece (by rw [← nil_append rest', ← heq]; rfl)
   rw [h.plain piece mem_cons_self] at hcontrol
   cases hcontrol
  | cons piece' name' =>
   obtain ⟨rfl, htail⟩ := List.cons.inj heq
   obtain ⟨rfl, hrest⟩ := ih ⟨fun p hp => h.plain p (mem_cons_of_mem _ hp), h.ends⟩
    ⟨fun p hp => h'.plain p (mem_cons_of_mem _ hp), h'.ends⟩ htail
   exact ⟨rfl, hrest⟩

theorem not_mem_name {name rest : List Bytes} (h : IsName name rest) : channelMarker ∉ name := fun hmem =>
 absurd (h.plain channelMarker hmem) (by decide)

theorem suffix_after_last {α : Type} {c : α} {older older' tail tail' : List α} (h : older ++ c :: tail = older' ++ c :: tail')
  (hlast : c ∉ tail) : tail <:+ tail' := by
 rcases append_eq_append_iff.mp h with ⟨middle, -, htail⟩ | ⟨middle, -, htail⟩
 · cases middle with
   | nil => exact (List.cons.inj htail).2 ▸ suffix_refl _
   | cons first middle =>
    obtain ⟨-, htail⟩ := List.cons.inj htail
    exact absurd (htail ▸ mem_append_right middle mem_cons_self) hlast
 · cases middle with
   | nil => exact (List.cons.inj htail).2 ▸ suffix_refl _
   | cons first middle =>
    obtain ⟨-, htail⟩ := List.cons.inj htail
    exact ⟨middle ++ [c], by rw [htail]; simp⟩

theorem headed_of_failsClosed {pieces before : List Bytes} (h : FailsClosed pieces) (hbefore : before ++ [messageMarker] <+: pieces)
  (hseen : channelMarker ∈ before) : Headed before := by
 intro older name rest heq hname hlatest hfinal piece hpiece
 by_contra hends
 obtain ⟨older', name', rest', heq', hfollows⟩ := headerSeen_harmonyAfter hseen
 have hsame : name = name' := by
  have hlast : channelMarker ∉ name ++ rest := fun hmem => (mem_append.mp hmem).elim (not_mem_name hname) hlatest
  have hlast' : channelMarker ∉ name' ++ rest' := fun hmem =>
   (mem_append.mp hmem).elim (not_mem_name hfollows.isName) hfollows.latest
  have hsuffix := suffix_after_last (heq.symm.trans heq') hlast
  have hsuffix' := suffix_after_last (heq'.symm.trans heq) hlast'
  have htails : name ++ rest = name' ++ rest' := hsuffix.eq_of_length_le hsuffix'.length_le
  exact (hname.unique hfollows.isName htails).1
 have hshown : ((harmonyAfter (before ++ [messageMarker])).feed [0x61]).1 ≠ [] := by
  have hordinary : isControlPiece [0x61] = false := by decide
  have hemit : (find "final" (harmonyAfter before).channel).isSome = true := by
   rw [hfollows.channel, ← hsame]
   exact hfinal
  rw [harmonyAfter_append, feed_message hfollows.harmony, feed_ordinary hordinary, hemit, HarmonyChannelFilter.text]
  simp [hfollows.harmony]
 obtain ⟨older₁, name₁, between, body, hall, hname₁, -, hbetween, hbody⟩ :=
  h _ _ hbefore (mem_append_left _ hseen) hshown
 have hnil : body = [] := by
  rcases eq_nil_or_concat body with hnil | ⟨init, last, rfl⟩
  · exact hnil
  · rw [concat_eq_append] at hall
    have hsplit : before ++ [messageMarker] = (older₁ ++ channelMarker :: (name₁ ++ (between ++ messageMarker :: init))) ++ [last] := by
     rw [hall]
     simp
    have hlast : messageMarker = last := singleton_inj.mp (append_inj' hsplit rfl).2
    have hcontrol := hbody last (by simp)
    rw [← hlast] at hcontrol
    exact absurd hcontrol (by decide)
 have hcut : before = older₁ ++ channelMarker :: (name₁ ++ between) := by
  rw [hnil] at hall
  apply (append_left_inj [messageMarker]).1
  rw [hall]
  simp
 have hsuffix := suffix_after_last (heq.symm.trans hcut) fun hmem => (mem_append.mp hmem).elim (not_mem_name hname) hlatest
 rcases mem_append.mp (hsuffix.subset (mem_append_right name hpiece)) with hmem | hmem
 · rw [Bool.not_eq_false] at hends
   exact absurd (endsMessage_control hends) (by simp [hname₁.plain piece hmem])
 · exact hends (hbetween piece hmem)

/-- The filter fails closed just where every message that follows a final header is that header's own. -/
theorem failsClosed_iff (pieces : List Bytes) : FailsClosed pieces ↔
  ∀ before, before ++ [messageMarker] <+: pieces → channelMarker ∈ before → Headed before := by
 refine ⟨fun h before hbefore hseen => headed_of_failsClosed h hbefore hseen, fun h before piece hbefore hseen hshown => ?_⟩
 obtain ⟨older, name, rest, rfl, hfollows⟩ := headerSeen_harmonyAfter hseen
 obtain ⟨-, hemit⟩ := body_of_shown hfollows.harmony hshown
 obtain ⟨hfinal, between, body, rfl, hbody⟩ := hfollows.emit hemit
 have hname : IsName name (between ++ [messageMarker]) := by
  refine ⟨hfollows.isName.plain, fun p hp => ?_⟩
  cases between with
  | nil =>
   obtain rfl := Option.some.inj hp
   decide
  | cons first between => exact hfollows.isName.ends p hp
 refine ⟨older, name, between, body, rfl, hname, hfinal, ?_, hbody⟩
 have hprefix : (older ++ channelMarker :: (name ++ between)) ++ [messageMarker] <+: pieces :=
  List.IsPrefix.trans ⟨body, by simp⟩ hbefore
 refine h _ hprefix (by simp) older name between rfl ⟨hname.plain, fun p hp => ?_⟩ (fun hmem => hfollows.latest (by simp [hmem])) hfinal
 cases between with
 | nil => cases hp
 | cons first between => exact hfollows.isName.ends p hp

def answeredPieces : List Bytes :=
 [channelMarker, utf8 "final", messageMarker, utf8 "Hi", utf8 "<|end|>", utf8 "<|start|>", utf8 "assistant"]

theorem headless_message_shown : ¬ ∀ pieces, FailsClosed pieces := by
 intro hclaim
 have hheaded : Headed answeredPieces :=
  headed_of_failsClosed (hclaim (answeredPieces ++ [messageMarker])) List.prefix_rfl (by decide)
 have hname : IsName [utf8 "final"] [messageMarker, utf8 "Hi", utf8 "<|end|>", utf8 "<|start|>", utf8 "assistant"] :=
  ⟨by decide, fun p hp => Option.some.inj hp ▸ by decide⟩
 exact absurd (hheaded [] _ _ rfl hname (by decide) (by decide) (utf8 "<|end|>") (by decide)) (by decide)

end MoltBrowser.StreamFilters
