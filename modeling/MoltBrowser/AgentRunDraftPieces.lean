import MoltBrowser.AgentRunDraft
import MoltBrowser.FirstError

set_option autoImplicit false

/-!
# What a draft is for: one piece for each thing the run did

The builder draws the pieces in order. Text that is typed again holds no token of
the goal; the addresses opened are not compared with them.
-/
namespace MoltBrowser.AgentDraft
open AutomationScript
open List hiding contains
open AutomationLocators (contains isSensitive)
open FirstError (bind_eq_ok foldlM_simulates)

/-- One thing the run did; the value of a field may be typed again, asked for, or the user's own
to enter. -/
inductive Piece where
 | page (address : Bytes)
 | scroll (direction : Bytes)
 | click (selector : Bytes)
 | own (selector : Bytes)
 | asked (selector name : Bytes)
 | typed (selector text : Bytes)

@[ext]
structure Act where
 type : StepType
 target : Bytes := []
 value : Bytes := []

def actOf (s : Step) : Act := ⟨s.type, s.target, s.value⟩

namespace Piece

def act : Piece → Act
 | page address => { type := .navigate, target := address }
 | scroll direction => { type := .scroll, value := direction }
 | click selector => { type := .click, target := selector }
 | own selector => { type := .type, target := selector }
 | asked selector name => { type := .type, target := selector, value := braced name }
 | typed selector text => { type := .type, target := selector, value := text }

def name? : Piece → Option Bytes
 | asked _ name => some name
 | _ => none

end Piece

def askedNames (ps : List Piece) : List Bytes := ps.filterMap Piece.name?

def fieldPiece (goal : Bytes) (names : List Bytes) (e : RunElement) : Piece :=
 if isSensitive e.fieldKind then .own e.selector
 else if (Builder.start goal).withholds e then
  .asked e.selector (variableNameFor (stripHidden e.label) names)
 else .typed e.selector e.text

def doElement (goal : Bytes) (typing : Bool) (ps : List Piece) (e : RunElement) : List Piece :=
 ps ++ [if typing then fieldPiece goal (askedNames ps) e else .click e.selector]

def doStep (url : UrlLibrary) (goal : Bytes) (ps : List Piece) (rs : RunStep) : List Piece :=
 let a := rs.action
 if a = "NAVIGATE" ∨ a = "SEARCH" then ps ++ [.page (url.spec rs.url)]
 else if a = "CLICK" ∨ a = "TYPE" ∨ a = "FILL_FORM" then
  rs.elements.foldl (doElement goal (a = "FILL_FORM" || a = "TYPE")) ps
 else if a = "SCROLL" then ps ++ [.scroll rs.direction]
 else ps

def doings (url : UrlLibrary) (run : Run) : List Piece :=
 (run.steps.filter (·.success)).foldl (doStep url run.goal) []

def firstPage (url : UrlLibrary) (run : Run) : Bytes :=
 match doings url run with
 | .page address :: _ => address
 | _ => url.spec run.startUrl

def pieces (url : UrlLibrary) (run : Run) : List Piece :=
 match doings url run with
 | .page address :: ps => .page address :: ps
 | ps => .page (url.spec run.startUrl) :: ps

/-! ## The builder draws it -/

/-- The builder has drawn these pieces; no text among them that is typed again holds a token. -/
structure Draws (goal : Bytes) (b : Builder) (ps : List Piece) : Prop where
 acts : b.script.steps.map actOf = ps.map Piece.act
 names : b.names = askedNames ps
 secrets : b.goalSecrets = goalSecretTokens goal
 unscanned : b.goalUnscanned = (Builder.start goal).goalUnscanned
 clear : ∀ selector text, Piece.typed selector text ∈ ps → b.containsGoalSecret text = false

variable {url : UrlLibrary} {goal : Bytes} {b b' : Builder} {ps : List Piece}

theorem Draws.start (goal : Bytes) : Draws goal (.start goal) [] := ⟨rfl, rfl, rfl, rfl, by simp⟩

theorem Draws.withholds (h : Draws goal b ps) (e : RunElement) :
  b.withholds e = (Builder.start goal).withholds e := by
 rw [Builder.withholds, Builder.withholds, h.unscanned, Builder.containsGoalSecret, h.secrets]
 rfl

variable {s : Step} {p : Piece}

theorem Draws.add (h : Draws goal b ps)
  (hsteps : b'.script.steps = b.script.steps ++ [s]) (hnames : b'.names = b.names ++ p.name?.toList)
  (hsecrets : b'.goalSecrets = b.goalSecrets) (hunscanned : b'.goalUnscanned = b.goalUnscanned)
  (hact : actOf s = p.act)
  (hclear : ∀ selector text, p = .typed selector text → b.containsGoalSecret text = false) :
  Draws goal b' (ps ++ [p]) where
 acts := by
  rw [hsteps, map_append, map_append, h.acts, map_singleton, map_singleton, hact]
 names := by
  rw [hnames, h.names, askedNames, askedNames, filterMap_append]
  cases p <;> rfl
 secrets := hsecrets.trans h.secrets
 unscanned := hunscanned.trans h.unscanned
 clear selector text hmem := by
  rw [Builder.containsGoalSecret, hsecrets]
  rcases mem_append.1 hmem with hmem | hmem
  · exact h.clear selector text hmem
  · exact hclear selector text (mem_singleton.1 hmem).symm

theorem Draws.push (h : Draws goal b ps) (hact : actOf s = p.act)
  (hname : p.name? = none)
  (hclear : ∀ selector text, p = .typed selector text → b.containsGoalSecret text = false) :
  Draws goal (b.push s) (ps ++ [p]) :=
 h.add rfl (by rw [hname]; exact (append_nil _).symm) rfl rfl hact hclear

variable {address : Bytes}

theorem checkAddress_ok {spec : Bytes} (h : checkAddress url address = .ok spec) :
  spec = url.spec address := by
 rw [checkAddress] at h
 split_ifs at h
 exact (Except.ok.inj h).symm

theorem addNavigation_ok {description : Bytes}
  (h : b.addNavigation url address description = .ok b') :
  ∃ s, b' = b.push s ∧ actOf s = (Piece.page (url.spec address)).act := by
 rw [Builder.addNavigation] at h
 obtain ⟨spec, hspec, h⟩ := bind_eq_ok.1 h
 rw [checkAddress_ok hspec] at h
 by_cases hempty : url.spec address = []
 · rw [if_pos hempty] at h
   cases h
 · rw [if_neg hempty] at h
   exact ⟨_, (Except.ok.inj h).symm, rfl⟩

theorem Draws.navigation (h : Draws goal b ps) {description : Bytes}
  (hok : b.addNavigation url address description = .ok b') :
  Draws goal b' (ps ++ [.page (url.spec address)]) := by
 obtain ⟨s, rfl, hact⟩ := addNavigation_ok hok
 exact h.push hact rfl fun _ _ heq => by cases heq

variable {e : RunElement}

theorem Builder.kept_clear (h : b.withholds e = false) :
  b.containsGoalSecret e.text = false := (Bool.or_eq_false_iff.1 h).2

theorem Draws.typing (h : Draws goal b ps) {extra : Dict} {host : Bytes}
  (htype : s.type = .type) (htarget : s.target = e.selector)
  (hok : b.addTyping s extra host e = .ok b') :
  Draws goal b' (ps ++ [fieldPiece goal (askedNames ps) e]) := by
 rw [Builder.addTyping] at hok
 by_cases hinput : lowerAscii e.inputType = "password"
 · rw [if_pos hinput, if_pos rfl] at hok
   split_ifs at hok
 · rw [if_neg hinput] at hok
   split_ifs at hok with _ _ _ hsensitive hwithholds
   · rw [fieldPiece, if_pos hsensitive, ← Except.ok.inj hok]
     exact h.add rfl (append_nil _).symm rfl rfl (Act.ext htype htarget rfl)
      fun _ _ heq => by cases heq
   · rw [fieldPiece, if_neg hsensitive, if_pos (h.withholds e ▸ hwithholds), ← Except.ok.inj hok]
     rw [← h.names]
     exact h.add rfl rfl rfl rfl (Act.ext htype htarget rfl) fun _ _ heq => by cases heq
   · rw [fieldPiece, if_neg hsensitive, if_neg (h.withholds e ▸ hwithholds), ← Except.ok.inj hok]
     refine h.push (Act.ext htype htarget rfl) rfl fun selector text heq => ?_
     cases heq
     exact Builder.kept_clear (Bool.eq_false_iff.2 hwithholds)

theorem Draws.elementStep (h : Draws goal b ps) {typing : Bool} {host origin : Bytes}
  (hok : b.addElementStep url typing host origin e = .ok b') :
  Draws goal b' (doElement goal typing ps e) := by
 rw [Builder.addElementStep] at hok
 split_ifs at hok with _ _ htyping
 · rw [doElement, if_pos htyping]
   exact h.typing rfl rfl hok
 · rw [doElement, if_neg htyping, ← Except.ok.inj hok]
   exact h.push rfl rfl fun _ _ heq => by cases heq

variable {rs : RunStep}

theorem Draws.elementSteps (h : Draws goal b ps)
  (hok : b.addElementSteps url rs = .ok b') :
  Draws goal b' (rs.elements.foldl
   (doElement goal (rs.action = "FILL_FORM" || rs.action = "TYPE")) ps) := by
 rw [Builder.addElementSteps] at hok
 split_ifs at hok <;> exact foldlM_simulates (fun _ _ _ _ h hok => h.elementStep hok) h hok

theorem Draws.search (h : Draws goal b ps) (hok : b.addSearch url rs = .ok b') :
  Draws goal b' (ps ++ [.page (url.spec rs.url)]) := by
 rw [Builder.addSearch] at hok
 split_ifs at hok
 exact h.navigation hok

theorem Draws.scroll (h : Draws goal b ps) (hok : b.addScroll rs = .ok b') :
  Draws goal b' (ps ++ [.scroll rs.direction]) := by
 rw [Builder.addScroll] at hok
 split_ifs at hok
 rw [← Except.ok.inj hok]
 exact h.push rfl rfl fun _ _ heq => by cases heq

theorem Draws.step (h : Draws goal b ps) (hok : b.addStep url rs = .ok b') :
  Draws goal b' (doStep url goal ps rs) := by
 rw [Builder.addStep] at hok
 split_ifs at hok with hidle hnavigate hsearch helement hscroll
 · rw [← Except.ok.inj hok]
   rcases hidle with ha | ha | ha | ha <;> simpa [doStep, ha] using h
 · rw [doStep, if_pos (.inl hnavigate)]
   exact h.navigation hok
 · rw [doStep, if_pos (.inr hsearch)]
   exact h.search hok
 · rw [doStep, if_neg (not_or.2 ⟨hnavigate, hsearch⟩), if_pos helement]
   exact h.elementSteps hok
 · rw [doStep, if_neg (not_or.2 ⟨hnavigate, hsearch⟩), if_neg helement, if_pos hscroll]
   exact h.scroll hok

variable {run : Run} {allowed : Bool}

theorem Draws.page_first (h : Draws goal b ps)
  (hact : actOf s = (Piece.page address).act) :
  Draws goal { b with script := { b.script with steps := s :: b.script.steps } }
   (.page address :: ps) where
 acts := by rw [map_cons, map_cons, hact, h.acts]
 names := h.names
 secrets := h.secrets
 unscanned := h.unscanned
 clear selector text hmem := by
  rcases mem_cons.1 hmem with heq | hmem
  · cases heq
  · exact h.clear selector text hmem

theorem pieces_opened (h : doings url run = .page address :: ps) :
  pieces url run = .page address :: ps ∧ firstPage url run = address := by
 rw [pieces, firstPage, h]
 exact ⟨rfl, rfl⟩

theorem pieces_unopened (h : ∀ address ps, doings url run ≠ .page address :: ps) :
  pieces url run = .page (url.spec run.startUrl) :: doings url run ∧
   firstPage url run = url.spec run.startUrl := by
 rw [pieces, firstPage]
 constructor <;> split <;> first | rfl | exact absurd ‹_› (h _ _)

theorem pieces_first (url : UrlLibrary) (run : Run) :
  ∃ ps, pieces url run = .page (firstPage url run) :: ps := by
 by_cases h : ∃ address ps, doings url run = .page address :: ps
 · obtain ⟨address, ps, h⟩ := h
   exact ⟨ps, by rw [(pieces_opened h).1, (pieces_opened h).2]⟩
 · push Not at h
   exact ⟨_, by rw [(pieces_unopened h).1, (pieces_unopened h).2]⟩

theorem Piece.page_of_act (h : p.act.type = .navigate) : ∃ address, p = .page address := by
 cases p with
 | page address => exact ⟨address, rfl⟩
 | _ => cases h

theorem Draws.startPage (h : Draws run.goal b (doings url run))
  (hok : b.startPage url run.startUrl = .ok b') : Draws run.goal b' (pieces url run) := by
 rw [Builder.startPage] at hok
 have hacts := h.acts
 cases hsteps : b.script.steps with
 | nil =>
  rw [hsteps] at hok
  cases hok
 | cons first rest =>
  simp only [hsteps] at hok
  cases hps : doings url run with
  | nil => simp [hsteps, hps] at hacts
  | cons p ps =>
   rw [hsteps, hps, map_cons, map_cons, List.cons.injEq] at hacts
   have htype : first.type = p.act.type := congrArg Act.type hacts.1
   split_ifs at hok with hfirst
   · obtain ⟨address, rfl⟩ := Piece.page_of_act (htype.symm.trans hfirst)
     rw [(pieces_opened hps).1, ← hps, ← Except.ok.inj hok]
     exact h
   · obtain ⟨b₁, hb₁, hok⟩ := bind_eq_ok.1 hok
     obtain ⟨s, rfl, hact⟩ := addNavigation_ok hb₁
     have hunopened : ∀ address ps, doings url run ≠ .page address :: ps := fun address ps' heq => by
      rw [hps] at heq
      cases heq
      exact hfirst htype
     rw [(pieces_unopened hunopened).1, ← Except.ok.inj hok]
     have := h.page_first hact
     rw [hsteps] at this
     exact this

theorem gather_draws (h : gather url run allowed = .ok b) : Draws run.goal b (pieces url run) := by
 rw [gather] at h
 split_ifs at h
 obtain ⟨b₁, hb₁, h⟩ := bind_eq_ok.1 h
 obtain ⟨b₂, hb₂, h⟩ := bind_eq_ok.1 h
 have hrun : Draws run.goal b₁ (doings url run) :=
  foldlM_simulates (f := Builder.addStep url) (fun _ _ _ _ h hok => h.step hok) (.start run.goal) hb₁
 split_ifs at h
 cases h
 exact hrun.startPage hb₂

variable {now : ℤ} {script : Script}

theorem buildDraft_gathers (h : (buildDraft url run allowed now).script = some script) :
  ∃ b, gather url run allowed = .ok b ∧ script.steps = b.script.steps ∧
   script.name = b.nameFor url run := by
 rw [buildDraft] at h
 split at h
 · cases h
 · next b hb =>
   cases h
   exact ⟨b, hb, rfl, rfl⟩

theorem script_acts (h : (buildDraft url run allowed now).script = some script) :
  script.steps.map actOf = (pieces url run).map Piece.act := by
 obtain ⟨b, hb, hsteps, -⟩ := buildDraft_gathers h
 rw [hsteps]
 exact (gather_draws hb).acts

/-! ## Where a token of the goal can show -/

theorem contains_iff {pattern s : Bytes} : contains pattern s = true ↔ pattern <:+: s := by
 induction s with
 | nil => simp [contains]
 | cons c s ih => rw [contains, Bool.or_eq_true, ih, isPrefixOf_iff_prefix, infix_cons_iff]

theorem infix_blank {α : Type*} {t l r : List α} {c : α} (hc : c ∉ t) :
  t <:+: l ++ c :: r ↔ t <:+: l ∨ t <:+: r := by
 constructor
 · rintro ⟨a, z, heq⟩
   rcases append_eq_append_iff.1 (show (a ++ t) ++ z = l ++ c :: r from heq) with
    ⟨w, hl, -⟩ | ⟨w, hat, hr⟩
   · exact .inl ⟨a, w, hl.symm⟩
   · cases w with
     | nil => exact .inl ⟨a, [], by rw [hat]; simp⟩
     | cons x w =>
      rw [cons_append, List.cons.injEq] at hr
      obtain ⟨rfl, hr⟩ := hr
      rcases append_eq_append_iff.1 hat with ⟨v, hl, hv⟩ | ⟨v, ha, hv⟩
      · exact absurd (hv ▸ mem_append_right v mem_cons_self) hc
      · cases v with
        | nil =>
         rw [nil_append] at hv
         exact absurd (hv ▸ mem_cons_self) hc
        | cons y v =>
         rw [cons_append, List.cons.injEq] at hv
         exact .inr ⟨v, z, by rw [hr, hv.2]⟩
 · rintro (h | h)
   · exact h.trans (prefix_append l _).isInfix
   · exact h.trans ((suffix_cons c r).trans (suffix_append l _)).isInfix

theorem infix_cons_of_head {α : Type*} {t l : List α} {c : α} (hne : t ≠ [])
  (hhead : t.head? ≠ some c) : t <:+: c :: l ↔ t <:+: l := by
 rw [infix_cons_iff, or_iff_right]
 rintro ⟨z, hz⟩
 cases t with
 | nil => exact hne rfl
 | cons x t => exact hhead (congrArg some (List.cons.inj hz).1)

theorem infix_concat_of_last {α : Type*} {t l : List α} {c : α} (hne : t ≠ [])
  (hlast : t.getLast? ≠ some c) : t <:+: l ++ [c] ↔ t <:+: l := by
 rw [← reverse_infix, reverse_append, reverse_singleton, singleton_append,
  infix_cons_of_head (by simpa using hne) (by rwa [head?_reverse]), reverse_infix]

variable {t : Bytes}

theorem Token.ne_nil (h : Token t) : t ≠ [] := fun hnil => by
 have := h.long
 rw [hnil] at this
 exact absurd this (by decide)

theorem Token.braced (h : Token t) (name : Bytes) : contains t (braced name) = contains t name := by
 rw [Bool.eq_iff_iff, contains_iff, contains_iff]
 have hbraced : AgentDraft.braced name = 0x7B :: 0x7B :: (name ++ [0x7D]) ++ [0x7D] := by
  rw [AgentDraft.braced, show utf8 "\x7b\x7b" = [0x7B, 0x7B] by decide,
   show utf8 "\x7d\x7d" = [0x7D, 0x7D] by decide]
  simp
 rw [hbraced, infix_concat_of_last h.ne_nil h.finish, infix_cons_of_head h.ne_nil h.start,
  infix_cons_of_head h.ne_nil h.start, infix_concat_of_last h.ne_nil h.finish]

theorem Token.not_short (h : Token t) {s : Bytes} (hs : s.length < 3) : ¬ t <:+: s := fun hin => by
 have := hin.length_le
 have := h.long
 omega

theorem Token.agent_run_on (h : Token t) (host : Bytes) :
  t <:+: utf8 "Agent run on " ++ host ↔ t <:+: utf8 "Agent" ∨ t <:+: utf8 "run" ∨ t <:+: host := by
 have hblank : (0x20 : UInt8) ∉ t := fun hmem => absurd (h.unspaced 0x20 hmem) (by decide)
 have hname : utf8 "Agent run on " ++ host =
   utf8 "Agent" ++ 0x20 :: (utf8 "run" ++ 0x20 :: (utf8 "on" ++ 0x20 :: host)) := by
  have hwords : utf8 "Agent run on " =
    utf8 "Agent" ++ 0x20 :: (utf8 "run" ++ 0x20 :: (utf8 "on" ++ [0x20])) := by decide
  rw [hwords]
  simp only [append_assoc, cons_append, nil_append]
 rw [hname, infix_blank hblank, infix_blank hblank, infix_blank hblank,
  or_iff_right (h.not_short (show (utf8 "on").length < 3 by decide))]

theorem Token.agent_run (h : Token t) :
  t <:+: utf8 "Agent run" ↔ t <:+: utf8 "Agent" ∨ t <:+: utf8 "run" := by
 have hblank : (0x20 : UInt8) ∉ t := fun hmem => absurd (h.unspaced 0x20 hmem) (by decide)
 have hwords : utf8 "Agent run" = utf8 "Agent" ++ 0x20 :: utf8 "run" := by decide
 rw [hwords, infix_blank hblank]

/-- The texts a piece brings in that are not compared with the goal's tokens. -/
def Piece.unchecked : Piece → List Bytes
 | page address => [address]
 | scroll direction => [direction]
 | asked _ name => [name]
 | _ => []

/-- What is not compared with them: of the pieces, and of the name a draft has when the goal gives
a secret. -/
def unchecked (url : UrlLibrary) (run : Run) : List Bytes :=
 (pieces url run).flatMap Piece.unchecked ++
  [utf8 "Agent", utf8 "run", url.hostOf (firstPage url run)]

/-- The token is in no step's value, in no address opened and not in the name. -/
structure StaysOut (t : Bytes) (script : Script) : Prop where
 value : ∀ s ∈ script.steps, contains t s.value = false
 target : ∀ s ∈ script.steps, s.type = .navigate → contains t s.target = false
 name : contains t script.name = false

/-- A piece shows the token in what replay reads exactly where it brings it in unchecked. -/
theorem Token.act (h : Token t)
  (hclear : ∀ selector text, p = .typed selector text → contains t text = false) :
  (contains t p.act.value = false ∧ (p.act.type = .navigate → contains t p.act.target = false)) ↔
   ∀ x ∈ p.unchecked, contains t x = false := by
 have hnil : contains t [] = false := by
  rw [Bool.eq_false_iff, Ne, contains_iff]
  exact h.not_short (by decide)
 cases p with
 | page address => simp [Piece.act, Piece.unchecked, hnil]
 | scroll direction => simp [Piece.act, Piece.unchecked]
 | click selector => simp [Piece.act, Piece.unchecked, hnil]
 | own selector => simp [Piece.act, Piece.unchecked, hnil]
 | asked selector name => simp [Piece.act, Piece.unchecked, h.braced]
 | typed selector text => simp [Piece.act, Piece.unchecked, hclear selector text rfl]

theorem Draws.clear_of (h : Draws goal b ps) (ht : t ∈ goalSecretTokens goal) {selector text : Bytes}
  (hmem : .typed selector text ∈ ps) : contains t text = false := by
 have hclear := h.clear selector text hmem
 rw [Builder.containsGoalSecret, h.secrets, any_eq_false] at hclear
 exact Bool.eq_false_iff.2 (hclear t ht)

theorem Draws.nameFor (h : Draws run.goal b (pieces url run)) (ht : t ∈ goalSecretTokens run.goal) :
  b.nameFor url run = if url.hostOf (firstPage url run) = [] then utf8 "Agent run"
   else utf8 "Agent run on " ++ url.hostOf (firstPage url run) := by
 obtain ⟨ps, hps⟩ := pieces_first url run
 have hacts := h.acts
 have hsecrets : b.goalSecrets ≠ [] := fun hnil => by
  rw [← h.secrets, hnil] at ht
  cases ht
 cases hsteps : b.script.steps with
 | nil => simp [hsteps, hps] at hacts
 | cons first rest =>
  rw [hsteps, hps, map_cons, map_cons, List.cons.injEq] at hacts
  have htype : first.type = .navigate := congrArg Act.type hacts.1
  have htarget : first.target = firstPage url run := congrArg Act.target hacts.1
  have hopens : (first :: rest).find? (fun s => s.type = .navigate) = some first :=
   find?_cons_of_pos (decide_eq_true htype)
  rw [← htarget, Builder.nameFor, hsteps, hopens, if_pos (.inr (.inr (.inl hsecrets)))]

theorem Token.named (h : Token t) (host : Bytes) :
  contains t (if host = [] then utf8 "Agent run" else utf8 "Agent run on " ++ host) = false ↔
   ∀ x ∈ [utf8 "Agent", utf8 "run", host], contains t x = false := by
 have hnil : ¬ t <:+: [] := h.not_short (by decide)
 simp only [Bool.eq_false_iff, Ne, contains_iff, forall_mem_cons, not_mem_nil,
  IsEmpty.forall_iff, implies_true, and_true]
 split_ifs with hhost
 · rw [h.agent_run, hhost, not_or]
   tauto
 · rw [h.agent_run_on, not_or, not_or]

/-- A draft holds no token of the goal exactly if there is none in what isn't compared with them:
the addresses opened, the words for scrolling, the names of the values asked for and the fixed
name. -/
theorem goal_secrets_stay_out_iff (url : UrlLibrary) (run : Run) (allowed : Bool) (now : ℤ)
  {script : Script} (h : (buildDraft url run allowed now).script = some script) :
  (∀ t ∈ goalSecretTokens run.goal, StaysOut t script) ↔
   ∀ t ∈ goalSecretTokens run.goal, ∀ x ∈ unchecked url run, contains t x = false := by
 obtain ⟨b, hb, hsteps, hname⟩ := buildDraft_gathers h
 have hdraws := gather_draws hb
 have hacts : script.steps.map actOf = (pieces url run).map Piece.act := script_acts h
 refine forall₂_congr fun t ht => ?_
 have htoken := token_of_mem ht
 have hpieces : (∀ s ∈ script.steps, contains t (actOf s).value = false ∧
   ((actOf s).type = .navigate → contains t (actOf s).target = false)) ↔
   ∀ p ∈ pieces url run, ∀ x ∈ p.unchecked, contains t x = false := by
  have hboth := congrArg (fun acts : List Act => ∀ a ∈ acts, contains t a.value = false ∧
   (a.type = .navigate → contains t a.target = false)) hacts
  simp only [List.forall_mem_map] at hboth
  rw [hboth]
  exact forall₂_congr fun p hp => htoken.act fun selector text heq => hdraws.clear_of ht (heq ▸ hp)
 rw [unchecked, List.forall_mem_append, List.forall_mem_flatMap, ← hpieces, ← htoken.named,
  ← hdraws.nameFor ht, ← hname]
 exact ⟨fun h => ⟨fun s hs => ⟨h.value s hs, h.target s hs⟩, h.name⟩,
  fun h => ⟨fun s hs => (h.1 s hs).1, fun s hs => (h.1 s hs).2, h.2⟩⟩

def httpsUrls : UrlLibrary where
 isHttp s := (utf8 "https://").isPrefixOf s
 spec s := s
 host s := (s.drop 8).takeWhile (· ≠ 0x2F)
 origin s := s.take 8 ++ (s.drop 8).takeWhile (· ≠ 0x2F)

def commentRun : Run where
 goal := "my password is hunter2"
 succeeded := true
 steps := [
  { action := "NAVIGATE", success := true, url := "https://a.example/" },
  { action := "TYPE", success := true, origin := "https://a.example"
    elements := [{ selector := "#c", kind := "input", label := "Comment", text := "hunter2 rocks" }] }]

theorem goal_secrets_stay_out_comment : ∃ script,
  (buildDraft httpsUrls commentRun true 0).script = some script ∧
   ∀ t ∈ goalSecretTokens commentRun.goal, StaysOut t script := by
 obtain ⟨script, h⟩ := Option.isSome_iff_exists.1
  (show (buildDraft httpsUrls commentRun true 0).script.isSome = true by decide +kernel)
 exact ⟨script, h, (goal_secrets_stay_out_iff httpsUrls commentRun true 0 h).2 (by decide +kernel)⟩

def openedRun : Run where
 goal := "my password is hunter2"
 succeeded := true
 steps := [{ action := "NAVIGATE", success := true, url := "https://a.example/?q=hunter2" }]

theorem goal_secret_opened : ¬ ∀ (url : UrlLibrary) (run : Run) (allowed : Bool) (now : ℤ)
  (script : Script), (buildDraft url run allowed now).script = some script →
   ∀ t ∈ goalSecretTokens run.goal, StaysOut t script := by
 intro hall
 have hleak : (buildDraft httpsUrls openedRun true 0).script.any (fun script =>
   script.steps.any fun s => s.type = .navigate && contains "hunter2" s.target) = true := by
  decide
 cases h : (buildDraft httpsUrls openedRun true 0).script with
 | none =>
  rw [h] at hleak
  cases hleak
 | some script =>
  rw [h, Option.any_some, List.any_eq_true] at hleak
  obtain ⟨s, hs, hs'⟩ := hleak
  rw [Bool.and_eq_true, decide_eq_true_eq] at hs'
  have hgiven : utf8 "hunter2" ∈ goalSecretTokens openedRun.goal := by decide
  have hout := (hall httpsUrls openedRun true 0 script h _ hgiven).target s hs hs'.1
  rw [hs'.2] at hout
  cases hout

end MoltBrowser.AgentDraft
