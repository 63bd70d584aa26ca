import MoltBrowser.GenerationSchedulerAdmission

set_option autoImplicit false

/-!
# Turns between sites

`LastStart` is remembered only while a site has requests. Sites take turns as
long as no site that comes back with its turn forgotten is the oldest of those
without one; then it goes before a site that has waited longer.
-/
namespace MoltBrowser.GenerationScheduler
open TransitionRuns List

def Event.isStart : Event → Bool
 | .started _ _ _ => true
 | _ => false

def startsIn (log : List Event) : ℕ := log.countP Event.isStart

/-- The number of a site's most recent start among all starts, 0 if it never started. -/
@[grind =] def lastStartOf : List Event → Site → ℕ
 | [], _ => 0
 | .started _ s _ :: log, site => if s = site then startsIn log + 1 else lastStartOf log site
 | .admitted _ _ _ :: log, site => lastStartOf log site
 | .finished _ :: log, site => lastStartOf log site
 | .held _ _ :: log, site => lastStartOf log site
 | .released _ _ :: log, site => lastStartOf log site

/-- A start of `site` goes before no waiting site that started longer ago, and so never
twice before a waiting site without that site's own start between. -/
def TakesTurn (t : Traced) : Call → Prop
 | .startNext => ∀ id site fg, (step t .startNext).log = .started id site fg :: t.log →
   ∀ w ∈ queue t.sched fg, lastStartOf t.log site ≤ lastStartOf t.log w.site ∧
    (w.site ≠ site → ∀ since older a g, t.log = since ++ .started a site g :: older →
     ∃ b g', .started b w.site g' ∈ since)
 | _ => True

/-- The oldest waiting request of a site with no remembered start is not one whose turn was
forgotten, unless no site waiting with it started longer ago. -/
def TurnRemembered (t : Traced) : Call → Prop
 | .startNext => t.sched.running = 0 →
   ∀ e, (served t.sched).find? (fun e => lastStart t.sched e.site = 0) = some e →
    ∀ w ∈ served t.sched, lastStartOf t.log e.site ≤ lastStartOf t.log w.site
 | _ => True

theorem lastStartOf_le (log : List Event) (site : Site) : lastStartOf log site ≤ startsIn log := by
 induction log with
 | nil => exact le_refl _
 | cons e log ih =>
  cases e with
  | started i s fg =>
   simp only [lastStartOf, startsIn, countP_cons, Event.isStart] at ih ⊢
   split
   · rfl
   · omega
  | admitted | finished | held | released =>
   simpa [lastStartOf, startsIn, countP_cons, Event.isStart] using ih

variable {site : Site}

theorem lastStartOf_append {since older : List Event}
  (h : ∀ b g, .started b site g ∉ since) : lastStartOf (since ++ older) site = lastStartOf older site := by
 induction since with
 | nil => rfl
 | cons e since ih =>
  have ht : ∀ b g, .started b site g ∉ since := fun b g hm => h b g (mem_cons_of_mem _ hm)
  cases e with
  | started i s fg =>
   have hne : s ≠ site := by
    rintro rfl
    exact h i fg mem_cons_self
   simp only [cons_append, lastStartOf, hne, ↓reduceIte, ih ht]
  | admitted | finished | held | released =>
   simpa only [cons_append, lastStartOf] using ih ht

theorem startsIn_append (since older : List Event) :
  startsIn (since ++ older) = startsIn since + startsIn older := countP_append

/-- Starting again needs the other site's start in between: its own number is larger. -/
theorem start_between {log since older : List Event} {other : Site} {a : ℕ} {g : Bool}
  (hlog : log = since ++ .started a site g :: older) (hne : other ≠ site)
  (hle : lastStartOf log site ≤ lastStartOf log other) : ∃ b g', .started b other g' ∈ since := by
 by_contra hnone
 have hother : lastStartOf log other ≤ startsIn older := by
  rw [hlog, lastStartOf_append fun b g' hm => hnone ⟨b, g', hm⟩]
  simp only [lastStartOf, Ne.symm hne, ↓reduceIte]
  exact lastStartOf_le _ _
 have hsite : startsIn older < lastStartOf log site := by
  subst hlog
  clear hle hother hnone
  induction since with
  | nil => simp [lastStartOf]
  | cons e since ih =>
   cases e with
   | started i s fg =>
    simp only [cons_append, lastStartOf]
    split
    · rw [startsIn_append]
      simp only [startsIn, countP_cons, Event.isStart]
      omega
    · exact ih
   | admitted | finished | held | released => exact ih
 omega

/-- What is remembered is right: a site's remembered start is its last one. -/
structure TurnInv (t : Traced) : Prop where
 base : Inv t
 starts : t.sched.starts = startsIn t.log
 remembered : ∀ site n, t.sched.lastStartBySite site = some n →
  n = lastStartOf t.log site ∧ 0 < n

variable {t : Traced}

theorem TurnInv.lastStart_le (h : TurnInv t) (site : Site) :
  lastStart t.sched site ≤ lastStartOf t.log site := by
 unfold lastStart
 cases hs : t.sched.lastStartBySite site with
 | none => exact Nat.zero_le _
 | some n => exact (h.remembered site n hs).1.le

theorem TurnInv.lastStart_eq (h : TurnInv t)
  (hpos : lastStart t.sched site ≠ 0) : lastStart t.sched site = lastStartOf t.log site := by
 unfold lastStart at hpos ⊢
 cases hs : t.sched.lastStartBySite site with
 | none => simp [hs] at hpos
 | some n => exact (h.remembered site n hs).1

theorem TurnInv.frame {u : Traced} (h : TurnInv t) (hbase : Inv u)
  (hstarts : u.sched.starts = t.sched.starts) (hin : startsIn u.log = startsIn t.log)
  (hlast : ∀ site, lastStartOf u.log site = lastStartOf t.log site)
  (hmap : ∀ site n, u.sched.lastStartBySite site = some n →
   t.sched.lastStartBySite site = some n) : TurnInv u where
 base := hbase
 starts := by rw [hstarts, hin, h.starts]
 remembered site n hs := by
  rw [hlast]
  exact h.remembered site n (hmap site n hs)

theorem release_lastStart (s : State) (site : Site) :
  (release s site).lastStartBySite = s.lastStartBySite ∨
   (release s site).lastStartBySite = Function.update s.lastStartBySite site none := by
 unfold release
 cases s.pendingBySite site with
 | none => exact .inl rfl
 | some m =>
  by_cases h0 : sizeSub m 1 = 0
  · exact .inr (by simp only [if_pos h0])
  · exact .inl (by simp only [if_neg h0])

theorem release_forgets (s : State) (site x : Site) (n : ℕ)
  (h : (release s site).lastStartBySite x = some n) : s.lastStartBySite x = some n := by
 rcases release_lastStart s site with hs | hs <;> rw [hs] at h
 · exact h
 · by_cases hx : x = site
   · simp [hx] at h
   · rwa [Function.update_of_ne hx] at h

theorem TurnInv.start (h : TurnInv t) : TurnInv (step t .startNext) := by
 have hbase : Inv (step t .startNext) := h.base.step trivial
 rcases startNext_cases t.sched with ⟨h0, hs, _⟩ |
  ⟨e, -, hn, hid, -, hsite, -, hstarts, hlast, -, -, -⟩
 · have hsame : step t .startNext = t := by
    simp only [step, h0, ↓reduceIte, hs]
   rw [hsame]
   exact h
 · have hne : e.id ≠ 0 :=
    h.base.queues.nonzero e (queue_subset_entries _ _ (next_spec hn).1)
   have hlog : (step t .startNext).log =
     .started e.id e.site (servedForeground t.sched) :: t.log := by
    simp only [step, hid, hne, ↓reduceIte, hsite]
   refine ⟨hbase, ?_, ?_⟩
   · change (startNext t.sched).2.starts = _
     rw [hstarts, hlog, h.starts, startsIn, startsIn, countP_cons_of_pos rfl]
   · intro site n hs
     change (startNext t.sched).2.lastStartBySite site = some n at hs
     rw [hlast] at hs
     rw [hlog]
     by_cases hx : site = e.site
     · subst hx
       simp only [Function.update_self, Option.some.injEq] at hs
       simp only [lastStartOf, ↓reduceIte, ← h.starts]
       omega
     · rw [Function.update_of_ne hx] at hs
       simp only [lastStartOf, Ne.symm hx, ↓reduceIte]
       exact h.remembered site n hs

theorem TurnInv.step {c : Call} (h : TurnInv t) (hf : Fresh t c) :
  TurnInv (step t c) := by
 have hbase := h.base.step hf
 cases c with
 | enqueue id site fg =>
  rcases enqueue_cases t.sched id site fg with ⟨hr, hs⟩ | ⟨hr, -, -, hs⟩ <;>
   simp only [GenerationScheduler.step, hr, ↓reduceIte, hs] at hbase ⊢ <;>
   exact h.frame hbase rfl rfl (fun _ => rfl) fun _ _ hm => hm
 | startNext => exact h.start
 | finish id =>
  simp only [GenerationScheduler.step] at hbase ⊢
  rcases finish_cases t.sched id with ⟨hs, -⟩ | ⟨-, -, hs⟩ |
   ⟨u, e, b, -, -, -, -, hs, -, -, -, hul, hus, -, -, -⟩ <;> rw [hs] at hbase ⊢
  · exact h.frame hbase rfl rfl (fun _ => rfl) fun _ _ hm => hm
  · obtain ⟨-, -, -, -, -, hst⟩ := release_frame
     { t.sched with running := 0, runningSite := [] } t.sched.runningSite
    exact h.frame hbase hst rfl (fun _ => rfl) fun site n hm => release_forgets
     { t.sched with running := 0, runningSite := [] } t.sched.runningSite site n hm
  · obtain ⟨-, -, -, -, -, hst⟩ := release_frame u e.site
    refine h.frame hbase (hst.trans hus) rfl (fun _ => rfl) fun site n hm => ?_
    rw [← hul]
    exact release_forgets u e.site site n hm
 | tryAddSession site =>
  obtain ⟨f, hf⟩ := tryAddSession_frame t.sched site
  simp only [GenerationScheduler.step, hf] at hbase ⊢
  exact h.frame hbase rfl rfl (fun _ => rfl) fun _ _ hm => hm
 | removeSession site =>
  obtain ⟨f, hf⟩ := removeSession_frame t.sched site
  simp only [GenerationScheduler.step, hf] at hbase ⊢
  exact h.frame hbase rfl rfl (fun _ => rfl) fun _ _ hm => hm
 | tryHoldImages site count =>
  obtain ⟨f, n, hf⟩ := tryHoldImages_frame t.sched site count
  cases hr : (tryHoldImages t.sched site count).1 <;>
   simp only [GenerationScheduler.step, hf, hr, ↓reduceIte, Bool.false_eq_true] at hbase ⊢ <;>
   exact h.frame hbase rfl rfl (fun _ => rfl) fun _ _ hm => hm
 | releaseImages site count =>
  obtain ⟨f, n, hf⟩ := releaseImages_frame t.sched site count
  simp only [GenerationScheduler.step, hf] at hbase ⊢
  exact h.frame hbase rfl rfl (fun _ => rfl) fun _ _ hm => hm

/-- The scan's choice: the first request of a site with no remembered start, if there is one. -/
theorem next_eq_find {s : State} {e : Entry} (hn : next s = some e) :
  (lastStart s e.site = 0 ∧ (served s).find? (fun e => lastStart s e.site = 0) = some e) ∨
  (lastStart s e.site ≠ 0 ∧ (served s).find? (fun e => lastStart s e.site = 0) = none) := by
 obtain ⟨hmem, hmin, hfirst⟩ := next_spec hn
 by_cases h0 : lastStart s e.site = 0
 · refine .inl ⟨h0, ?_⟩
   cases hf : (served s).find? (fun e => lastStart s e.site = 0) with
   | none =>
    have hnone := find?_eq_none.1 hf e hmem
    simp [h0] at hnone
   | some w =>
    have hw0 : lastStart s w.site = 0 := by simpa using find?_some hf
    have hwm := mem_of_find?_eq_some hf
    have hle := hfirst w hwm (by omega)
    obtain ⟨_, l₁, l₂, hsplit, hbefore⟩ := find?_eq_some_iff_append.1 hf
    -- The chosen entry stands no later than the first one without a start.
    have heq : e = w := by
     by_contra hne
     have hel : e ∉ l₁ := fun he => by simpa [h0] using hbefore e he
     have hwl : w ∉ l₁ := fun hw => by simpa [hw0] using hbefore w hw
     rw [hsplit, idxOf_append_of_notMem hel, idxOf_append_of_notMem hwl,
      idxOf_cons_self, idxOf_cons_ne _ (Ne.symm hne)] at hle
     omega
    rw [heq]
 · refine .inr ⟨h0, find?_eq_none.2 fun w hw => ?_⟩
   have := hmin w hw
   simp only [decide_eq_true_eq]
   omega

theorem TurnInv.started_iff (h : TurnInv t) (id : ℕ) (site : Site) (fg : Bool) :
  (GenerationScheduler.step t .startNext).log = .started id site fg :: t.log ↔
   t.sched.running = 0 ∧ next t.sched = some ⟨id, site⟩ ∧ fg = servedForeground t.sched := by
 rcases startNext_cases t.sched with ⟨h0, hs, hempty⟩ | ⟨e, hr, hn, hid, -, hsite, -⟩
 · simp only [GenerationScheduler.step, h0, ↓reduceIte]
   refine ⟨fun heq => absurd (congrArg List.length heq) (by simp), fun hstarts => ?_⟩
   obtain ⟨hr, hn, -⟩ := hstarts
   have hmem := (next_spec hn).1
   rw [hempty hr] at hmem
   simp at hmem
 · have hne : e.id ≠ 0 :=
    h.base.queues.nonzero e (queue_subset_entries _ _ (next_spec hn).1)
   simp only [GenerationScheduler.step, hid, hne, ↓reduceIte, hsite, hr, hn, true_and,
    List.cons.injEq, Event.started.injEq, and_true, Option.some.injEq]
   constructor
   · rintro ⟨rfl, rfl, rfl⟩
     exact ⟨rfl, rfl⟩
   · rintro ⟨rfl, rfl⟩
     exact ⟨rfl, rfl, rfl⟩

theorem TurnInv.takesTurn_iff (h : TurnInv t) (c : Call) :
  TakesTurn t c ↔ TurnRemembered t c := by
 cases c with
 | startNext =>
  simp only [TakesTurn, TurnRemembered, h.started_iff]
  constructor
  · intro htake hr e hf w hw
    obtain ⟨n, hn⟩ : ∃ n, next t.sched = some n := by
     cases hn : next t.sched with
     | none => rw [argmin_eq_none.1 hn] at hw; simp at hw
     | some n => exact ⟨n, rfl⟩
    rcases next_eq_find hn with ⟨_, hfind⟩ | ⟨_, hfind⟩
    · rw [hfind, Option.some.injEq] at hf
      subst hf
      exact (htake n.id n.site _ ⟨hr, hn, rfl⟩ w hw).1
    · rw [hfind] at hf
      cases hf
  · rintro hrem id site fg ⟨hr, hn, rfl⟩ w hw
    have hle : lastStartOf t.log site ≤ lastStartOf t.log w.site := by
     rcases next_eq_find hn with ⟨_, hfind⟩ | ⟨hpos, _⟩
     · exact hrem hr _ hfind w hw
     · calc lastStartOf t.log site
         _ = lastStart t.sched site := (h.lastStart_eq hpos).symm
         _ ≤ lastStart t.sched w.site := (next_spec hn).2.1 w hw
         _ ≤ lastStartOf t.log w.site := h.lastStart_le w.site
    exact ⟨hle, fun hne since older a g hlog => start_between hlog hne hle⟩
 | enqueue | finish | tryAddSession | removeSession | tryHoldImages | releaseImages => exact Iff.rfl

/-- Sites take turns along a run exactly when no start of it meets a forgotten turn. -/
theorem turns_taken_iff (calls : List Call) (h : Along step Fresh {} calls) :
  Along step TakesTurn {} calls ↔ Along step TurnRemembered {} calls :=
 along_congr (I := TurnInv) (fun _ _ hi hf => hi.step hf) (fun _ c hi => hi.takesTurn_iff c)
  ⟨Inv.initial, rfl, fun _ _ hs => by cases hs⟩ h

/-- Site `a` waits with its second request while `b` comes back each time it has finished. -/
def overtakingCalls : List Call :=
 [.enqueue 1 "a" true, .enqueue 2 "a" true, .startNext, .finish 1, .enqueue 3 "b" true,
  .startNext, .finish 3, .enqueue 4 "b" true]

theorem turns_taken_iff_overtaking : Along step Fresh {} overtakingCalls ∧
  (Along step TakesTurn {} overtakingCalls ↔ Along step TurnRemembered {} overtakingCalls) :=
 ⟨by decide, turns_taken_iff overtakingCalls (by decide)⟩

/-- The next start is `b`'s again, though `a` started longer ago. -/
theorem overtaken_twice : Along step Fresh {} (overtakingCalls ++ [.startNext]) ∧
  ¬ Along step TakesTurn {} (overtakingCalls ++ [.startNext]) := by
 refine ⟨by decide, fun h => ?_⟩
 have hturn := ((along_append _ _ _ _ _).1 h).2.1 4 "b" true (by decide) ⟨2, "a"⟩ (by decide)
 exact absurd hturn.1 (by decide)

end MoltBrowser.GenerationScheduler
