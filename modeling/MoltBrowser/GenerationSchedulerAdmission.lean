import MoltBrowser.GenerationScheduler

set_option autoImplicit false

/-!
# Admission stays exact

The counters kept beside the queues are compared with the history: which
requests are live, which of them started, and what images are held.
-/
namespace MoltBrowser.GenerationScheduler
open TransitionRuns List

def Live : List Event → ℕ → Prop
 | [], _ => False
 | .admitted i _ _ :: log, id => i = id ∨ Live log id
 | .finished i :: log, id => i ≠ id ∧ Live log id
 | .started _ _ _ :: log, id => Live log id
 | .held _ _ :: log, id => Live log id
 | .released _ _ :: log, id => Live log id

def Event.startOf (id : ℕ) : Event → Bool
 | .started i _ _ => i = id
 | _ => false

def Event.admissionOf (id : ℕ) : Event → Bool
 | .admitted i _ _ => i = id
 | _ => false

def Started (log : List Event) (id : ℕ) : Prop := ∃ e ∈ log, e.startOf id

/-- `a` was admitted before `b`, both by one site into one queue. -/
def ArrivedBefore (log : List Event) (a b : ℕ) (site : Site) (fg : Bool) : Prop :=
 ∃ newer older, log = newer ++ .admitted b site fg :: older ∧ .admitted a site fg ∈ older

/-- When a request starts, what its site asked for before it in that queue is not waiting. -/
def StartsInOrder (log : List Event) : Prop :=
 ∀ newer older a b site fg, log = newer ++ .started b site fg :: older →
  ArrivedBefore older a b site fg → Started older a ∨ ¬ Live older a

/-- The images a site should hold: holds less releases, never below none. -/
@[grind =] def heldFor : List Event → Site → ℕ
 | [] => fun _ => 0
 | .held site n :: log => Function.update (heldFor log) site (heldFor log site + n)
 | .released site n :: log => Function.update (heldFor log) site (heldFor log site - n)
 | .admitted _ _ _ :: log => heldFor log
 | .started _ _ _ :: log => heldFor log
 | .finished _ :: log => heldFor log

def imageSites : List Event → Finset Site
 | [] => ∅
 | .held site _ :: log => insert site (imageSites log)
 | .released site _ :: log => insert site (imageSites log)
 | .admitted _ _ _ :: log => imageSites log
 | .started _ _ _ :: log => imageSites log
 | .finished _ :: log => imageSites log

def heldTotal (log : List Event) : ℕ := ∑ site ∈ imageSites log, heldFor log site

def queue (s : State) (fg : Bool) : List Entry := if fg then s.foreground else s.background

def sitePending (s : State) (site : Site) : ℕ :=
 (queue s true).countP (·.site = site) + (queue s false).countP (·.site = site) +
  if s.running ≠ 0 ∧ s.runningSite = site then 1 else 0

/-- What the scheduler promises of its counters, in every state it reaches. -/
structure AdmissionExact (t : Traced) : Prop where
 oneRuns : ∀ a b, Live t.log a → Started t.log a → Live t.log b → Started t.log b → a = b
 pendingExact : ∀ site, pendingForSite t.sched site = sitePending t.sched site
 pendingCap : ∀ site, pendingForSite t.sched site ≤ kMaxPendingPerSite
 totalCap : pendingTotal t.sched ≤ kMaxPendingTotal
 startedOnce : ∀ id, t.log.countP (Event.startOf id) ≤ 1
 /-- Until it is finished, an admitted request is queued or running, never both. -/
 queuedXorRunning : ∀ id, Live t.log id → Xor (isQueued t.sched id) (isRunning t.sched id)
 /-- Only live requests are. -/
 pendingLive : ∀ id, isQueued t.sched id ∨ isRunning t.sched id → Live t.log id
 arrivalOrder : StartsInOrder t.log
 siteImages : ∀ site, imagesHeldForSite t.sched site = heldFor t.log site
 totalImages : t.sched.imagesHeldTotal = heldTotal t.log
 siteImagesCap : ∀ site, imagesHeldForSite t.sched site ≤ kMaxHeldImagesPerSite
 totalImagesCap : t.sched.imagesHeldTotal ≤ kMaxHeldImagesTotal

theorem sizeSub_of_le {a b : ℕ} (hb : b ≤ a) (ha : a < 2 ^ 64) : sizeSub a b = a - b := by
 unfold sizeSub
 have h : a + 2 ^ 64 - b = (a - b) + 2 ^ 64 := by omega
 rw [h, Nat.add_mod_right, Nat.mod_eq_of_lt (by omega)]

/-! ## Images -/

def encode (n : ℕ) : Option ℕ := if n = 0 then none else some n

@[simp] theorem encode_getD (n : ℕ) : (encode n).getD 0 = n := by
 unfold encode
 split <;> simp_all

variable {log : List Event} {site : Site}

theorem heldFor_eq_zero (h : site ∉ imageSites log) :
  heldFor log site = 0 := by
 induction log with
 | nil => rfl
 | cons e log ih =>
  cases e with
  | held s n =>
   simp only [imageSites, Finset.mem_insert, not_or] at h
   simp only [heldFor, Function.update_of_ne h.1, ih h.2]
  | released s n =>
   simp only [imageSites, Finset.mem_insert, not_or] at h
   simp only [heldFor, Function.update_of_ne h.1, ih h.2]
  | admitted | started | finished => exact ih h

theorem sum_update_insert (F : Finset Site) (f : Site → ℕ) (site : Site) (v : ℕ)
  (h : site ∉ F → f site = 0) :
  ∑ x ∈ insert site F, Function.update f site v x + f site = ∑ x ∈ F, f x + v := by
 have hrest : ∑ x ∈ F.erase site, Function.update f site v x = ∑ x ∈ F.erase site, f x :=
  Finset.sum_congr rfl fun x hx => Function.update_of_ne (Finset.ne_of_mem_erase hx) _ _
 have hleft : ∑ x ∈ insert site F, Function.update f site v x =
   v + ∑ x ∈ F.erase site, f x := by
  rw [← Finset.insert_erase (Finset.mem_insert_self site F), Finset.erase_insert_eq_erase,
   Finset.sum_insert (Finset.notMem_erase site F), Function.update_self, hrest]
 have hright : ∑ x ∈ F, f x = f site + ∑ x ∈ F.erase site, f x := by
  by_cases hs : site ∈ F
  · exact (Finset.add_sum_erase F f hs).symm
  · rw [h hs, Finset.erase_eq_of_notMem hs, zero_add]
 omega

theorem heldTotal_held (log : List Event) (site : Site) (n : ℕ) :
  heldTotal (.held site n :: log) = heldTotal log + n := by
 have h := sum_update_insert (imageSites log) (heldFor log) site (heldFor log site + n)
  heldFor_eq_zero
 simp only [heldTotal, imageSites, heldFor]
 omega

theorem heldTotal_released (log : List Event) (site : Site) (n : ℕ) :
  heldTotal (.released site n :: log) + min n (heldFor log site) = heldTotal log := by
 have h := sum_update_insert (imageSites log) (heldFor log) site (heldFor log site - n)
  heldFor_eq_zero
 simp only [heldTotal, imageSites, heldFor]
 omega

theorem heldFor_le_heldTotal (log : List Event) (site : Site) :
  heldFor log site ≤ heldTotal log := by
 by_cases h : site ∈ imageSites log
 · exact Finset.single_le_sum (fun _ _ => Nat.zero_le _) h
 · rw [heldFor_eq_zero h]
   exact Nat.zero_le _

structure ImagesInv (t : Traced) : Prop where
 site : ∀ site, t.sched.imagesBySite site = encode (heldFor t.log site)
 total : t.sched.imagesHeldTotal = heldTotal t.log
 siteCap : ∀ site, heldFor t.log site ≤ kMaxHeldImagesPerSite
 totalCap : heldTotal t.log ≤ kMaxHeldImagesTotal

variable {t : Traced}

theorem ImagesInv.held (h : ImagesInv t) (site : Site) :
  imagesHeldForSite t.sched site = heldFor t.log site := by
 rw [imagesHeldForSite, h.site, encode_getD]

theorem ImagesInv.frame {u : Traced} (h : ImagesInv t)
  (hmap : u.sched.imagesBySite = t.sched.imagesBySite)
  (htotal : u.sched.imagesHeldTotal = t.sched.imagesHeldTotal)
  (hheld : heldFor u.log = heldFor t.log) (hsum : heldTotal u.log = heldTotal t.log) :
  ImagesInv u := by
 refine ⟨fun site => ?_, ?_, fun site => ?_, ?_⟩
 · rw [hmap, hheld]
   exact h.site site
 · rw [htotal, hsum]
   exact h.total
 · rw [hheld]
   exact h.siteCap site
 · rw [hsum]
   exact h.totalCap

theorem ImagesInv.hold (h : ImagesInv t) (site : Site) (count : ℕ) :
  ImagesInv (step t (.tryHoldImages site count)) := by
 have hsite := h.siteCap site
 have htotal := h.totalCap
 have hroom := sizeSub_of_le hsite (show kMaxHeldImagesPerSite < 2 ^ 64 by decide)
 have hspace := sizeSub_of_le htotal (show kMaxHeldImagesTotal < 2 ^ 64 by decide)
 simp only [step, tryHoldImages, h.held, h.total, hroom, hspace]
 by_cases h0 : count = 0
 · subst h0
   refine h.frame rfl rfl ?_ ?_
   · simp [heldFor]
   · simp [heldTotal_held]
 by_cases hfull : count > kMaxHeldImagesPerSite - heldFor t.log site ∨
   count > kMaxHeldImagesTotal - heldTotal t.log
 · simp only [h0, hfull, ↓reduceIte]
   exact h.frame rfl rfl rfl rfl
 · simp only [h0, hfull, ↓reduceIte]
   rw [not_or, not_lt, not_lt] at hfull
   refine ⟨fun x => ?_, ?_, fun x => ?_, ?_⟩
   · by_cases hx : x = site
     · subst x
       simp only [heldFor, Function.update_self, encode]
       rw [if_neg (by omega)]
     · simp only [heldFor, Function.update_of_ne hx]
       exact h.site x
   · simp only [heldTotal_held]
   · by_cases hx : x = site
     · subst x
       simp only [heldFor, Function.update_self]
       omega
     · simp only [heldFor, Function.update_of_ne hx]
       exact h.siteCap x
   · simp only [heldTotal_held]
     omega

variable {s : State}

theorem releaseImages_noop {count : ℕ}
  (h : count = 0 ∨ s.imagesBySite site = none) : releaseImages s site count = s := by
 unfold releaseImages
 rcases h with h | h
 · subst h
   split <;> rfl
 · rw [h]

theorem ImagesInv.release (h : ImagesInv t) (site : Site) (count : ℕ) :
  ImagesInv (step t (.releaseImages site count)) := by
 have hcap := h.siteCap site
 have hle := heldFor_le_heldTotal t.log site
 have htotal := heldTotal_released t.log site count
 have hmax : kMaxHeldImagesTotal = 48 := rfl
 have htotalCap := h.totalCap
 by_cases h0 : count = 0 ∨ heldFor t.log site = 0
 · have hsame : heldFor (.released site count :: t.log) = heldFor t.log := by
    simp only [heldFor]
    rw [show heldFor t.log site - count = heldFor t.log site by omega, Function.update_eq_self]
   have hsum : heldTotal (.released site count :: t.log) = heldTotal t.log := by omega
   have hkeep : releaseImages t.sched site count = t.sched := by
    apply releaseImages_noop
    rcases h0 with h0 | h0
    · exact .inl h0
    · exact .inr (by rw [h.site, h0]; rfl)
   simp only [step, hkeep]
   exact h.frame rfl rfl hsame hsum
 · rw [not_or] at h0
   simp only [step, releaseImages, h.site, encode, h0.1, h0.2, ↓reduceIte, h.total]
   refine ⟨fun x => ?_, ?_, fun x => ?_, ?_⟩
   · by_cases hx : x = site
     · subst x
       simp only [heldFor, Function.update_self, encode]
       by_cases hall : min count (heldFor t.log site) = heldFor t.log site
       · rw [if_pos hall, if_pos (by omega)]
       · rw [if_neg hall, if_neg (by omega), sizeSub_of_le (by omega) (by omega)]
         congr 1
         omega
     · simp only [heldFor, Function.update_of_ne hx]
       exact h.site x
   · simp only
     rw [sizeSub_of_le (by omega) (by omega)]
     omega
   · by_cases hx : x = site
     · subst x
       simp only [heldFor, Function.update_self]
       omega
     · simp only [heldFor, Function.update_of_ne hx]
       exact h.siteCap x
   · simp only
     omega

/-! ## History -/

@[simp] theorem started_admitted (log : List Event) (i : ℕ) (site : Site) (fg : Bool) (id : ℕ) :
  Started (.admitted i site fg :: log) id ↔ Started log id := by
 simp [Started, Event.startOf]

@[simp] theorem started_finished (log : List Event) (i id : ℕ) :
  Started (.finished i :: log) id ↔ Started log id := by
 simp [Started, Event.startOf]

@[simp] theorem started_held (log : List Event) (site : Site) (n id : ℕ) :
  Started (.held site n :: log) id ↔ Started log id := by
 simp [Started, Event.startOf]

@[simp] theorem started_released (log : List Event) (site : Site) (n id : ℕ) :
  Started (.released site n :: log) id ↔ Started log id := by
 simp [Started, Event.startOf]

@[simp] theorem started_started (log : List Event) (i : ℕ) (site : Site) (fg : Bool) (id : ℕ) :
  Started (.started i site fg :: log) id ↔ i = id ∨ Started log id := by
 simp [Started, Event.startOf]

variable {id : ℕ}

theorem Live.admission (h : Live log id) :
  ∃ site fg, .admitted id site fg ∈ log := by
 induction log with
 | nil => exact h.elim
 | cons e log ih =>
  cases e with
  | admitted i site fg =>
   rcases h with rfl | h
   · exact ⟨site, fg, mem_cons_self⟩
   · obtain ⟨site', fg', hm⟩ := ih h
     exact ⟨site', fg', mem_cons_of_mem _ hm⟩
  | finished i =>
   obtain ⟨site', fg', hm⟩ := ih h.2
   exact ⟨site', fg', mem_cons_of_mem _ hm⟩
  | started | held | released =>
   obtain ⟨site', fg', hm⟩ := ih h
   exact ⟨site', fg', mem_cons_of_mem _ hm⟩

theorem pair_sublist_asymm {α : Type} [DecidableEq α] {a b : α} {l : List α} (hab : a ≠ b)
  (ha : l.count a ≤ 1) (hb : l.count b ≤ 1) (h : [a, b].Sublist l) : ¬ [b, a].Sublist l := by
 induction l with
 | nil => simp at h
 | cons c l ih =>
  intro h'
  have hca : l.count a ≤ (c :: l).count a := count_le_count_cons
  have hcb : l.count b ≤ (c :: l).count b := count_le_count_cons
  cases h with
  | cons _ h =>
   cases h' with
   | cons _ h' => exact ih (hca.trans ha) (hcb.trans hb) h h'
   | cons_cons _ h' =>
    have hmem : b ∈ l := h.subset (by simp)
    have hpos := count_pos_iff.2 hmem
    simp only [count_cons_self] at hb
    omega
  | cons_cons _ h =>
   cases h' with
   | cons _ h' =>
    have hmem : a ∈ l := h'.subset (by simp)
    have hpos := count_pos_iff.2 hmem
    simp only [count_cons_self] at ha
    omega
   | cons_cons _ h' => exact hab rfl

/-! ## Queues -/

def entries (s : State) : List Entry := queue s true ++ queue s false

def admission (fg : Bool) (e : Entry) : Event := .admitted e.id e.site fg

structure QueueInv (t : Traced) : Prop where
 nodup : ((entries t.sched).map Entry.id).Nodup
 notRunning : ∀ e ∈ entries t.sched, e.id ≠ t.sched.running
 nonzero : ∀ e ∈ entries t.sched, e.id ≠ 0
 arrivals : ∀ fg, ((queue t.sched fg).map (admission fg)).reverse.Sublist t.log
 queued : ∀ id, isQueued t.sched id ↔ Live t.log id ∧ ¬ Started t.log id
 running : ∀ id, isRunning t.sched id ↔ Live t.log id ∧ Started t.log id
 startedOnce : ∀ id, t.log.countP (Event.startOf id) ≤ 1
 admittedOnce : ∀ id, t.log.countP (Event.admissionOf id) ≤ 1
 offered : ∀ e ∈ t.log, ∀ id, e.admissionOf id ∨ e.startOf id → id ∈ t.offered
 pending : ∀ site, t.sched.pendingBySite site = encode (sitePending t.sched site)
 siteCap : ∀ site, sitePending t.sched site ≤ kMaxPendingPerSite
 totalCap : pendingTotal t.sched ≤ kMaxPendingTotal
 order : StartsInOrder t.log

theorem isQueued_iff (s : State) (id : ℕ) : isQueued s id ↔ ∃ e ∈ entries s, e.id = id := by
 simp only [isQueued, entries, queue, ↓reduceIte, Bool.false_eq_true, mem_append, or_and_right,
  exists_or]

theorem sitePending_eq (s : State) (site : Site) : sitePending s site =
  (entries s).countP (·.site = site) + if s.running ≠ 0 ∧ s.runningSite = site then 1 else 0 := by
 simp only [sitePending, entries, countP_append]

theorem pendingTotal_eq (s : State) : pendingTotal s =
  (entries s).length + if s.running ≠ 0 then 1 else 0 := by
 simp only [pendingTotal, entries, queue, ↓reduceIte, Bool.false_eq_true, length_append]

theorem QueueInv.fresh (h : QueueInv t) (hid : id ∉ t.offered) :
  (∀ e ∈ t.log, e.admissionOf id = false) ∧ ¬ Live t.log id ∧ ¬ Started t.log id := by
 have hadm : ∀ e ∈ t.log, e.admissionOf id = false := fun e he =>
  Bool.eq_false_iff.2 fun hc => hid (h.offered e he id (.inl hc))
 refine ⟨hadm, fun hl => ?_, fun ⟨e, he, hc⟩ => hid (h.offered e he id (.inr hc))⟩
 obtain ⟨site, fg, hm⟩ := hl.admission
 simpa [Event.admissionOf] using hadm _ hm

theorem QueueInv.live_iff (h : QueueInv t) (id : ℕ) :
  Live t.log id ↔ isQueued t.sched id ∨ isRunning t.sched id := by
 rw [h.queued, h.running]
 tauto

theorem StartsInOrder.cons (h : StartsInOrder log) {e : Event}
  (he : ∀ id site fg, e = .started id site fg →
   ∀ a, ArrivedBefore log a id site fg → Started log a ∨ ¬ Live log a) :
  StartsInOrder (e :: log) := by
 intro newer older a b site fg hlog ha
 cases newer with
 | nil =>
  obtain ⟨rfl, rfl⟩ := List.cons.inj hlog
  exact he b site fg rfl a ha
 | cons e' newer =>
  obtain ⟨rfl, rfl⟩ := List.cons.inj hlog
  exact h newer older a b site fg rfl ha

def Event.ofImages : Event → Bool
 | .held _ _ => true
 | .released _ _ => true
 | _ => false

theorem live_ofImages {e : Event} (he : e.ofImages) (log : List Event) (id : ℕ) :
  Live (e :: log) id ↔ Live log id := by
 cases e <;> simp_all [Event.ofImages, Live]

theorem started_ofImages {e : Event} (he : e.ofImages) (log : List Event) (id : ℕ) :
  Started (e :: log) id ↔ Started log id := by
 cases e <;> simp_all [Event.ofImages]

theorem QueueInv.frame {u : Traced} (h : QueueInv t) (hq : entries u.sched = entries t.sched)
  (hqs : ∀ fg, queue u.sched fg = queue t.sched fg)
  (hr : u.sched.running = t.sched.running) (hrs : u.sched.runningSite = t.sched.runningSite)
  (hp : u.sched.pendingBySite = t.sched.pendingBySite) (ho : u.offered = t.offered)
  (hlog : u.log = t.log ∨ ∃ e : Event, e.ofImages ∧ u.log = e :: t.log) : QueueInv u := by
 have hlive : ∀ id, Live u.log id ↔ Live t.log id := by
  rcases hlog with hl | ⟨e, he, hl⟩ <;> intro id <;> rw [hl]
  exact live_ofImages he _ _
 have hstarted : ∀ id, Started u.log id ↔ Started t.log id := by
  rcases hlog with hl | ⟨e, he, hl⟩ <;> intro id <;> rw [hl]
  exact started_ofImages he _ _
 have hpending : ∀ site, sitePending u.sched site = sitePending t.sched site := fun site => by
  simp only [sitePending_eq, hq, hr, hrs]
 constructor
 case nodup => rw [hq]; exact h.nodup
 case notRunning => rw [hq, hr]; exact h.notRunning
 case nonzero => rw [hq]; exact h.nonzero
 case arrivals =>
  intro fg
  rw [hqs]
  rcases hlog with hl | ⟨e, _, hl⟩ <;> rw [hl]
  · exact h.arrivals fg
  · exact (h.arrivals fg).cons _
 case queued => intro id; rw [isQueued_iff, hq, ← isQueued_iff, hlive, hstarted]; exact h.queued id
 case running => intro id; rw [isRunning, hr, hlive, hstarted]; exact h.running id
 case startedOnce =>
  intro id
  rcases hlog with hl | ⟨e, he, hl⟩ <;> rw [hl]
  · exact h.startedOnce id
  · rw [countP_cons_of_neg (by cases e <;> simp_all [Event.ofImages, Event.startOf])]
    exact h.startedOnce id
 case admittedOnce =>
  intro id
  rcases hlog with hl | ⟨e, he, hl⟩ <;> rw [hl]
  · exact h.admittedOnce id
  · rw [countP_cons_of_neg (by cases e <;> simp_all [Event.ofImages, Event.admissionOf])]
    exact h.admittedOnce id
 case offered =>
  intro e' he' id hid
  rw [ho]
  rcases hlog with hl | ⟨e, he, hl⟩ <;> rw [hl] at he'
  · exact h.offered e' he' id hid
  · rcases mem_cons.1 he' with rfl | he'
    · cases e' <;> simp_all [Event.ofImages, Event.admissionOf, Event.startOf]
    · exact h.offered e' he' id hid
 case pending => intro site; rw [hp, hpending]; exact h.pending site
 case siteCap => intro site; rw [hpending]; exact h.siteCap site
 case totalCap => rw [pendingTotal_eq, hq, hr, ← pendingTotal_eq]; exact h.totalCap
 case order =>
  rcases hlog with hl | ⟨e, he, hl⟩ <;> rw [hl]
  · exact h.order
  · refine h.order.cons fun id site fg hs => ?_
    subst hs
    simp [Event.ofImages] at he

theorem enqueue_cases (s : State) (id : ℕ) (site : Site) (fg : Bool) :
  ((enqueue s id site fg).1 ≠ .admitted ∧ (enqueue s id site fg).2 = s) ∨
  ((enqueue s id site fg).1 = .admitted ∧ pendingTotal s < kMaxPendingTotal ∧
   pendingForSite s site < kMaxPendingPerSite ∧
   (enqueue s id site fg).2 = { s with
    foreground := s.foreground ++ if fg then [⟨id, site⟩] else []
    background := s.background ++ if fg then [] else [⟨id, site⟩]
    pendingBySite := Function.update s.pendingBySite site
     (some (pendingForSite s site + 1)) }) := by
 unfold enqueue
 split
 · exact .inl ⟨by simp, rfl⟩
 · split
   · exact .inl ⟨by simp, rfl⟩
   · refine .inr ⟨rfl, by omega, by omega, ?_⟩
     cases fg <;> simp [pendingForSite]

theorem entries_perm_admitted (s : State) (e : Entry) (fg : Bool) (f : Site → Option ℕ) :
  (entries { s with
   foreground := s.foreground ++ if fg then [e] else []
   background := s.background ++ if fg then [] else [e]
   pendingBySite := f }).Perm (e :: entries s) := by
 cases fg
 · simp only [entries, queue, ↓reduceIte, Bool.false_eq_true, append_nil, ← append_assoc]
   exact perm_append_singleton _ _
 · simp only [entries, queue, ↓reduceIte, Bool.false_eq_true, append_nil]
   exact (perm_append_singleton e s.foreground).append_right s.background

theorem QueueInv.enqueued (h : QueueInv t) {fg : Bool}
  (hf : Fresh t (.enqueue id site fg)) : QueueInv (step t (.enqueue id site fg)) := by
 obtain ⟨hid, hnew⟩ := hf
 obtain ⟨hadm, hlive, hstarted⟩ := h.fresh hnew
 rcases enqueue_cases t.sched id site fg with ⟨hr, hs⟩ | ⟨hr, htotal, hsite, hs⟩
 · -- Refused: only the id is used up.
   simp only [step, hr, ↓reduceIte, hs]
   exact { h with offered := fun e he i hi => mem_cons_of_mem _ (h.offered e he i hi) }
 simp only [step, hr, ↓reduceIte, hs]
 set e : Entry := ⟨id, site⟩
 have hperm := entries_perm_admitted t.sched e fg
  (Function.update t.sched.pendingBySite site (some (pendingForSite t.sched site + 1)))
 have hcount : ∀ x, sitePending { t.sched with
   foreground := t.sched.foreground ++ if fg then [e] else []
   background := t.sched.background ++ if fg then [] else [e]
   pendingBySite := Function.update t.sched.pendingBySite site
    (some (pendingForSite t.sched site + 1)) } x =
   sitePending t.sched x + if site = x then 1 else 0 := by
  intro x
  simp only [sitePending_eq, hperm.countP_eq, countP_cons]
  by_cases hx : site = x <;> simp only [hx, e, decide_true, decide_false, ↓reduceIte, Bool.false_eq_true] <;> omega
 have hwas : pendingForSite t.sched site = sitePending t.sched site := by
  rw [pendingForSite, h.pending, encode_getD]
 constructor
 case nodup =>
  refine (hperm.map Entry.id).nodup_iff.2 ?_
  simp only [map_cons, nodup_cons]
  refine ⟨?_, h.nodup⟩
  intro hm
  obtain ⟨e', he', heq⟩ := mem_map.1 hm
  exact hlive ((h.queued id).1 ((isQueued_iff _ _).2 ⟨e', he', heq⟩)).1
 case notRunning =>
  intro e' he'
  rcases mem_cons.1 (hperm.mem_iff.1 he') with rfl | he'
  · intro hrun
    exact hlive ((h.running id).1 ⟨hid, hrun.symm⟩).1
  · exact h.notRunning e' he'
 case nonzero =>
  intro e' he'
  rcases mem_cons.1 (hperm.mem_iff.1 he') with rfl | he'
  · exact hid
  · exact h.nonzero e' he'
 case arrivals =>
  intro b
  have hb := h.arrivals b
  cases b <;> cases fg <;>
   simp only [queue, ↓reduceIte, Bool.false_eq_true, append_nil, map_append,
    map_cons, map_nil, reverse_append, reverse_cons, reverse_nil,
    nil_append, cons_append] at hb ⊢
  · exact hb.cons_cons _
  · exact hb.cons _
  · exact hb.cons _
  · exact hb.cons_cons _
 case queued =>
  intro i
  rw [isQueued_iff]
  simp only [hperm.mem_iff, mem_cons, exists_eq_or_imp, ← isQueued_iff, h.queued, Live,
   started_admitted, e]
  constructor
  · rintro (rfl | ⟨hl, hns⟩)
    · exact ⟨.inl rfl, hstarted⟩
    · exact ⟨.inr hl, hns⟩
  · rintro ⟨rfl | hl, hns⟩
    · exact .inl rfl
    · exact .inr ⟨hl, hns⟩
 case running =>
  intro i
  have hi := h.running i
  simp only [isRunning, Live, started_admitted] at hi ⊢
  rw [hi]
  constructor
  · rintro ⟨hl, hst⟩
    exact ⟨.inr hl, hst⟩
  · rintro ⟨rfl | hl, hst⟩
    · exact (hstarted hst).elim
    · exact ⟨hl, hst⟩
 case startedOnce =>
  intro i
  rw [countP_cons_of_neg (by simp [Event.startOf])]
  exact h.startedOnce i
 case admittedOnce =>
  intro i
  rw [countP_cons]
  by_cases hi : id = i
  · subst hi
    rw [countP_eq_zero.2 fun e he => by simp [hadm e he]]
    simp [Event.admissionOf]
  · simpa [Event.admissionOf, hi] using h.admittedOnce i
 case offered =>
  intro e' he' i hi
  rcases mem_cons.1 he' with rfl | he'
  · simp only [Event.admissionOf, Event.startOf, decide_eq_true_eq, Bool.false_eq_true,
     or_false] at hi
    exact hi ▸ mem_cons_self
  · exact mem_cons_of_mem _ (h.offered e' he' i hi)
 case pending =>
  intro x
  rw [hcount]
  by_cases hx : site = x
  · subst hx
    simp [encode, hwas]
  · simp only [Function.update_of_ne (Ne.symm hx), hx, ↓reduceIte, add_zero]
    exact h.pending x
 case siteCap =>
  intro x
  rw [hcount]
  by_cases hx : site = x
  · subst hx
    simp only [↓reduceIte]
    omega
  · simpa [hx] using h.siteCap x
 case totalCap =>
  rw [pendingTotal_eq] at htotal ⊢
  simp only [hperm.length_eq, length_cons]
  omega
 case order => exact h.order.cons fun _ _ _ hs => by cases hs

theorem served_eq (s : State) : served s = queue s (servedForeground s) := rfl

theorem startNext_cases (s : State) :
  ((startNext s).1 = 0 ∧ (startNext s).2 = s ∧ (s.running = 0 → served s = [])) ∨
  ∃ e, s.running = 0 ∧ next s = some e ∧ (startNext s).1 = e.id ∧
   (startNext s).2.running = e.id ∧ (startNext s).2.runningSite = e.site ∧
   (startNext s).2.pendingBySite = s.pendingBySite ∧
   (startNext s).2.starts = s.starts + 1 ∧
   (startNext s).2.lastStartBySite =
    Function.update s.lastStartBySite e.site (some (s.starts + 1)) ∧
   (startNext s).2.imagesBySite = s.imagesBySite ∧
   (startNext s).2.imagesHeldTotal = s.imagesHeldTotal ∧
   ∀ fg, queue (startNext s).2 fg =
    if fg = servedForeground s then (queue s fg).erase e else queue s fg := by
 unfold startNext
 by_cases hr : s.running = 0
 · simp only [hr, ne_eq, not_true_eq_false, ↓reduceIte]
   cases hn : next s with
   | none =>
    left
    exact ⟨rfl, rfl, fun _ => argmin_eq_none.1 hn⟩
   | some e =>
    right
    refine ⟨e, trivial, rfl, rfl, rfl, rfl, ?_, ?_, ?_, ?_, ?_, ?_⟩
    all_goals cases hf : servedForeground s <;> simp [queue]
 · left
   simp only [hr, ne_eq, not_false_eq_true, ↓reduceIte]
   exact ⟨trivial, trivial, False.elim⟩

variable {e : Entry}

theorem next_spec (h : next s = some e) :
  e ∈ served s ∧ (∀ w ∈ served s, lastStart s e.site ≤ lastStart s w.site) ∧
   ∀ w ∈ served s, lastStart s w.site ≤ lastStart s e.site →
    (served s).idxOf e ≤ (served s).idxOf w :=
 ⟨argmin_mem h, fun _ hw => le_of_mem_argmin (f := fun e => lastStart s e.site) hw h,
  fun _ hw hle => index_of_argmin h hw hle⟩

variable {u : State}

theorem erase_perm {b : Bool} (he : e ∈ queue s b)
  (hq : ∀ fg, queue u fg = if fg = b then (queue s fg).erase e else queue s fg) :
  (entries s).Perm (e :: entries u) := by
 have hperm := perm_cons_erase he
 cases b
 · simp only [entries, hq, ↓reduceIte, Bool.true_eq_false]
   exact (hperm.append_left _).trans perm_middle
 · simp only [entries, hq, ↓reduceIte, Bool.false_eq_true]
   exact hperm.append_right _

theorem erase_sublist {b : Bool}
  (hq : ∀ fg, queue u fg = if fg = b then (queue s fg).erase e else queue s fg) (fg : Bool) :
  (queue u fg).Sublist (queue s fg) := by
 rw [hq]
 split
 · exact List.erase_sublist
 · exact List.Sublist.refl _

theorem queue_subset_entries (s : State) (fg : Bool) : queue s fg ⊆ entries s := by
 cases fg
 · exact subset_append_right _ _
 · exact subset_append_left _ _

theorem QueueInv.admission_mem (h : QueueInv t) {fg : Bool}
  (he : e ∈ queue t.sched fg) : admission fg e ∈ t.log :=
 (h.arrivals fg).subset (mem_reverse.2 (mem_map_of_mem he))

theorem QueueInv.admission_unique (h : QueueInv t) {a b : Site} {f g : Bool}
  (ha : .admitted id a f ∈ t.log) (hb : .admitted id b g ∈ t.log) : a = b ∧ f = g := by
 have hlen : (t.log.filter (Event.admissionOf id)).length ≤ 1 := by
  rw [← countP_eq_length_filter]
  exact h.admittedOnce id
 have hma := mem_filter.2 ⟨ha, show Event.admissionOf id (.admitted id a f) from by
  simp [Event.admissionOf]⟩
 have hmb := mem_filter.2 ⟨hb, show Event.admissionOf id (.admitted id b g) from by
  simp [Event.admissionOf]⟩
 obtain ⟨x, hx⟩ := length_eq_one_iff.1 (le_antisymm hlen (length_pos_of_mem hma))
 rw [hx, mem_singleton] at hma hmb
 have heq := hma.trans hmb.symm
 injection heq with _ h₁ h₂
 exact ⟨h₁, h₂⟩

theorem QueueInv.count_admission (h : QueueInv t) (fg : Bool) (e : Entry) :
  t.log.count (admission fg e) ≤ 1 := by
 refine le_trans ?_ (h.admittedOnce e.id)
 rw [List.count]
 apply countP_mono_left
 intro x _ hx
 rw [beq_iff_eq] at hx
 simp [hx, admission, Event.admissionOf]

/-- The request chosen is the first of its site in its queue, and the queue is in arrival order. -/
theorem QueueInv.chosen_first (h : QueueInv t)
  (hn : next t.sched = some e) (a : ℕ)
  (ha : ArrivedBefore t.log a e.id e.site (servedForeground t.sched)) :
  Started t.log a ∨ ¬ Live t.log a := by
 set fg := servedForeground t.sched with hfg
 obtain ⟨hmem, _, hfirst⟩ := next_spec hn
 rw [served_eq, ← hfg] at hmem hfirst
 obtain ⟨newer, older, hlog, hold⟩ := ha
 rw [or_iff_not_imp_right, not_not]
 intro hlive
 by_contra hns
 -- Still waiting: then it is in the same queue, behind the chosen one.
 obtain ⟨w, hw, rfl⟩ := (isQueued_iff _ _).1 ((h.queued a).2 ⟨hlive, hns⟩)
 obtain ⟨g, hwg⟩ : ∃ g, w ∈ queue t.sched g := by
  rcases mem_append.1 hw with hw | hw
  · exact ⟨true, hw⟩
  · exact ⟨false, hw⟩
 have hmemlog : .admitted w.id e.site fg ∈ t.log := by
  rw [hlog]
  exact mem_append_right _ (mem_cons_of_mem _ hold)
 obtain ⟨hsite, rfl⟩ := h.admission_unique (h.admission_mem hwg) hmemlog
 have hpair : [admission fg e, admission fg w].Sublist t.log := by
  rw [hlog]
  refine List.Sublist.trans ?_ (sublist_append_right _ _)
  refine List.Sublist.cons_cons _ (singleton_sublist.2 ?_)
  rw [admission, hsite]
  exact hold
 have hne : e ≠ w := by
  rintro rfl
  have hle := hpair.count_le (admission fg e)
  have hone := h.count_admission fg e
  simp only [count_cons_self, count_nil] at hle
  omega
 have hidx := hfirst w hwg (by rw [hsite])
 obtain ⟨l₁, l₂, hsplit⟩ := append_of_mem hmem
 have hwl : w ∈ l₂ := by
  rw [hsplit] at hwg hidx
  rcases mem_append.1 hwg with hw₁ | hw₁
  · have hlt := idxOf_lt_length_of_mem hw₁
    rw [idxOf_append_of_mem hw₁] at hidx
    by_cases he₁ : e ∈ l₁
    · have hnodup : (queue t.sched fg).Nodup := by
       have hnd := List.Nodup.of_map _ h.nodup
       cases fg
       · exact (nodup_append.1 hnd).2.1
       · exact (nodup_append.1 hnd).1
      rw [hsplit] at hnodup
      exact ((nodup_append.1 hnodup).2.2 e he₁ e mem_cons_self rfl).elim
    · rw [idxOf_append_of_notMem he₁] at hidx
      omega
  · rcases mem_cons.1 hw₁ with rfl | hw₁
    · exact (hne rfl).elim
    · exact hw₁
 have hback : [admission fg w, admission fg e].Sublist t.log := by
  refine List.Sublist.trans ?_ (h.arrivals fg)
  rw [hsplit, ← reverse_sublist, reverse_reverse]
  simp only [reverse_cons, reverse_nil, nil_append, cons_append,
   map_append, map_cons]
  refine List.Sublist.trans ?_ (sublist_append_right _ _)
  exact List.Sublist.cons_cons _ (singleton_sublist.2 (mem_map_of_mem hwl))
 have hne' : admission fg e ≠ admission fg w := by
  intro heq
  simp only [admission, Event.admitted.injEq] at heq
  exact hne (by cases e; cases w; simp_all)
 exact pair_sublist_asymm hne' (h.count_admission fg e) (h.count_admission fg w) hpair hback

theorem mem_entries_of_erase (hperm : (entries s).Perm (e :: entries u))
  {w : Entry} (hw : w ∈ entries u) : w ∈ entries s :=
 hperm.mem_iff.2 (mem_cons_of_mem _ hw)

theorem isQueued_erase (hnodup : ((entries s).map Entry.id).Nodup)
  (hperm : (entries s).Perm (e :: entries u)) (id : ℕ) :
  isQueued u id ↔ isQueued s id ∧ id ≠ e.id := by
 have hnd := (hperm.map Entry.id).nodup_iff.1 hnodup
 rw [map_cons, nodup_cons] at hnd
 simp only [isQueued_iff, hperm.mem_iff, mem_cons, exists_eq_or_imp]
 constructor
 · rintro ⟨w, hw, rfl⟩
   refine ⟨.inr ⟨w, hw, rfl⟩, fun heq => hnd.1 ?_⟩
   exact heq ▸ mem_map_of_mem hw
 · rintro ⟨heq | ⟨w, hw, rfl⟩, hne⟩
   · exact (hne heq.symm).elim
   · exact ⟨w, hw, rfl⟩

theorem QueueInv.start (h : QueueInv t) : QueueInv (step t .startNext) := by
 rcases startNext_cases t.sched with ⟨h0, hs, _⟩ | ⟨e, hr, hn, hid, hrun, hsite, hp, -, -, -, -, hq⟩
 · simp only [step, h0, ↓reduceIte, hs]
   exact h
 obtain ⟨hmem, _, _⟩ := next_spec hn
 have he : e ∈ entries t.sched := queue_subset_entries _ _ hmem
 have hne : e.id ≠ 0 := h.nonzero e he
 have hperm := erase_perm (u := (startNext t.sched).2) hmem hq
 obtain ⟨hlive, hns⟩ := (h.queued e.id).1 ((isQueued_iff _ _).2 ⟨e, he, rfl⟩)
 have hcount : ∀ x, sitePending (startNext t.sched).2 x = sitePending t.sched x := by
  intro x
  simp only [sitePending_eq, hperm.countP_eq, countP_cons, hr, hrun, hsite]
  simp [hne]
 have hnone : ∀ i, ¬ (Live t.log i ∧ Started t.log i) := fun i hi => by
  obtain ⟨hi0, hri⟩ := (h.running i).2 hi
  exact hi0 (hri.symm.trans hr)
 simp only [step, hid, hne, ↓reduceIte, hsite]
 constructor
 case nodup =>
  have hnd := (hperm.map Entry.id).nodup_iff.1 h.nodup
  exact (nodup_cons.1 hnd).2
 case notRunning =>
  intro w hw heq
  have hnd := (hperm.map Entry.id).nodup_iff.1 h.nodup
  rw [hrun] at heq
  exact (nodup_cons.1 hnd).1 (heq ▸ mem_map_of_mem hw)
 case nonzero => exact fun w hw => h.nonzero w (mem_entries_of_erase hperm hw)
 case arrivals =>
  intro fg
  exact (((erase_sublist hq fg).map _).reverse.trans (h.arrivals fg)).cons _
 case queued =>
  intro i
  rw [isQueued_erase h.nodup hperm, h.queued]
  simp only [Live, started_started]
  tauto
 case running =>
  intro i
  have hi := hnone i
  simp only [isRunning, hrun, Live, started_started]
  constructor
  · rintro ⟨_, rfl⟩
    exact ⟨hlive, .inl rfl⟩
  · rintro ⟨hl, heq | hs⟩
    · exact ⟨heq ▸ hne, heq⟩
    · exact (hi ⟨hl, hs⟩).elim
 case startedOnce =>
  intro i
  rw [countP_cons]
  by_cases hi : e.id = i
  · subst hi
    rw [countP_eq_zero.2 fun x hx hc => hns ⟨x, hx, hc⟩]
    simp [Event.startOf]
  · simpa [Event.startOf, hi] using h.startedOnce i
 case admittedOnce =>
  intro i
  rw [countP_cons_of_neg (by simp [Event.admissionOf])]
  exact h.admittedOnce i
 case offered =>
  intro x hx i hi
  rcases mem_cons.1 hx with rfl | hx
  · simp only [Event.admissionOf, Event.startOf, decide_eq_true_eq, Bool.false_eq_true,
     false_or] at hi
    subst hi
    exact h.offered _ (h.admission_mem hmem) _ (.inl (by simp [admission, Event.admissionOf]))
  · exact h.offered x hx i hi
 case pending => intro x; rw [hp, hcount]; exact h.pending x
 case siteCap => intro x; rw [hcount]; exact h.siteCap x
 case totalCap =>
  have htotal := h.totalCap
  rw [pendingTotal_eq] at htotal ⊢
  simp only [hperm.length_eq, length_cons, hr, hrun, hne, ne_eq, not_true_eq_false,
   not_false_eq_true, ↓reduceIte] at htotal ⊢
  omega
 case order =>
  refine h.order.cons fun id site fg hs a ha => ?_
  injection hs with h₁ h₂ h₃
  subst h₁ h₂ h₃
  exact h.chosen_first hn a ha

theorem release_frame (s : State) (site : Site) :
  (∀ fg, queue (release s site) fg = queue s fg) ∧ (release s site).running = s.running ∧
   (release s site).runningSite = s.runningSite ∧
   (release s site).imagesBySite = s.imagesBySite ∧
   (release s site).imagesHeldTotal = s.imagesHeldTotal ∧
   (release s site).starts = s.starts := by
 unfold release
 split
 · exact ⟨fun _ => rfl, rfl, rfl, rfl, rfl, rfl⟩
 · split <;> exact ⟨fun _ => rfl, rfl, rfl, rfl, rfl, rfl⟩

theorem release_pending {n : ℕ} (h : s.pendingBySite site = encode (n + 1))
  (hn : n + 1 < 2 ^ 64) :
  (release s site).pendingBySite = Function.update s.pendingBySite site (encode n) := by
 have hsub : sizeSub (n + 1) 1 = n := by rw [sizeSub_of_le (by omega) hn]; omega
 simp only [release, h, encode, Nat.add_eq_zero_iff, one_ne_zero, and_false, ↓reduceIte, hsub]
 split <;> rfl

/-- What a request's end leaves: its entry or the running slot, and its site's count. -/
theorem finish_cases (s : State) (id : ℕ) :
  (finish s id = s ∧ (id = 0 ∨ (s.running ≠ id ∧ ¬ isQueued s id))) ∨
  (id ≠ 0 ∧ s.running = id ∧
   finish s id = release { s with running := 0, runningSite := [] } s.runningSite) ∨
  ∃ u e b, id ≠ 0 ∧ s.running ≠ id ∧ e.id = id ∧ e ∈ queue s b ∧
   finish s id = release u e.site ∧ u.running = s.running ∧ u.runningSite = s.runningSite ∧
   u.pendingBySite = s.pendingBySite ∧ u.lastStartBySite = s.lastStartBySite ∧
   u.starts = s.starts ∧ u.imagesBySite = s.imagesBySite ∧
   u.imagesHeldTotal = s.imagesHeldTotal ∧
   ∀ fg, queue u fg = if fg = b then (queue s fg).eraseP (·.id = id) else queue s fg := by
 unfold finish
 by_cases h0 : id = 0
 · simp [h0]
 by_cases hr : s.running = id
 · simp [h0, hr]
 simp only [h0, hr, ↓reduceIte]
 cases hf : s.foreground.find? (·.id = id) with
 | some e =>
  refine .inr (.inr ⟨{ s with foreground := s.foreground.eraseP (·.id = id) }, e, true, h0, hr,
   ?_, ?_, rfl, rfl, rfl, rfl, rfl, rfl, rfl, rfl, ?_⟩)
  · simpa using find?_some hf
  · exact mem_of_find?_eq_some hf
  · intro fg
    cases fg <;> rfl
 | none =>
  cases hb : s.background.find? (·.id = id) with
  | some e =>
   refine .inr (.inr ⟨{ s with background := s.background.eraseP (·.id = id) }, e, false, h0, hr,
    ?_, ?_, rfl, rfl, rfl, rfl, rfl, rfl, rfl, rfl, ?_⟩)
   · simpa using find?_some hb
   · exact mem_of_find?_eq_some hb
   · intro fg
     cases fg <;> rfl
  | none =>
   refine .inl ⟨rfl, .inr ⟨hr, ?_⟩⟩
   rw [isQueued, not_or]
   constructor
   · rintro ⟨e, he, heq⟩
     simpa [heq] using find?_eq_none.1 hf e he
   · rintro ⟨e, he, heq⟩
     simpa [heq] using find?_eq_none.1 hb e he

theorem eraseP_id_eq_erase {l : List Entry} (hnodup : (l.map Entry.id).Nodup)
  (he : e ∈ l) : l.eraseP (·.id = e.id) = l.erase e := by
 induction l with
 | nil => simp at he
 | cons w l ih =>
  rw [map_cons, nodup_cons] at hnodup
  rcases mem_cons.1 he with rfl | he
  · simp
  · have hne : w.id ≠ e.id := fun heq => hnodup.1 (heq ▸ mem_map_of_mem he)
    have hwe : w ≠ e := fun heq => hne (congrArg Entry.id heq)
    rw [eraseP_cons_of_neg (by simpa using hne), ih hnodup.2 he,
     erase_cons_tail (by simpa using hwe)]

theorem QueueInv.finish_unknown (h : QueueInv t) (hdead : ¬ Live t.log id) :
  QueueInv { t with log := .finished id :: t.log } := by
 have hlive : ∀ i, Live (.finished id :: t.log) i ↔ Live t.log i := by
  intro i
  simp only [Live]
  exact ⟨fun hl => hl.2, fun hl => ⟨fun heq => hdead (heq ▸ hl), hl⟩⟩
 exact { h with
  arrivals := fun fg => (h.arrivals fg).cons _
  queued := fun i => by rw [hlive, started_finished]; exact h.queued i
  running := fun i => by rw [hlive, started_finished]; exact h.running i
  startedOnce := fun i => by
   rw [countP_cons_of_neg (by simp [Event.startOf])]
   exact h.startedOnce i
  admittedOnce := fun i => by
   rw [countP_cons_of_neg (by simp [Event.admissionOf])]
   exact h.admittedOnce i
  offered := fun e he i hi => by
   rcases mem_cons.1 he with rfl | he
   · simp [Event.admissionOf, Event.startOf] at hi
   · exact h.offered e he i hi
  order := h.order.cons fun _ _ _ hs => by cases hs }

theorem QueueInv.ended (h : QueueInv t)
  (hsub : ∀ fg, (queue u fg).Sublist (queue t.sched fg))
  (hqueued : ∀ i, isQueued u i ↔ isQueued t.sched i ∧ i ≠ id)
  (hrunning : ∀ i, isRunning u i ↔ isRunning t.sched i ∧ i ≠ id)
  (hcount : ∀ x, sitePending t.sched x = sitePending u x + if site = x then 1 else 0)
  (hp : u.pendingBySite = t.sched.pendingBySite)
  (hrun : u.running = t.sched.running ∨ u.running = 0) :
  QueueInv { t with sched := release u site, log := .finished id :: t.log } := by
 obtain ⟨hqr, hrr, hrsr, -, -, -⟩ := release_frame u site
 have hent : entries (release u site) = entries u := by simp only [entries, hqr]
 have hentsub : (entries u).Sublist (entries t.sched) := (hsub true).append (hsub false)
 have hpend : ∀ x, sitePending (release u site) x = sitePending u x := fun x => by
  simp only [sitePending_eq, hent, hrr, hrsr]
 have hsite := hcount site
 simp only [↓reduceIte] at hsite
 have hcap := h.siteCap site
 have hmax : kMaxPendingPerSite = 16 := rfl
 have hstored : u.pendingBySite site = encode (sitePending u site + 1) := by
  rw [hp, h.pending, hsite]
 have hrel := release_pending hstored (by omega)
 constructor
 case nodup => rw [hent]; exact h.nodup.sublist (hentsub.map _)
 case notRunning =>
  intro e he
  rw [hent] at he
  rw [hrr]
  rcases hrun with hrun | hrun <;> rw [hrun]
  · exact h.notRunning e (hentsub.subset he)
  · exact h.nonzero e (hentsub.subset he)
 case nonzero => rw [hent]; exact fun e he => h.nonzero e (hentsub.subset he)
 case arrivals =>
  intro fg
  rw [hqr]
  exact (((hsub fg).map _).reverse.trans (h.arrivals fg)).cons _
 case queued =>
  intro i
  rw [isQueued_iff, hent, ← isQueued_iff, hqueued, h.queued, started_finished]
  simp only [Live]
  tauto
 case running =>
  intro i
  rw [isRunning, hrr]
  rw [show (i ≠ 0 ∧ u.running = i) ↔ _ from hrunning i, h.running, started_finished]
  simp only [Live]
  tauto
 case startedOnce =>
  intro i
  rw [countP_cons_of_neg (by simp [Event.startOf])]
  exact h.startedOnce i
 case admittedOnce =>
  intro i
  rw [countP_cons_of_neg (by simp [Event.admissionOf])]
  exact h.admittedOnce i
 case offered =>
  intro e he i hi
  rcases mem_cons.1 he with rfl | he
  · simp [Event.admissionOf, Event.startOf] at hi
  · exact h.offered e he i hi
 case pending =>
  intro x
  rw [hrel, hpend]
  by_cases hx : x = site
  · subst hx
    rw [Function.update_self]
  · have hc := hcount x
    rw [if_neg (Ne.symm hx), add_zero] at hc
    rw [Function.update_of_ne hx, hp, h.pending, hc]
 case siteCap =>
  intro x
  rw [hpend]
  exact (Nat.le_add_right _ _).trans (hcount x ▸ h.siteCap x)
 case totalCap =>
  have htotal := h.totalCap
  rw [pendingTotal_eq] at htotal ⊢
  rw [hent, hrr]
  have hlen := hentsub.length_le
  rcases hrun with hrun | hrun <;> rw [hrun]
  · omega
  · simp only [ne_eq, not_true_eq_false, ↓reduceIte]
    omega
 case order => exact h.order.cons fun _ _ _ hs => by cases hs

theorem QueueInv.finish (h : QueueInv t) (id : ℕ) :
  QueueInv (step t (.finish id)) := by
 simp only [step]
 rcases finish_cases t.sched id with ⟨hs, hdead⟩ | ⟨h0, hr, hs⟩ |
  ⟨u, e, b, h0, hr, rfl, he, hs, hur, hurs, hup, -, -, -, -, huq⟩
 · rw [hs]
   apply h.finish_unknown
   rw [h.live_iff, not_or]
   rcases hdead with rfl | ⟨hr, hq⟩
   · refine ⟨fun hq => ?_, fun hrun => hrun.1 rfl⟩
     obtain ⟨e, he, heq⟩ := (isQueued_iff _ _).1 hq
     exact h.nonzero e he heq
   · exact ⟨hq, fun hrun => hr hrun.2⟩
 · rw [hs]
   apply h.ended
   · exact fun _ => List.Sublist.refl _
   · intro i
     refine ⟨fun hq => ⟨hq, ?_⟩, fun hq => hq.1⟩
     rintro rfl
     obtain ⟨e, he, heq⟩ := (isQueued_iff _ _).1 hq
     exact h.notRunning e he (heq.trans hr.symm)
   · intro i
     simp only [isRunning, hr]
     exact ⟨fun ⟨hi, heq⟩ => (hi heq.symm).elim, fun ⟨⟨_, heq⟩, hne⟩ => (hne heq.symm).elim⟩
   · intro x
     simp only [sitePending_eq, hr, h0, ne_eq, not_false_eq_true, not_true_eq_false, true_and,
      false_and, ↓reduceIte, add_zero]
     rfl
   · rfl
   · exact .inr rfl
 · rw [hs]
   have hnd : ((queue t.sched b).map Entry.id).Nodup := by
    have hnd := h.nodup
    rw [entries, map_append, nodup_append] at hnd
    cases b
    · exact hnd.2.1
    · exact hnd.1
   have huq' : ∀ fg, queue u fg =
     if fg = b then (queue t.sched fg).erase e else queue t.sched fg := by
    intro fg
    rw [huq]
    by_cases hfg : fg = b
    · subst hfg
      simp only [↓reduceIte]
      exact eraseP_id_eq_erase hnd he
    · simp only [hfg, ↓reduceIte]
   have hperm := erase_perm he huq'
   apply h.ended
   · exact erase_sublist huq'
   · exact isQueued_erase h.nodup hperm
   · intro i
     simp only [isRunning, hur]
     exact ⟨fun ⟨hi, heq⟩ => ⟨⟨hi, heq⟩, fun hie => hr (heq.trans hie)⟩, fun hi => hi.1⟩
   · intro x
     simp only [sitePending_eq, hperm.countP_eq, countP_cons, hur, hurs, decide_eq_true_eq]
     omega
   · exact hup
   · exact .inl hur

/-! ## Every run -/

structure Inv (t : Traced) : Prop where
 queues : QueueInv t
 images : ImagesInv t

theorem Inv.initial : Inv {} := by
 constructor
 · constructor <;> simp [entries, queue, isQueued, isRunning, Live, sitePending, pendingTotal,
    encode, StartsInOrder]
   omega
 · constructor <;> simp [heldFor, heldTotal, imageSites, encode]

theorem tryAddSession_frame (s : State) (site : Site) :
  ∃ f, (tryAddSession s site).2 = { s with sessionsBySite := f } := by
 simp only [tryAddSession]
 split <;> exact ⟨_, rfl⟩

theorem removeSession_frame (s : State) (site : Site) :
  ∃ f, removeSession s site = { s with sessionsBySite := f } := by
 unfold removeSession
 split <;> exact ⟨_, rfl⟩

theorem tryHoldImages_frame (s : State) (site : Site) (count : ℕ) :
  ∃ f n, (tryHoldImages s site count).2 = { s with imagesBySite := f, imagesHeldTotal := n } := by
 simp only [tryHoldImages]
 split
 · exact ⟨_, _, rfl⟩
 · split <;> exact ⟨_, _, rfl⟩

theorem releaseImages_frame (s : State) (site : Site) (count : ℕ) :
  ∃ f n, releaseImages s site count = { s with imagesBySite := f, imagesHeldTotal := n } := by
 simp only [releaseImages]
 split
 · exact ⟨_, _, rfl⟩
 · split <;> exact ⟨_, _, rfl⟩

theorem Inv.sessions (h : Inv t) (f : Site → Option ℕ) :
  Inv { t with sched := { t.sched with sessionsBySite := f } } :=
 ⟨h.queues.frame rfl (fun _ => rfl) rfl rfl rfl rfl (.inl rfl), h.images.frame rfl rfl rfl rfl⟩

theorem Inv.step {c : Call} (h : Inv t) (hf : Fresh t c) : Inv (step t c) := by
 cases c with
 | enqueue id site fg =>
  refine ⟨h.queues.enqueued hf, ?_⟩
  rcases enqueue_cases t.sched id site fg with ⟨hr, hs⟩ | ⟨hr, -, -, hs⟩ <;>
   simp only [GenerationScheduler.step, hr, ↓reduceIte, hs] <;>
   exact h.images.frame rfl rfl rfl rfl
 | startNext =>
  refine ⟨h.queues.start, ?_⟩
  rcases startNext_cases t.sched with ⟨h0, hs, _⟩ | ⟨e, -, -, -, -, -, -, -, -, hi, ht, -⟩
  · simp only [GenerationScheduler.step, h0, ↓reduceIte, hs]
    exact h.images
  · simp only [GenerationScheduler.step]
    split <;> exact h.images.frame hi ht rfl rfl
 | finish id =>
  refine ⟨h.queues.finish id, ?_⟩
  simp only [GenerationScheduler.step]
  rcases finish_cases t.sched id with ⟨hs, -⟩ | ⟨-, -, hs⟩ |
   ⟨u, e, b, -, -, -, -, hs, -, -, -, -, -, hui, hut, -⟩ <;> rw [hs]
  · exact h.images.frame rfl rfl rfl rfl
  · obtain ⟨-, -, -, hi, ht, -⟩ := release_frame
     { t.sched with running := 0, runningSite := [] } t.sched.runningSite
    exact h.images.frame hi ht rfl rfl
  · obtain ⟨-, -, -, hi, ht, -⟩ := release_frame u e.site
    exact h.images.frame (hi.trans hui) (ht.trans hut) rfl rfl
 | tryAddSession site =>
  obtain ⟨f, hf⟩ := tryAddSession_frame t.sched site
  simp only [GenerationScheduler.step, hf]
  exact h.sessions f
 | removeSession site =>
  obtain ⟨f, hf⟩ := removeSession_frame t.sched site
  simp only [GenerationScheduler.step, hf]
  exact h.sessions f
 | tryHoldImages site count =>
  refine ⟨?_, h.images.hold site count⟩
  obtain ⟨f, n, hf⟩ := tryHoldImages_frame t.sched site count
  simp only [GenerationScheduler.step, hf]
  refine h.queues.frame rfl (fun _ => rfl) rfl rfl rfl rfl ?_
  split
  · exact .inr ⟨_, rfl, rfl⟩
  · exact .inl rfl
 | releaseImages site count =>
  refine ⟨?_, h.images.release site count⟩
  obtain ⟨f, n, hf⟩ := releaseImages_frame t.sched site count
  simp only [GenerationScheduler.step, hf]
  exact h.queues.frame rfl (fun _ => rfl) rfl rfl rfl rfl (.inr ⟨_, rfl, rfl⟩)

theorem Inv.exact (h : Inv t) : AdmissionExact t where
 oneRuns a b hla hsa hlb hsb := by
  obtain ⟨_, ha⟩ := (h.queues.running a).2 ⟨hla, hsa⟩
  obtain ⟨_, hb⟩ := (h.queues.running b).2 ⟨hlb, hsb⟩
  exact ha.symm.trans hb
 pendingExact site := by rw [pendingForSite, h.queues.pending, encode_getD]
 pendingCap site := by
  rw [pendingForSite, h.queues.pending, encode_getD]
  exact h.queues.siteCap site
 totalCap := h.queues.totalCap
 startedOnce := h.queues.startedOnce
 queuedXorRunning id hl := by
  rw [h.queues.queued, h.queues.running]
  by_cases hs : Started t.log id
  · exact .inr ⟨⟨hl, hs⟩, fun hq => hq.2 hs⟩
  · exact .inl ⟨⟨hl, hs⟩, fun hr => hs hr.2⟩
 pendingLive id hp := (h.queues.live_iff id).2 hp
 arrivalOrder := h.queues.order
 siteImages := h.images.held
 totalImages := h.images.total
 siteImagesCap site := by
  rw [h.images.held]
  exact h.images.siteCap site
 totalImagesCap := by
  rw [h.images.total]
  exact h.images.totalCap

/-- Whatever is asked of the scheduler, in whatever order, its counters are exact. -/
theorem admission_exact (calls : List Call) (h : Along step Fresh {} calls) :
  AdmissionExact (run step {} calls) :=
 (run_invariant (fun _ _ hi hf => hi.step hf) Inv.initial h).exact

def sampleCalls : List Call :=
 [.enqueue 1 "a" true, .enqueue 2 "b" true, .enqueue 3 "a" false, .startNext,
  .tryHoldImages "a" 4, .finish 2, .releaseImages "a" 9, .finish 1, .finish 7]

theorem admission_exact_sample : Along step Fresh {} sampleCalls ∧
  AdmissionExact (run step {} sampleCalls) :=
 ⟨by decide, admission_exact sampleCalls (by decide)⟩

end MoltBrowser.GenerationScheduler
