import Mathlib.Algebra.Order.Ring.Int
import Mathlib.Data.List.Forall2

set_option autoImplicit false

/-!
# One commit rate per site

How long a site's next commit waits, by what its areas committed since the first of them opened. A rate that lets the next commit go at once
may be forgotten, and made afresh later.
-/
namespace MoltBrowser.CommitRates

def siteCommitsPerHour : ℕ := 60
def siteBytesPerHour : ℕ := 10 * 1024 * 1024
def hourMs : ℕ := 60 * 60 * 1000

def forCommits (commits : ℕ) : ℕ := commits / siteCommitsPerHour * hourMs + commits % siteCommitsPerHour * hourMs / siteCommitsPerHour

def forBytes (bytes : ℕ) : ℕ := bytes / siteBytesPerHour * hourMs + bytes % siteBytesPerHour * hourMs / siteBytesPerHour

def needed (commits bytes : ℕ) : ℕ := if forCommits commits > forBytes bytes then forCommits commits else forBytes bytes

def moltDomStorageSiteCommitDelayMs (commits bytes : ℕ) (elapsedMs : ℤ) : ℤ :=
 if (needed commits bytes : ℤ) > elapsedMs then needed commits bytes - elapsedMs else 0

structure MoltDomStorageSiteRate where
 startMs : ℤ := 0
 commits : ℕ := 0
 bytes : ℕ := 0

def moltDomStorageSiteRateFreeAtMs (rate : MoltDomStorageSiteRate) : ℤ :=
 rate.startMs + moltDomStorageSiteCommitDelayMs rate.commits rate.bytes 0

inductive Event where
 /-- Asks how long its next commit waits. -/
 | commitDelay (nowMs : ℤ)
 | committed (bytes : ℕ)

namespace MoltDomStorageSiteRate

def committed (rate : MoltDomStorageSiteRate) (bytes : ℕ) : MoltDomStorageSiteRate :=
 { rate with commits := rate.commits + 1, bytes := rate.bytes + bytes }

def commitDelay (rate : MoltDomStorageSiteRate) (nowMs : ℤ) : ℤ :=
 moltDomStorageSiteCommitDelayMs rate.commits rate.bytes (nowMs - rate.startMs)

def delays : MoltDomStorageSiteRate → List Event → List ℤ
 | _, [] => []
 | rate, .commitDelay nowMs :: events => rate.commitDelay nowMs :: delays rate events
 | rate, .committed bytes :: events => delays (rate.committed bytes) events

end MoltDomStorageSiteRate

def commitsIn (events : List Event) : ℕ := events.countP fun | .committed _ => true | _ => false

def bytesIn (events : List Event) : ℕ := (events.map fun | .committed bytes => bytes | _ => 0).sum

theorem commitsIn_committed (bytes : ℕ) (events : List Event) : commitsIn (.committed bytes :: events) = commitsIn events + 1 :=
 List.countP_cons_of_pos rfl

theorem bytesIn_committed (bytes : ℕ) (events : List Event) : bytesIn (.committed bytes :: events) = bytes + bytesIn events := by
 rw [bytesIn, List.map_cons, List.sum_cons]
 rfl

/-- No later commit waits less with the rate made afresh at `t` than with the rate kept. -/
def NoLooser (rate : MoltDomStorageSiteRate) (t : ℤ) (events : List Event) : Prop :=
 List.Forall₂ (fun fresh kept => kept ≤ fresh) (MoltDomStorageSiteRate.delays { startMs := t } events) (rate.delays events)

/-- The rate is forgotten at the very moment its bytes allow, the parts of a millisecond that its bytes and the later ones leave make up a
whole one, and the bytes are what the answer waits for. -/
structure Rounded (rate : MoltDomStorageSiteRate) (t : ℤ) (commits bytes : ℕ) (nowMs : ℤ) : Prop where
 at_once : t = rate.startMs + (rate.bytes * hourMs / siteBytesPerHour : ℕ)
 parts : siteBytesPerHour ≤ rate.bytes * hourMs % siteBytesPerHour + bytes * hourMs % siteBytesPerHour
 by_bytes : commits * (hourMs / siteCommitsPerHour) ≤ bytes * hourMs / siteBytesPerHour
 waiting : nowMs ≤ t + (bytes * hourMs / siteBytesPerHour : ℕ)

/-! ## The two delays of one answer -/

theorem forCommits_eq (commits : ℕ) : forCommits commits = commits * 60000 := by
 simp only [forCommits, siteCommitsPerHour, hourMs]
 omega

theorem forBytes_eq (bytes : ℕ) : forBytes bytes = bytes * hourMs / siteBytesPerHour := by
 simp only [forBytes, siteBytesPerHour, hourMs]
 omega

theorem forBytes_add (bytes more : ℕ) : forBytes (bytes + more) = forBytes bytes + forBytes more +
  if siteBytesPerHour ≤ bytes * hourMs % siteBytesPerHour + more * hourMs % siteBytesPerHour then 1 else 0 := by
 rw [forBytes_eq, forBytes_eq, forBytes_eq, Nat.add_mul]
 exact Nat.add_div (by decide)

theorem needed_eq (commits bytes : ℕ) : needed commits bytes = max (forCommits commits) (forBytes bytes) := by
 rw [needed]
 split_ifs with hmore
 · exact (max_eq_left hmore.le).symm
 · exact (max_eq_right (not_lt.mp hmore)).symm

theorem rounded_iff {rate : MoltDomStorageSiteRate} {t : ℤ} {commits bytes : ℕ} {nowMs : ℤ} : Rounded rate t commits bytes nowMs ↔
  t = rate.startMs + forBytes rate.bytes ∧
   siteBytesPerHour ≤ rate.bytes * hourMs % siteBytesPerHour + bytes * hourMs % siteBytesPerHour ∧
   forCommits commits ≤ forBytes bytes ∧ nowMs ≤ t + forBytes bytes := by
 rw [forBytes_eq, forBytes_eq, forCommits_eq]
 exact ⟨fun h => ⟨h.at_once, h.parts, h.by_bytes, h.waiting⟩, fun ⟨h, hparts, hbytes, hwaiting⟩ => ⟨h, hparts, hbytes, hwaiting⟩⟩

theorem delay_le_iff {rate : MoltDomStorageSiteRate} {t : ℤ} (ht : moltDomStorageSiteRateFreeAtMs rate ≤ t) (commits bytes : ℕ) (nowMs : ℤ) :
  moltDomStorageSiteCommitDelayMs (rate.commits + commits) (rate.bytes + bytes) (nowMs - rate.startMs) ≤
   moltDomStorageSiteCommitDelayMs commits bytes (nowMs - t) ↔ ¬Rounded rate t commits bytes nowMs := by
 have hfree : rate.startMs + max (forCommits rate.commits) (forBytes rate.bytes) ≤ t := by
  rw [moltDomStorageSiteRateFreeAtMs, moltDomStorageSiteCommitDelayMs, needed_eq] at ht
  split_ifs at ht <;> omega
 have hcommits : forCommits (rate.commits + commits) = forCommits rate.commits + forCommits commits := by
  rw [forCommits_eq, forCommits_eq, forCommits_eq, Nat.add_mul]
 rw [moltDomStorageSiteCommitDelayMs, moltDomStorageSiteCommitDelayMs, needed_eq, needed_eq, hcommits, forBytes_add, rounded_iff]
 -- From here on the quotients are numbers: only the one that rounding adds matters.
 generalize forCommits rate.commits = heldCommits at *
 generalize forCommits commits = laterCommits at *
 generalize forBytes rate.bytes = heldBytes at *
 generalize forBytes bytes = laterBytes at *
 by_cases hparts : siteBytesPerHour ≤ rate.bytes * hourMs % siteBytesPerHour + bytes * hourMs % siteBytesPerHour
 · rw [if_pos hparts]
   simp only [hparts, true_and]
   split_ifs <;> omega
 · rw [if_neg hparts]
   simp only [hparts, false_and, and_false, not_false_eq_true, iff_true]
   split_ifs <;> omega

/-! ## Every later answer -/

section Events

variable {rate : MoltDomStorageSiteRate} {t : ℤ}

theorem delays_le_iff (ht : moltDomStorageSiteRateFreeAtMs rate ≤ t) (events : List Event) (commits bytes : ℕ) :
  List.Forall₂ (fun fresh kept => kept ≤ fresh) (MoltDomStorageSiteRate.delays { startMs := t, commits, bytes } events)
    (MoltDomStorageSiteRate.delays { rate with commits := rate.commits + commits, bytes := rate.bytes + bytes } events) ↔
   ∀ before nowMs after, events = before ++ .commitDelay nowMs :: after →
    ¬Rounded rate t (commits + commitsIn before) (bytes + bytesIn before) nowMs := by
 induction events generalizing commits bytes with
 | nil => simp [MoltDomStorageSiteRate.delays]
 | cons event events ih =>
  cases event with
  | commitDelay asked =>
   have hfirst := delay_le_iff ht commits bytes asked
   have hasks : ∀ before, commits + commitsIn (.commitDelay asked :: before) = commits + commitsIn before ∧
     bytes + bytesIn (.commitDelay asked :: before) = bytes + bytesIn before := by
    exact fun before => ⟨rfl, by simp [bytesIn]⟩
   rw [MoltDomStorageSiteRate.delays, MoltDomStorageSiteRate.delays, List.forall₂_cons, ih]
   constructor
   · rintro ⟨hasked, hrest⟩ before nowMs after heq
     cases before with
     | nil =>
      obtain ⟨hnow, -⟩ := List.cons.inj heq
      exact Event.commitDelay.inj hnow ▸ hfirst.mp hasked
     | cons event before =>
      obtain ⟨rfl, htail⟩ := List.cons.inj heq
      rw [(hasks before).1, (hasks before).2]
      exact hrest before nowMs after htail
   · intro hall
     refine ⟨hfirst.mpr (hall [] asked events rfl), fun before nowMs after heq => ?_⟩
     rw [← (hasks before).1, ← (hasks before).2]
     exact hall (.commitDelay asked :: before) nowMs after (by rw [heq]; rfl)
  | committed size =>
   have hkept : ({ rate with commits := rate.commits + commits, bytes := rate.bytes + bytes } : MoltDomStorageSiteRate).committed size =
     { rate with commits := rate.commits + (commits + 1), bytes := rate.bytes + (bytes + size) } := by
    simp [MoltDomStorageSiteRate.committed, Nat.add_assoc]
   rw [MoltDomStorageSiteRate.delays, MoltDomStorageSiteRate.delays, hkept]
   refine (ih (commits + 1) (bytes + size)).trans ?_
   have hsum : ∀ before, commits + commitsIn (.committed size :: before) = commits + 1 + commitsIn before ∧
     bytes + bytesIn (.committed size :: before) = bytes + size + bytesIn before := by
    intro before
    rw [commitsIn_committed, bytesIn_committed]
    omega
   constructor
   · intro hall before nowMs after heq
     cases before with
     | nil => exact absurd (List.cons.inj heq).1 (by simp)
     | cons event before =>
      obtain ⟨rfl, htail⟩ := List.cons.inj heq
      rw [(hsum before).1, (hsum before).2]
      exact hall before nowMs after htail
   · intro hall before nowMs after heq
     rw [← (hsum before).1, ← (hsum before).2]
     exact hall (.committed size :: before) nowMs after (by rw [heq]; rfl)

end Events

/-- Forgetting a rate loosens it just where rounding does. -/
theorem noLooser_iff (rate : MoltDomStorageSiteRate) (t : ℤ) (events : List Event) (ht : moltDomStorageSiteRateFreeAtMs rate ≤ t) :
  NoLooser rate t events ↔ ∀ before nowMs after, events = before ++ .commitDelay nowMs :: after →
   ¬Rounded rate t (commitsIn before) (bytesIn before) nowMs := by
 simpa [NoLooser] using delays_le_iff ht events 0 0

theorem noLooser_later : NoLooser { commits := 1, bytes := 300000 } 102997 [.committed 300000, .commitDelay 102997] := by
 refine (noLooser_iff _ 102997 _ (by decide)).mpr fun before nowMs after _ hrounded => ?_
 exact absurd hrounded.at_once (by decide)

/-- 300000 bytes need 102996.8 ms, and twice as many 205993.7 ms. -/
theorem rounding_loosens : ¬ ∀ (rate : MoltDomStorageSiteRate) (t : ℤ) (events : List Event), moltDomStorageSiteRateFreeAtMs rate ≤ t →
  (∀ nowMs, .commitDelay nowMs ∈ events → t ≤ nowMs) → NoLooser rate t events := by
 intro hclaim
 have hloose := hclaim { commits := 1, bytes := 300000 } 102996 [.committed 300000, .commitDelay 102996] (by decide) (by simp)
 obtain ⟨hdelay, -⟩ := List.forall₂_cons.mp hloose
 exact absurd hdelay (by decide)

end MoltBrowser.CommitRates
