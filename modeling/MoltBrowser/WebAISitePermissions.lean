import MoltBrowser.JsonValue

set_option autoImplicit false

/-!
# What is remembered of each site (`web_ai_site_permissions.cc`)

An answer and the prompt's history share a record and a cap. What makes room is the history first.
-/
namespace MoltBrowser.WebAISitePermissions
open SortedTable TransitionRuns List

def kDismissalsBeforeEmbargo : ℕ := 3
def kEmbargoMs : ℤ := 7 * 24 * 60 * 60 * 1000
def kMaxStoredDismissals : ℕ := 100
def kMaxStoredTimeMs : ℤ := 2 ^ 53
def kMaxSiteKeyBytes : ℕ := 1024
def kMaxSites : ℕ := 512

inductive SiteConsent where
 | ask | allowed | blocked
 deriving DecidableEq

structure SiteRecord where
 answer : SiteConsent := .ask
 answeredMs : ℤ := 0
 dismissals : ℕ := 0
 lastDismissalMs : ℤ := 0
 deriving DecidableEq

def clampTime (ms : ℤ) : ℤ := max 0 (min ms kMaxStoredTimeMs)

def isAnswer (consent : SiteConsent) : Bool := consent = .allowed || consent = .blocked

def isPlausibleSiteKey (site : Bytes) : Bool :=
 if site.length > kMaxSiteKeyBytes then false
 else
  let rest :=
   if (utf8 "https://").isPrefixOf site then some (site.drop 8)
   else if (utf8 "http://").isPrefixOf site then some (site.drop 7)
   else none
  match rest with
  | none => false
  | some [] => false
  | some rest =>
   rest.all fun c => !(c ≤ 0x20 || 0x7F ≤ c || c = 0x2F || c = 0x3F || c = 0x23 || c = 0x40 || c = 0x5C)

def isUnderEmbargo (record : SiteRecord) (nowMs : ℤ) : Bool :=
 if record.answer ≠ .ask ∨ record.dismissals < kDismissalsBeforeEmbargo then false
 else
  let elapsed := clampTime nowMs - clampTime record.lastDismissalMs
  elapsed < kEmbargoMs && elapsed > -kEmbargoMs

/-! ## The table -/

structure SitePermissionTable where
 records : Table Bytes SiteRecord := .empty

def oldest (time : SiteRecord → ℤ) (entries : List (Bytes × SiteRecord)) : Option (Bytes × SiteRecord) :=
 entries.foldl (fun victim it =>
  match victim with
  | none => some it
  | some v => if time it.2 < time v.2 then some it else some v) none

namespace SitePermissionTable

variable (s : SitePermissionTable)

def find (site : Bytes) : Option SiteRecord := s.records.get site

def put (site : Bytes) (record : SiteRecord) : SitePermissionTable := ⟨s.records.insert site record⟩

def erase (site : Bytes) : SitePermissionTable := ⟨s.records.erase site⟩

/-- The oldest prompt history goes first: it is the least the user said. -/
def makeRoom : SitePermissionTable :=
 if s.records.size < kMaxSites then s
 else
  match oldest SiteRecord.lastDismissalMs (s.records.entries.filter fun it => !isAnswer it.2.answer) with
  | some victim => s.erase victim.1
  | none =>
   match oldest SiteRecord.answeredMs s.records.entries with
   | some victim => s.erase victim.1
   | none => s

def makeRoomFor (site : Bytes) : SitePermissionTable := if (s.find site).isSome then s else s.makeRoom

def setAnswer (site : Bytes) (answer : SiteConsent) (nowMs : ℤ) : Bool × SitePermissionTable :=
 if !isPlausibleSiteKey site then (false, s)
 else if !isAnswer answer then (true, s.erase site)
 else (true, (s.makeRoomFor site).put site { answer, answeredMs := clampTime nowMs })

def dismissed (record : SiteRecord) (nowMs : ℤ) : SiteRecord :=
 { record with dismissals := min (record.dismissals + 1) kMaxStoredDismissals, lastDismissalMs := clampTime nowMs }

def recordDismissal (site : Bytes) (nowMs : ℤ) : Bool × SitePermissionTable :=
 if !isPlausibleSiteKey site then (false, s)
 else
  match s.find site with
  | some record =>
   if isAnswer record.answer then (false, s)
   else (isUnderEmbargo (dismissed record nowMs) nowMs, s.put site (dismissed record nowMs))
  | none => (isUnderEmbargo (dismissed {} nowMs) nowMs, s.makeRoom.put site (dismissed {} nowMs))

def remove (site : Bytes) : Bool × SitePermissionTable :=
 match s.find site with
 | none => (false, s)
 | some _ => (true, s.erase site)

def clear : Bool × SitePermissionTable := (!s.records.entries.isEmpty, {})

/-- With the records of `gone` erased, and how many they were. -/
def removeWhere (gone : Bytes × SiteRecord → Bool) : ℕ × SitePermissionTable :=
 ((s.records.entries.filter gone).length, ⟨s.records.keep fun it => !gone it⟩)

def removeAnswersBetween (beginMs endMs : ℤ) (sites : List Bytes) : ℕ × SitePermissionTable :=
 s.removeWhere fun it =>
  isAnswer it.2.answer && it.2.answeredMs ≥ beginMs && it.2.answeredMs < endMs && sites.contains it.1

def removePromptHistory (sites : List Bytes) : ℕ × SitePermissionTable :=
 s.removeWhere fun it => !isAnswer it.2.answer && sites.contains it.1

/-- A record as it is kept: an answer or the prompt's history, if it is one of them. -/
def clean (record : SiteRecord) : Option SiteRecord :=
 if isAnswer record.answer then some { answer := record.answer, answeredMs := clampTime record.answeredMs }
 else if record.dismissals > 0 then
  some { dismissals := min record.dismissals kMaxStoredDismissals, lastDismissalMs := clampTime record.lastDismissalMs }
 else none

def insert (site : Bytes) (record : SiteRecord) : Bool × SitePermissionTable :=
 if !isPlausibleSiteKey site then (false, s)
 else
  match clean record with
  | none => (false, s)
  | some record => (true, (s.makeRoomFor site).put site record)

end SitePermissionTable

inductive Call where
 | setAnswer (site : Bytes) (answer : SiteConsent) (nowMs : ℤ)
 | recordDismissal (site : Bytes) (nowMs : ℤ)
 | remove (site : Bytes)
 | clear
 | removeAnswersBetween (beginMs endMs : ℤ) (sites : List Bytes)
 | removePromptHistory (sites : List Bytes)
 | insert (site : Bytes) (record : SiteRecord)

def call (s : SitePermissionTable) : Call → SitePermissionTable
 | .setAnswer site answer nowMs => (s.setAnswer site answer nowMs).2
 | .recordDismissal site nowMs => (s.recordDismissal site nowMs).2
 | .remove site => (s.remove site).2
 | .clear => s.clear.2
 | .removeAnswersBetween beginMs endMs sites => (s.removeAnswersBetween beginMs endMs sites).2
 | .removePromptHistory sites => (s.removePromptHistory sites).2
 | .insert site record => (s.insert site record).2

/-! ## The stored form -/

/-- A double as read: `finite` is exact. -/
inductive StoredDouble where
 | nan
 | infinite (negative : Bool)
 | finite (value : Double)

structure StoredSite where
 answer : Option Bytes := none
 answeredMs : Option StoredDouble := none
 dismissals : Option ℤ := none
 lastDismissalMs : Option StoredDouble := none

def kStoredAllow : Bytes := "allow"
def kStoredBlock : Bytes := "block"

def storedTime : Option StoredDouble → Option ℤ
 | some (.finite ms) => if ms.toRat < 0 ∨ ms.toRat > kMaxStoredTimeMs then none else some ms.trunc
 | _ => none

def recordFromStored (stored : StoredSite) (nowMs : ℤ) : Option SiteRecord :=
 let now := clampTime nowMs
 if stored.answer = some kStoredAllow ∨ stored.answer = some kStoredBlock then
  some
   { answer := if stored.answer = some kStoredAllow then .allowed else .blocked
     answeredMs := min ((storedTime stored.answeredMs).getD now) now }
 else
  match stored.dismissals with
  | none => none
  | some dismissals =>
   if dismissals < 1 then none
   else
    (storedTime stored.lastDismissalMs).map fun last =>
     { dismissals := min dismissals.toNat kMaxStoredDismissals, lastDismissalMs := last }

def storedFromRecord (record : SiteRecord) : StoredSite :=
 if isAnswer record.answer then
  { answer := some (if record.answer = .allowed then kStoredAllow else kStoredBlock)
    answeredMs := some (.finite (.ofInt64 (clampTime record.answeredMs))) }
 else
  { dismissals := some (min record.dismissals kMaxStoredDismissals : ℕ)
    lastDismissalMs := some (.finite (.ofInt64 (clampTime record.lastDismissalMs))) }

/-! ## What makes room -/

section Oldest

variable (time : SiteRecord → ℤ)

theorem oldest_cons (v : Bytes × SiteRecord) (entries : List (Bytes × SiteRecord)) :
  ∃ w ∈ v :: entries, oldest time (v :: entries) = some w ∧ ∀ it ∈ v :: entries, time w.2 ≤ time it.2 := by
 rw [oldest, foldl_cons]
 dsimp only
 induction entries generalizing v with
 | nil => exact ⟨v, mem_cons_self, rfl, by simp⟩
 | cons it entries ih =>
  rw [foldl_cons]
  dsimp only
  by_cases hlt : time it.2 < time v.2
  · rw [if_pos hlt]
    obtain ⟨w, hmem, hw, hle⟩ := ih it
    refine ⟨w, mem_cons_of_mem _ hmem, hw, fun other hother => ?_⟩
    rcases mem_cons.1 hother with rfl | hother
    · exact (hle it mem_cons_self).trans hlt.le
    · exact hle other hother
  · rw [if_neg hlt]
    obtain ⟨w, hmem, hw, hle⟩ := ih v
    refine ⟨w, ?_, hw, fun other hother => ?_⟩
    · rcases mem_cons.1 hmem with rfl | hmem
      · exact mem_cons_self
      · exact mem_cons_of_mem _ (mem_cons_of_mem _ hmem)
    · rcases mem_cons.1 hother with rfl | hother
      · exact hle _ mem_cons_self
      · rcases mem_cons.1 hother with rfl | hother
        · exact (hle v mem_cons_self).trans (not_lt.1 hlt)
        · exact hle other (mem_cons_of_mem _ hother)

theorem oldest_some {entries : List (Bytes × SiteRecord)} {w : Bytes × SiteRecord} (h : oldest time entries = some w) :
  w ∈ entries ∧ ∀ it ∈ entries, time w.2 ≤ time it.2 := by
 cases entries with
 | nil => cases h
 | cons v entries =>
  obtain ⟨w', hmem, hw, hle⟩ := oldest_cons time v entries
  obtain rfl := Option.some.inj (hw.symm.trans h)
  exact ⟨hmem, hle⟩

theorem oldest_none {entries : List (Bytes × SiteRecord)} (h : oldest time entries = none) : entries = [] := by
 cases entries with
 | nil => rfl
 | cons v entries =>
  obtain ⟨w, -, hw, -⟩ := oldest_cons time v entries
  cases hw.symm.trans h

end Oldest

/-- An answer that goes to make room: the table is full of answers, and it is the oldest. -/
structure Evicted (s : SitePermissionTable) (record : SiteRecord) : Prop where
 full : kMaxSites ≤ s.records.size
 answers : ∀ site other, s.find site = some other → isAnswer other.answer = true
 oldest : ∀ site other, s.find site = some other → record.answeredMs ≤ other.answeredMs

namespace SitePermissionTable

variable {s : SitePermissionTable}

theorem find_put (s : SitePermissionTable) (site other : Bytes) (record : SiteRecord) :
  (s.put site record).find other = if other = site then some record else s.find other := Table.get_insert _ _ _ _

theorem find_erase (s : SitePermissionTable) (site other : Bytes) :
  (s.erase site).find other = if other = site then none else s.find other := Table.get_erase _ _ _

theorem makeRoom_cases (s : SitePermissionTable) :
  (s.makeRoom = s ∧ s.records.size < kMaxSites) ∨
   ∃ victim record, s.makeRoom = s.erase victim ∧ s.find victim = some record ∧
    (isAnswer record.answer = true → Evicted s record) := by
 rw [makeRoom]
 by_cases hroom : s.records.size < kMaxSites
 · exact .inl ⟨if_pos hroom, hroom⟩
 rw [if_neg hroom]
 right
 cases hhistory : oldest SiteRecord.lastDismissalMs (s.records.entries.filter fun it => !isAnswer it.2.answer) with
 | some victim =>
  obtain ⟨hmem, -⟩ := oldest_some _ hhistory
  obtain ⟨hentry, hanswer⟩ := mem_filter.1 hmem
  refine ⟨victim.1, victim.2, rfl, (Table.mem_entries _).1 hentry, fun hanswered => ?_⟩
  rw [hanswered] at hanswer
  cases hanswer
 | none =>
  have hanswers := oldest_none _ hhistory
  cases hanswer : oldest SiteRecord.answeredMs s.records.entries with
  | some victim =>
   obtain ⟨hmem, hle⟩ := oldest_some _ hanswer
   refine ⟨victim.1, victim.2, rfl, (Table.mem_entries _).1 hmem, fun _ => ⟨not_lt.1 hroom, ?_, ?_⟩⟩
   · intro site other hother
     have hnot := filter_eq_nil_iff.1 hanswers (site, other) ((Table.mem_entries _).2 hother)
     simpa using hnot
   · exact fun site other hother => hle (site, other) ((Table.mem_entries _).2 hother)
  | none =>
   have hempty : s.records.size = 0 := by rw [Table.size, oldest_none _ hanswer, length_nil]
   rw [hempty] at hroom
   exact absurd (show 0 < kMaxSites by decide) hroom

theorem find_makeRoom {site : Bytes} {record : SiteRecord} (hfind : s.find site = some record)
  (hanswer : isAnswer record.answer = true) (hgone : s.makeRoom.find site ≠ some record) : Evicted s record := by
 obtain ⟨hsame, -⟩ | ⟨victim, gone, herased, hvictim, hevicted⟩ := s.makeRoom_cases
 · rw [hsame] at hgone
   exact absurd hfind hgone
 · rw [herased, find_erase] at hgone
   split_ifs at hgone with hsite
   · subst hsite
     obtain rfl := Option.some.inj (hvictim.symm.trans hfind)
     exact hevicted hanswer
   · exact absurd hfind hgone

theorem size_makeRoom (h : s.records.size ≤ kMaxSites) : s.makeRoom.records.size < kMaxSites := by
 obtain ⟨hsame, hroom⟩ | ⟨victim, gone, herased, hvictim, -⟩ := s.makeRoom_cases
 · rwa [hsame]
 · have hsize := s.records.size_erase victim
   rw [show s.records.get victim = some gone from hvictim, Option.elim_some] at hsize
   rw [herased]
   exact (Nat.lt_of_succ_le hsize.le).trans_le h

theorem find_makeRoom_some {site : Bytes} {record : SiteRecord} (h : s.makeRoom.find site = some record) : s.find site = some record := by
 obtain ⟨hsame, -⟩ | ⟨victim, -, herased, -, -⟩ := s.makeRoom_cases
 · rwa [hsame] at h
 · rw [herased, find_erase] at h
   split_ifs at h
   exact h

end SitePermissionTable

/-! ## What a table holds -/

/-- A record is an answer or the prompt's history, its times as they can be stored. -/
structure Clean (record : SiteRecord) : Prop where
 answered : isAnswer record.answer = true → record.dismissals = 0 ∧ record.lastDismissalMs = 0
 unanswered : isAnswer record.answer = false → record.answeredMs = 0 ∧ 1 ≤ record.dismissals
 dismissals : record.dismissals ≤ kMaxStoredDismissals
 answeredMs : clampTime record.answeredMs = record.answeredMs
 lastDismissalMs : clampTime record.lastDismissalMs = record.lastDismissalMs

structure Sound (s : SitePermissionTable) : Prop where
 size : s.records.size ≤ kMaxSites
 clean : ∀ site record, s.find site = some record → Clean record

theorem clampTime_clampTime (ms : ℤ) : clampTime (clampTime ms) = clampTime ms := by
 unfold clampTime kMaxStoredTimeMs
 omega

theorem clean_answer {answer : SiteConsent} (h : isAnswer answer = true) (ms : ℤ) :
  Clean { answer, answeredMs := clampTime ms } where
 answered _ := ⟨rfl, rfl⟩
 unanswered hnot := absurd h (Bool.not_eq_true _ ▸ hnot)
 dismissals := Nat.zero_le _
 answeredMs := clampTime_clampTime ms
 lastDismissalMs := rfl

theorem clean_history {record : SiteRecord} (hanswer : isAnswer record.answer = false) (hanswered : record.answeredMs = 0)
  (hsome : 1 ≤ record.dismissals) (hmost : record.dismissals ≤ kMaxStoredDismissals)
  (hlast : clampTime record.lastDismissalMs = record.lastDismissalMs) : Clean record where
 answered h := absurd (hanswer.symm.trans h) Bool.false_ne_true
 unanswered _ := ⟨hanswered, hsome⟩
 dismissals := hmost
 answeredMs := by rw [hanswered]; rfl
 lastDismissalMs := hlast

theorem clean_dismissed {record : SiteRecord} (hanswer : isAnswer record.answer = false) (hanswered : record.answeredMs = 0) (nowMs : ℤ) :
  Clean (SitePermissionTable.dismissed record nowMs) :=
 clean_history hanswer hanswered (le_min (Nat.succ_pos _) (by decide)) (Nat.min_le_right _ _) (clampTime_clampTime nowMs)

theorem clean_clean {record kept : SiteRecord} (h : SitePermissionTable.clean record = some kept) : Clean kept := by
 unfold SitePermissionTable.clean at h
 split_ifs at h with hanswer hdismissals
 · obtain rfl := Option.some.inj h
   exact clean_answer hanswer _
 · obtain rfl := Option.some.inj h
   exact clean_history rfl rfl (le_min hdismissals (by decide)) (Nat.min_le_right _ _) (clampTime_clampTime _)

section Keep

variable {s : SitePermissionTable} {site : Bytes} {record : SiteRecord}

theorem Sound.erase (h : Sound s) (site : Bytes) : Sound (s.erase site) := by
 refine ⟨?_, fun other record hfind => ?_⟩
 · have hsize := s.records.size_erase site
   exact (le_of_add_le_left hsize.le).trans h.size
 · rw [SitePermissionTable.find_erase] at hfind
   split_ifs at hfind
   exact h.clean other record hfind

theorem Sound.makeRoom (h : Sound s) : Sound s.makeRoom :=
 ⟨(SitePermissionTable.size_makeRoom h.size).le, fun site record hfind =>
  h.clean site record (SitePermissionTable.find_makeRoom_some hfind)⟩

theorem Sound.replace (h : Sound s) (hfind : (s.find site).isSome) (hrecord : Clean record) : Sound (s.put site record) := by
 refine ⟨?_, fun other kept hkept => ?_⟩
 · obtain ⟨old, hold⟩ := Option.isSome_iff_exists.1 hfind
   have hsize := s.records.size_insert site record
   rw [show s.records.get site = some old from hold, Option.elim_some, Nat.add_right_cancel_iff] at hsize
   exact hsize.le.trans h.size
 · rw [SitePermissionTable.find_put] at hkept
   split_ifs at hkept
   · exact Option.some.inj hkept ▸ hrecord
   · exact h.clean other kept hkept

theorem Sound.add (h : Sound s) (hrecord : Clean record) (site : Bytes) : Sound (s.makeRoom.put site record) := by
 refine ⟨?_, fun other kept hkept => ?_⟩
 · have hroom := SitePermissionTable.size_makeRoom h.size
   have hsize := s.makeRoom.records.size_insert site record
   exact (le_of_add_le_left hsize.le).trans hroom
 · rw [SitePermissionTable.find_put] at hkept
   split_ifs at hkept
   · exact Option.some.inj hkept ▸ hrecord
   · exact h.makeRoom.clean other kept hkept

theorem Sound.makeRoomFor (h : Sound s) (hrecord : Clean record) (site : Bytes) : Sound ((s.makeRoomFor site).put site record) := by
 rw [SitePermissionTable.makeRoomFor]
 split_ifs with hfind
 · exact h.replace hfind hrecord
 · exact h.add hrecord site

theorem find_removeWhere (s : SitePermissionTable) (gone : Bytes × SiteRecord → Bool) (site : Bytes) :
  (s.removeWhere gone).2.find site = (s.find site).filter fun record => !gone (site, record) := Table.get_keep _ _ _

theorem Sound.removeWhere (h : Sound s) (gone : Bytes × SiteRecord → Bool) : Sound (s.removeWhere gone).2 := by
 refine ⟨(Table.size_keep_le _ _).trans h.size, fun site record hfind => ?_⟩
 rw [find_removeWhere, Option.filter_eq_some_iff] at hfind
 exact h.clean site record hfind.1

theorem sound_new : Sound {} := ⟨Nat.zero_le _, fun _ _ h => absurd h (Option.some_ne_none _).symm⟩

theorem Sound.call (h : Sound s) (c : Call) : Sound (call s c) := by
 cases c with
 | setAnswer site answer nowMs =>
  unfold WebAISitePermissions.call SitePermissionTable.setAnswer
  dsimp only
  split_ifs with hplausible hanswer
  · exact h
  · exact h.erase site
  · exact h.makeRoomFor (clean_answer (by simpa using hanswer) nowMs) site
 | recordDismissal site nowMs =>
  unfold WebAISitePermissions.call SitePermissionTable.recordDismissal
  dsimp only
  split_ifs with hplausible
  · exact h
  · cases hfind : s.find site with
    | none => exact h.add (clean_dismissed rfl rfl nowMs) site
    | some record =>
     dsimp only
     split_ifs with hanswer
     · exact h
     · rw [Bool.not_eq_true] at hanswer
       have hunanswered := ((h.clean site record hfind).unanswered hanswer).1
       exact h.replace (hfind ▸ rfl) (clean_dismissed hanswer hunanswered nowMs)
 | remove site =>
  unfold WebAISitePermissions.call SitePermissionTable.remove
  dsimp only
  split
  · exact h
  · exact h.erase site
 | clear => exact sound_new
 | removeAnswersBetween beginMs endMs sites => exact h.removeWhere _
 | removePromptHistory sites => exact h.removeWhere _
 | insert site record =>
  unfold WebAISitePermissions.call SitePermissionTable.insert
  dsimp only
  split_ifs
  · exact h
  · split
    · exact h
    · next hclean => exact h.makeRoomFor (clean_clean hclean) site

/-! ## What takes an answer -/

def MakesRoom (s : SitePermissionTable) (record : SiteRecord) (newSite : Bytes) : Prop := s.find newSite = none ∧ Evicted s record

/-- The call names the site, clears all, covers the answer with its range, or makes room by it. -/
def Takes (s : SitePermissionTable) (site : Bytes) (record : SiteRecord) : Call → Prop
 | .setAnswer other _ _ => other = site ∨ MakesRoom s record other
 | .recordDismissal other _ => MakesRoom s record other
 | .remove other => other = site
 | .clear => True
 | .removeAnswersBetween beginMs endMs sites => beginMs ≤ record.answeredMs ∧ record.answeredMs < endMs ∧ site ∈ sites
 | .removePromptHistory _ => False
 | .insert other _ => other = site ∨ MakesRoom s record other

theorem makesRoom_of_lost {other : Bytes} {new : SiteRecord} (hfind : s.find site = some record) (hanswer : isAnswer record.answer = true)
  (hother : other ≠ site) (hlost : ((s.makeRoomFor other).put other new).find site ≠ some record) : MakesRoom s record other := by
 rw [SitePermissionTable.find_put, if_neg hother.symm, SitePermissionTable.makeRoomFor] at hlost
 split_ifs at hlost with hknown
 · exact absurd hfind hlost
 · exact ⟨by simpa using hknown, SitePermissionTable.find_makeRoom hfind hanswer hlost⟩

theorem takes_of_lost (c : Call) (hfind : s.find site = some record) (hanswer : isAnswer record.answer = true)
  (hlost : (call s c).find site ≠ some record) : Takes s site record c := by
 cases c with
 | setAnswer other answer nowMs =>
  by_cases hother : other = site
  · exact .inl hother
  unfold call SitePermissionTable.setAnswer at hlost
  dsimp only at hlost
  split_ifs at hlost
  · exact absurd hfind hlost
  · rw [SitePermissionTable.find_erase, if_neg (Ne.symm hother)] at hlost
    exact absurd hfind hlost
  · exact .inr (makesRoom_of_lost hfind hanswer hother hlost)
 | recordDismissal other nowMs =>
  unfold call SitePermissionTable.recordDismissal at hlost
  dsimp only at hlost
  split_ifs at hlost
  · exact absurd hfind hlost
  · cases hknown : s.find other with
    | none =>
     rw [hknown] at hlost
     dsimp only at hlost
     have hother : other ≠ site := fun hsame => by
      rw [hsame, hfind] at hknown
      cases hknown
     rw [SitePermissionTable.find_put, if_neg hother.symm] at hlost
     exact ⟨hknown, SitePermissionTable.find_makeRoom hfind hanswer hlost⟩
    | some known =>
     rw [hknown] at hlost
     dsimp only at hlost
     split_ifs at hlost with hanswered
     · exact absurd hfind hlost
     · have hother : other ≠ site := fun hsame => by
        rw [hsame, hfind] at hknown
        exact hanswered (Option.some.inj hknown ▸ hanswer)
       rw [SitePermissionTable.find_put, if_neg hother.symm] at hlost
       exact absurd hfind hlost
 | remove other =>
  unfold call SitePermissionTable.remove at hlost
  dsimp only at hlost
  split at hlost
  · exact absurd hfind hlost
  · rw [SitePermissionTable.find_erase] at hlost
    split_ifs at hlost with hsame
    · exact hsame.symm
    · exact absurd hfind hlost
 | clear => trivial
 | removeAnswersBetween beginMs endMs sites =>
  unfold call SitePermissionTable.removeAnswersBetween at hlost
  rw [find_removeWhere, hfind, Option.filter_some] at hlost
  split_ifs at hlost with hkept
  · exact absurd rfl hlost
  · change beginMs ≤ record.answeredMs ∧ record.answeredMs < endMs ∧ site ∈ sites
    simpa [hanswer, and_assoc] using hkept
 | removePromptHistory sites =>
  unfold call SitePermissionTable.removePromptHistory at hlost
  rw [find_removeWhere, hfind, Option.filter_some] at hlost
  exact hlost (by simp [hanswer])
 | insert other new =>
  by_cases hother : other = site
  · exact .inl hother
  unfold call SitePermissionTable.insert at hlost
  dsimp only at hlost
  split_ifs at hlost
  · exact absurd hfind hlost
  · split at hlost
    · exact absurd hfind hlost
    · exact .inr (makesRoom_of_lost hfind hanswer hother hlost)

end Keep

/-! ## Stored and read again -/

theorem storedTime_ofInt64 {ms : ℤ} (h : clampTime ms = ms) : storedTime (some (.finite (.ofInt64 (clampTime ms)))) = some ms := by
 have hrange : 0 ≤ ms ∧ ms ≤ 2 ^ 53 := by
  unfold clampTime kMaxStoredTimeMs at h
  omega
 have htrunc : (Double.ofInt64 ms).trunc = ms := Double.trunc_ofInt64_of_small (by omega)
 have hrat : (Double.ofInt64 ms).toRat = ms := by rw [Double.toRat_of_exponent (Double.exponent_ofInt64 ms), htrunc]
 rw [h, storedTime, hrat, htrunc, if_neg]
 rw [not_or, not_lt, not_lt, kMaxStoredTimeMs]
 exact ⟨by exact_mod_cast hrange.1, by exact_mod_cast hrange.2⟩

theorem clampTime_of_le {ms nowMs : ℤ} (h : clampTime ms = ms) (hle : ms ≤ nowMs) : min ms (clampTime nowMs) = ms := by
 unfold clampTime at h ⊢
 omega

theorem recordFromStored_storedFromRecord {record : SiteRecord} (h : Clean record) {nowMs : ℤ} (hnow : record.answeredMs ≤ nowMs) :
  recordFromStored (storedFromRecord record) nowMs = some record := by
 obtain ⟨answer, answeredMs, dismissals, lastDismissalMs⟩ := record
 cases hanswer : isAnswer answer with
 | true =>
  obtain ⟨rfl, rfl⟩ := h.answered hanswer
  have htime := storedTime_ofInt64 h.answeredMs
  have hmin := clampTime_of_le h.answeredMs hnow
  rw [storedFromRecord, if_pos hanswer, recordFromStored]
  dsimp only at htime hmin ⊢
  rw [htime, Option.getD_some, hmin]
  cases answer with
  | ask => cases hanswer
  | allowed => rfl
  | blocked => rfl
 | false =>
  obtain ⟨hanswered, hsome⟩ := h.unanswered hanswer
  have hask : answer = .ask := by
   cases answer with
   | ask => rfl
   | allowed | blocked => cases hanswer
  have hmin : min dismissals kMaxStoredDismissals = dismissals := min_eq_left h.dismissals
  have htime := storedTime_ofInt64 h.lastDismissalMs
  dsimp only at hanswered hsome htime
  rw [storedFromRecord, if_neg (Bool.not_eq_true _ ▸ hanswer), recordFromStored]
  dsimp only
  rw [if_neg (by simp), hmin, htime, if_neg (by omega), Int.toNat_natCast, hmin, hask, hanswered]
  rfl

/-! ## Runs -/

def ran (calls : List Call) : SitePermissionTable := run call {} calls

theorem sound_ran (calls : List Call) : Sound (ran calls) :=
 run_invariant_unconditional (I := Sound) (fun _ c h => h.call c) sound_new calls

/-- Answers are kept: the table holds no more than it may, an answered record has no prompt history, an answer goes by a call
that takes it, and a record is read as it was stored. -/
theorem site_answers_kept (calls : List Call) :
  (ran calls).records.size ≤ kMaxSites ∧
  ∀ site record, (ran calls).find site = some record →
   (isAnswer record.answer = true →
    (record.dismissals = 0 ∧ record.lastDismissalMs = 0) ∧
    ∀ c, (call (ran calls) c).find site ≠ some record → Takes (ran calls) site record c) ∧
   ∀ nowMs, record.answeredMs ≤ nowMs → record.lastDismissalMs ≤ nowMs →
    recordFromStored (storedFromRecord record) nowMs = some record := by
 have hsound := sound_ran calls
 refine ⟨hsound.size, fun site record hfind => ⟨fun hanswer => ⟨?_, fun c hlost => ?_⟩, fun nowMs hanswered _ => ?_⟩⟩
 · exact (hsound.clean site record hfind).answered hanswer
 · exact takes_of_lost c hfind hanswer hlost
 · exact recordFromStored_storedFromRecord (hsound.clean site record hfind) hanswered

theorem site_answers_kept_allowed :
  (ran [.setAnswer "https://a.example" .allowed 5, .recordDismissal "https://b.example" 9]).find "https://a.example" =
    some { answer := .allowed, answeredMs := 5 } ∧
   recordFromStored (storedFromRecord { answer := .allowed, answeredMs := 5 }) 7 =
    some { answer := .allowed, answeredMs := 5 } := by
 have hfind : (ran [.setAnswer "https://a.example" .allowed 5, .recordDismissal "https://b.example" 9]).find "https://a.example" =
   some { answer := .allowed, answeredMs := 5 } := by decide
 exact ⟨hfind, ((site_answers_kept [.setAnswer "https://a.example" .allowed 5, .recordDismissal "https://b.example" 9]).2
  "https://a.example" _ hfind).2 7 (by decide) (by decide)⟩

end MoltBrowser.WebAISitePermissions
