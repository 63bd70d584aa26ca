import MoltBrowser.Bytes
import Mathlib

set_option autoImplicit false

/-!
# The lasting record of GPU failures

Which GPU drivers are turned off, kept across restarts. A driver is retried after a time, after an
update or when the user asks; entries that aren't turned off are forgotten.
-/
namespace MoltBrowser.GpuDriverRecord
open List hiding Vector

/-! ## Keys and texts -/

structure GpuDriverKey where
 identified : Bool
 vendorId : UInt32
 deviceId : UInt32
 driverId : UInt32
 driverVersion : UInt32
 driverUuid : Vector UInt8 16
 zero : identified = false → vendorId = 0 ∧ deviceId = 0 ∧ driverId = 0 ∧ driverVersion = 0 ∧
  driverUuid = Vector.replicate 16 0
 deriving DecidableEq

def unidentifiedGpuDriverKey : GpuDriverKey :=
 ⟨false, 0, 0, 0, 0, Vector.replicate 16 0, fun _ => ⟨rfl, rfl, rfl, rfl, rfl⟩⟩

theorem eq_unidentified {key : GpuDriverKey} (h : key.identified = false) : key = unidentifiedGpuDriverKey := by
 obtain ⟨identified, vendorId, deviceId, driverId, driverVersion, driverUuid, zero⟩ := key
 obtain ⟨rfl, rfl, rfl, rfl, rfl⟩ := zero h
 subst h
 rfl

def kMaxGpuDisplayNameBytes : ℕ := 64

def kMaxVersionBytes : ℕ := 32

def isDigitChar (c : UInt8) : Bool := 0x30 ≤ c && c ≤ 0x39

def isNameChar (c : UInt8) : Bool :=
 (0x61 ≤ c && c ≤ 0x7A) || (0x41 ≤ c && c ≤ 0x5A) || isDigitChar c || c == 0x20 || c == 0x28 || c == 0x29 ||
  c == 0x2B || c == 0x2D || c == 0x2E || c == 0x5F || c == 0x2F || c == 0x2C || c == 0x5B || c == 0x5D

def sanitizeFrom (out : Bytes) : Bytes → Bytes
 | [] => out
 | c :: raw =>
  if kMaxGpuDisplayNameBytes ≤ out.length then out
  else if c = 0 then out -- a C string's end
  else if isNameChar c = false then sanitizeFrom out raw
  else if c = 0x20 ∧ (out = [] ∨ out.getLast? = some 0x20) then sanitizeFrom out raw
  else sanitizeFrom (out ++ [c]) raw

def sanitizeGpuName (raw : Bytes) : Bytes := (sanitizeFrom [] raw).rdropWhile (· == 0x20)

def sanitizeVersion (version : Bytes) : Bytes :=
 if version = [] ∨ kMaxVersionBytes < version.length then []
 else if version.all fun c => isDigitChar c || c == 0x2E then version
 else []

theorem sanitizeVersion_idem (version : Bytes) : sanitizeVersion (sanitizeVersion version) = sanitizeVersion version := by
 by_cases hempty : version = [] ∨ kMaxVersionBytes < version.length
 · rw [show sanitizeVersion version = [] from if_pos hempty]
   rfl
 · by_cases hall : (version.all fun c => isDigitChar c || c == 0x2E) = true
   · have hsame : sanitizeVersion version = version := by rw [sanitizeVersion, if_neg hempty, if_pos hall]
     rw [hsame, hsame]
   · rw [show sanitizeVersion version = [] by rw [sanitizeVersion, if_neg hempty, if_neg hall]]
     rfl

/-- What the reading of a name leaves: no blank first, none after another. -/
structure NameText (out : Bytes) : Prop where
 length : out.length ≤ kMaxGpuDisplayNameBytes
 chars : ∀ c ∈ out, isNameChar c = true
 first : out.head? ≠ some 0x20
 blanks : out.IsChain fun b c => ¬(b = 0x20 ∧ c = 0x20)

theorem NameText.shorter {out name : Bytes} (h : NameText name) (hpre : out <+: name) : NameText out where
 length := hpre.length_le.trans h.length
 chars c hc := h.chars c (hpre.subset hc)
 first hfirst := by
  cases out with
  | nil => exact Option.some_ne_none _ hfirst.symm
  | cons b out =>
   obtain ⟨rest, rfl⟩ := hpre
   exact h.first hfirst
 blanks := h.blanks.prefix hpre

theorem NameText.snoc {out : Bytes} {c : UInt8} (h : NameText out) (hlength : out.length < kMaxGpuDisplayNameBytes)
  (hc : isNameChar c = true) (hblank : ¬(c = 0x20 ∧ (out = [] ∨ out.getLast? = some 0x20))) :
  NameText (out ++ [c]) where
 length := by
  rw [length_append]
  exact hlength
 chars b hb := (mem_append.1 hb).elim (h.chars b) fun hb => mem_singleton.1 hb ▸ hc
 first hfirst := by
  cases out with
  | nil => exact hblank ⟨Option.some.inj hfirst, Or.inl rfl⟩
  | cons b out => exact h.first hfirst
 blanks := by
  refine isChain_append.2 ⟨h.blanks, isChain_singleton c, fun b hb d hd => ?_⟩
  rintro ⟨rfl, rfl⟩
  exact hblank ⟨Option.some.inj hd, Or.inr hb⟩

theorem sanitizeFrom_text {out : Bytes} (h : NameText out) (raw : Bytes) : NameText (sanitizeFrom out raw) := by
 induction raw generalizing out with
 | nil => exact h
 | cons c raw ih =>
  rw [sanitizeFrom]
  split_ifs with hfull hnul hname hblank
  · exact h
  · exact h
  · exact ih h
  · exact ih h
  · exact ih (h.snoc (Nat.not_le.1 hfull) (Bool.not_eq_false _ ▸ hname) hblank)

theorem sanitizeFrom_of_text {out raw : Bytes} (h : NameText (out ++ raw)) : sanitizeFrom out raw = out ++ raw := by
 induction raw generalizing out with
 | nil => exact (append_nil out).symm
 | cons c raw ih =>
  have hlength := h.length
  rw [length_append, length_cons] at hlength
  have hname : isNameChar c = true := h.chars c (mem_append_right out (mem_cons_self ..))
  have hnul : c ≠ 0 := by
   rintro rfl
   exact absurd hname (by decide)
  have hblank : ¬(c = 0x20 ∧ (out = [] ∨ out.getLast? = some 0x20)) := by
   rintro ⟨rfl, rfl | hlast⟩
   · exact h.first rfl
   · exact (isChain_append.1 h.blanks).2.2 _ hlast _ rfl ⟨rfl, rfl⟩
  rw [sanitizeFrom, if_neg (by omega), if_neg hnul, if_neg (by rw [hname]; decide), if_neg hblank,
   ih (by rwa [← append_cons]), ← append_cons]

theorem sanitizeGpuName_idem (raw : Bytes) : sanitizeGpuName (sanitizeGpuName raw) = sanitizeGpuName raw := by
 have htext : NameText (sanitizeFrom [] raw) :=
  sanitizeFrom_text ⟨Nat.zero_le _, fun c hc => absurd hc not_mem_nil, fun h => Option.some_ne_none _ h.symm,
   List.isChain_nil⟩ raw
 have hread : sanitizeFrom [] (sanitizeGpuName raw) = sanitizeGpuName raw :=
  sanitizeFrom_of_text (htext.shorter (List.rdropWhile_prefix _ _))
 rw [sanitizeGpuName, hread, sanitizeGpuName]
 exact rdropWhile_idempotent _ _

/-! ## Entries -/

structure GpuDriverEntry where
 key : GpuDriverKey
 name : Bytes := []
 failureMs : List ℤ := []
 lastEventMs : ℤ := 0
 turnedOff : Bool := false
 turnedOffMs : ℤ := 0
 turnedOffVersion : Bytes := []
 probation : Bool := false

def kMaxEntries : ℕ := 8

def kFailuresToTurnOff : ℕ := 3

def kDayMs : ℤ := 24 * 60 * 60 * 1000

def kFailureMemoryMs : ℤ := 30 * kDayMs

def kRetryAfterMs : ℤ := 30 * kDayMs

def age (time now : ℤ) : ℤ := if time < now then now - time else 0

def retryDue (entry : GpuDriverEntry) (now : ℤ) (browserVersion : Bytes) : Bool :=
 let version := sanitizeVersion browserVersion
 kRetryAfterMs ≤ age entry.turnedOffMs now ||
  (version != [] && entry.turnedOffVersion != [] && version != entry.turnedOffVersion)

def onProbation (entry : GpuDriverEntry) (now : ℤ) : GpuDriverEntry :=
 { entry with turnedOff := false, probation := true, failureMs := [], lastEventMs := now }

def maybeRetry (entry : GpuDriverEntry) (now : ℤ) (browserVersion : Bytes) : Bool × GpuDriverEntry :=
 if entry.turnedOff = false then (false, entry)
 else if retryDue entry now browserVersion = false then (false, entry)
 else (true, onProbation entry now)

def find (entries : List GpuDriverEntry) (key : GpuDriverKey) : Option GpuDriverEntry :=
 entries.find? fun entry => entry.key = key

/-- Changes the entry `find` finds. -/
def replace (key : GpuDriverKey) (new : GpuDriverEntry) : List GpuDriverEntry → List GpuDriverEntry
 | [] => []
 | entry :: entries => if entry.key = key then new :: entries else entry :: replace key new entries

def stale (now : ℤ) (entry : GpuDriverEntry) : Bool :=
 !entry.turnedOff && decide (kFailureMemoryMs ≤ age entry.lastEventMs now)

def expire (entries : List GpuDriverEntry) (now : ℤ) : List GpuDriverEntry :=
 entries.filter fun entry => !stale now entry

/-- Whether the GPU may be used, whether an entry changed, and the entries. -/
def allowGpu (entries : List GpuDriverEntry) (key : GpuDriverKey) (now : ℤ) (browserVersion : Bytes) :
  Bool × Bool × List GpuDriverEntry :=
 match find entries key with
 | none => (true, false, entries)
 | some entry =>
  let (changed, entry) := maybeRetry entry now browserVersion
  (!entry.turnedOff, changed, replace key entry entries)

/-- The place of the first of the entries picked whose time is the least. -/
def oldest (picked : GpuDriverEntry → Bool) (time : GpuDriverEntry → ℤ) (entries : List GpuDriverEntry) : Option ℕ :=
 let least := entries.zipIdx.foldl (fun (oldest : Option (GpuDriverEntry × ℕ)) next =>
  if picked next.1 = false then oldest
  else match oldest with
   | none => some next
   | some entry => if time next.1 < time entry.1 then some next else oldest) none
 least.map Prod.snd

/-- Room for one more: the oldest entry not turned off goes, else the one turned off longest ago. -/
def makeRoom (entries : List GpuDriverEntry) : List GpuDriverEntry :=
 if entries.length < kMaxEntries then entries
 else match (oldest (fun entry => !entry.turnedOff) GpuDriverEntry.lastEventMs entries).or
   (oldest (fun _ => true) GpuDriverEntry.turnedOffMs entries) with
  | none => entries
  | some i => entries.eraseIdx i

def newName (entry : GpuDriverEntry) (name : Bytes) : Bytes :=
 let sanitized := sanitizeGpuName name
 if sanitized = [] then entry.name else sanitized

def newFailures (entry : GpuDriverEntry) (now : ℤ) : List ℤ :=
 let failures := (entry.failureMs.filter fun t => age t now < kFailureMemoryMs) ++ [now]
 if kFailuresToTurnOff < failures.length then failures.drop 1 else failures

/-- A failure on an entry: whether it turned the driver off, and the entry. -/
def failEntry (entry : GpuDriverEntry) (name : Bytes) (now : ℤ) (browserVersion : Bytes) : Bool × GpuDriverEntry :=
 let entry := { entry with name := newName entry name, lastEventMs := now }
 if entry.turnedOff then (false, entry) -- a failure while it was being skipped
 else
  let entry := { entry with failureMs := newFailures entry now }
  if entry.probation = false ∧ entry.failureMs.length < kFailuresToTurnOff then (false, entry)
  else (true, { entry with
   turnedOff := true
   probation := false
   turnedOffMs := now
   turnedOffVersion := sanitizeVersion browserVersion })

theorem failEntry_off {entry : GpuDriverEntry} (h : entry.turnedOff = true) (name : Bytes) (now : ℤ)
  (browserVersion : Bytes) :
  failEntry entry name now browserVersion = (false, { entry with name := newName entry name, lastEventMs := now }) :=
 if_pos h

theorem failEntry_short {entry : GpuDriverEntry} {now : ℤ} (h : entry.turnedOff = false)
  (hshort : entry.probation = false ∧ (newFailures entry now).length < kFailuresToTurnOff) (name : Bytes)
  (browserVersion : Bytes) :
  failEntry entry name now browserVersion = (false, { entry with
   name := newName entry name
   lastEventMs := now
   failureMs := newFailures entry now }) := by
 rw [failEntry]
 simp only [h, Bool.false_eq_true, if_false]
 exact if_pos hshort

theorem failEntry_turns {entry : GpuDriverEntry} {now : ℤ} (h : entry.turnedOff = false)
  (hturns : ¬(entry.probation = false ∧ (newFailures entry now).length < kFailuresToTurnOff)) (name : Bytes)
  (browserVersion : Bytes) :
  failEntry entry name now browserVersion = (true, { entry with
   name := newName entry name
   lastEventMs := now
   failureMs := newFailures entry now
   turnedOff := true
   probation := false
   turnedOffMs := now
   turnedOffVersion := sanitizeVersion browserVersion }) := by
 rw [failEntry]
 simp only [h, Bool.false_eq_true, if_false]
 exact if_neg hturns

def recordKept (entries : List GpuDriverEntry) (key : GpuDriverKey) (name : Bytes) (now : ℤ)
  (browserVersion : Bytes) : Bool × List GpuDriverEntry :=
 match find entries key with
 | some entry =>
  let (off, entry) := failEntry entry name now browserVersion
  (off, replace key entry entries)
 | none =>
  let (off, entry) := failEntry { key } name now browserVersion
  (off, makeRoom entries ++ [entry])

def recordFailure (entries : List GpuDriverEntry) (key : GpuDriverKey) (name : Bytes) (now : ℤ)
  (browserVersion : Bytes) : Bool × List GpuDriverEntry :=
 recordKept (expire entries now) key name now browserVersion

/-- The drivers turned off now, whether anything changed, and the entries. -/
def turnedOff (entries : List GpuDriverEntry) (now : ℤ) (browserVersion : Bytes) :
  List GpuDriverEntry × Bool × List GpuDriverEntry :=
 let retried := entries.map fun entry => maybeRetry entry now browserVersion
 let entries := expire (retried.map Prod.snd) now
 (entries.filter GpuDriverEntry.turnedOff, retried.any Prod.fst || entries.length != retried.length, entries)

def retryAll (entries : List GpuDriverEntry) (now : ℤ) : Bool × List GpuDriverEntry :=
 (entries.any GpuDriverEntry.turnedOff,
  entries.map fun entry => if entry.turnedOff then onProbation entry now else entry)

/-! ## Reading back -/

def clampTime (now t : ℤ) : ℤ := if now < t then now else t

def clean (entry : GpuDriverEntry) (now : ℤ) : GpuDriverEntry :=
 let failures := ((entry.failureMs.filter (0 < ·)).map (clampTime now)).mergeSort
 { key := entry.key
   name := sanitizeGpuName entry.name
   failureMs := failures.drop (failures.length - kFailuresToTurnOff)
   lastEventMs := if 0 < entry.lastEventMs then clampTime now entry.lastEventMs else now
   turnedOff := entry.turnedOff
   turnedOffMs := if entry.turnedOff = false then 0
    else if 0 < entry.turnedOffMs then clampTime now entry.turnedOffMs else now
   turnedOffVersion := if entry.turnedOff then sanitizeVersion entry.turnedOffVersion else []
   probation := !entry.turnedOff && entry.probation }

def restoreFrom (now : ℤ) (restored : List GpuDriverEntry) : List GpuDriverEntry → List GpuDriverEntry
 | [] => restored
 | entry :: entries =>
  if kMaxEntries ≤ restored.length then restored
  else if entry.key.identified = false ∧ entry.key ≠ unidentifiedGpuDriverKey then restoreFrom now restored entries
  else if (find restored entry.key).isSome then restoreFrom now restored entries -- a duplicate
  else restoreFrom now (restored ++ [clean entry now]) entries

def restore (entries : List GpuDriverEntry) (now : ℤ) : List GpuDriverEntry := expire (restoreFrom now [] entries) now

end MoltBrowser.GpuDriverRecord
