import MoltBrowser.OrderedSets
import Mathlib.Data.Finset.Order

set_option autoImplicit false

/-!
# Write allowances of sites that are forgotten once they are full

Times are in milliseconds, tokens in thousandths.
-/
namespace MoltBrowser.WriteAllowances
open SortedTable OrderedSets

def siteWritesBurst : ℤ := 1000
def siteWritesPerSecond : ℤ := 100
def siteWriteBytesBurst : ℤ := 10 * 1024 * 1024 + 100 * 1024
def siteWriteBytesPerSecond : ℤ := 1024 * 1024
def forgetPerCall : ℕ := 4

def writesFull : ℤ := siteWritesBurst * 1000
def bytesFull : ℤ := siteWriteBytesBurst * 1000

def fillMs : ℤ := siteWriteBytesBurst * 1000 / siteWriteBytesPerSecond + siteWritesBurst * 1000 / siteWritesPerSecond + 1

structure MoltDomStorageWriteAllowance where
 atMs : ℤ := 0
 writesMilli : ℤ := writesFull
 bytesMilli : ℤ := bytesFull
 deriving DecidableEq

namespace MoltDomStorageWriteAllowance

variable (a : MoltDomStorageWriteAllowance)

def elapsed (nowMs : ℤ) : ℤ := if nowMs - a.atMs < fillMs then nowMs - a.atMs else fillMs

def refill (nowMs : ℤ) : MoltDomStorageWriteAllowance :=
 if nowMs > a.atMs then
  let writes := a.writesMilli + a.elapsed nowMs * siteWritesPerSecond
  let bytesLeft := a.bytesMilli + a.elapsed nowMs * siteWriteBytesPerSecond
  { atMs := nowMs
    writesMilli := if writes < writesFull then writes else writesFull
    bytesMilli := if bytesLeft < bytesFull then bytesLeft else bytesFull }
 else a

def cost (bytes : ℕ) : ℤ := (if (bytes : ℤ) < siteWriteBytesBurst then (bytes : ℤ) else siteWriteBytesBurst) * 1000

def mayWrite (nowMs : ℤ) (bytes : ℕ) : Bool × MoltDomStorageWriteAllowance :=
 let a := a.refill nowMs
 if a.writesMilli < 1000 || a.bytesMilli < cost bytes then (false, a)
 else (true, { a with writesMilli := a.writesMilli - 1000, bytesMilli := a.bytesMilli - cost bytes })

def fullAtMs : ℤ :=
 let writesMissing := if a.writesMilli < writesFull then writesFull - a.writesMilli else 0
 let bytesMissing := if a.bytesMilli < bytesFull then bytesFull - a.bytesMilli else 0
 let writesMs := (writesMissing + siteWritesPerSecond - 1) / siteWritesPerSecond
 let bytesMs := (bytesMissing + siteWriteBytesPerSecond - 1) / siteWriteBytesPerSecond
 a.atMs + if writesMs > bytesMs then writesMs else bytesMs

def products (nowMs : ℤ) (bytes : ℕ) : List ℤ :=
 [siteWritesBurst * 1000, siteWriteBytesBurst * 1000, a.elapsed nowMs * siteWritesPerSecond,
  a.elapsed nowMs * siteWriteBytesPerSecond, cost bytes]

/-- The tokens are within the burst, and were counted by then. -/
structure Within (nowMs : ℤ) : Prop where
 writes : 0 ≤ a.writesMilli ∧ a.writesMilli ≤ writesFull
 bytes : 0 ≤ a.bytesMilli ∧ a.bytesMilli ≤ bytesFull
 past : a.atMs ≤ nowMs

/-! ## One allowance -/

variable {a} {nowMs : ℤ}

theorem fresh_within (nowMs : ℤ) : ({ atMs := nowMs } : MoltDomStorageWriteAllowance).Within nowMs :=
 ⟨⟨show 0 ≤ writesFull by decide, le_refl _⟩, ⟨show 0 ≤ bytesFull by decide, le_refl _⟩, le_refl _⟩

theorem Within.later (h : a.Within nowMs) {later : ℤ} (hlater : nowMs ≤ later) : a.Within later :=
 ⟨h.writes, h.bytes, h.past.trans hlater⟩

theorem Within.refill (h : a.Within nowMs) : (a.refill nowMs).Within nowMs := by
 have helapsed : nowMs > a.atMs → 0 ≤ a.elapsed nowMs := by
  intro hnow
  rw [elapsed]
  split_ifs
  · omega
  · decide
 obtain ⟨⟨hwrites, hwrites'⟩, ⟨hbytes, hbytes'⟩, hpast⟩ := h
 rw [MoltDomStorageWriteAllowance.refill]
 split_ifs with hnow
 · have hpos := helapsed hnow
   refine ⟨?_, ?_, le_refl _⟩
   · dsimp only
     rw [siteWritesPerSecond]
     split_ifs
     · omega
     · exact ⟨by decide, le_refl _⟩
   · dsimp only
     rw [siteWriteBytesPerSecond]
     split_ifs
     · omega
     · exact ⟨by decide, le_refl _⟩
 · exact ⟨⟨hwrites, hwrites'⟩, ⟨hbytes, hbytes'⟩, hpast⟩

theorem cost_nonneg (bytes : ℕ) : 0 ≤ cost bytes := by
 rw [cost, siteWriteBytesBurst]
 split_ifs
 · omega
 · decide

theorem Within.mayWrite (h : a.Within nowMs) (bytes : ℕ) : (a.mayWrite nowMs bytes).2.Within nowMs := by
 have hrefill := h.refill
 have hcost := cost_nonneg bytes
 rw [MoltDomStorageWriteAllowance.mayWrite]
 split_ifs with hrefused
 · exact hrefill
 · rw [Bool.or_eq_true, decide_eq_true_iff, decide_eq_true_iff, not_or, not_lt, not_lt] at hrefused
   obtain ⟨⟨hwrites, hwrites'⟩, ⟨hbytes, hbytes'⟩, hpast⟩ := hrefill
   refine ⟨?_, ?_, hpast⟩
   · dsimp only
     omega
   · dsimp only
     omega

theorem Within.full (h : a.Within nowMs) (hfull : a.fullAtMs ≤ nowMs) : a.refill nowMs = { atMs := nowMs } := by
 obtain ⟨⟨hwrites, hwrites'⟩, ⟨hbytes, hbytes'⟩, hpast⟩ := h
 have hfill : fillMs = 20098 := by decide
 have hwritesFull : writesFull = 1000000 := by decide
 have hbytesFull : bytesFull = 10588160000 := by decide
 have hlater : ∀ missing ms : ℤ, (if missing > ms then missing else ms) ≤ nowMs - a.atMs → missing ≤ nowMs - a.atMs ∧ ms ≤ nowMs - a.atMs := by
  intro missing ms hle
  split_ifs at hle
  · omega
  · omega
 rw [fullAtMs] at hfull
 obtain ⟨hwritesMs, hbytesMs⟩ := hlater _ _ (by linarith)
 rw [siteWritesPerSecond] at hwritesMs
 rw [siteWriteBytesPerSecond] at hbytesMs
 obtain ⟨atMs, writesMilli, bytesMilli⟩ := a
 dsimp only at *
 rw [hwritesFull] at hwrites' hwritesMs
 rw [hbytesFull] at hbytes' hbytesMs
 have hneeded : 1000000 - writesMilli ≤ 100 * (nowMs - atMs) ∧ 10588160000 - bytesMilli ≤ 1048576 * (nowMs - atMs) := by
  split_ifs at hwritesMs hbytesMs <;> omega
 rw [MoltDomStorageWriteAllowance.refill, elapsed, siteWritesPerSecond, siteWriteBytesPerSecond, hfill, hwritesFull, hbytesFull]
 dsimp only
 split_ifs <;> first | omega | (congr 1 <;> omega)

theorem Within.mayWrite_full (h : a.Within nowMs) (hfull : a.fullAtMs ≤ nowMs) (bytes : ℕ) :
  a.mayWrite nowMs bytes = ({ atMs := nowMs } : MoltDomStorageWriteAllowance).mayWrite nowMs bytes := by
 have hfresh : ({ atMs := nowMs } : MoltDomStorageWriteAllowance).refill nowMs = { atMs := nowMs } := if_neg (lt_irrefl _)
 rw [MoltDomStorageWriteAllowance.mayWrite, MoltDomStorageWriteAllowance.mayWrite, h.full hfull, hfresh]

theorem Within.fullAt_le (h : a.Within nowMs) : a.fullAtMs ≤ nowMs + fillMs := by
 obtain ⟨⟨hwrites, hwrites'⟩, ⟨hbytes, hbytes'⟩, hpast⟩ := h
 have hfill : fillMs = 20098 := by decide
 have hwritesFull : writesFull = 1000000 := by decide
 have hbytesFull : bytesFull = 10588160000 := by decide
 rw [fullAtMs, siteWritesPerSecond, siteWriteBytesPerSecond, hfill, hwritesFull, hbytesFull]
 split_ifs <;> omega

theorem products_in_range (past : a.atMs ≤ nowMs) (bytes : ℕ) : ∀ x ∈ a.products nowMs bytes, 0 ≤ x ∧ x < 2 ^ 63 := by
 have hfill : fillMs = 20098 := by decide
 have helapsed : 0 ≤ a.elapsed nowMs ∧ a.elapsed nowMs ≤ 20098 := by
  rw [elapsed, hfill]
  split_ifs <;> omega
 have hcost : cost bytes ≤ siteWriteBytesBurst * 1000 := by
  rw [cost]
  split_ifs <;> omega
 have hnonneg := cost_nonneg bytes
 rw [products]
 simp only [List.forall_mem_cons, List.not_mem_nil, false_implies, implies_true, and_true, siteWritesBurst, siteWriteBytesBurst,
  siteWritesPerSecond, siteWriteBytesPerSecond] at hcost ⊢
 omega

end MoltDomStorageWriteAllowance

/-! ## Records that expire -/

abbrev Due (Site : Type) := ℤ ×ₗ Site

variable {Site Value : Type}

def due (forgetAtMs : ℤ) (site : Site) : Due Site := toLex (forgetAtMs, site)

def Due.forgetAtMs (d : Due Site) : ℤ := (ofLex d).1
def Due.site (d : Due Site) : Site := (ofLex d).2

structure Record (Value : Type) where
 value : Value
 forgetAtMs : ℤ := 0

structure MoltDomStorageExpiringRecords (Site Value : Type) [LinearOrder Site] where
 records : Table Site (Record Value) := .empty
 due : Finset (Due Site) := ∅

namespace MoltDomStorageExpiringRecords

variable [LinearOrder Site] (s : MoltDomStorageExpiringRecords Site Value)

def getOrAdd (site : Site) (value : Value) : Value × MoltDomStorageExpiringRecords Site Value :=
 match s.records.get site with
 | some r => (r.value, s)
 | none => (value, { records := s.records.insert site { value }, due := insert (WriteAllowances.due 0 site) s.due })

/-- The value that `getOrAdd` gave is written to where it is. -/
def set (site : Site) (value : Value) : MoltDomStorageExpiringRecords Site Value :=
 match s.records.get site with
 | none => s
 | some r => { s with records := s.records.insert site { r with value } }

def setForgetAt (site : Site) (atMs : ℤ) : MoltDomStorageExpiringRecords Site Value :=
 match s.records.get site with
 | none => s
 | some r =>
  if r.forgetAtMs = atMs then s
  else
   { records := s.records.insert site { r with forgetAtMs := atMs }
     due := insert (WriteAllowances.due atMs site) (s.due.erase (WriteAllowances.due r.forgetAtMs site)) }

def forgetDue (nowMs : ℤ) (max : ℕ) : MoltDomStorageExpiringRecords Site Value :=
 let (gone, due) := takeFirst (fun d => d.forgetAtMs ≤ nowMs) max s.due
 { records := gone.foldl (fun records d => records.erase d.site) s.records, due }

def Sound : Prop := ∀ d ∈ s.due, ∃ r, s.records.get d.site = some r ∧ r.forgetAtMs = d.forgetAtMs

variable {s}

theorem Sound.empty : ({} : MoltDomStorageExpiringRecords Site Value).Sound := by
 intro d hd
 exact absurd hd (Finset.notMem_empty d)

theorem get_forgetDue (h : s.Sound) (nowMs : ℤ) (max : ℕ) (site : Site) :
  (s.forgetDue nowMs max).records.get site = s.records.get site ∨
   (s.forgetDue nowMs max).records.get site = none ∧ ∃ r, s.records.get site = some r ∧ r.forgetAtMs ≤ nowMs := by
 have hget : (s.forgetDue nowMs max).records.get site = _ := get_foldl_erase Due.site _ s.records site
 obtain ⟨htaken, -⟩ := takeFirst_spec (fun d : Due Site => d.forgetAtMs ≤ nowMs) max s.due
 rw [hget]
 split_ifs with hgone
 · apply Or.inr
   obtain ⟨d, hd, rfl⟩ := List.mem_map.mp hgone
   obtain ⟨hmem, hnow⟩ := htaken d hd
   obtain ⟨r, hr, heq⟩ := h d hmem
   exact ⟨rfl, r, hr, heq ▸ of_decide_eq_true hnow⟩
 · exact Or.inl rfl

theorem Sound.forgetDue (h : s.Sound) (nowMs : ℤ) (max : ℕ) : (s.forgetDue nowMs max).Sound := by
 intro d hd
 obtain ⟨htaken, hrest⟩ := takeFirst_spec (fun d : Due Site => d.forgetAtMs ≤ nowMs) max s.due
 obtain ⟨hmem, hkept⟩ := (hrest d).mp hd
 obtain ⟨r, hr, heq⟩ := h d hmem
 refine ⟨r, ?_, heq⟩
 have hget : (s.forgetDue nowMs max).records.get d.site = _ := get_foldl_erase Due.site _ s.records d.site
 rw [hget, if_neg, hr]
 intro hgone
 -- another entry of the site has the same time, so it is the same entry
 obtain ⟨d', hd', hsite⟩ := List.mem_map.mp hgone
 obtain ⟨r', hr', heq'⟩ := h d' (htaken d' hd').1
 rw [hsite, hr] at hr'
 cases hr'
 have hsame : d' = d := by
  have : (ofLex d') = (ofLex d) := Prod.ext (heq'.symm.trans heq) hsite
  exact this
 exact hkept (hsame ▸ hd')

theorem Sound.getOrAdd (h : s.Sound) (site : Site) (value : Value) : (s.getOrAdd site value).2.Sound := by
 rw [MoltDomStorageExpiringRecords.getOrAdd]
 cases hget : s.records.get site with
 | some r => exact h
 | none =>
  intro d hd
  dsimp only at hd ⊢
  rw [Table.get_insert]
  cases Finset.mem_insert.mp hd with
  | inl heq => exact ⟨{ value }, if_pos (congrArg Due.site heq), (congrArg Due.forgetAtMs heq).symm⟩
  | inr hmem =>
   obtain ⟨r, hr, heq⟩ := h d hmem
   refine ⟨r, ?_, heq⟩
   rw [if_neg, hr]
   intro hsite
   rw [hsite, hget] at hr
   cases hr

theorem get_getOrAdd (site : Site) (value : Value) (k : Site) :
  (s.getOrAdd site value).2.records.get k =
   if k = site then some ((s.records.get site).getD { value }) else s.records.get k := by
 rw [MoltDomStorageExpiringRecords.getOrAdd]
 cases hget : s.records.get site with
 | some r =>
  split_ifs with hk
  · exact hk ▸ hget
  · rfl
 | none => exact Table.get_insert _ _ _ _

theorem getOrAdd_value (site : Site) (value : Value) :
  (s.getOrAdd site value).1 = ((s.records.get site).getD { value }).value := by
 rw [MoltDomStorageExpiringRecords.getOrAdd]
 cases s.records.get site <;> rfl

theorem get_set (site : Site) (value : Value) (k : Site) :
  (s.set site value).records.get k = if k = site then (s.records.get site).map fun r => { r with value } else s.records.get k := by
 rw [MoltDomStorageExpiringRecords.set]
 cases hget : s.records.get site with
 | some r => exact Table.get_insert _ _ _ _
 | none =>
  split_ifs with hk
  · exact hk ▸ hget
  · rfl

theorem Sound.set (h : s.Sound) (site : Site) (value : Value) : (s.set site value).Sound := by
 intro d hd
 have hdue : d ∈ s.due := by
  rw [MoltDomStorageExpiringRecords.set] at hd
  cases hget : s.records.get site with
  | none => rwa [hget] at hd
  | some r => rwa [hget] at hd
 obtain ⟨r, hr, heq⟩ := h d hdue
 rw [get_set]
 split_ifs with hsite
 · exact ⟨{ r with value }, by rw [← hsite, hr]; rfl, heq⟩
 · exact ⟨r, hr, heq⟩

theorem get_setForgetAt (site : Site) (atMs : ℤ) (k : Site) :
  (s.setForgetAt site atMs).records.get k =
   if k = site then (s.records.get site).map fun r => { r with forgetAtMs := atMs } else s.records.get k := by
 rw [setForgetAt]
 cases hget : s.records.get site with
 | none =>
  split_ifs with hk
  · exact hk ▸ hget
  · rfl
 | some r =>
  dsimp only
  split_ifs with hat hk hk
  · rw [hk, hget, ← hat]
    rfl
  · rfl
  · exact (Table.get_insert _ _ _ _).trans (if_pos hk)
  · exact (Table.get_insert _ _ _ _).trans (if_neg hk)

theorem Sound.setForgetAt (h : s.Sound) (site : Site) (atMs : ℤ) : (s.setForgetAt site atMs).Sound := by
 intro d hd
 rw [get_setForgetAt]
 rw [MoltDomStorageExpiringRecords.setForgetAt] at hd
 cases hget : s.records.get site with
 | none =>
  rw [hget] at hd
  obtain ⟨r, hr, heq⟩ := h d hd
  refine ⟨r, ?_, heq⟩
  rw [if_neg, hr]
  intro hsite
  rw [hsite, hget] at hr
  cases hr
 | some r =>
  rw [hget] at hd
  dsimp only at hd
  split_ifs at hd with hat
  · obtain ⟨r', hr', heq⟩ := h d hd
    split_ifs with hsite
    · rw [hsite, hget] at hr'
      cases hr'
      exact ⟨_, rfl, hat ▸ heq⟩
    · exact ⟨r', hr', heq⟩
  · cases Finset.mem_insert.mp hd with
    | inl heq => exact ⟨_, if_pos (congrArg Due.site heq), (congrArg Due.forgetAtMs heq).symm⟩
    | inr hmem =>
     obtain ⟨hne, hmem⟩ := Finset.mem_erase.mp hmem
     obtain ⟨r', hr', heq⟩ := h d hmem
     refine ⟨r', ?_, heq⟩
     rw [if_neg, hr']
     intro hsite
     rw [hsite, hget] at hr'
     cases hr'
     have hsame : ofLex d = ofLex (WriteAllowances.due r.forgetAtMs site) := Prod.ext heq.symm hsite
     exact hne hsame

end MoltDomStorageExpiringRecords

/-! ## Writes -/

structure Write (Site : Type) where
 site : Site
 nowMs : ℤ
 bytes : ℕ

variable [LinearOrder Site]

abbrev Allowances (Site : Type) [LinearOrder Site] := MoltDomStorageExpiringRecords Site MoltDomStorageWriteAllowance

/-- Forgets a few records that are due, then takes the write from its site's allowance. -/
def mayWrite (max : ℕ) (s : Allowances Site) (w : Write Site) : Bool × Allowances Site :=
 let s := s.forgetDue w.nowMs max
 let (allowance, s) := s.getOrAdd w.site { atMs := w.nowMs }
 let (may, allowance) := allowance.mayWrite w.nowMs w.bytes
 (may, (s.set w.site allowance).setForgetAt w.site allowance.fullAtMs)

def mayWrites (max : ℕ) : Allowances Site → List (Write Site) → List Bool × Allowances Site
 | s, [] => ([], s)
 | s, w :: writes =>
  let (may, s) := mayWrite max s w
  let (more, s) := mayWrites max s writes
  (may :: more, s)

def meets (max : ℕ) (s : Allowances Site) (w : Write Site) : MoltDomStorageWriteAllowance :=
 ((s.forgetDue w.nowMs max).getOrAdd w.site { atMs := w.nowMs }).1

/-! ### Every allowance kept -/

abbrev KeptAllowances (Site : Type) [LinearOrder Site] := Table Site MoltDomStorageWriteAllowance

def meetsKept (kept : KeptAllowances Site) (w : Write Site) : MoltDomStorageWriteAllowance :=
 (kept.get w.site).getD { atMs := w.nowMs }

def mayWriteKept (kept : KeptAllowances Site) (w : Write Site) : Bool × KeptAllowances Site :=
 let (may, allowance) := (meetsKept kept w).mayWrite w.nowMs w.bytes
 (may, kept.insert w.site allowance)

def mayWritesKept : KeptAllowances Site → List (Write Site) → List Bool × KeptAllowances Site
 | kept, [] => ([], kept)
 | kept, w :: writes =>
  let (may, kept) := mayWriteKept kept w
  let (more, kept) := mayWritesKept kept writes
  (may :: more, kept)

/-! ## What is forgotten is full -/

/-- What is on record is as kept, and may be forgotten once it is full; what is not is full. -/
structure Agree (nowMs : ℤ) (s : Allowances Site) (kept : KeptAllowances Site) : Prop where
 sound : s.Sound
 within : ∀ site a, kept.get site = some a → a.Within nowMs
 recorded : ∀ site r, s.records.get site = some r → kept.get site = some r.value ∧ r.forgetAtMs = r.value.fullAtMs
 forgotten : ∀ site a, s.records.get site = none → kept.get site = some a → a.fullAtMs ≤ nowMs

variable {nowMs : ℤ} {s : Allowances Site} {kept : KeptAllowances Site}

theorem Agree.empty : Agree nowMs ({} : Allowances Site) .empty where
 sound := .empty
 within _ _ h := by cases h
 recorded _ _ h := by cases h
 forgotten _ _ _ h := by cases h

theorem Agree.later (h : Agree nowMs s kept) {later : ℤ} (hlater : nowMs ≤ later) : Agree later s kept where
 sound := h.sound
 within site a ha := (h.within site a ha).later hlater
 recorded := h.recorded
 forgotten site a hnone ha := (h.forgotten site a hnone ha).trans hlater

theorem Agree.forgetDue (h : Agree nowMs s kept) (max : ℕ) : Agree nowMs (s.forgetDue nowMs max) kept where
 sound := h.sound.forgetDue nowMs max
 within := h.within
 recorded site r hr := by
  cases MoltDomStorageExpiringRecords.get_forgetDue h.sound nowMs max site with
  | inl hsame => exact h.recorded site r (hsame ▸ hr)
  | inr hgone =>
   rw [hgone.1] at hr
   cases hr
 forgotten site a hnone ha := by
  cases MoltDomStorageExpiringRecords.get_forgetDue h.sound nowMs max site with
  | inl hsame => exact h.forgotten site a (hsame ▸ hnone) ha
  | inr hgone =>
   obtain ⟨-, r, hr, hdue⟩ := hgone
   obtain ⟨hkept, hfull⟩ := h.recorded site r hr
   rw [ha] at hkept
   cases hkept
   exact hfull ▸ hdue

theorem Agree.meets (h : Agree nowMs s kept) (w : Write Site) (hw : w.nowMs = nowMs) (max : ℕ) :
  (meets max s w).Within nowMs ∧ (meetsKept kept w).Within nowMs ∧
   (meets max s w).mayWrite w.nowMs w.bytes = (meetsKept kept w).mayWrite w.nowMs w.bytes := by
 subst hw
 have hforget := h.forgetDue max
 have hfresh := MoltDomStorageWriteAllowance.fresh_within w.nowMs
 rw [WriteAllowances.meets, MoltDomStorageExpiringRecords.getOrAdd_value, meetsKept]
 cases hget : (s.forgetDue w.nowMs max).records.get w.site with
 | some r =>
  rw [(hforget.recorded w.site r hget).1]
  have hwithin := h.within w.site _ (hforget.recorded w.site r hget).1
  exact ⟨hwithin, hwithin, rfl⟩
 | none =>
  cases hkept : kept.get w.site with
  | none => exact ⟨hfresh, hfresh, rfl⟩
  | some a =>
   have hwithin := h.within w.site a hkept
   exact ⟨hfresh, hwithin, (hwithin.mayWrite_full (hforget.forgotten w.site a hget hkept) w.bytes).symm⟩

theorem Agree.mayWrite (h : Agree nowMs s kept) (w : Write Site) (hw : w.nowMs = nowMs) (max : ℕ) :
  (mayWrite max s w).1 = (mayWriteKept kept w).1 ∧ Agree nowMs (mayWrite max s w).2 (mayWriteKept kept w).2 := by
 obtain ⟨-, hwithin, hsame⟩ := h.meets w hw max
 subst hw
 have hforget := h.forgetDue max
 have hleft := hwithin.mayWrite w.bytes
 rw [WriteAllowances.meets] at hsame
 rw [WriteAllowances.mayWrite, mayWriteKept]
 dsimp only
 rw [hsame]
 generalize (meetsKept kept w).mayWrite w.nowMs w.bytes = left at hleft ⊢
 -- the record that was written to, and those of other sites
 have hget : ∀ site, (((((s.forgetDue w.nowMs max).getOrAdd w.site { atMs := w.nowMs }).2).set w.site left.2).setForgetAt
   w.site left.2.fullAtMs).records.get site =
    if site = w.site then some { value := left.2, forgetAtMs := left.2.fullAtMs }
    else (s.forgetDue w.nowMs max).records.get site := by
  intro site
  rw [MoltDomStorageExpiringRecords.get_setForgetAt, MoltDomStorageExpiringRecords.get_set, MoltDomStorageExpiringRecords.get_set,
   MoltDomStorageExpiringRecords.get_getOrAdd, MoltDomStorageExpiringRecords.get_getOrAdd, if_pos rfl, if_pos rfl]
  split_ifs <;> rfl
 refine ⟨rfl, ?_, ?_, ?_, ?_⟩
 · exact ((hforget.sound.getOrAdd _ _).set _ _).setForgetAt _ _
 · intro site a ha
   rw [Table.get_insert] at ha
   split_ifs at ha
   · cases ha
     exact hleft
   · exact h.within site a ha
 · intro site r hr
   rw [hget] at hr
   rw [Table.get_insert]
   split_ifs at hr ⊢
   · cases hr
     exact ⟨rfl, rfl⟩
   · exact hforget.recorded site r hr
 · intro site a hnone ha
   rw [hget] at hnone
   rw [Table.get_insert] at ha
   split_ifs at hnone ha
   exact hforget.forgotten site a hnone ha

theorem Agree.mayWrites (h : Agree nowMs s kept) {writes : List (Write Site)} (hfrom : ∀ w ∈ writes, nowMs ≤ w.nowMs)
  (hsorted : writes.Pairwise fun v w => v.nowMs ≤ w.nowMs) {last : ℤ} (hnow : nowMs ≤ last) (hlast : ∀ w ∈ writes, w.nowMs ≤ last)
  (max : ℕ) :
  (mayWrites max s writes).1 = (mayWritesKept kept writes).1 ∧
   Agree last (mayWrites max s writes).2 (mayWritesKept kept writes).2 := by
 induction writes generalizing nowMs s kept with
 | nil => exact ⟨rfl, h.later hnow⟩
 | cons w writes ih =>
  obtain ⟨hle, hsorted⟩ := List.pairwise_cons.mp hsorted
  obtain ⟨hmay, hagree⟩ := (h.later (hfrom w List.mem_cons_self)).mayWrite w rfl max
  obtain ⟨hmore, hend⟩ := ih hagree hle hsorted (hlast w List.mem_cons_self) fun v hv => hlast v (List.mem_cons_of_mem w hv)
  rw [WriteAllowances.mayWrites, mayWritesKept]
  exact ⟨congrArg₂ List.cons hmay hmore, hend⟩

/-- An allowance that stays within its burst, and whose write's products fit an `int64_t`. -/
structure Sane (a : MoltDomStorageWriteAllowance) (w : Write Site) : Prop where
 writes : 0 ≤ a.writesMilli ∧ a.writesMilli ≤ siteWritesBurst * 1000
 bytes : 0 ≤ a.bytesMilli ∧ a.bytesMilli ≤ siteWriteBytesBurst * 1000
 products : ∀ x ∈ a.products w.nowMs w.bytes, 0 ≤ x ∧ x < 2 ^ 63

omit [LinearOrder Site] in
theorem sane_of_within {a : MoltDomStorageWriteAllowance} {w : Write Site} (h : a.Within w.nowMs) : Sane a w :=
 ⟨h.writes, h.bytes, MoltDomStorageWriteAllowance.products_in_range h.past w.bytes⟩

/-- Forgetting allowances decides every write as keeping them for ever does. After any writes, every allowance and the one
that the next write meets are sane, with forgetting and without; and no record is to be forgotten much later. -/
theorem forgetting_unobservable (max : ℕ) (writes : List (Write Site)) (hsorted : writes.Pairwise fun v w => v.nowMs ≤ w.nowMs) :
  (mayWrites max {} writes).1 = (mayWritesKept .empty writes).1 ∧
   ∀ next : Write Site, (∀ w ∈ writes, w.nowMs ≤ next.nowMs) →
    Sane (meets max (mayWrites max {} writes).2 next) next ∧ Sane (meetsKept (mayWritesKept .empty writes).2 next) next ∧
    (∀ site r, (mayWrites max {} writes).2.records.get site = some r →
     Sane r.value next ∧ r.forgetAtMs ≤ next.nowMs + fillMs) ∧
    ∀ site a, (mayWritesKept .empty writes).2.get site = some a → Sane a next := by
 have hrun : ∀ last : ℤ, (∀ w ∈ writes, w.nowMs ≤ last) → (mayWrites max {} writes).1 = (mayWritesKept .empty writes).1 ∧
   Agree last (mayWrites max {} writes).2 (mayWritesKept .empty writes).2 := by
  intro last hlast
  cases writes with
  | nil => exact ⟨rfl, .empty⟩
  | cons w writes =>
   have hempty : Agree w.nowMs ({} : Allowances Site) .empty := .empty
   apply hempty.mayWrites _ hsorted (hlast w List.mem_cons_self) hlast
   intro v hv
   cases List.mem_cons.mp hv with
   | inl heq => exact heq ▸ le_refl _
   | inr hmem => exact (List.pairwise_cons.mp hsorted).1 v hmem
 constructor
 · obtain ⟨last, hlast⟩ := (writes.map Write.nowMs).toFinset.exists_le
   exact (hrun last fun w hw => hlast w.nowMs (List.mem_toFinset.mpr (List.mem_map_of_mem hw))).1
 · intro next hnext
   obtain ⟨-, hagree⟩ := hrun next.nowMs hnext
   obtain ⟨hmet, hkept, -⟩ := hagree.meets next rfl max
   refine ⟨sane_of_within hmet, sane_of_within hkept, ?_, fun site a ha => sane_of_within (hagree.within site a ha)⟩
   intro site r hr
   obtain ⟨hget, hfull⟩ := hagree.recorded site r hr
   have hwithin := hagree.within site _ hget
   exact ⟨sane_of_within hwithin, hfull ▸ hwithin.fullAt_le⟩

/-- A site spends its writes and is soon forgotten by another's; its later write is decided alike. -/
theorem forgetting_unobservable_two :
  let writes : List (Write ℕ) := [⟨0, 5, 2000000⟩, ⟨0, 5, 10000000⟩, ⟨1, 900, 7⟩, ⟨1, 4000, 7⟩, ⟨0, 4000, 10588160⟩]
  (mayWrites forgetPerCall {} writes).1 = [true, false, true, true, true] ∧
   (mayWrites forgetPerCall {} writes).1 = (mayWritesKept .empty writes).1 ∧
   ((mayWrites forgetPerCall {} (writes.take 4)).2.records.get 0).isNone := by
 refine ⟨by decide, (forgetting_unobservable forgetPerCall _ (by decide)).1, by decide⟩

end MoltBrowser.WriteAllowances
