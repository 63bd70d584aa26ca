import MoltBrowser.SortedTable
import MoltBrowser.Unwinding
import Mathlib.Data.UInt

set_option autoImplicit false

/-! # What the areas of a storage partition hold, and their sites -/
namespace MoltBrowser.SiteTotals
open SortedTable Unwinding

def bytesPerSite : UInt64 := 10 * 1024 * 1024 + 100 * 1024

variable {Name Site : Type}

structure Area (Site : Type) [Inhabited Site] where
 site : Site := default
 bytes : UInt64 := 0
 deriving DecidableEq

variable [LinearOrder Name] [LinearOrder Site] [Inhabited Site]

variable (Name Site) in
structure MoltDomStorageSiteTotals where
 areas : Table Name (Area Site) := .empty
 sites : Table Site UInt64 := .empty
 total : UInt64 := 0

namespace MoltDomStorageSiteTotals

variable (s : MoltDomStorageSiteTotals Name Site)

def forget (area : Name) : MoltDomStorageSiteTotals Name Site :=
 match s.areas.get area with
 | none => s
 | some it =>
  { total := s.total - it.bytes
    sites :=
     match s.sites.get it.site with
     | none => s.sites
     | some site => if site - it.bytes = 0 then s.sites.erase it.site else s.sites.insert it.site (site - it.bytes)
    areas := s.areas.erase area }

def record (area : Name) (it : Area Site) (bytes total : UInt64) : MoltDomStorageSiteTotals Name Site :=
 { areas := s.areas.insert area it, sites := s.sites.insert it.site bytes, total }

def mayGrowTo (area : Name) (site : Site) (newBytes : UInt64) : Bool × MoltDomStorageSiteTotals Name Site :=
 let counted := (s.areas.get area).getD {}
 let counted := if counted.site = default then { counted with site } else counted
 let siteBytes := (s.sites.get counted.site).getD 0
 let others := siteBytes - counted.bytes
 if counted.bytes < newBytes ∧ bytesPerSite < others + newBytes then
  -- both records were made to be looked at
  let s := s.record area counted siteBytes s.total
  (false, if counted.bytes = 0 then s.forget area else s)
 else
  let s := s.record area { counted with bytes := newBytes } (others + newBytes) (s.total - counted.bytes + newBytes)
  (true, if newBytes = 0 then s.forget area else s)

def shrankTo (area : Name) (site : Site) (newBytes : UInt64) : MoltDomStorageSiteTotals Name Site :=
 match s.areas.get area with
 | none =>
  if 0 < newBytes then s.record area { site, bytes := newBytes } ((s.sites.get site).getD 0 + newBytes) (s.total + newBytes)
  else s
 | some it =>
  if it.bytes ≤ newBytes then s
  else
   let gone := it.bytes - newBytes
   let s := s.record area { it with bytes := newBytes } ((s.sites.get it.site).getD 0 - gone) (s.total - gone)
   if newBytes = 0 then s.forget area else s

def siteBytes (site : Site) : UInt64 := (s.sites.get site).getD 0

def areaBytes (area : Name) : UInt64 := ((s.areas.get area).map Area.bytes).getD 0

end MoltDomStorageSiteTotals

/-! ## Calls -/

inductive Call (Name : Type) where
 | mayGrowTo (area : Name) (newBytes : UInt64)
 | shrankTo (area : Name) (newBytes : UInt64)
 | forget (area : Name)

def Call.area : Call Name → Name
 | mayGrowTo area _ | shrankTo area _ | forget area => area

def Call.bytes : Call Name → UInt64
 | mayGrowTo _ newBytes | shrankTo _ newBytes => newBytes
 | forget _ => 0

/-- Every area is named with its own site. Only growth is answered. -/
def call (siteOf : Name → Site) (s : MoltDomStorageSiteTotals Name Site) :
  Call Name → Option Bool × MoltDomStorageSiteTotals Name Site
 | .mayGrowTo area newBytes =>
  let (may, s) := s.mayGrowTo area (siteOf area) newBytes
  (some may, s)
 | .shrankTo area newBytes => (none, s.shrankTo area (siteOf area) newBytes)
 | .forget area => (none, s.forget area)

variable {s t : MoltDomStorageSiteTotals Name Site} {siteOf : Name → Site} {site : Site}

/-! ## Sites apart -/

variable (siteOf) in
def Named (s : MoltDomStorageSiteTotals Name Site) : Prop := ∀ area it, s.areas.get area = some it → it.site = siteOf area

variable (siteOf site) in
structure Alike (s t : MoltDomStorageSiteTotals Name Site) : Prop where
 named : Named siteOf s
 named' : Named siteOf t
 areas : ∀ area, siteOf area = site → s.areas.get area = t.areas.get area
 sites : s.sites.get site = t.sites.get site

variable {area : Name} {it : Area Site}

theorem Named.record (h : Named siteOf s) (hit : it.site = siteOf area) (bytes total : UInt64) :
  Named siteOf (s.record area it bytes total) := by
 intro area' it' hget
 rw [MoltDomStorageSiteTotals.record] at hget
 dsimp only at hget
 rw [Table.get_insert] at hget
 split_ifs at hget with heq
 · cases hget
   rw [hit, heq]
 · exact h area' it' hget

theorem Alike.record (h : Alike siteOf site s t) (hit : it.site = siteOf area) (bytes total total' : UInt64) :
  Alike siteOf site (s.record area it bytes total) (t.record area it bytes total') where
 named := h.named.record hit _ _
 named' := h.named'.record hit _ _
 areas area' hsite := by
  rw [MoltDomStorageSiteTotals.record, MoltDomStorageSiteTotals.record]
  dsimp only
  rw [Table.get_insert, Table.get_insert, h.areas area' hsite]
 sites := by
  rw [MoltDomStorageSiteTotals.record, MoltDomStorageSiteTotals.record]
  dsimp only
  rw [Table.get_insert, Table.get_insert, h.sites]

theorem Alike.record_other (h : Alike siteOf site s t) (hit : it.site = siteOf area) (harea : siteOf area ≠ site)
  (bytes total : UInt64) : Alike siteOf site (s.record area it bytes total) t where
 named := h.named.record hit _ _
 named' := h.named'
 areas area' hsite := by
  rw [MoltDomStorageSiteTotals.record]
  dsimp only
  rw [Table.get_insert, if_neg, h.areas area' hsite]
  exact fun heq => harea (heq ▸ hsite)
 sites := by
  rw [MoltDomStorageSiteTotals.record]
  dsimp only
  rw [Table.get_insert, if_neg, h.sites]
  exact fun heq => harea (hit ▸ heq.symm)

theorem get_areas_forget (s : MoltDomStorageSiteTotals Name Site) (area k : Name) :
  (s.forget area).areas.get k = if k = area then none else s.areas.get k := by
 rw [MoltDomStorageSiteTotals.forget]
 cases hget : s.areas.get area with
 | none =>
  split_ifs with hk
  · exact hk ▸ hget
  · rfl
 | some it => exact Table.get_erase _ _ _

theorem get_sites_forget_other (h : Named siteOf s) (hne : siteOf area ≠ site) : (s.forget area).sites.get site = s.sites.get site := by
 rw [MoltDomStorageSiteTotals.forget]
 cases hget : s.areas.get area with
 | none => rfl
 | some it =>
  have hsite : ¬site = it.site := fun heq => hne (heq ▸ h area it hget).symm
  dsimp only
  cases s.sites.get it.site with
  | none => rfl
  | some bytes =>
   dsimp only
   split_ifs
   · rw [Table.get_erase, if_neg hsite]
   · rw [Table.get_insert, if_neg hsite]

theorem Named.forget (h : Named siteOf s) (area : Name) : Named siteOf (s.forget area) := by
 intro area' it hget
 rw [get_areas_forget] at hget
 split_ifs at hget
 exact h area' it hget

theorem Alike.forget_other (h : Alike siteOf site s t) (hne : siteOf area ≠ site) : Alike siteOf site (s.forget area) t where
 named := h.named.forget area
 named' := h.named'
 areas area' hsite := by
  rw [get_areas_forget, if_neg, h.areas area' hsite]
  exact fun heq => hne (heq ▸ hsite)
 sites := (get_sites_forget_other h.named hne).trans h.sites

theorem Alike.forget (h : Alike siteOf site s t) (harea : siteOf area = site) : Alike siteOf site (s.forget area) (t.forget area) where
 named := h.named.forget area
 named' := h.named'.forget area
 areas area' hsite := by rw [get_areas_forget, get_areas_forget, h.areas area' hsite]
 sites := by
  have hsame := h.areas area harea
  rw [MoltDomStorageSiteTotals.forget, MoltDomStorageSiteTotals.forget, ← hsame]
  cases hget : s.areas.get area with
  | none => exact h.sites
  | some it =>
   have hsite : it.site = site := (h.named area it hget).trans harea
   dsimp only
   rw [hsite, ← h.sites]
   cases hbytes : s.sites.get site with
   | none => rw [hbytes, ← h.sites, hbytes]
   | some bytes =>
    dsimp only
    split_ifs
    · rw [Table.get_erase, Table.get_erase, if_pos rfl, if_pos rfl]
    · rw [Table.get_insert, Table.get_insert, if_pos rfl, if_pos rfl]

theorem Named.counted (h : Named siteOf s) (area : Name) :
  let counted := (s.areas.get area).getD {}
  (if counted.site = default then { counted with site := siteOf area } else counted) =
   ({ site := siteOf area, bytes := s.areaBytes area } : Area Site) := by
 rw [MoltDomStorageSiteTotals.areaBytes]
 cases hget : s.areas.get area with
 | none => exact if_pos rfl
 | some it =>
  dsimp only [Option.getD_some, Option.map_some]
  rw [← h area it hget]
  split_ifs <;> rfl

theorem Named.mayGrowTo (h : Named siteOf s) (area : Name) (newBytes : UInt64) :
  s.mayGrowTo area (siteOf area) newBytes =
   let counted := s.areaBytes area
   let siteBytes := s.siteBytes (siteOf area)
   if counted < newBytes ∧ bytesPerSite < siteBytes - counted + newBytes then
    let s := s.record area { site := siteOf area, bytes := counted } siteBytes s.total
    (false, if counted = 0 then s.forget area else s)
   else
    let s := s.record area { site := siteOf area, bytes := newBytes } (siteBytes - counted + newBytes) (s.total - counted + newBytes)
    (true, if newBytes = 0 then s.forget area else s) := by
 rw [MoltDomStorageSiteTotals.mayGrowTo, h.counted]
 rfl

theorem Named.shrankTo (h : Named siteOf s) (area : Name) (newBytes : UInt64) :
  s.shrankTo area (siteOf area) newBytes =
   let siteBytes := s.siteBytes (siteOf area)
   let counted := s.areaBytes area
   match s.areas.get area with
   | none => if 0 < newBytes then s.record area { site := siteOf area, bytes := newBytes } (siteBytes + newBytes) (s.total + newBytes) else s
   | some _ =>
    if counted ≤ newBytes then s
    else
     let s := s.record area { site := siteOf area, bytes := newBytes } (siteBytes - (counted - newBytes)) (s.total - (counted - newBytes))
     if newBytes = 0 then s.forget area else s := by
 rw [MoltDomStorageSiteTotals.shrankTo, MoltDomStorageSiteTotals.areaBytes]
 cases hget : s.areas.get area with
 | none => rfl
 | some it =>
  dsimp only
  rw [h area it hget]
  rfl

theorem Alike.unwinds : Unwinds (call siteOf) (fun c : Call Name => siteOf c.area = site) (Alike siteOf site) where
 own s t c h hmine := by
  have harea : siteOf c.area = site := of_decide_eq_true hmine
  have hcounted : s.areaBytes c.area = t.areaBytes c.area := by
   rw [MoltDomStorageSiteTotals.areaBytes, MoltDomStorageSiteTotals.areaBytes, h.areas c.area harea]
  have hsite : s.siteBytes (siteOf c.area) = t.siteBytes (siteOf c.area) := by
   rw [MoltDomStorageSiteTotals.siteBytes, MoltDomStorageSiteTotals.siteBytes, harea, h.sites]
  cases c with
  | mayGrowTo area newBytes =>
   rw [Call.area] at hcounted hsite harea
   rw [call, call, h.named.mayGrowTo, h.named'.mayGrowTo, ← hcounted, ← hsite]
   dsimp only
   split_ifs
   · exact ⟨rfl, (h.record rfl _ _ _).forget harea⟩
   · exact ⟨rfl, h.record rfl _ _ _⟩
   · exact ⟨rfl, (h.record rfl _ _ _).forget harea⟩
   · exact ⟨rfl, h.record rfl _ _ _⟩
  | shrankTo area newBytes =>
   rw [Call.area] at hcounted hsite harea
   rw [call, call, h.named.shrankTo, h.named'.shrankTo, ← hcounted, ← hsite, ← h.areas area harea]
   refine ⟨rfl, ?_⟩
   cases s.areas.get area with
   | none =>
    dsimp only
    split_ifs
    · exact h.record rfl _ _ _
    · exact h
   | some it =>
    dsimp only
    split_ifs
    · exact h
    · exact (h.record rfl _ _ _).forget harea
    · exact h.record rfl _ _ _
  | forget area => exact ⟨rfl, h.forget harea⟩
 other s t c h hmine := by
  have harea : siteOf c.area ≠ site := of_decide_eq_false hmine
  cases c with
  | mayGrowTo area newBytes =>
   rw [call, h.named.mayGrowTo]
   dsimp only
   split_ifs
   · exact (h.record_other rfl harea _ _).forget_other harea
   · exact h.record_other rfl harea _ _
   · exact (h.record_other rfl harea _ _).forget_other harea
   · exact h.record_other rfl harea _ _
  | shrankTo area newBytes =>
   rw [call, h.named.shrankTo]
   dsimp only
   cases s.areas.get area with
   | none =>
    dsimp only
    split_ifs
    · exact h.record_other rfl harea _ _
    · exact h
   | some it =>
    dsimp only
    split_ifs
    · exact h
    · exact (h.record_other rfl harea _ _).forget_other harea
    · exact h.record_other rfl harea _ _
  | forget area => exact h.forget_other harea

/-! ## Exact totals -/

def held (s : MoltDomStorageSiteTotals Name Site) : ℕ := s.areas.sum fun it => it.bytes.toNat

def heldBy (s : MoltDomStorageSiteTotals Name Site) (site : Site) : ℕ := s.areas.sum fun it => if it.site = site then it.bytes.toNat else 0

/-- With the call's area at the call's bytes, what the areas hold together fits a `size_t`. -/
def Fits (s : MoltDomStorageSiteTotals Name Site) (c : Call Name) : Prop := held s - (s.areaBytes c.area).toNat + c.bytes.toNat < 2 ^ 64

variable (siteOf) in
/-- Nothing is recorded that holds nothing, and every number is the sum of what it counts. -/
structure Exact (s : MoltDomStorageSiteTotals Name Site) : Prop where
 named : Named siteOf s
 area_held : ∀ area it, s.areas.get area = some it → it.bytes ≠ 0
 site_held : ∀ site bytes, s.sites.get site = some bytes → bytes ≠ 0
 site_sum : ∀ site, (s.siteBytes site).toNat = heldBy s site
 total_areas : s.total.toNat = held s
 total_sites : s.total.toNat = s.sites.sum UInt64.toNat

/-- With an area and its site counted anew, and no record of what holds nothing. -/
def put (s : MoltDomStorageSiteTotals Name Site) (area : Name) (site : Site) (bytes : UInt64) : MoltDomStorageSiteTotals Name Site :=
 let siteBytes := s.siteBytes site - s.areaBytes area + bytes
 { areas := if bytes = 0 then s.areas.erase area else s.areas.insert area { site, bytes }
   sites := if siteBytes = 0 then s.sites.erase site else s.sites.insert site siteBytes
   total := s.total - s.areaBytes area + bytes }

theorem sum_areas_put (s : MoltDomStorageSiteTotals Name Site) (area : Name) (site : Site) (bytes : UInt64) (f : Area Site → ℕ)
  (hf : ∀ it, it.bytes = 0 → f it = 0) :
  (put s area site bytes).areas.sum f + (s.areas.get area).elim 0 f = s.areas.sum f + f { site, bytes } := by
 rw [put]
 dsimp only
 split_ifs with hbytes
 · rw [Table.sum_erase, hf _ hbytes, Nat.add_zero]
 · exact Table.sum_insert _ _ _ _

theorem sum_sites_put (s : MoltDomStorageSiteTotals Name Site) (area : Name) (site : Site) (bytes : UInt64) :
  (put s area site bytes).sites.sum UInt64.toNat + (s.siteBytes site).toNat =
   s.sites.sum UInt64.toNat + (s.siteBytes site - s.areaBytes area + bytes).toNat := by
 have hget : (s.sites.get site).elim 0 UInt64.toNat = (s.siteBytes site).toNat := by
  rw [MoltDomStorageSiteTotals.siteBytes]
  cases s.sites.get site <;> rfl
 rw [← hget, put]
 dsimp only
 split_ifs with hbytes
 · rw [Table.sum_erase, hbytes]
   rfl
 · exact Table.sum_insert _ _ _ _

theorem siteBytes_put (s : MoltDomStorageSiteTotals Name Site) (area : Name) (site : Site) (bytes : UInt64) (k : Site) :
  (put s area site bytes).siteBytes k = if k = site then s.siteBytes site - s.areaBytes area + bytes else s.siteBytes k := by
 rw [put, MoltDomStorageSiteTotals.siteBytes]
 dsimp only
 split_ifs with hbytes hk hk
 · rw [Table.get_erase, if_pos hk, hbytes]
   rfl
 · rw [Table.get_erase, if_neg hk]
   rfl
 · rw [Table.get_insert, if_pos hk]
   rfl
 · rw [Table.get_insert, if_neg hk]
   rfl

theorem toNat_recount {a b c : UInt64} (hle : b.toNat ≤ a.toNat) (hfits : a.toNat - b.toNat + c.toNat < 2 ^ 64) :
  (a - b + c).toNat = a.toNat - b.toNat + c.toNat := by
 rw [UInt64.toNat_add, UInt64.toNat_sub_of_le _ _ (UInt64.le_iff_toNat_le.mpr hle), Nat.mod_eq_of_lt hfits]

namespace Exact

theorem empty : Exact siteOf ({} : MoltDomStorageSiteTotals Name Site) where
 named _ _ h := by cases h
 area_held _ _ h := by cases h
 site_held _ _ h := by cases h
 site_sum _ := rfl
 total_areas := rfl
 total_sites := rfl

theorem areaBytes_le (h : Exact siteOf s) (area : Name) :
  (s.areaBytes area).toNat ≤ (s.siteBytes (siteOf area)).toNat ∧ (s.siteBytes (siteOf area)).toNat ≤ held s := by
 constructor
 · rw [h.site_sum, heldBy, MoltDomStorageSiteTotals.areaBytes]
   have hsum := s.areas.sum_erase (fun it => if it.site = siteOf area then it.bytes.toNat else 0) area
   cases hget : s.areas.get area with
   | none => exact Nat.zero_le _
   | some it =>
    rw [hget, Option.elim_some, if_pos (h.named area it hget)] at hsum
    exact hsum ▸ Nat.le_add_left _ _
 · rw [h.site_sum]
   apply List.sum_le_sum
   intro e _
   dsimp only
   split_ifs
   · exact le_refl _
   · exact Nat.zero_le _

theorem put (h : Exact siteOf s) {area : Name} {bytes : UInt64} (hfits : held s - (s.areaBytes area).toNat + bytes.toNat < 2 ^ 64) :
  Exact siteOf (put s area (siteOf area) bytes) ∧
   (s.siteBytes (siteOf area) - s.areaBytes area + bytes).toNat =
    (s.siteBytes (siteOf area)).toNat - (s.areaBytes area).toNat + bytes.toNat := by
 obtain ⟨harea, hsite⟩ := h.areaBytes_le area
 have hsiteBytes := toNat_recount (c := bytes) harea (by omega)
 have htotal := toNat_recount (a := s.total) (b := s.areaBytes area) (c := bytes) (by rw [h.total_areas]; omega)
  (by rw [h.total_areas]; exact hfits)
 have hget : ∀ f : Area Site → ℕ, (∀ it, it.bytes = 0 → f it = 0) →
   (s.areas.get area).elim 0 f = f { site := siteOf area, bytes := s.areaBytes area } := by
  intro f hf
  rw [MoltDomStorageSiteTotals.areaBytes]
  cases hget : s.areas.get area with
  | none => exact (hf _ rfl).symm
  | some it => rw [← h.named area it hget]; rfl
 have hall := sum_areas_put s area (siteOf area) bytes (fun it => it.bytes.toNat) (by intro it hit; rw [hit]; rfl)
 have hsites := sum_sites_put s area (siteOf area) bytes
 rw [hget _ (by intro it hit; rw [hit]; rfl)] at hall
 rw [hsiteBytes] at hsites
 dsimp only at hall
 refine ⟨⟨?_, ?_, ?_, ?_, ?_, ?_⟩, hsiteBytes⟩
 · intro area' it hit
   rw [SiteTotals.put] at hit
   dsimp only at hit
   split_ifs at hit
   · rw [Table.get_erase] at hit
     split_ifs at hit
     exact h.named area' it hit
   · rw [Table.get_insert] at hit
     split_ifs at hit with heq
     · cases hit
       rw [heq]
     · exact h.named area' it hit
 · intro area' it hit
   rw [SiteTotals.put] at hit
   dsimp only at hit
   split_ifs at hit with hbytes
   · rw [Table.get_erase] at hit
     split_ifs at hit
     exact h.area_held area' it hit
   · rw [Table.get_insert] at hit
     split_ifs at hit
     · cases hit
       exact hbytes
     · exact h.area_held area' it hit
 · intro site held hheld
   rw [SiteTotals.put] at hheld
   dsimp only at hheld
   split_ifs at hheld with hbytes
   · rw [Table.get_erase] at hheld
     split_ifs at hheld
     exact h.site_held site held hheld
   · rw [Table.get_insert] at hheld
     split_ifs at hheld
     · cases hheld
       exact hbytes
     · exact h.site_held site held hheld
 · intro site
   have hzero : ∀ it : Area Site, it.bytes = 0 → (if it.site = site then it.bytes.toNat else 0) = 0 := by
    intro it hit
    rw [hit]
    exact ite_self 0
   have hsum := sum_areas_put s area (siteOf area) bytes (fun it => if it.site = site then it.bytes.toNat else 0) hzero
   rw [hget _ hzero] at hsum
   dsimp only at hsum
   have hold : _ = s.areas.sum _ := h.site_sum site
   rw [siteBytes_put, heldBy]
   split_ifs with heq
   · rw [hsiteBytes]
     clear htotal hsiteBytes
     rw [heq] at hold hsum ⊢
     rw [if_pos rfl, if_pos rfl] at hsum
     omega
   · rw [if_neg (Ne.symm heq), if_neg (Ne.symm heq)] at hsum
     omega
 · have hnew : (SiteTotals.put s area (siteOf area) bytes).total.toNat = _ := htotal
   have htotal : s.total.toNat = s.areas.sum _ := h.total_areas
   rw [hnew, held]
   rw [held, ← htotal] at hsite
   omega
 · have hnew : (SiteTotals.put s area (siteOf area) bytes).total.toNat = _ := htotal
   have hold := h.total_sites
   rw [← h.total_areas] at hsite
   rw [hnew]
   omega

theorem record_put (area : Name) (site : Site) {bytes : UInt64} (hbytes : bytes ≠ 0)
  (hsite : s.siteBytes site - s.areaBytes area + bytes ≠ 0) :
  s.record area { site, bytes } (s.siteBytes site - s.areaBytes area + bytes) (s.total - s.areaBytes area + bytes) =
   SiteTotals.put s area site bytes := by
 rw [SiteTotals.put, if_neg hbytes, if_neg hsite]
 rfl

theorem record_forget (s : MoltDomStorageSiteTotals Name Site) (area : Name) (site : Site) (siteBytes total : UInt64) :
  (s.record area { site, bytes := 0 } siteBytes total).forget area =
   { areas := s.areas.erase area
     sites := if siteBytes = 0 then s.sites.erase site else s.sites.insert site siteBytes
     total } := by
 have harea : (s.record area { site, bytes := 0 } siteBytes total).areas.get area = some { site, bytes := 0 } :=
  (Table.get_insert _ _ _ _).trans (if_pos rfl)
 have hsite : (s.record area { site, bytes := 0 } siteBytes total).sites.get site = some siteBytes :=
  (Table.get_insert _ _ _ _).trans (if_pos rfl)
 rw [MoltDomStorageSiteTotals.forget, harea]
 dsimp only
 rw [hsite]
 dsimp only
 rw [MoltDomStorageSiteTotals.record, UInt64.sub_zero, UInt64.sub_zero, Table.erase_insert]
 dsimp only
 rw [Table.erase_insert]
 congr 1
 split_ifs
 · rfl
 · apply Table.ext_get
   intro k
   rw [Table.get_insert, Table.get_insert]
   split_ifs <;> rfl

theorem areaBytes_ne (h : Exact siteOf s) (area : Name) : s.areaBytes area = 0 ↔ s.areas.get area = none := by
 rw [MoltDomStorageSiteTotals.areaBytes]
 cases hget : s.areas.get area with
 | none => exact ⟨fun _ => rfl, fun _ => rfl⟩
 | some it => exact ⟨fun hzero => absurd hzero (h.area_held area it hget), fun hnone => by cases hnone⟩

theorem get_area (h : Exact siteOf s) {area : Name} (hne : s.areaBytes area ≠ 0) :
  s.areas.get area = some { site := siteOf area, bytes := s.areaBytes area } := by
 cases hget : s.areas.get area with
 | none => exact absurd ((h.areaBytes_ne area).mpr hget) hne
 | some it =>
  rw [MoltDomStorageSiteTotals.areaBytes, hget, ← h.named area it hget]
  rfl

theorem sites_kept (h : Exact siteOf s) (site : Site) :
  (if s.siteBytes site = 0 then s.sites.erase site else s.sites.insert site (s.siteBytes site)) = s.sites := by
 rw [MoltDomStorageSiteTotals.siteBytes]
 cases hget : s.sites.get site with
 | none => exact (if_pos rfl).trans (Table.erase_none hget)
 | some bytes => exact (if_neg (h.site_held site bytes hget)).trans (Table.insert_get hget)

theorem forget_put (h : Exact siteOf s) (area : Name) : s.forget area = SiteTotals.put s area (siteOf area) 0 := by
 rw [MoltDomStorageSiteTotals.forget, SiteTotals.put, if_pos rfl, UInt64.add_zero, UInt64.add_zero]
 cases hget : s.areas.get area with
 | none =>
  rw [(h.areaBytes_ne area).mpr hget, UInt64.sub_zero, UInt64.sub_zero, h.sites_kept, Table.erase_none hget]
 | some it =>
  have hbytes : s.areaBytes area = it.bytes := by rw [MoltDomStorageSiteTotals.areaBytes, hget]; rfl
  have hsite : s.sites.get (siteOf area) = some (s.siteBytes (siteOf area)) := by
   rw [MoltDomStorageSiteTotals.siteBytes]
   cases hnone : s.sites.get (siteOf area) with
   | some bytes => rfl
   | none =>
    -- the area's bytes are among its site's
    have hle := (h.areaBytes_le area).1
    rw [MoltDomStorageSiteTotals.siteBytes, hnone, hbytes] at hle
    exact absurd (UInt64.toNat_inj.mp (Nat.le_zero.mp hle)) (h.area_held area it hget)
  dsimp only
  rw [h.named area it hget, hsite, hbytes]

theorem put_ne (h : Exact siteOf s) {area : Name} {bytes : UInt64} (hfits : held s - (s.areaBytes area).toNat + bytes.toNat < 2 ^ 64)
  (hbytes : bytes ≠ 0) : s.siteBytes (siteOf area) - s.areaBytes area + bytes ≠ 0 := by
 intro hzero
 have hnew := (h.put hfits).2
 rw [hzero] at hnew
 have hnew' : 0 = (s.siteBytes (siteOf area)).toNat - (s.areaBytes area).toNat + bytes.toNat := hnew
 exact hbytes (UInt64.toNat_inj.mp (by omega))

/-- A granted growth counts the area anew, and a refused one leaves everything as it was. -/
theorem mayGrowTo (h : Exact siteOf s) {area : Name} {newBytes : UInt64} (hfits : held s - (s.areaBytes area).toNat + newBytes.toNat < 2 ^ 64) :
  s.mayGrowTo area (siteOf area) newBytes =
   if s.areaBytes area < newBytes ∧ bytesPerSite < s.siteBytes (siteOf area) - s.areaBytes area + newBytes then (false, s)
   else (true, SiteTotals.put s area (siteOf area) newBytes) := by
 rw [h.named.mayGrowTo]
 dsimp only
 split_ifs with hrefused hzero hnothing
 · have hgone : ({ areas := s.areas.erase area
                   sites := if s.siteBytes (siteOf area) = 0 then s.sites.erase (siteOf area)
                    else s.sites.insert (siteOf area) (s.siteBytes (siteOf area))
                   total := s.total } : MoltDomStorageSiteTotals Name Site) = s := by
    rw [h.sites_kept, Table.erase_none ((h.areaBytes_ne area).mp hzero)]
   rw [hzero, record_forget, hgone]
 · have hsite : s.siteBytes (siteOf area) ≠ 0 := by
    intro hnone
    have hle := (h.areaBytes_le area).1
    rw [hnone] at hle
    exact hzero (UInt64.toNat_inj.mp (Nat.le_zero.mp hle))
   have hsites := h.sites_kept (siteOf area)
   rw [if_neg hsite] at hsites
   rw [MoltDomStorageSiteTotals.record, Table.insert_get (h.get_area hzero)]
   dsimp only
   rw [hsites]
 · rw [hnothing, record_forget, SiteTotals.put, if_pos rfl]
 · rw [record_put _ _ hnothing (h.put_ne hfits hnothing)]

theorem shrankTo (h : Exact siteOf s) {area : Name} {newBytes : UInt64} (hfits : held s - (s.areaBytes area).toNat + newBytes.toNat < 2 ^ 64) :
  s.shrankTo area (siteOf area) newBytes = s ∨ s.shrankTo area (siteOf area) newBytes = SiteTotals.put s area (siteOf area) newBytes := by
 rw [h.named.shrankTo]
 cases hget : s.areas.get area with
 | none =>
  dsimp only
  split_ifs with hbytes
  · apply Or.inr
    have hzero := (h.areaBytes_ne area).mpr hget
    have hne : newBytes ≠ 0 := by
     rintro rfl
     exact UInt64.not_lt_zero hbytes
    rw [← record_put area (siteOf area) hne (h.put_ne hfits hne), hzero, UInt64.sub_zero, UInt64.sub_zero]
  · exact Or.inl rfl
 | some it =>
  have hless : ∀ a b c : UInt64, a - (b - c) = a - b + c := by
   intro a b c
   grind
  dsimp only
  rw [hless, hless]
  split_ifs with hle hnothing
  · exact Or.inl rfl
  · apply Or.inr
    rw [hnothing, record_forget, SiteTotals.put, if_pos rfl]
  · exact Or.inr (record_put area (siteOf area) hnothing (h.put_ne hfits hnothing))

theorem call (h : Exact siteOf s) {c : Call Name} (hfits : Fits s c) : Exact siteOf (call siteOf s c).2 := by
 have hput := (h.put hfits).1
 cases c with
 | mayGrowTo area newBytes =>
  have hgrow : s.mayGrowTo area (siteOf area) newBytes = _ := h.mayGrowTo hfits
  rw [SiteTotals.call, hgrow]
  split_ifs
  · exact h
  · exact hput
 | shrankTo area newBytes =>
  have hshrank : s.shrankTo area (siteOf area) newBytes = s ∨ s.shrankTo area (siteOf area) newBytes = _ := h.shrankTo hfits
  rw [SiteTotals.call]
  cases hshrank with
  | inl hsame => rwa [hsame]
  | inr hnew => rwa [hnew]
 | forget area =>
  rw [SiteTotals.call, h.forget_put]
  exact hput

end Exact

/-- Each site's growth is answered as if there were no others. As long as what the areas hold together fits a `size_t`, the
totals are exact, a refused growth leaves everything as it was and a granted one leaves its site within its share. -/
theorem totals_exact (siteOf : Name → Site) (calls : List (Call Name)) :
  (∀ site, (answers (call siteOf) {} calls).1.filter (fun p => siteOf p.1.area = site) =
   (answers (call siteOf) {} (calls.filter fun c => siteOf c.area = site)).1) ∧
  ((∀ before c after, calls = before ++ c :: after → Fits (answers (call siteOf) {} before).2 c) →
   let s := (answers (call siteOf) {} calls).2
   Exact siteOf s ∧ ∀ area newBytes, Fits s (.mayGrowTo area newBytes) →
    ((s.mayGrowTo area (siteOf area) newBytes).1 = false → (s.mayGrowTo area (siteOf area) newBytes).2 = s) ∧
    ((s.mayGrowTo area (siteOf area) newBytes).1 = true → s.areaBytes area < newBytes →
     (s.mayGrowTo area (siteOf area) newBytes).2.siteBytes (siteOf area) ≤ bytesPerSite)) := by
 constructor
 · intro site
   have hempty : Alike siteOf site ({} : MoltDomStorageSiteTotals Name Site) {} :=
    ⟨Exact.empty.named, Exact.empty.named, fun _ _ => rfl, rfl⟩
   exact (Alike.unwinds.answers hempty calls).1
 · intro hfits s
   have hstep : ∀ (s : MoltDomStorageSiteTotals Name Site) c, Exact siteOf s → Fits s c → Exact siteOf (call siteOf s c).2 :=
    fun _ _ hs hc => hs.call hc
   have hexact : Exact siteOf s := answers_keeps hstep Exact.empty hfits
   refine ⟨hexact, fun area newBytes hnext => ?_⟩
   have hgrow : s.mayGrowTo area (siteOf area) newBytes = _ := hexact.mayGrowTo hnext
   rw [hgrow]
   split_ifs with hrefused
   · exact ⟨fun _ => rfl, fun h => by cases h⟩
   · refine ⟨fun h => (by cases h), fun _ hgrows => ?_⟩
     dsimp only
     rw [siteBytes_put, if_pos rfl]
     exact UInt64.not_lt.mp fun hpast => hrefused ⟨hgrows, hpast⟩

theorem totals_exact_two :
  let siteOf : ℕ → ℕ := fun area => area / 10
  let calls : List (Call ℕ) := [.shrankTo 10 11000000, .mayGrowTo 20 700, .mayGrowTo 11 1, .shrankTo 10 0]
  (answers (call siteOf) {} calls).1.map Prod.snd = [none, some true, some false, none] ∧
   (answers (call siteOf) {} calls).2.total = 700 ∧ Exact siteOf (answers (call siteOf) {} calls).2 := by
 refine ⟨by decide, by decide, ((totals_exact _ _).2 ?_).1⟩
 intro before c after heq
 rw [Fits]
 rcases before with _ | ⟨c₁, _ | ⟨c₂, _ | ⟨c₃, _ | ⟨c₄, before⟩⟩⟩⟩
 · cases heq
   decide
 · cases heq
   decide
 · cases heq
   decide
 · cases heq
   decide
 · have hlength := congrArg List.length heq
   rw [List.length_append, List.length_cons, List.length_cons, List.length_cons, List.length_cons] at hlength
   simp only [List.length_cons, List.length_nil] at hlength
   omega

/-- Five areas of less than 2 ^ 62 bytes each, copied for a tab, wrap the total around. -/
theorem totals_wrap :
  let siteOf : ℕ → ℕ := fun _ => 0
  let calls : List (Call ℕ) := [0, 1, 2, 3, 4].map fun area => .shrankTo area (2 ^ 62 - 1)
  let s := (answers (call siteOf) {} calls).2
  (∀ c ∈ calls, c.bytes < 2 ^ 62) ∧ s.total.toNat ≠ held s ∧ s.total.toNat = held s - 2 ^ 64 := by
 decide +kernel

end MoltBrowser.SiteTotals
