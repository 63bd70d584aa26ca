import MoltBrowser.SortedTable
import MoltBrowser.TransitionRuns

set_option autoImplicit false

/-!
# The cookies a store holds under each nonce

Totals by nonce and by partition, and the nonces refused. A record goes once its nonce holds nothing and isn't refused.
-/
namespace MoltBrowser.NonceCookies
open SortedTable TransitionRuns List

def moltNoncePartitionMaxCookies : ℕ := 300
def moltNoncePartitionMaxCookieBytes : ℕ := 32 * 1024
def moltNonceMaxCookies : ℕ := 600
def moltNonceMaxCookieBytes : ℕ := 64 * 1024
def moltCookieMaxNameValueBytes : ℕ := 4096

structure MoltNonceCookieCounts where
 cookies : ℕ := 0
 bytes : ℕ := 0
 deriving DecidableEq

def moltNonceCookieRefused (nonceRefused : Bool) (nonce part : MoltNonceCookieCounts) (newBytes : ℕ) : Bool :=
 nonceRefused || moltNonceMaxCookies < nonce.cookies - part.cookies + 1 || moltNonceMaxCookieBytes < nonce.bytes - part.bytes + newBytes

def moltNonceCookiesOver (nonce part : MoltNonceCookieCounts) : Bool :=
 moltNoncePartitionMaxCookies < part.cookies || moltNoncePartitionMaxCookieBytes < part.bytes ||
  moltNonceMaxCookies < nonce.cookies || moltNonceMaxCookieBytes < nonce.bytes

namespace MoltNonceCookieCounts

def add (counts : MoltNonceCookieCounts) (bytes : ℕ) : MoltNonceCookieCounts :=
 { cookies := counts.cookies + 1, bytes := counts.bytes + bytes }

def subtract (counts : MoltNonceCookieCounts) (bytes : ℕ) : MoltNonceCookieCounts :=
 { cookies := counts.cookies - 1, bytes := counts.bytes - bytes }

end MoltNonceCookieCounts

structure Record (PartitionKey : Type) [LinearOrder PartitionKey] where
 counts : MoltNonceCookieCounts := {}
 partitions : Table PartitionKey MoltNonceCookieCounts := .empty
 refused : Bool := false

structure MoltNonceCookieTotals (Nonce PartitionKey : Type) [LinearOrder Nonce] [LinearOrder PartitionKey] where
 records : Table Nonce (Record PartitionKey) := .empty

variable {Nonce PartitionKey : Type} [LinearOrder Nonce] [LinearOrder PartitionKey]

def Record.partitionCounts (record : Record PartitionKey) (part : PartitionKey) : MoltNonceCookieCounts := (record.partitions.get part).getD {}

namespace MoltNonceCookieTotals

variable (t : MoltNonceCookieTotals Nonce PartitionKey) (nonce : Nonce) (part : PartitionKey)

def added (bytes : ℕ) : MoltNonceCookieTotals Nonce PartitionKey :=
 let record := (t.records.get nonce).getD {}
 { t with records := t.records.insert nonce { record with
    counts := record.counts.add bytes
    partitions := record.partitions.insert part ((record.partitionCounts part).add bytes) } }

def maybeForget (record : Record PartitionKey) : MoltNonceCookieTotals Nonce PartitionKey :=
 { t with records := if record.counts.cookies = 0 ∧ record.refused = false then t.records.erase nonce else t.records.insert nonce record }

def removed (bytes : ℕ) : MoltNonceCookieTotals Nonce PartitionKey :=
 match t.records.get nonce with
 | none => t
 | some record =>
  let partitions := match record.partitions.get part with
   | none => record.partitions
   | some counts =>
    if (counts.subtract bytes).cookies = 0 then record.partitions.erase part else record.partitions.insert part (counts.subtract bytes)
  t.maybeForget nonce { record with counts := record.counts.subtract bytes, partitions }

def setRefused (refused : Bool) : MoltNonceCookieTotals Nonce PartitionKey :=
 if refused then { t with records := t.records.insert nonce { (t.records.get nonce).getD {} with refused := true } }
 else
  match t.records.get nonce with
  | none => t
  | some record => t.maybeForget nonce { record with refused := false }

def refuses (newBytes : ℕ) : Bool :=
 match t.records.get nonce with
 | none => moltNonceCookieRefused false {} {} newBytes
 | some record => moltNonceCookieRefused record.refused record.counts (record.partitionCounts part) newBytes

def over_ : Bool :=
 match t.records.get nonce with
 | none => false
 | some record => moltNonceCookiesOver record.counts (record.partitionCounts part)

def isRefused : Bool := (t.records.get nonce).any Record.refused

def countsOf : MoltNonceCookieCounts := ((t.records.get nonce).map Record.counts).getD {}

def countsOfPartition : MoltNonceCookieCounts := ((t.records.get nonce).map fun record => record.partitionCounts part).getD {}

def partitionsOf : List PartitionKey := ((t.records.get nonce).map fun record => record.partitions.entries.map Prod.fst).getD []

end MoltNonceCookieTotals

/-! ## The store and its totals -/

structure Cookie (Nonce PartitionKey : Type) where
 nonce : Nonce
 part : PartitionKey
 bytes : ℕ
 deriving DecidableEq

/-- What the store holds and refuses, and the totals it keeps of that. -/
structure Store (Nonce PartitionKey : Type) [LinearOrder Nonce] [LinearOrder PartitionKey] where
 cookies : List (Cookie Nonce PartitionKey) := []
 refusals : List Nonce := []
 totals : MoltNonceCookieTotals Nonce PartitionKey := {}

inductive Call (Nonce PartitionKey : Type) where
 | add (cookie : Cookie Nonce PartitionKey)
 | remove (cookie : Cookie Nonce PartitionKey)
 | refuse (nonce : Nonce)
 | forget (nonce : Nonce)

namespace Store

variable (s : Store Nonce PartitionKey)

def add (cookie : Cookie Nonce PartitionKey) : Store Nonce PartitionKey :=
 { s with cookies := cookie :: s.cookies, totals := s.totals.added cookie.nonce cookie.part cookie.bytes }

def remove (cookie : Cookie Nonce PartitionKey) : Store Nonce PartitionKey :=
 if cookie ∈ s.cookies then
  { s with cookies := s.cookies.erase cookie, totals := s.totals.removed cookie.nonce cookie.part cookie.bytes }
 else s

def call : Call Nonce PartitionKey → Store Nonce PartitionKey
 | .add cookie => s.add cookie
 | .remove cookie => s.remove cookie
 | .refuse nonce => { s with refusals := nonce :: s.refusals, totals := s.totals.setRefused nonce true }
 | .forget nonce => { s with refusals := s.refusals.filter (· ≠ nonce), totals := s.totals.setRefused nonce false }

/-- The loop that takes cookies out of a partition, in the order given, while it or its nonce holds too much. -/
def collect (nonce : Nonce) (part : PartitionKey) : List (Cookie Nonce PartitionKey) → Store Nonce PartitionKey → Store Nonce PartitionKey
 | [], s => s
 | victim :: victims, s => if s.totals.over_ nonce part then collect nonce part victims (s.remove victim) else s

def held (nonce : Nonce) : List (Cookie Nonce PartitionKey) := s.cookies.filter (·.nonce = nonce)

end Store

def storeAfter (calls : List (Call Nonce PartitionKey)) : Store Nonce PartitionKey := run Store.call {} calls

def inPart (part : PartitionKey) (cookies : List (Cookie Nonce PartitionKey)) : List (Cookie Nonce PartitionKey) := cookies.filter (·.part = part)

def tally (cookies : List (Cookie Nonce PartitionKey)) : MoltNonceCookieCounts where
 cookies := cookies.length
 bytes := (cookies.map (·.bytes)).sum

/-! ## A record and the cookies it counts -/

section Records

variable {cookies : List (Cookie Nonce PartitionKey)} {cookie : Cookie Nonce PartitionKey} {refused : Bool} {record : Record PartitionKey}

omit [LinearOrder Nonce] [LinearOrder PartitionKey] in
theorem tally_cons (cookie : Cookie Nonce PartitionKey) (cookies : List (Cookie Nonce PartitionKey)) :
  tally (cookie :: cookies) = (tally cookies).add cookie.bytes := by
 simp [tally, MoltNonceCookieCounts.add, Nat.add_comm]

omit [LinearOrder Nonce] [LinearOrder PartitionKey] in
theorem tally_perm {cookies' : List (Cookie Nonce PartitionKey)} (h : cookies.Perm cookies') : tally cookies = tally cookies' := by
 rw [tally, tally, h.length_eq, (h.map _).sum_eq]

theorem tally_erase (h : cookie ∈ cookies) : tally (cookies.erase cookie) = (tally cookies).subtract cookie.bytes := by
 rw [tally_perm (perm_cons_erase h), tally_cons]
 simp [MoltNonceCookieCounts.subtract, MoltNonceCookieCounts.add]

omit [LinearOrder Nonce] in
theorem inPart_cons (part : PartitionKey) (cookie : Cookie Nonce PartitionKey) (cookies : List (Cookie Nonce PartitionKey)) :
  inPart part (cookie :: cookies) = if cookie.part = part then cookie :: inPart part cookies else inPart part cookies := by
 rw [inPart, filter_cons]
 simp only [decide_eq_true_eq]
 rfl

omit [LinearOrder Nonce] in
theorem inPart_perm {cookies' : List (Cookie Nonce PartitionKey)} (h : cookies.Perm cookies') (part : PartitionKey) :
  (inPart part cookies).Perm (inPart part cookies') := h.filter _

theorem inPart_erase (h : cookie ∈ cookies) (part : PartitionKey) :
  tally (inPart part (cookies.erase cookie)) =
   if cookie.part = part then (tally (inPart part cookies)).subtract cookie.bytes else tally (inPart part cookies) := by
 have hperm := inPart_perm (perm_cons_erase h) part
 rw [tally_perm hperm, inPart_cons]
 split_ifs with hpart
 · rw [tally_cons]
   simp [MoltNonceCookieCounts.subtract, MoltNonceCookieCounts.add]
 · rfl

/-- The record counts these cookies, in all and in each partition. -/
structure Exact (cookies : List (Cookie Nonce PartitionKey)) (refused : Bool) (record : Record PartitionKey) : Prop where
 counts : record.counts = tally cookies
 parts : ∀ part, record.partitions.get part = if inPart part cookies = [] then none else some (tally (inPart part cookies))
 refused : record.refused = refused

omit [LinearOrder Nonce] in
theorem exact_nil : Exact ([] : List (Cookie Nonce PartitionKey)) false {} := ⟨rfl, fun _ => rfl, rfl⟩

omit [LinearOrder Nonce] in
theorem Exact.partitionCounts (h : Exact cookies refused record) (part : PartitionKey) :
  record.partitionCounts part = tally (inPart part cookies) := by
 rw [Record.partitionCounts, h.parts]
 split_ifs with hnil
 · rw [hnil]
   rfl
 · rfl

omit [LinearOrder Nonce] in
theorem sum_partitions {f : MoltNonceCookieCounts → ℕ} {weigh : Cookie Nonce PartitionKey → ℕ}
  (hf : ∀ cookies : List (Cookie Nonce PartitionKey), f (tally cookies) = (cookies.map weigh).sum) (t : Table PartitionKey MoltNonceCookieCounts)
  (cookies : List (Cookie Nonce PartitionKey))
  (h : ∀ part, t.get part = if inPart part cookies = [] then none else some (tally (inPart part cookies))) : t.sum f = (cookies.map weigh).sum := by
 induction cookies generalizing t with
 | nil =>
  have hempty : t = .empty := Table.ext_get fun part => (h part).trans rfl
  rw [hempty]
  rfl
 | cons cookie cookies ih =>
  rw [map_cons, sum_cons]
  have hown : t.get cookie.part = some (tally (cookie :: inPart cookie.part cookies)) := by
   rw [h, inPart_cons, if_pos rfl, if_neg (cons_ne_nil _ _)]
  have hother : ∀ part, part ≠ cookie.part → t.get part = if inPart part cookies = [] then none else some (tally (inPart part cookies)) := by
   intro part hne
   rw [h, inPart_cons, if_neg (Ne.symm hne)]
  by_cases hnil : inPart cookie.part cookies = []
  · have hrest := ih (t.erase cookie.part) fun part => by
     rw [Table.get_erase]
     split_ifs with heq hpart hpart
     · rfl
     · rw [heq] at hpart
       exact absurd hnil hpart
     · rw [hother part heq, if_pos hpart]
     · rw [hother part heq, if_neg hpart]
    have hsum := t.sum_erase f cookie.part
    rw [hown, Option.elim_some, hf, hnil, hrest] at hsum
    simp only [map_cons, map_nil, sum_cons, sum_nil] at hsum
    omega
  · have hrest := ih (t.insert cookie.part (tally (inPart cookie.part cookies))) fun part => by
     rw [Table.get_insert]
     split_ifs with heq hpart hpart
     · rw [heq] at hpart
       exact absurd hpart hnil
     · rw [heq]
     · rw [hother part heq, if_pos hpart]
     · rw [hother part heq, if_neg hpart]
    have hsum := t.sum_insert f cookie.part (tally (inPart cookie.part cookies))
    rw [hown, Option.elim_some, hf, hf, hrest, map_cons, sum_cons] at hsum
    omega

omit [LinearOrder Nonce] in
theorem Exact.sums (h : Exact cookies refused record) :
  record.counts.cookies = record.partitions.sum (·.cookies) ∧ record.counts.bytes = record.partitions.sum (·.bytes) := by
 have hcookies : record.partitions.sum (·.cookies) = (cookies.map fun _ => 1).sum :=
  sum_partitions (fun l => by simp [tally]) record.partitions cookies h.parts
 have hbytes : record.partitions.sum (·.bytes) = (cookies.map (·.bytes)).sum :=
  sum_partitions (fun _ => rfl) record.partitions cookies h.parts
 rw [h.counts, hcookies, hbytes]
 exact ⟨by simp [tally], rfl⟩

omit [LinearOrder Nonce] in
theorem Exact.add (h : Exact cookies refused record) (cookie : Cookie Nonce PartitionKey) :
  Exact (cookie :: cookies) refused { record with
   counts := record.counts.add cookie.bytes
   partitions := record.partitions.insert cookie.part ((record.partitionCounts cookie.part).add cookie.bytes) } where
 counts := by rw [tally_cons, h.counts]
 parts part := by
  dsimp only
  rw [Table.get_insert, h.partitionCounts, inPart_cons]
  by_cases hpart : part = cookie.part
  · rw [if_pos hpart, if_pos hpart.symm, if_neg (cons_ne_nil _ _), tally_cons, hpart]
  · rw [if_neg hpart, if_neg (Ne.symm hpart), h.parts]
 refused := h.refused

theorem Exact.remove (h : Exact cookies refused record) (hcookie : cookie ∈ cookies) :
  Exact (cookies.erase cookie) refused { record with
   counts := record.counts.subtract cookie.bytes
   partitions := match record.partitions.get cookie.part with
    | none => record.partitions
    | some counts =>
     if (counts.subtract cookie.bytes).cookies = 0 then record.partitions.erase cookie.part
     else record.partitions.insert cookie.part (counts.subtract cookie.bytes) } where
 counts := by rw [tally_erase hcookie, h.counts]
 parts part := by
  have hheld : inPart cookie.part cookies ≠ [] := ne_nil_of_mem (mem_filter.mpr ⟨hcookie, decide_eq_true rfl⟩)
  have hleft := inPart_erase hcookie part
  have hempty : ∀ l : List (Cookie Nonce PartitionKey), (tally l).cookies = 0 ↔ l = [] := fun l => length_eq_zero_iff
  dsimp only
  rw [h.parts cookie.part, if_neg hheld]
  dsimp only
  by_cases hpart : part = cookie.part
  · rw [hpart, if_pos rfl] at hleft
    rw [hpart, ← hleft]
    simp only [hempty]
    split_ifs with hnil
    · rw [Table.get_erase, if_pos rfl]
    · rw [Table.get_insert, if_pos rfl]
  · rw [if_neg (Ne.symm hpart)] at hleft
    have hsame : inPart part (cookies.erase cookie) = [] ↔ inPart part cookies = [] := by rw [← hempty, ← hempty, hleft]
    rw [hleft]
    simp only [hsame]
    rw [← h.parts part]
    split_ifs
    · rw [Table.get_erase, if_neg hpart]
    · rw [Table.get_insert, if_neg hpart]
 refused := h.refused

end Records

/-! ## The totals and the store -/

/-- Each nonce's record counts what the store holds under it, and is there just while that is something or the nonce is refused. -/
structure Agrees (s : Store Nonce PartitionKey) : Prop where
 exact_ : ∀ nonce, Exact (s.held nonce) (decide (nonce ∈ s.refusals)) ((s.totals.records.get nonce).getD {})
 recorded : ∀ nonce, (s.totals.records.get nonce).isSome = true ↔ s.held nonce ≠ [] ∨ nonce ∈ s.refusals

section States

variable {s : Store Nonce PartitionKey} {cookie : Cookie Nonce PartitionKey}

theorem held_cons (cookie : Cookie Nonce PartitionKey) (nonce : Nonce) :
  (cookie :: s.cookies).filter (fun c => decide (c.nonce = nonce)) = if cookie.nonce = nonce then cookie :: s.held nonce else s.held nonce := by
 rw [filter_cons]
 simp only [decide_eq_true_eq]
 rfl

/-- The record that is kept of a nonce counts what it should, and none is kept of nothing. -/
theorem agrees_maybeForget {cookies : List (Cookie Nonce PartitionKey)} {refused : Bool} {record : Record PartitionKey}
  (h : Exact cookies refused record) (t : MoltNonceCookieTotals Nonce PartitionKey) (nonce n : Nonce) :
  (t.maybeForget nonce record).records.get n =
   if n = nonce then if cookies = [] ∧ refused = false then none else some record else t.records.get n := by
 have hempty : record.counts.cookies = 0 ↔ cookies = [] := by
  rw [h.counts]
  exact length_eq_zero_iff
 rw [MoltNonceCookieTotals.maybeForget, h.refused]
 simp only [hempty]
 split_ifs with hforgotten hn hn
 · rw [Table.get_erase, if_pos hn]
 · rw [Table.get_erase, if_neg hn]
 · rw [Table.get_insert, if_pos hn]
 · rw [Table.get_insert, if_neg hn]

theorem Agrees.set (h : Agrees s) {s' : Store Nonce PartitionKey} {nonce : Nonce} {record : Record PartitionKey}
  (hexact : Exact (s'.held nonce) (decide (nonce ∈ s'.refusals)) record)
  (hget : s'.totals.records.get nonce = if s'.held nonce = [] ∧ decide (nonce ∈ s'.refusals) = false then none else some record)
  (hheld : ∀ n ≠ nonce, s'.held n = s.held n) (hrefusals : ∀ n ≠ nonce, n ∈ s'.refusals ↔ n ∈ s.refusals)
  (hothers : ∀ n ≠ nonce, s'.totals.records.get n = s.totals.records.get n) : Agrees s' where
 exact_ n := by
  by_cases hn : n = nonce
  · subst hn
    rw [hget]
    split_ifs with hnone
    · rw [hnone.1, hnone.2]
      exact exact_nil
    · exact hexact
  · have hsame := h.exact_ n
    simp only [← hrefusals n hn] at hsame
    rwa [hothers n hn, hheld n hn]
 recorded n := by
  by_cases hn : n = nonce
  · subst hn
    rw [hget]
    split_ifs with hnone
    · simpa using hnone
    · simpa [or_iff_not_imp_left] using hnone
  · rw [hothers n hn, hheld n hn, hrefusals n hn]
    exact h.recorded n

theorem Agrees.add (h : Agrees s) (cookie : Cookie Nonce PartitionKey) : Agrees (s.add cookie) := by
 have hown : (s.add cookie).held cookie.nonce = cookie :: s.held cookie.nonce := (held_cons cookie cookie.nonce).trans (if_pos rfl)
 have hexact := (h.exact_ cookie.nonce).add cookie
 rw [← hown] at hexact
 refine h.set hexact ?_ (fun n hn => (held_cons cookie n).trans (if_neg (Ne.symm hn))) (fun _ _ => Iff.rfl) (fun n hn => ?_)
 · rw [hown, if_neg (by simp)]
   exact (Table.get_insert _ _ _ _).trans (if_pos rfl)
 · exact (Table.get_insert _ _ _ _).trans (if_neg hn)

theorem held_remove (hcookie : cookie ∈ s.cookies) (nonce : Nonce) :
  (s.remove cookie).held nonce = if nonce = cookie.nonce then (s.held nonce).erase cookie else s.held nonce := by
 rw [Store.remove, if_pos hcookie, Store.held, ← erase_filter, ← Store.held]
 split_ifs with hnonce
 · rfl
 · exact erase_of_not_mem fun hmem => hnonce (of_decide_eq_true (mem_filter.mp hmem).2).symm

theorem Agrees.remove (h : Agrees s) (cookie : Cookie Nonce PartitionKey) : Agrees (s.remove cookie) := by
 by_cases hcookie : cookie ∈ s.cookies
 · have hmem : cookie ∈ s.held cookie.nonce := mem_filter.mpr ⟨hcookie, decide_eq_true rfl⟩
   obtain ⟨record, hrecord⟩ := Option.isSome_iff_exists.mp ((h.recorded cookie.nonce).mpr (.inl (ne_nil_of_mem hmem)))
   have hexact := h.exact_ cookie.nonce
   rw [hrecord, Option.getD_some] at hexact
   have hgone := hexact.remove hmem
   have hheld := held_remove hcookie cookie.nonce
   rw [if_pos rfl] at hheld
   have hget := agrees_maybeForget hgone s.totals cookie.nonce
   rw [← hheld] at hgone hget
   have htotals : (s.remove cookie).totals = s.totals.removed cookie.nonce cookie.part cookie.bytes := by rw [Store.remove, if_pos hcookie]
   have hrefusals : (s.remove cookie).refusals = s.refusals := by rw [Store.remove, if_pos hcookie]
   rw [MoltNonceCookieTotals.removed, hrecord] at htotals
   rw [← hrefusals] at hgone hget
   refine h.set hgone ?_ (fun n hn => (held_remove hcookie n).trans (if_neg hn)) (fun _ _ => by rw [hrefusals]) (fun n hn => ?_)
   · rw [htotals]
     exact (hget cookie.nonce).trans (if_pos rfl)
   · rw [htotals]
     exact (hget n).trans (if_neg hn)
 · rw [Store.remove, if_neg hcookie]
   exact h

omit [LinearOrder Nonce] in
theorem Exact.setRefused {cookies : List (Cookie Nonce PartitionKey)} {refused : Bool} {record : Record PartitionKey}
  (h : Exact cookies refused record) (now : Bool) : Exact cookies now { record with refused := now } := ⟨h.counts, h.parts, rfl⟩

theorem Agrees.refuse (h : Agrees s) (nonce : Nonce) : Agrees (s.call (.refuse nonce)) := by
 have hrefused : nonce ∈ (s.call (.refuse nonce)).refusals := mem_cons_self
 have hexact := (h.exact_ nonce).setRefused true
 rw [← decide_eq_true hrefused] at hexact
 refine h.set hexact ?_ (fun _ _ => rfl) (fun n hn => ?_) (fun n hn => ?_)
 · rw [decide_eq_true hrefused, if_neg (by simp)]
   exact (Table.get_insert _ _ _ _).trans (if_pos rfl)
 · exact mem_cons.trans (or_iff_right hn)
 · exact (Table.get_insert _ _ _ _).trans (if_neg hn)

theorem Agrees.forget (h : Agrees s) (nonce : Nonce) : Agrees (s.call (.forget nonce)) := by
 cases hrecord : s.totals.records.get nonce with
 | none =>
  have hnothing : nonce ∉ s.refusals := fun hmem => by
   have hsome := (h.recorded nonce).mpr (.inr hmem)
   rw [hrecord] at hsome
   exact absurd hsome (by simp)
  have hrefusals : s.refusals.filter (· ≠ nonce) = s.refusals :=
   filter_eq_self.mpr fun n hn => decide_eq_true (ne_of_mem_of_not_mem hn hnothing)
  have hsame : s.call (.forget nonce) = s := by
   rw [Store.call, MoltNonceCookieTotals.setRefused, hrecord, hrefusals]
   rfl
  rw [hsame]
  exact h
 | some record =>
  have hrefused : nonce ∉ (s.call (.forget nonce)).refusals := fun hmem => by simpa using (mem_filter.mp hmem).2
  have hexact := (h.exact_ nonce).setRefused false
  rw [hrecord, Option.getD_some, ← decide_eq_false hrefused] at hexact
  have htotals : (s.call (.forget nonce)).totals = s.totals.maybeForget nonce { record with refused := false } := by
   rw [Store.call, MoltNonceCookieTotals.setRefused, hrecord]
   rfl
  have hget := agrees_maybeForget hexact s.totals nonce
  rw [decide_eq_false hrefused, ← htotals] at hget
  refine h.set hexact ?_ (fun _ _ => rfl) (fun n hn => by simp [Store.call, hn]) (fun n hn => (hget n).trans (if_neg hn))
  rw [decide_eq_false hrefused]
  exact (hget nonce).trans (if_pos rfl)

theorem Agrees.call (h : Agrees s) (c : Call Nonce PartitionKey) : Agrees (s.call c) := by
 cases c with
 | add cookie => exact h.add cookie
 | remove cookie => exact h.remove cookie
 | refuse nonce => exact h.refuse nonce
 | forget nonce => exact h.forget nonce

theorem agrees_storeAfter (calls : List (Call Nonce PartitionKey)) : Agrees (storeAfter calls) :=
 run_invariant_unconditional (fun _ c h => h.call c) ⟨fun _ => exact_nil, fun _ => by simp [Store.held, Table.get, Table.empty]⟩ calls

end States

/-! ## Making room for a new cookie -/

section Room

variable {s : Store Nonce PartitionKey} {nonce : Nonce} {part : PartitionKey}

theorem not_over_iff (nonce part : MoltNonceCookieCounts) : moltNonceCookiesOver nonce part = false ↔
  part.cookies ≤ moltNoncePartitionMaxCookies ∧ part.bytes ≤ moltNoncePartitionMaxCookieBytes ∧
   nonce.cookies ≤ moltNonceMaxCookies ∧ nonce.bytes ≤ moltNonceMaxCookieBytes := by
 simp [moltNonceCookiesOver, and_assoc]

theorem Agrees.over_eq (h : Agrees s) (nonce : Nonce) (part : PartitionKey) :
  s.totals.over_ nonce part = moltNonceCookiesOver (tally (s.held nonce)) (tally (inPart part (s.held nonce))) := by
 have hexact := h.exact_ nonce
 rw [MoltNonceCookieTotals.over_, ← hexact.counts, ← hexact.partitionCounts]
 cases s.totals.records.get nonce <;> rfl

theorem Agrees.refuses_eq (h : Agrees s) (nonce : Nonce) (part : PartitionKey) (newBytes : ℕ) : s.totals.refuses nonce part newBytes =
  moltNonceCookieRefused (decide (nonce ∈ s.refusals)) (tally (s.held nonce)) (tally (inPart part (s.held nonce))) newBytes := by
 have hexact := h.exact_ nonce
 rw [MoltNonceCookieTotals.refuses, ← hexact.counts, ← hexact.partitionCounts, ← hexact.refused]
 cases s.totals.records.get nonce <;> rfl

omit [LinearOrder Nonce] in
theorem tally_split (part : PartitionKey) (cookies : List (Cookie Nonce PartitionKey)) :
  (tally cookies).cookies = (tally (inPart part cookies)).cookies + (tally (cookies.filter (·.part ≠ part))).cookies ∧
  (tally cookies).bytes = (tally (inPart part cookies)).bytes + (tally (cookies.filter (·.part ≠ part))).bytes := by
 have hperm : (inPart part cookies ++ cookies.filter (·.part ≠ part)).Perm cookies := by
  have hnot : cookies.filter (·.part ≠ part) = cookies.filter fun c => !decide (c.part = part) := by simp only [ne_eq, decide_not]
  rw [hnot]
  exact filter_append_perm _ _
 rw [← tally_perm hperm]
 simp [tally]

/-- The new cookie of the partition fits beside what the nonce's other partitions hold. -/
structure Fits (cookie : Cookie Nonce PartitionKey) (others : List (Cookie Nonce PartitionKey)) : Prop where
 small : cookie.bytes ≤ moltCookieMaxNameValueBytes
 outside : ∀ c ∈ others, ¬(c.nonce = cookie.nonce ∧ c.part = cookie.part)
 cookies : (tally (others.filter (·.nonce = cookie.nonce))).cookies + 1 ≤ moltNonceMaxCookies
 bytes : (tally (others.filter (·.nonce = cookie.nonce))).bytes + cookie.bytes ≤ moltNonceMaxCookieBytes

variable {cookie : Cookie Nonce PartitionKey} {others : List (Cookie Nonce PartitionKey)}

theorem Fits.not_over (h : Fits cookie others) (hagrees : Agrees s) (hcookies : s.cookies.Perm (cookie :: others)) :
  s.totals.over_ cookie.nonce cookie.part = false := by
 have hheld : (s.held cookie.nonce).Perm (cookie :: others.filter (·.nonce = cookie.nonce)) := by
  refine (hcookies.filter _).trans ?_
  rw [filter_cons_of_pos (by simp)]
 have hpart : inPart cookie.part (cookie :: others.filter (·.nonce = cookie.nonce)) = [cookie] := by
  rw [inPart_cons, if_pos rfl, inPart, filter_filter]
  refine congrArg (cookie :: ·) (filter_eq_nil_iff.mpr fun c hc hboth => h.outside c hc ?_)
  rw [Bool.and_eq_true, decide_eq_true_eq, decide_eq_true_eq] at hboth
  exact ⟨hboth.2, hboth.1⟩
 have hone : tally [cookie] = { cookies := 1, bytes := cookie.bytes } := by simp [tally]
 have hsmall : cookie.bytes ≤ 4096 := h.small
 rw [hagrees.over_eq, tally_perm (inPart_perm hheld cookie.part), hpart, hone, tally_perm hheld, tally_cons, not_over_iff]
 exact ⟨by simp [moltNoncePartitionMaxCookies], hsmall.trans (by simp [moltNoncePartitionMaxCookieBytes]), h.cookies, h.bytes⟩

/-- However its partition's other cookies are taken, the loop stops with the new cookie kept, having taken only of them. -/
theorem Fits.collect (h : Fits cookie others) (victims : List (Cookie Nonce PartitionKey)) (hagrees : Agrees s)
  (hcookies : s.cookies.Perm (cookie :: (victims ++ others))) :
  (s.collect cookie.nonce cookie.part victims).totals.over_ cookie.nonce cookie.part = false ∧
  Agrees (s.collect cookie.nonce cookie.part victims) ∧
  ∃ kept, kept <:+ victims ∧ (s.collect cookie.nonce cookie.part victims).cookies.Perm (cookie :: (kept ++ others)) := by
 induction victims generalizing s with
 | nil => exact ⟨h.not_over hagrees hcookies, hagrees, [], suffix_rfl, hcookies⟩
 | cons victim victims ih =>
  rw [Store.collect]
  split_ifs with hover
  · have hheld : victim ∈ s.cookies := hcookies.mem_iff.mpr (by simp)
    have hleft : (s.remove victim).cookies.Perm (cookie :: (victims ++ others)) := by
     rw [Store.remove, if_pos hheld]
     have herased := (hcookies.trans (List.Perm.swap victim cookie (victims ++ others))).erase victim
     rwa [erase_cons_head] at herased
    obtain ⟨hends, hagrees, kept, hkept, hperm⟩ := ih (hagrees.remove victim) hleft
    exact ⟨hends, hagrees, kept, hkept.trans (suffix_cons victim victims), hperm⟩
  · exact ⟨Bool.eq_false_of_not_eq_true hover, hagrees, victim :: victims, suffix_rfl, hcookies⟩

def elsewhere (s : Store Nonce PartitionKey) (nonce : Nonce) (part : PartitionKey) : List (Cookie Nonce PartitionKey) :=
 s.cookies.filter fun c => !decide (c.nonce = nonce ∧ c.part = part)

theorem inPart_held (s : Store Nonce PartitionKey) (nonce : Nonce) (part : PartitionKey) :
  inPart part (s.held nonce) = s.cookies.filter fun c => decide (c.nonce = nonce ∧ c.part = part) := by
 rw [inPart, Store.held, filter_filter]
 simp only [Bool.decide_and, Bool.and_comm]

theorem Agrees.fits (h : Agrees s) (hsmall : cookie.bytes ≤ moltCookieMaxNameValueBytes)
  (hrefuses : s.totals.refuses cookie.nonce cookie.part cookie.bytes = false) : Fits cookie (elsewhere s cookie.nonce cookie.part) := by
 have hheld : (elsewhere s cookie.nonce cookie.part).filter (·.nonce = cookie.nonce) =
   (s.held cookie.nonce).filter (·.part ≠ cookie.part) := by
  rw [elsewhere, Store.held, filter_filter, filter_filter]
  refine filter_congr fun c _ => ?_
  by_cases hnonce : c.nonce = cookie.nonce
  · simp [hnonce]
  · simp [hnonce]
 obtain ⟨hcookies, hbytes⟩ := tally_split cookie.part (s.held cookie.nonce)
 rw [h.refuses_eq, moltNonceCookieRefused] at hrefuses
 simp only [Bool.or_eq_false_iff, decide_eq_false_iff_not] at hrefuses
 refine ⟨hsmall, fun c hc hboth => ?_, ?_, ?_⟩
 · have hout := (mem_filter.mp hc).2
   rw [decide_eq_true hboth] at hout
   exact absurd hout (by decide)
 · rw [hheld]
   omega
 · rw [hheld]
   omega

end Room

/-- Over every run the totals are exact and a record is kept just of what is held or refused; and a new cookie that is not refused always finds
room by other cookies of its own partition alone. -/
theorem nonceTotals_exact (calls : List (Call Nonce PartitionKey)) :
  let s := storeAfter calls
  (∀ nonce, (∀ record ∈ s.totals.records.get nonce,
    record.counts.cookies = record.partitions.sum (·.cookies) ∧ record.counts.bytes = record.partitions.sum (·.bytes)) ∧
   s.totals.countsOf nonce = tally (s.held nonce) ∧ (∀ part, s.totals.countsOfPartition nonce part = tally (inPart part (s.held nonce))) ∧
   ((s.totals.records.get nonce).isSome = true ↔ s.held nonce ≠ [] ∨ nonce ∈ s.refusals)) ∧
  ∀ cookie victims, cookie.bytes ≤ 4096 → s.totals.refuses cookie.nonce cookie.part cookie.bytes = false →
   victims.Perm (inPart cookie.part (s.held cookie.nonce)) →
   let s' := (s.add cookie).collect cookie.nonce cookie.part victims
   s'.totals.over_ cookie.nonce cookie.part = false ∧ cookie ∈ s'.cookies ∧
    (∃ kept, kept <:+ victims ∧ s'.cookies.Perm (cookie :: (kept ++ elsewhere s cookie.nonce cookie.part))) ∧
    (tally (inPart cookie.part (s'.held cookie.nonce))).cookies ≤ moltNoncePartitionMaxCookies ∧
    (tally (inPart cookie.part (s'.held cookie.nonce))).bytes ≤ moltNoncePartitionMaxCookieBytes ∧
    (tally (s'.held cookie.nonce)).cookies ≤ moltNonceMaxCookies ∧ (tally (s'.held cookie.nonce)).bytes ≤ moltNonceMaxCookieBytes := by
 have h := agrees_storeAfter calls
 refine ⟨fun nonce => ⟨fun record hrecord => ?_, ?_, fun part => ?_, h.recorded nonce⟩, fun cookie victims hsmall hrefuses hvictims => ?_⟩
 · have hexact := h.exact_ nonce
   rw [Option.mem_def.mp hrecord, Option.getD_some] at hexact
   exact hexact.sums
 · rw [← (h.exact_ nonce).counts, MoltNonceCookieTotals.countsOf]
   cases (storeAfter calls).totals.records.get nonce <;> rfl
 · rw [← (h.exact_ nonce).partitionCounts, MoltNonceCookieTotals.countsOfPartition]
   cases (storeAfter calls).totals.records.get nonce <;> rfl
 · have hcookies : ((storeAfter calls).add cookie).cookies.Perm (cookie :: (victims ++ elsewhere (storeAfter calls) cookie.nonce cookie.part)) := by
    refine List.Perm.cons cookie (((hvictims.append_right _).trans ?_).symm)
    rw [inPart_held]
    exact List.filter_append_perm _ _
   obtain ⟨hends, hagrees, kept, hkept, hperm⟩ := (h.fits hsmall hrefuses).collect victims (h.add cookie) hcookies
   refine ⟨hends, hperm.mem_iff.mpr List.mem_cons_self, ⟨kept, hkept, hperm⟩, ?_⟩
   rw [hagrees.over_eq, not_over_iff] at hends
   exact hends

end MoltBrowser.NonceCookies
