import MoltBrowser.FilterPreprocess
import MoltBrowser.TextReaders
import Mathlib.Data.Finset.Insert

set_option autoImplicit false

/-! # `$removeparam` support around adblock-rust -/
namespace MoltBrowser.RemoveParam
open FilterLists List

structure ListScan where
 genericParams : Finset Text := ∅
 exceptionFilters : List Text := []
 toFilters : List Text := []

/-! ## Options -/

def removeparamMark : Text := ['r', 'e', 'm', 'o', 'v', 'e', 'p', 'a', 'r', 'a', 'm']
def toMark : Text := ['t', 'o', '=']

def isAsciiAlphanumeric (c : Char) : Bool :=
 ('a' ≤ c && c ≤ 'z') || ('A' ≤ c && c ≤ 'Z') || ('0' ≤ c && c ≤ '9')

def isValidParamName (name : Text) : Bool :=
 !name.isEmpty && name.all fun c => isAsciiAlphanumeric c || c == '_' || c == '-'

def isRemoveparamOption (opt : Text) : Bool := opt == removeparamMark || (removeparamMark ++ ['=']).isPrefixOf opt

def typeOptions : List String :=
 ["document", "doc", "subdocument", "frame", "xmlhttprequest", "xhr", "script", "image", "stylesheet", "css", "object",
  "object-subrequest", "ping", "beacon", "websocket", "font", "media", "other", "all"]

def isTypeOption (opt : Text) : Bool := (typeOptions.map String.toList).contains (opt.dropWhile (· == '~'))

/-- At the last `$`. -/
def splitOptions (line : Text) : Option (Text × Text) :=
 let options := (line.reverse.takeWhile (· != '$')).reverse
 if '$' ∈ line then some (line.take (line.length - options.length - 1), options) else none

/-- A hostname that can stand in a `||host^` pattern. -/
def isPlainDomain (domain : Text) : Bool :=
 !domain.isEmpty && domain.head? != some '.' && domain.getLast? != some '.' && domain.contains '.' &&
  domain.all fun c => isAsciiAlphanumeric c || c == '.' || c == '-'

def join (opts : List Text) : Text := [','].intercalate opts

/-- `||domain^$options` -/
def hostFilter (domain options : Text) : Text := ['|', '|'] ++ domain ++ ['^', '$'] ++ options

/-! ## Scanning a list -/

/-- The types that adblock-rust gives `$removeparam` when the options name none. -/
def defaultTypes : List Text := ["document".toList, "subdocument".toList, "xmlhttprequest".toList]

def scanException (scan : ListScan) (pattern : Text) (opts : List Text) : ListScan :=
 let rest := opts.filter fun o => !isRemoveparamOption o
 let rest := if rest.any isTypeOption then rest else rest ++ defaultTypes
 { scan with exceptionFilters := scan.exceptionFilters ++ [pattern ++ '$' :: join rest] }

def scanTo (scan : ListScan) (hosts : Text) (opts : List Text) : ListScan :=
 let rest := opts.filter fun o => !toMark.isPrefixOf o
 { scan with toFilters := scan.toFilters ++ ((hosts.splitOn '|').filter isPlainDomain).map fun domain => hostFilter domain (join rest) }

def scanGeneric (scan : ListScan) (opts : List Text) : ListScan :=
 match opts with
 | [opt] =>
  match stripPrefix (removeparamMark ++ ['=']) opt with
  | some name => if isValidParamName name then { scan with genericParams := insert name scan.genericParams } else scan
  | none => scan
 | opts =>
  match opts.findSome? (stripPrefix toMark) with
  | some hosts => scanTo scan hosts opts
  | none => scan

def IsGeneric (pattern : Text) : Prop := pattern = [] ∨ pattern = ['*']

instance (pattern : Text) : Decidable (IsGeneric pattern) := inferInstanceAs (Decidable (_ ∨ _))

def scanFilter (scan : ListScan) (pattern : Text) (opts : List Text) : ListScan :=
 match stripPrefix ['@', '@'] pattern with
 | some exceptionPattern => scanException scan exceptionPattern opts
 | none => if IsGeneric pattern then scanGeneric scan opts else scan

/-- The pattern and the options of a network filter that removes parameters. -/
def readFilter (raw : Text) : Option (Text × List Text) :=
 if ¬ removeparamMark <:+: raw then none
 else if (trim raw).head? = some '!' ∨ ['#', '#'] <:+: trim raw ∨ ['#', '@', '#'] <:+: trim raw then none
 else
  match splitOptions (trim raw) with
  | some (pattern, options) =>
   let opts := (options.splitOn ',').map trim
   if opts.any isRemoveparamOption then some (pattern, opts) else none
  | none => none

def scanLine (scan : ListScan) (raw : Text) : ListScan :=
 match readFilter raw with
 | some (pattern, opts) => scanFilter scan pattern opts
 | none => scan

def scanList (text : Text) : ListScan := (lines text).foldl scanLine {}

/-! ## What a `to=` option is expanded to -/

def expansion (raw : Text) : List Text := (scanLine {} raw).toFilters

/-- What each `to=` option lists. -/
def listedHosts (opts : List Text) : List Text := opts.filterMap (stripPrefix toMark)

/-- The plain hosts that the first `to=` option includes. -/
def includedHosts (opts : List Text) : List Text :=
 match opts.findSome? (stripPrefix toMark) with
 | some hosts => (hosts.splitOn '|').filter isPlainDomain
 | none => []

def excludedHosts (opts : List Text) : List Text :=
 ((listedHosts opts).flatMap (·.splitOn '|')).filterMap (stripPrefix ['~'])

def otherOptions (opts : List Text) : Text := join (opts.filter fun o => !toMark.isPrefixOf o)

theorem not_to_of_removeparam {opt : Text} (h : isRemoveparamOption opt = true) : stripPrefix toMark opt = none := by
 rw [stripPrefix_none]
 rintro ⟨hosts, rfl⟩
 rw [isRemoveparamOption, Bool.or_eq_true, beq_iff_eq, isPrefixOf_iff_prefix] at h
 cases h with
 | inl heq => exact absurd (List.cons.inj heq).1 (by decide)
 | inr hpre => exact absurd (cons_prefix_cons.mp hpre).1 (by decide)

theorem scanGeneric_toFilters (scan : ListScan) {opts : List Text} (hremoves : opts.any isRemoveparamOption = true) :
  (scanGeneric scan opts).toFilters =
   scan.toFilters ++ (includedHosts opts).map fun domain => hostFilter domain (otherOptions opts) := by
 have hseveral : (match opts.findSome? (stripPrefix toMark) with
   | some hosts => scanTo scan hosts opts
   | none => scan).toFilters = scan.toFilters ++ (includedHosts opts).map fun domain => hostFilter domain (otherOptions opts) := by
  rw [includedHosts]
  cases opts.findSome? (stripPrefix toMark) with
  | some hosts => rfl
  | none => exact (append_nil _).symm
 match opts with
 | [] => exact hseveral
 | _ :: _ :: _ => exact hseveral
 | [opt] =>
  rw [any_cons, any_nil, Bool.or_false] at hremoves
  have hnone : includedHosts [opt] = [] := by
   rw [includedHosts, findSome?_cons, not_to_of_removeparam hremoves]
   rfl
  rw [hnone, map_nil, append_nil, scanGeneric]
  cases stripPrefix (removeparamMark ++ ['=']) opt with
  | none => rfl
  | some name =>
   dsimp only
   split_ifs
   · rfl
   · rfl

theorem readFilter_removes {raw pattern : Text} {opts : List Text} (h : readFilter raw = some (pattern, opts)) :
  opts.any isRemoveparamOption = true := by
 rw [readFilter] at h
 split_ifs at h
 split at h
 · dsimp only at h
   split_ifs at h with hremoves
   obtain rfl := (Prod.mk.inj (Option.some.inj h)).2
   exact hremoves
 · cases h

theorem scanFilter_toFilters (scan : ListScan) {pattern : Text} {opts : List Text} (hremoves : opts.any isRemoveparamOption = true) :
  (scanFilter scan pattern opts).toFilters = scan.toFilters ++
   if IsGeneric pattern then (includedHosts opts).map fun domain => hostFilter domain (otherOptions opts) else [] := by
 rw [scanFilter]
 cases hexception : stripPrefix ['@', '@'] pattern with
 | some exceptionPattern =>
  have hpattern : ¬ IsGeneric pattern := by
   rw [stripPrefix_some.mp hexception]
   rintro (h | h)
   · cases h
   · exact absurd (List.cons.inj h).1 (by decide)
  dsimp only
  rw [if_neg hpattern, append_nil]
  rfl
 | none =>
  dsimp only
  split_ifs
  · exact scanGeneric_toFilters scan hremoves
  · exact (append_nil _).symm

theorem scanLine_toFilters (scan : ListScan) (raw : Text) : (scanLine scan raw).toFilters = scan.toFilters ++ expansion raw := by
 rw [expansion, scanLine, scanLine]
 cases hread : readFilter raw with
 | none => exact (append_nil _).symm
 | some filter =>
  have hremoves := readFilter_removes hread
  exact (scanFilter_toFilters scan hremoves).trans (congrArg _ (scanFilter_toFilters {} hremoves).symm)

theorem scanList_toFilters (text : Text) : (scanList text).toFilters = (lines text).flatMap expansion := by
 have hfold : ∀ (ls : List Text) (scan : ListScan), (ls.foldl scanLine scan).toFilters = scan.toFilters ++ ls.flatMap expansion := by
  intro ls
  induction ls with
  | nil => exact fun scan => (append_nil _).symm
  | cons raw ls ih =>
   intro scan
   rw [foldl_cons, ih, scanLine_toFilters, append_assoc, flatMap_cons]
 exact hfold (lines text) {}

theorem mem_expansion {raw rule : Text} : rule ∈ expansion raw ↔ ∃ pattern opts, readFilter raw = some (pattern, opts) ∧
  IsGeneric pattern ∧ ∃ domain ∈ includedHosts opts, rule = hostFilter domain (otherOptions opts) := by
 rw [expansion, scanLine]
 cases hread : readFilter raw with
 | none =>
  constructor
  · exact fun h => absurd h not_mem_nil
  · rintro ⟨pattern, opts, h, -⟩
    cases h
 | some filter =>
  obtain ⟨pattern, opts⟩ := filter
  dsimp only
  rw [scanFilter_toFilters {} (readFilter_removes hread)]
  constructor
  · intro h
    split_ifs at h with hgeneric
    · obtain ⟨domain, hdomain, rfl⟩ := mem_map.mp h
      exact ⟨pattern, opts, rfl, hgeneric, domain, hdomain, rfl⟩
    · exact absurd h not_mem_nil
  · rintro ⟨pattern, opts, hsame, hgeneric, domain, hdomain, rfl⟩
    cases hsame
    rw [if_pos hgeneric]
    exact mem_map_of_mem hdomain

theorem includedHosts_plain {opts : List Text} {domain : Text} (h : domain ∈ includedHosts opts) : isPlainDomain domain = true := by
 rw [includedHosts] at h
 split at h
 · exact (mem_filter.mp h).2
 · exact absurd h not_mem_nil

/-! ## Hosts -/

def UnderHost (host domain : Text) : Prop := host = domain ∨ '.' :: domain <:+ host

instance (host domain : Text) : Decidable (UnderHost host domain) := inferInstanceAs (Decidable (_ ∨ _))

theorem UnderHost.suffix {host domain : Text} (h : UnderHost host domain) : domain <:+ host := by
 cases h with
 | inl heq => exact heq ▸ suffix_rfl
 | inr hsub => exact (suffix_cons '.' domain).trans hsub

theorem UnderHost.trans {a b c : Text} (hab : UnderHost a b) (hbc : UnderHost b c) : UnderHost a c := by
 cases hbc with
 | inl heq => exact heq ▸ hab
 | inr hsub => exact .inr (hsub.trans hab.suffix)

theorem UnderHost.of_length {host d e : Text} (hd : UnderHost host d) (he : UnderHost host e) (hlen : d.length ≤ e.length) : UnderHost e d := by
 cases hd with
 | inl heq =>
  obtain rfl := heq
  exact .inl (he.suffix.eq_of_length_le hlen)
 | inr hsub =>
  cases hlen.lt_or_eq with
  | inl hlt => exact .inr (suffix_of_suffix_length_le hsub he.suffix hlt)
  | inr heq => exact .inl ((suffix_of_suffix_length_le ((suffix_cons '.' d).trans hsub) he.suffix hlen).eq_of_length heq).symm

theorem UnderHost.comparable {host d e : Text} (hd : UnderHost host d) (he : UnderHost host e) : UnderHost d e ∨ UnderHost e d := by
 cases le_total d.length e.length with
 | inl h => exact .inr (hd.of_length he h)
 | inr h => exact .inl (he.of_length hd h)

def lower (s : Text) : Text := s.map Char.toLower

/-! ## The blocker -/

/-- What adblock-rust makes of a filter, and what it takes the options after `$` to admit. -/
structure Blocker (Request : Type) where
 host : Request → Text
 matched : Text → Request → Prop
 admitted : Text → Request → Prop

variable {Request : Type}

/-- `||host^` stands for the host and its subdomains, in any case of the letters. -/
def Blocker.HostAnchored (blocker : Blocker Request) : Prop := ∀ (domain options : Text) (request : Request),
 isPlainDomain domain = true →
  (blocker.matched (hostFilter domain options) request ↔
   UnderHost (blocker.host request) (lower domain) ∧ blocker.admitted options request)

/-- No filter of the line is for a host that a `to=` option of it excludes. -/
def SparesExcluded (blocker : Blocker Request) (raw : Text) : Prop := ∀ pattern opts, readFilter raw = some (pattern, opts) →
 ∀ request, (∃ excluded ∈ excludedHosts opts, UnderHost (blocker.host request) (lower excluded)) →
  ∀ rule ∈ expansion raw, ¬ blocker.matched rule request

/-- Where an included host and an excluded one lie one under the other, the other options admit nothing to the narrower. -/
def ListsApart (blocker : Blocker Request) (raw : Text) : Prop := ∀ pattern opts, readFilter raw = some (pattern, opts) → IsGeneric pattern →
 ∀ domain ∈ includedHosts opts, ∀ excluded ∈ excludedHosts opts,
  (UnderHost (lower domain) (lower excluded) → ∀ request, UnderHost (blocker.host request) (lower domain) →
   ¬ blocker.admitted (otherOptions opts) request) ∧
  (UnderHost (lower excluded) (lower domain) → ∀ request, UnderHost (blocker.host request) (lower excluded) →
   ¬ blocker.admitted (otherOptions opts) request)

theorem listsApart_of_spares {blocker : Blocker Request} (hblocker : blocker.HostAnchored) {raw : Text}
  (h : SparesExcluded blocker raw) : ListsApart blocker raw := by
 intro pattern opts hread hgeneric domain hdomain excluded hexcluded
 have hnone : ∀ request, UnderHost (blocker.host request) (lower domain) → UnderHost (blocker.host request) (lower excluded) →
   ¬ blocker.admitted (otherOptions opts) request := by
  intro request hin hout hadmitted
  have hrule : hostFilter domain (otherOptions opts) ∈ expansion raw :=
   mem_expansion.mpr ⟨pattern, opts, hread, hgeneric, domain, hdomain, rfl⟩
  refine h pattern opts hread request ⟨excluded, hexcluded, hout⟩ _ hrule ?_
  exact (hblocker domain _ request (includedHosts_plain hdomain)).mpr ⟨hin, hadmitted⟩
 constructor
 · exact fun hunder request hin => hnone request hin (hin.trans hunder)
 · exact fun hunder request hout => hnone request (hout.trans hunder) hout

theorem spares_of_listsApart {blocker : Blocker Request} (hblocker : blocker.HostAnchored) {raw : Text}
  (h : ListsApart blocker raw) : SparesExcluded blocker raw := by
 rintro pattern opts hread request ⟨excluded, hexcluded, hout⟩ rule hrule hmatched
 obtain ⟨pattern', opts', hread', hgeneric, domain, hdomain, rfl⟩ := mem_expansion.mp hrule
 obtain ⟨rfl, rfl⟩ := Prod.mk.inj (Option.some.inj (hread.symm.trans hread'))
 obtain ⟨hin, hadmitted⟩ := (hblocker domain _ request (includedHosts_plain hdomain)).mp hmatched
 obtain ⟨hnarrow, hwide⟩ := h pattern opts hread hgeneric domain hdomain excluded hexcluded
 cases hin.comparable hout with
 | inl hunder => exact hnarrow hunder request hin hadmitted
 | inr hunder => exact hwide hunder request hout hadmitted

/-- The filters a list adds are those of its lines, and a line's are for no excluded host exactly when its hosts are apart. -/
theorem to_spares_excluded_iff (blocker : Blocker Request) (hblocker : blocker.HostAnchored) (text : Text) :
  (scanList text).toFilters = (lines text).flatMap expansion ∧
   ∀ raw ∈ lines text, (SparesExcluded blocker raw ↔ ListsApart blocker raw) :=
 ⟨scanList_toFilters text, fun _ _ => ⟨listsApart_of_spares hblocker, spares_of_listsApart hblocker⟩⟩

/-! ### One host under another -/

def hostBlocker : Blocker Text where
 host := id
 matched rule host := ∃ domain options, isPlainDomain domain = true ∧ rule = hostFilter domain options ∧ UnderHost host (lower domain)
 admitted _ _ := True

theorem hostFilter_inj {d d' o o' : Text} (hd : isPlainDomain d = true) (hd' : isPlainDomain d' = true)
  (h : hostFilter d o = hostFilter d' o') : d = d' := by
 have hfree : ∀ {d : Text}, isPlainDomain d = true → '^' ∉ d := by
  intro d hd hmem
  rw [isPlainDomain, Bool.and_eq_true, all_eq_true] at hd
  exact absurd (hd.2 _ hmem) (by decide)
 simp only [hostFilter, append_assoc] at h
 exact (TextReaders.append_cons_first (hfree hd) (hfree hd') (append_cancel_left h)).1

theorem hostBlocker_hostAnchored : hostBlocker.HostAnchored := by
 intro domain options host hdomain
 constructor
 · rintro ⟨domain', options', hdomain', heq, hunder⟩
   obtain rfl := hostFilter_inj hdomain hdomain' heq
   exact ⟨hunder, trivial⟩
 · exact fun h => ⟨domain, options, hdomain, rfl, h.1⟩

/-- `$removeparam=x,to=a.b|~c.a.b` -/
def nestedRule : Text :=
 ['$'] ++ removeparamMark ++ ['=', 'x', ',', 't', 'o', '=', 'a', '.', 'b', '|', '~', 'c', '.', 'a', '.', 'b']

def nestedOptions : List Text :=
 [removeparamMark ++ ['=', 'x'], ['t', 'o', '=', 'a', '.', 'b', '|', '~', 'c', '.', 'a', '.', 'b']]

theorem readFilter_nestedRule : readFilter nestedRule = some ([], nestedOptions) := by decide

theorem to_spares_excluded_nested : SparesExcluded hostBlocker nestedRule ↔ ListsApart hostBlocker nestedRule :=
 (to_spares_excluded_iff hostBlocker hostBlocker_hostAnchored nestedRule).2 nestedRule (by decide)

/-- The rule for a host is for its excluded subdomain too. -/
theorem nested_not_spared : ¬ ∀ (Request : Type) (blocker : Blocker Request), blocker.HostAnchored → ∀ (text : Text),
  ∀ raw ∈ lines text, SparesExcluded blocker raw := by
 intro hclaim
 have hraw : nestedRule ∈ lines nestedRule := by decide
 have hspared := hclaim Text hostBlocker hostBlocker_hostAnchored nestedRule nestedRule hraw [] nestedOptions readFilter_nestedRule
  ['c', '.', 'a', '.', 'b'] ⟨['c', '.', 'a', '.', 'b'], by decide, by decide⟩
 have hrule : hostFilter ['a', '.', 'b'] (otherOptions nestedOptions) ∈ expansion nestedRule :=
  mem_expansion.mpr ⟨[], nestedOptions, readFilter_nestedRule, .inl rfl, ['a', '.', 'b'], by decide, rfl⟩
 exact hspared _ hrule ⟨['a', '.', 'b'], otherOptions nestedOptions, by decide, rfl, by decide⟩

end MoltBrowser.RemoveParam
