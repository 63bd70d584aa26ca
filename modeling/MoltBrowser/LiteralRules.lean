import MoltBrowser.GbnfText
import MoltBrowser.HelperLinesRead
import MoltBrowser.IndexedTries
import MoltBrowser.JsonStrings
import MoltBrowser.WorkLists

set_option autoImplicit false

/-!
# The schema compiler's rules for a set of literals

The literals are put in a trie, whose branching nodes become rules, the deepest first. A rule's
text is read by itself, as the runtime's parser reads it.
-/
namespace MoltBrowser.SchemaGrammar
open Gbnf RuleDerivations IndexedTries WorkLists SortedTable Json BoundedJson List

/-! ## Code points -/

def leadBits (b : UInt8) : ℕ × ℕ :=
 if 0xF0 ≤ b.toNat then (4, b.toNat &&& 0x07)
 else if 0xE0 ≤ b.toNat then (3, b.toNat &&& 0x0F)
 else if 0xC0 ≤ b.toNat then (2, b.toNat &&& 0x1F)
 else (1, b.toNat)

def codePointsFrom : ℕ → Bytes → List ℕ
 | 0, _ => []
 | _ + 1, [] => []
 | fuel + 1, b :: s =>
  let (n, bits) := leadBits b
  (s.take (n - 1)).foldl (fun cp b => cp <<< 6 ||| (b.toNat &&& 0x3F)) bits ::
   codePointsFrom fuel (s.drop (n - 1))

def codePoints (s : Bytes) : List ℕ := codePointsFrom s.length s

theorem leadBits_lead {b : UInt8} {n bits : ℕ} (h : leadByte b = some (n, bits)) : leadBits b = (n, bits) := by
 have h5 : b.toNat &&& 0x1F = b.toNat % 32 := Nat.and_two_pow_sub_one_eq_mod _ 5
 have h4 : b.toNat &&& 0x0F = b.toNat % 16 := Nat.and_two_pow_sub_one_eq_mod _ 4
 have h3 : b.toNat &&& 0x07 = b.toNat % 8 := Nat.and_two_pow_sub_one_eq_mod _ 3
 rw [leadBits, h5, h4, h3]
 rcases leadByte_iff.1 h with ⟨hn, hlow, hhigh, hbits⟩ | ⟨hn, hlow, hhigh, hbits⟩ | ⟨hn, hlow, hhigh, hbits⟩
 · rw [hn, if_neg (by omega), if_neg (by omega), if_pos (by omega)]
   exact congrArg (Prod.mk 2) (by omega)
 · rw [hn, if_neg (by omega), if_pos (by omega)]
   exact congrArg (Prod.mk 3) (by omega)
 · rw [hn, if_pos (by omega)]
   exact congrArg (Prod.mk 4) (by omega)

theorem codePointsFrom_char (c : Char) (fuel : ℕ) (s : Bytes) :
  codePointsFrom (fuel + 1) (encode c ++ s) = c.toNat :: codePointsFrom fuel s := by
 by_cases hc : c.toNat < 0x80
 · have hbyte : (UInt8.ofNat c.toNat).toNat = c.toNat := UInt8.toNat_ofNat_of_lt' (hc.trans (by decide))
   have hlead : leadBits (UInt8.ofNat c.toNat) = (1, c.toNat) := by
    rw [leadBits, hbyte, if_neg (by omega), if_neg (by omega), if_neg (by omega)]
   rw [encode_ascii hc, singleton_append, codePointsFrom, hlead]
   rfl
 · obtain ⟨lead, tail, n, bits, hencode, hlead, hlength, -, hvalue, -⟩ := bytes_of_encode (Nat.not_lt.1 hc)
   have htail : tail.length = n - 1 := by omega
   rw [hencode, cons_append, codePointsFrom, leadBits_lead hlead]
   simp only [shift_in]
   rw [take_left' htail, drop_left' htail, hvalue]

theorem codePointsFrom_chars (chars : List Char) {fuel : ℕ} (h : chars.length ≤ fuel) :
  codePointsFrom fuel (chars.flatMap encode) = chars.map Char.toNat := by
 induction chars generalizing fuel with
 | nil => cases fuel <;> rfl
 | cons c chars ih =>
  rw [length_cons] at h
  obtain ⟨fuel, rfl⟩ := Nat.exists_eq_add_of_le' (Nat.le_of_add_left_le h : 1 ≤ fuel)
  rw [flatMap_cons, codePointsFrom_char, ih (by omega), map_cons]

theorem length_encode_pos (c : Char) : 1 ≤ (encode c).length := by
 rw [encode_eq]
 split_ifs <;> simp

theorem codePoints_chars (chars : List Char) : codePoints (chars.flatMap encode) = chars.map Char.toNat := by
 apply codePointsFrom_chars
 induction chars with
 | nil => exact Nat.zero_le _
 | cons c chars ih =>
  have hpos := length_encode_pos c
  rw [flatMap_cons, length_append, length_cons]
  omega

/-! ## The rule table -/

inductive SchemaGrammarStatus where
 | ok
 | invalidJson
 | tooLarge
 | tooDeep
 | tooAmbiguous
 | unsupported
 | unsatisfiable
 deriving DecidableEq

def kMaxGrammarBytes : ℕ := 128 * 1024

def kMaxGrammarRules : ℕ := 2048

def kMaxRepetitionBudget : ℕ := 8192

def ruleName (n : ℕ) : Bytes := 0x72 :: SpeechEvents.decimal n

/-- The converter's generated rules: `r1`, `r2` and so on, each body once. -/
structure RuleTable where
 rulesByBody : Table Bytes Bytes
 rules : List (Bytes × Bytes)
 bytes : ℕ
 repeats : ℕ
 status : SchemaGrammarStatus
 reason : String
 numbered : rules.map Prod.fst = (List.range rules.length).map fun n => ruleName (n + 1)
 byBody : ∀ body name, rulesByBody.get body = some name ↔ (name, body) ∈ rules

def RuleTable.empty : RuleTable where
 rulesByBody := Table.empty
 rules := []
 bytes := 0
 repeats := 0
 status := .ok
 reason := ""
 numbered := rfl
 byBody _ _ := by simp [Table.get, Table.empty]

def RuleTable.fail (table : RuleTable) (status : SchemaGrammarStatus) (reason : String) : RuleTable :=
 if table.status = .ok then { table with status, reason } else table

def RuleTable.budget (table : RuleTable) (bodyBytes repeats : ℕ) : Bool × RuleTable :=
 let table := { table with bytes := table.bytes + (bodyBytes + 16), repeats := table.repeats + repeats }
 if kMaxGrammarBytes < table.bytes ∨ kMaxGrammarRules < table.rules.length then
  (false, table.fail .tooLarge "grammar too large")
 else if kMaxRepetitionBudget < table.repeats then
  (false, table.fail .tooLarge "too many counted repetitions")
 else (true, table)

def RuleTable.append (table : RuleTable) (body : Bytes) (h : table.rulesByBody.get body = none) : RuleTable where
 rulesByBody := table.rulesByBody.insert body (ruleName (table.rules.length + 1))
 rules := table.rules ++ [(ruleName (table.rules.length + 1), body)]
 bytes := table.bytes
 repeats := table.repeats
 status := table.status
 reason := table.reason
 numbered := by
  rw [map_append, table.numbered, length_append, length_singleton, range_succ, map_append]
  rfl
 byBody other name := by
  rw [Table.get_insert, mem_append, mem_singleton, Prod.mk.injEq]
  split_ifs with heq
  · subst heq
    have hnew : (name, other) ∉ table.rules := fun hmem => by
     rw [(table.byBody other name).2 hmem] at h
     exact Option.some_ne_none name h
    rw [Option.some.injEq, or_iff_right hnew]
    exact eq_comm.trans (and_iff_left rfl).symm
  · rw [table.byBody, or_iff_left fun hlast => heq hlast.2]

theorem RuleTable.budget_rulesByBody (table : RuleTable) (bodyBytes repeats : ℕ) :
  (table.budget bodyBytes repeats).2.rulesByBody = table.rulesByBody := by
 rw [budget]
 split_ifs
 · rw [fail]
   split_ifs <;> rfl
 · rw [fail]
   split_ifs <;> rfl
 · rfl

def RuleTable.addRule (table : RuleTable) (body : Bytes) (repeats : ℕ) : Option Bytes × RuleTable :=
 match h : table.rulesByBody.get body with
 | some name => (some name, table)
 | none =>
  if (table.budget body.length repeats).1 then
   (some (ruleName ((table.budget body.length repeats).2.rules.length + 1)),
    (table.budget body.length repeats).2.append body
     (by rw [RuleTable.budget_rulesByBody, h]))
  else (none, (table.budget body.length repeats).2)

def RuleTable.body (table : RuleTable) (name : Bytes) : Option Bytes := table.rules.lookup name

def RuleTable.alternatives (table : RuleTable) (name : Bytes) : Option (List (List Element)) :=
 match (table.body name).bind parseAlternates with
 | some (sequences, []) => some sequences
 | _ => none

theorem decimal_injective : Function.Injective SpeechEvents.decimal := by
 intro m n h
 have hm := @Voice.parseInteger_decimal m [] (by simp)
 rw [h, Voice.parseInteger_decimal n (by simp)] at hm
 have hval := (Prod.mk.inj (Option.some.inj hm)).1
 exact_mod_cast hval.symm

theorem ruleName_word (n : ℕ) : Word (ruleName n) := by
 refine ⟨cons_ne_nil _ _, fun b hb => ?_⟩
 rcases mem_cons.1 hb with rfl | hdigit
 · decide
 · have hb := Voice.decimal_digits n b hdigit
   rw [isWordChar, show isDigitChar b = true from hb, Bool.or_true]

theorem RuleTable.name_of_mem (table : RuleTable) {name body : Bytes} (h : (name, body) ∈ table.rules) :
  ∃ n, name = ruleName n := by
 have hname : name ∈ table.rules.map Prod.fst := mem_map_of_mem h
 rw [table.numbered] at hname
 obtain ⟨n, -, rfl⟩ := mem_map.1 hname
 exact ⟨n + 1, rfl⟩

theorem RuleTable.nodup (table : RuleTable) : (table.rules.map Prod.fst).Nodup := by
 rw [table.numbered]
 apply nodup_range.map
 intro m n h
 exact Nat.succ_injective (decimal_injective (List.cons.inj h).2)

theorem RuleTable.body_of_mem (table : RuleTable) {name body : Bytes} (h : (name, body) ∈ table.rules) :
  table.body name = some body := by
 obtain ⟨before, after, hsplit⟩ := append_of_mem h
 have hnodup := table.nodup
 rw [hsplit, map_append, map_cons] at hnodup
 refine lookup_eq_some_iff.2 ⟨before, after, hsplit, fun rule hrule => ?_⟩
 have hne := (nodup_append.1 hnodup).2.2 rule.1 (mem_map_of_mem hrule) name (mem_cons_self ..)
 simpa using hne.symm

theorem RuleTable.fail_rules (table : RuleTable) (status : SchemaGrammarStatus) (reason : String) :
  (table.fail status reason).rules = table.rules := by
 rw [fail]
 split_ifs <;> rfl

theorem RuleTable.fail_status (table : RuleTable) {status : SchemaGrammarStatus} (h : status ≠ .ok)
  (reason : String) : (table.fail status reason).status ≠ .ok := by
 rw [fail]
 split_ifs with hok
 · exact h
 · exact hok

theorem RuleTable.budget_spec (table : RuleTable) (bodyBytes repeats : ℕ) :
  (table.budget bodyBytes repeats).2.rules = table.rules ∧
   ((table.budget bodyBytes repeats).1 = false → (table.budget bodyBytes repeats).2.status ≠ .ok) := by
 rw [budget]
 dsimp only
 split_ifs
 · exact ⟨fail_rules .., fun _ => fail_status _ (by decide) _⟩
 · exact ⟨fail_rules .., fun _ => fail_status _ (by decide) _⟩
 · exact ⟨rfl, fun h => absurd h (by decide)⟩

/-- What adding rules does: the rules there were stay, and a refusal is recorded. -/
structure Adds {α : Type} (table : RuleTable) (result : Option α × RuleTable) : Prop where
 kept : table.rules <+: result.2.rules
 failed : result.1 = none → result.2.status ≠ .ok

theorem RuleTable.addRule_spec (table : RuleTable) (body : Bytes) (repeats : ℕ) :
  Adds table (table.addRule body repeats) ∧
   ∀ name ∈ (table.addRule body repeats).1, (name, body) ∈ (table.addRule body repeats).2.rules := by
 obtain ⟨hrules, hfailed⟩ := table.budget_spec body.length repeats
 rw [addRule]
 split
 · next name hget =>
   refine ⟨⟨prefix_rfl, fun h => absurd h (Option.some_ne_none name)⟩, fun other hother => ?_⟩
   rw [← Option.some.inj hother]
   exact (table.byBody body name).1 hget
 · next hget =>
   split_ifs with hbudget
   · refine ⟨⟨?_, fun h => absurd h (Option.some_ne_none _)⟩, fun name hname => ?_⟩
     · rw [← hrules]
       exact prefix_append ..
     · rw [← Option.some.inj hname]
       exact mem_append_right _ (mem_singleton_self _)
   · exact ⟨⟨hrules ▸ prefix_rfl, fun _ => hfailed (Bool.not_eq_true _ ▸ hbudget)⟩,
      fun name hname => absurd hname (Option.not_mem_none name)⟩

/-! ## The rules of a trie -/

section Rules

variable (nodes : List (Node ℕ))

def chain (edge : ℕ × ℕ) : List ℕ × ℕ :=
 let (label, last) := chainFrom nodes nodes.length edge.2
 (edge.1 :: label, last)

def hasChildren (n : ℕ) : Bool := !(nodeAt nodes n).children.isEmpty

def ends (n : ℕ) : List ℕ :=
 ((nodeAt nodes n).children.map fun edge => (chain nodes edge).2).filter (hasChildren nodes)

def needs : List Bool :=
 markAll (ends nodes) nodes.length ((List.replicate nodes.length false).set 0 true) [0]

def alternative (names : List Bytes) (edge : ℕ × ℕ) : Alternative :=
 let (label, last) := chain nodes edge
 ⟨label, if hasChildren nodes last then some (names.getD last []) else none⟩

def nodeBody (names : List Bytes) (n : ℕ) : Bytes :=
 ruleBody (nodeAt nodes n).terminal ((nodeAt nodes n).children.map (alternative nodes names))

/-- Children have larger indices than their parents: from the last down. -/
def emit (needs : List Bool) : ℕ → List Bytes → RuleTable → Option (List Bytes) × RuleTable
 | 0, names, table => (some names, table)
 | n + 1, names, table =>
  if marked needs n then
   match table.addRule (nodeBody nodes names n) 0 with
   | (some name, table) => emit needs n (names.set n name) table
   | (none, table) => (none, table)
  else emit needs n names table

end Rules

def literalSet (table : RuleTable) (literals : List Bytes) : Option Bytes × RuleTable :=
 let nodes := build (literals.map codePoints)
 match emit nodes (needs nodes) nodes.length (List.replicate nodes.length []) table with
 | (some names, table) => (some (names.getD 0 []), table)
 | (none, table) => (none, table)

section Chains

variable {nodes : List (Node ℕ)} {paths : List (List ℕ)} {n : ℕ} {path : List ℕ}

variable {edge : ℕ × ℕ}

/-- A chain below a node: where it ends, and that the texts below go through its end. -/
theorem chain_spec (h : Trie nodes paths) (hn : paths[n]? = some path)
  (hedge : edge ∈ (nodeAt nodes n).children) :
  paths[(chain nodes edge).2]? = some (path ++ (chain nodes edge).1) ∧ n < (chain nodes edge).2 ∧
   ∀ text, (∃ rest, text = edge.1 :: rest ∧ Holds nodes paths (path ++ [edge.1] ++ rest)) ↔
    ∃ rest, text = (chain nodes edge).1 ++ rest ∧ Holds nodes paths (path ++ (chain nodes edge).1 ++ rest) := by
 obtain ⟨hchild, hlater⟩ := h.child_of_mem hn hedge
 obtain ⟨hend, hle, hbelow⟩ := chainFrom_spec h nodes.length hchild
 rw [append_assoc] at hend
 refine ⟨hend, hlater.trans_le hle, fun text => ?_⟩
 simp only [chain, cons_append]
 constructor
 · rintro ⟨rest, rfl, hrest⟩
   obtain ⟨more, rfl, hmore⟩ := (hbelow rest).1 hrest
   refine ⟨more, rfl, ?_⟩
   rwa [append_cons path]
 · rintro ⟨more, rfl, hmore⟩
   refine ⟨_, rfl, (hbelow _).2 ⟨more, rfl, ?_⟩⟩
   rwa [append_cons path] at hmore

theorem chain_stops (h : Trie nodes paths) (hn : paths[n]? = some path)
  (hedge : edge ∈ (nodeAt nodes n).children) (c child : ℕ) : ¬ Single nodes (chain nodes edge).2 c child :=
 chainFrom_stops h (h.child_of_mem hn hedge).1 (Nat.sub_le _ _) c child

theorem ends_lt (h : Trie nodes paths) (n m : ℕ) (hm : m ∈ ends nodes n) : m < nodes.length := by
 obtain ⟨hmem, -⟩ := mem_filter.1 hm
 obtain ⟨edge, hedge, rfl⟩ := mem_map.1 hmem
 by_cases hlt : n < nodes.length
 · have hn : paths[n]? = some _ := getElem?_eq_getElem (h.length.symm ▸ hlt)
   exact h.lt (chain_spec h hn hedge).1
 · rw [nodeAt_of_le (Nat.not_lt.1 hlt)] at hedge
   exact absurd hedge not_mem_nil

theorem needs_closed (h : Trie nodes paths) {n : ℕ} (hn : marked (needs nodes) n = true) :
  Closed (ends nodes) (needs nodes) n := by
 have hlt : 0 < nodes.length := h.lt h.root
 have hpos : 0 < (List.replicate nodes.length false).length := by rwa [length_replicate]
 apply markAll_closed (ends_lt h) _ _ _ n hn
 · rw [List.length_set, length_replicate]
 · rw [count_set hpos, count_replicate_self, getElem_replicate]
   simp
   omega
 · intro k hk
   rcases (marked_set hpos k).1 hk with rfl | hfalse
   · exact Or.inl (mem_singleton_self 0)
   · rw [marked_replicate] at hfalse
     exact Bool.noConfusion hfalse

theorem needs_root (h : Trie nodes paths) : marked (needs nodes) 0 = true := by
 have hlt : 0 < nodes.length := h.lt h.root
 have hpos : 0 < (List.replicate nodes.length false).length := by rwa [length_replicate]
 apply markAll_keeps (ends_lt h)
 · rw [List.length_set, length_replicate]
 · exact (marked_set hpos 0).2 (Or.inl rfl)

theorem nodeBody_set (h : Trie nodes paths) (names : List Bytes) (name : Bytes) {n k : ℕ} (hle : n ≤ k)
  (hk : k < nodes.length) : nodeBody nodes (names.set n name) k = nodeBody nodes names k := by
 have hpath : paths[k]? = some _ := getElem?_eq_getElem (h.length.symm ▸ hk)
 rw [nodeBody, nodeBody]
 congr 1
 apply map_congr_left
 intro edge hedge
 have hlater := (chain_spec h hpath hedge).2.1
 have hname : (names.set n name).getD (chain nodes edge).2 [] = names.getD (chain nodes edge).2 [] := by
  rw [getD_eq_getElem?_getD, getElem?_set_ne (by omega), ← getD_eq_getElem?_getD]
 simp only [alternative, hname]

/-- The needed nodes from `n` on have their rules. -/
def Emitted (nodes : List (Node ℕ)) (n : ℕ) (names : List Bytes) (table : RuleTable) : Prop :=
 ∀ k, n ≤ k → marked (needs nodes) k = true → k < nodes.length →
  (names.getD k [], nodeBody nodes names k) ∈ table.rules

variable {names : List Bytes} {table : RuleTable}

theorem emit_spec (h : Trie nodes paths) {n : ℕ}
  (hlength : names.length = nodes.length) (hn : n ≤ nodes.length) (hemitted : Emitted nodes n names table) :
  Adds table (emit nodes (needs nodes) n names table) ∧
   ∀ names' ∈ (emit nodes (needs nodes) n names table).1,
    Emitted nodes 0 names' (emit nodes (needs nodes) n names table).2 := by
 induction n generalizing names table with
 | zero =>
  refine ⟨⟨prefix_rfl, fun hnone => absurd hnone (Option.some_ne_none names)⟩, fun names' hnames => ?_⟩
  rw [← Option.some.inj hnames]
  exact hemitted
 | succ n ih =>
  rw [emit]
  split_ifs with hneeds
  · obtain ⟨hadds, hnamed⟩ := table.addRule_spec (nodeBody nodes names n) 0
    generalize table.addRule (nodeBody nodes names n) 0 = result at hadds hnamed
    obtain ⟨name | name, added⟩ := result
    · exact ⟨⟨hadds.kept, fun _ => hadds.failed rfl⟩, fun names' hnames => absurd hnames (Option.not_mem_none names')⟩
    · have hnext : Emitted nodes n (names.set n name) added := by
       intro k hle hk hlt
       rw [nodeBody_set h names name hle hlt]
       rcases Nat.eq_or_lt_of_le hle with rfl | hlater
       · rw [getD_eq_getElem?_getD, getElem?_set_self (hlength.symm ▸ hlt), Option.getD_some]
         exact hnamed name rfl
       · rw [getD_eq_getElem?_getD, getElem?_set_ne (Nat.ne_of_lt hlater), ← getD_eq_getElem?_getD]
         exact hadds.kept.subset (hemitted k hlater hk hlt)
      obtain ⟨hrest, hdone⟩ := ih (by rw [List.length_set, hlength]) (Nat.le_of_succ_le hn) hnext
      exact ⟨⟨hadds.kept.trans hrest.kept, hrest.failed⟩, hdone⟩
  · refine ih hlength (Nat.le_of_succ_le hn) fun k hle hk hlt => ?_
    rcases Nat.eq_or_lt_of_le hle with rfl | hlater
    · exact absurd hk hneeds
    · exact hemitted k hlater hk hlt

def Alive (nodes : List (Node ℕ)) (paths : List (List ℕ)) : Prop :=
 ∀ q ∈ paths, q = [] ∨ ∃ text, Holds nodes paths text ∧ q <+: text

def Letters (paths : List (List ℕ)) : Prop := ∀ q ∈ paths, ∀ c ∈ q, c < 0x110000

theorem holds_childless (h : Trie nodes paths) (halive : Alive nodes paths) (hn : paths[n]? = some path)
  (hpath : path ≠ []) (hchildren : hasChildren nodes n = false) (text : List ℕ) :
  Holds nodes paths (path ++ text) ↔ text = [] := by
 have hempty : (nodeAt nodes n).children = [] := by
  rw [hasChildren, Bool.not_eq_false', List.isEmpty_iff] at hchildren
  exact hchildren
 have hbelow : ∀ text, Holds nodes paths (path ++ text) → text = [] ∧ (nodeAt nodes n).terminal = true := by
  intro text htext
  rcases (holds_below h hn text).1 htext with hstop | ⟨c, child, hmem, -⟩
  · exact hstop
  · rw [hempty] at hmem
    exact absurd hmem not_mem_nil
 constructor
 · exact fun htext => (hbelow text htext).1
 · rintro rfl
   obtain ⟨whole, hwhole, more, rfl⟩ := (halive path (mem_of_getElem? hn)).resolve_left hpath
   exact (holds_below h hn []).2 (Or.inl ⟨rfl, (hbelow more hwhole).2⟩)

theorem derives_alternative {rules : Bytes → Option (List (List Element))} (names : List Bytes) (edge : ℕ × ℕ)
  (text : List ℕ) :
  Derives rules (alternative nodes names edge).elements text ↔
   ∃ rest, text = (chain nodes edge).1 ++ rest ∧
    (if hasChildren nodes (chain nodes edge).2 then
     Derives rules [.nonterminal (names.getD (chain nodes edge).2 [])] rest else rest = []) := by
 rw [Alternative.elements, derives_terminals]
 apply exists_congr
 intro rest
 apply and_congr_right
 intro _
 simp only [alternative]
 split_ifs
 · rfl
 · exact derives_nil

theorem alternative_writable (h : Trie nodes paths) (hletters : Letters paths)
  (hemitted : Emitted nodes 0 names table) (hn : paths[n]? = some path)
  (hneeds : marked (needs nodes) n = true) (hedge : edge ∈ (nodeAt nodes n).children) :
  (alternative nodes names edge).Writable := by
 obtain ⟨hend, -, -⟩ := chain_spec h hn hedge
 refine ⟨fun c hc => hletters _ (mem_of_getElem? hend) c (mem_append_right path hc), fun name hname => ?_⟩
 simp only [alternative] at hname
 split_ifs at hname with hchildren
 · have hneeded := needs_closed h hneeds _ (mem_filter.2 ⟨mem_map_of_mem hedge, hchildren⟩)
   obtain ⟨number, hnumber⟩ := table.name_of_mem (hemitted _ (Nat.zero_le _) hneeded (h.lt hend))
   rw [← Option.some.inj hname, hnumber]
   exact ruleName_word number
 · exact absurd hname (Option.not_mem_none name)

theorem derives_node (h : Trie nodes paths) (halive : Alive nodes paths) (hletters : Letters paths)
   (hemitted : Emitted nodes 0 names table)
  (hn : paths[n]? = some path) (hneeds : marked (needs nodes) n = true)
  (hfull : (nodeAt nodes n).terminal = true ∨ (nodeAt nodes n).children ≠ []) (text : List ℕ) :
  Derives table.alternatives [.nonterminal (names.getD n [])] text ↔ Holds nodes paths (path ++ text) := by
 induction hdepth : nodes.length - n using Nat.strong_induction_on generalizing n path text with
 | _ depth ih =>
  have hlt := h.lt hn
  have hbody := table.body_of_mem (hemitted n (Nat.zero_le n) hneeds hlt)
  obtain ⟨sequences, hparse, hsequences⟩ := parseAlternates_ruleBody
   (forall_mem_map.2 fun edge hedge => alternative_writable h hletters hemitted hn hneeds hedge)
   (hfull.imp_right fun hne hnil => hne (map_eq_nil_iff.1 hnil))
  have hrule : table.alternatives (names.getD n []) = some sequences := by
   rw [RuleTable.alternatives, hbody, Option.bind_some, nodeBody, hparse]
  -- the rest below a chain's end: its rule's texts by induction, or none
  have hbelow : ∀ edge ∈ (nodeAt nodes n).children, ∀ rest,
    (if hasChildren nodes (chain nodes edge).2 then
     Derives table.alternatives [.nonterminal (names.getD (chain nodes edge).2 [])] rest else rest = []) ↔
    Holds nodes paths (path ++ (chain nodes edge).1 ++ rest) := by
   intro edge hedge rest
   obtain ⟨hend, hlater, -⟩ := chain_spec h hn hedge
   split_ifs with hchildren
   · have hneeded := needs_closed h hneeds _ (mem_filter.2 ⟨mem_map_of_mem hedge, hchildren⟩)
     have hne : (nodeAt nodes (chain nodes edge).2).children ≠ [] := by
      rw [hasChildren, Bool.not_eq_true', isEmpty_eq_false_iff] at hchildren
      exact hchildren
     exact ih _ (by omega) hend hneeded (Or.inr hne) rest rfl
   · exact (holds_childless h halive hend (by simp [chain]) (Bool.not_eq_true _ ▸ hchildren) rest).symm
  have hedges : ∀ edge ∈ (nodeAt nodes n).children,
    (Derives table.alternatives (alternative nodes names edge).elements text ↔
     ∃ rest, text = edge.1 :: rest ∧ Holds nodes paths (path ++ [edge.1] ++ rest)) := by
   intro edge hedge
   rw [derives_alternative, (chain_spec h hn hedge).2.2 text]
   exact exists_congr fun rest => and_congr_right fun _ => hbelow edge hedge rest
  rw [derives_rule, holds_below h hn]
  constructor
  · rintro ⟨_, hsame, sequence, hsequence, hderives⟩
    obtain rfl := Option.some.inj (hrule.symm.trans hsame)
    rcases (hsequences sequence).1 hsequence with ⟨rfl, hterminal⟩ | ⟨a, ha, rfl⟩
    · exact Or.inl ⟨derives_nil.1 hderives, hterminal⟩
    · obtain ⟨⟨c, child⟩, hedge, rfl⟩ := mem_map.1 ha
      exact Or.inr ⟨c, child, hedge, (hedges _ hedge).1 hderives⟩
  · rintro (⟨rfl, hterminal⟩ | ⟨c, child, hedge, hrest⟩)
    · exact ⟨sequences, hrule, [], (hsequences []).2 (Or.inl ⟨rfl, hterminal⟩), .nil⟩
    · exact ⟨sequences, hrule, _, (hsequences _).2 (Or.inr ⟨_, mem_map_of_mem hedge, rfl⟩),
       (hedges _ hedge).2 hrest⟩

end Chains

/-- The rules for some literals derive those and nothing else, now and with any rules added later;
where there is no room for them a failure is recorded. -/
theorem literalSet_exact (table : RuleTable) (literals : List (List Char)) (h : literals ≠ []) :
  match literalSet table (literals.map fun chars => chars.flatMap encode) with
  | (some name, added) => table.rules <+: added.rules ∧
   ∀ later : RuleTable, added.rules <+: later.rules → ∀ text : List ℕ,
    Derives later.alternatives [.nonterminal name] text ↔ ∃ chars ∈ literals, text = chars.map Char.toNat
  | (none, refused) => refused.status ≠ .ok := by
 have hcodes : (literals.map fun chars => chars.flatMap encode).map codePoints =
   literals.map fun chars => chars.map Char.toNat := by
  rw [List.map_map]
  exact List.map_congr_left fun chars _ => codePoints_chars chars
 obtain ⟨paths, htrie, hgrown, hholds⟩ := build_spec (literals.map fun chars => chars.map Char.toNat)
 have halive : Alive (build (literals.map fun chars => chars.map Char.toNat)) paths := fun q hq =>
  (hgrown q hq).imp_right fun ⟨text, htext, hprefix⟩ => ⟨text, (hholds text).2 htext, hprefix⟩
 have hletters : Letters paths := by
  intro q hq c hc
  rcases hgrown q hq with rfl | ⟨text, htext, hprefix⟩
  · exact absurd hc List.not_mem_nil
  · obtain ⟨chars, -, rfl⟩ := List.mem_map.1 htext
    obtain ⟨char, -, rfl⟩ := List.mem_map.1 ( hprefix.subset hc)
    have hvalid := valid_char char
    omega
 have hfull : (nodeAt (build (literals.map fun chars => chars.map Char.toNat)) 0).terminal = true ∨
   (nodeAt (build (literals.map fun chars => chars.map Char.toNat)) 0).children ≠ [] := by
  obtain ⟨first, rest, rfl⟩ := List.exists_cons_of_ne_nil h
  have hfirst := (hholds (first.map Char.toNat)).2 (List.mem_cons_self ..)
  rcases (holds_below htrie htrie.root _).1 hfirst with ⟨-, hterminal⟩ | ⟨c, child, hmem, -⟩
  · exact Or.inl hterminal
  · exact Or.inr (List.ne_nil_of_mem hmem)
 rw [literalSet, hcodes]
 generalize build (literals.map fun chars => chars.map Char.toNat) = nodes at htrie hholds halive hfull
 have hnone : Emitted nodes nodes.length (List.replicate nodes.length []) table := fun k hle _ hlt =>
  absurd hlt (Nat.not_lt.2 hle)
 obtain ⟨hadds, hemitted⟩ := emit_spec htrie List.length_replicate (le_refl _) hnone
 generalize emit nodes (needs nodes) nodes.length (List.replicate nodes.length []) table = result at hadds hemitted
 obtain ⟨names | names, added⟩ := result
 · exact hadds.failed rfl
 · refine ⟨hadds.kept, fun later hlater text => ?_⟩
   have hrules : Emitted nodes 0 names later := fun k hle hk hlt =>
    hlater.subset (hemitted names rfl k hle hk hlt)
   rw [derives_node htrie halive hletters hrules htrie.root (needs_root htrie) hfull, List.nil_append, hholds,
    List.mem_map]
   exact exists_congr fun chars => and_congr_right fun _ => eq_comm

theorem literalSet_exact_shared : ∃ name added,
  literalSet RuleTable.empty (["ab".toList, "a".toList].map fun chars => chars.flatMap encode) = (some name, added) ∧
   ∀ text : List ℕ, Derives added.alternatives [.nonterminal name] text ↔ text = [97, 98] ∨ text = [97] := by
 have hexact := literalSet_exact RuleTable.empty ["ab".toList, "a".toList] (List.cons_ne_nil _ _)
 have hname : (literalSet RuleTable.empty (["ab".toList, "a".toList].map fun chars => chars.flatMap encode)).1 =
   some (ruleName 2) := by decide +kernel
 revert hexact hname
 generalize literalSet RuleTable.empty (["ab".toList, "a".toList].map fun chars => chars.flatMap encode) = result
 obtain ⟨answer, added⟩ := result
 rintro hexact rfl
 refine ⟨ruleName 2, added, rfl, fun text => (hexact.2 added List.prefix_rfl text).trans ?_⟩
 simp

end MoltBrowser.SchemaGrammar
