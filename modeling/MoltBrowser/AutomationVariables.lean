import MoltBrowser.AutomationRunner
import MoltBrowser.Placeholders
import MoltBrowser.UntrustedText

set_option autoImplicit false

/-!
# Variables in a step's texts (`AutomationRunner::Resolve`)

The variables are put in one by one, each over the whole text so far. What came in with a value
is looked at again at the turn of a name further on.
-/
namespace MoltBrowser.AutomationRunner
open AgentSafety Placeholders SortedTable

def token (name : Bytes) : Bytes := utf8 "\x7b\x7b" ++ name ++ utf8 "\x7d\x7d"

/-- `Resolve` with its second argument. -/
def resolveFencing (render : Value → Bytes) (vars : Variables) (raw : Bytes) (fenceValues : Bool) : Bytes :=
 vars.entries.foldl (fun out kv =>
  let val := variableText render kv.2
  let val := if fenceValues = true ∧ token kv.1 <:+: out then fenceUntrustedText val else val
  replaceSubstrings (token kv.1) val out.length out) raw

def rendering (render : Value → Bytes) (fenceValues : Bool) (v : Value) : Bytes :=
 if fenceValues then fenceUntrustedText (variableText render v) else variableText render v

theorem token_ne_nil (name : Bytes) : token name ≠ [] := by
 intro h
 have hlen := congrArg List.length h
 have hbraces : (utf8 "\x7b\x7b").length = 2 := by decide
 rw [token, List.length_append, List.length_append, hbraces, List.length_nil] at hlen
 omega

def placeholder (render : Value → Bytes) (fenceValues : Bool) (kv : Bytes × Value) : Placeholder UInt8 :=
 ⟨token kv.1, rendering render fenceValues kv.2, token_ne_nil kv.1⟩

def placeholders (render : Value → Bytes) (fenceValues : Bool) (vars : Variables) : List (Placeholder UInt8) :=
 vars.entries.map (placeholder render fenceValues)

theorem replaceSubstrings_eq {pat : Bytes} (val : Bytes) (hne : pat ≠ []) {fuel : ℕ} {s : Bytes}
  (hfuel : s.length ≤ fuel) : replaceSubstrings pat val fuel s = Rewriting.rewrite id pat val s := by
 induction fuel generalizing s with
 | zero =>
  rw [List.length_eq_zero_iff.1 (Nat.le_zero.1 hfuel), replaceSubstrings, Rewriting.rewrite]
 | succ fuel ih =>
  cases s with
  | nil => rw [replaceSubstrings, Rewriting.rewrite]; exact fun h => by cases h
  | cons c s =>
   have hpos := List.length_pos_of_ne_nil hne
   rw [List.length_cons] at hfuel
   rw [replaceSubstrings, Rewriting.rewrite, List.map_id]
   by_cases hpre : pat.isPrefixOf (c :: s)
   · obtain ⟨n, hn⟩ := Nat.exists_eq_succ_of_ne_zero (Nat.pos_iff_ne_zero.1 hpos)
     rw [if_pos hpre, if_pos hpre, hn, List.drop_succ_cons, Nat.succ_sub_one, ih]
     rw [List.length_drop]
     omega
   · rw [if_neg hpre, if_neg hpre, ih (by omega)]

theorem resolveFencing_eq (render : Value → Bytes) (vars : Variables) (raw : Bytes) (fenceValues : Bool) :
  resolveFencing render vars raw fenceValues =
   (placeholders render fenceValues vars).foldl (fun t h => Rewriting.rewrite id h.token h.value t) raw := by
 rw [resolveFencing, placeholders, List.foldl_map]
 congr 1
 funext out kv
 dsimp only [placeholder]
 rw [replaceSubstrings_eq _ (token_ne_nil kv.1) le_rfl, rendering]
 by_cases hin : token kv.1 <:+: out
 · simp only [hin, and_true]
 · have hin' : ¬ token kv.1 <:+: out.map id := by rwa [List.map_id]
   rw [Rewriting.rewrite_of_not_infix hin', Rewriting.rewrite_of_not_infix hin']

/-- Each letter of the result is the text's own or comes with a value, and the variables are put in
all at once exactly where nothing but the text reads as a variable's mark at this variable's turn. -/
theorem resolve_simultaneous_iff (render : Value → Bytes) (vars : Variables) (raw : Bytes) (fenceValues : Bool) :
  (fillAll (placeholders render fenceValues vars) (own raw)).map Prod.fst =
    resolveFencing render vars raw fenceValues ∧
   (Simultaneous (placeholders render fenceValues vars) raw ↔
    undisturbedAll (placeholders render fenceValues vars) (unread raw) = true) := by
 refine ⟨?_, simultaneous_iff _ raw⟩
 rw [map_fst_fillAll, map_fst_own, resolveFencing_eq]

def smuggling : Variables := 
 ((.empty : Variables).insert "a" (.string (token "b"))).insert "b" (.string "secret")

/-- A value that reads as another variable's mark is replaced by that variable. -/
theorem value_read_as_mark : resolve (fun _ => []) smuggling (token "a") = "secret" ∧
  ¬ Simultaneous (placeholders (fun _ => []) false smuggling) (token "a") := by
 refine ⟨by decide, fun h => ?_⟩
 have hreads : readsOwn (token "a") (placeholders (fun _ => []) false smuggling) (own (token "a")) = false := by
  decide +kernel
 rw [h.reads] at hreads
 cases hreads

end MoltBrowser.AutomationRunner
