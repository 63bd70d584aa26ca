import Mathlib.Computability.Language

set_option autoImplicit false

/-!
# Derivations from rules with alternatives

A rule is looked up by name and one of its alternatives is derived in its place. The derivations
are big steps: each symbol's part of the text is derived before the next symbol's.
-/
namespace MoltBrowser.RuleDerivations

variable {α ν : Type*}

inductive Derives (rules : ν → Option (List (List (Symbol α ν)))) : List (Symbol α ν) → List α → Prop
 | nil : Derives rules [] []
 | terminal {a : α} {rest : List (Symbol α ν)} {text : List α} (hrest : Derives rules rest text) :
  Derives rules (.terminal a :: rest) (a :: text)
 | rule {name : ν} {alternatives : List (List (Symbol α ν))} {alternative rest : List (Symbol α ν)}
  {text more : List α} (hrule : rules name = some alternatives) (hmem : alternative ∈ alternatives)
  (htext : Derives rules alternative text) (hrest : Derives rules rest more) :
  Derives rules (.nonterminal name :: rest) (text ++ more)

variable {rules : ν → Option (List (List (Symbol α ν)))}

theorem derives_nil {text : List α} : Derives rules [] text ↔ text = [] := by
 constructor
 · intro h
   cases h
   rfl
 · rintro rfl
   exact .nil

theorem derives_terminals (letters : List α) (rest : List (Symbol α ν)) (text : List α) :
  Derives rules (letters.map .terminal ++ rest) text ↔
   ∃ more, text = letters ++ more ∧ Derives rules rest more := by
 induction letters generalizing text with
 | nil => simp
 | cons a letters ih =>
  rw [List.map_cons, List.cons_append]
  constructor
  · intro h
    cases h with
    | terminal hrest =>
     obtain ⟨more, rfl, hmore⟩ := (ih _).1 hrest
     exact ⟨more, rfl, hmore⟩
  · rintro ⟨more, rfl, hmore⟩
    exact .terminal ((ih _).2 ⟨more, rfl, hmore⟩)

theorem derives_rule (name : ν) (text : List α) :
  Derives rules [.nonterminal name] text ↔
   ∃ alternatives, rules name = some alternatives ∧
    ∃ alternative ∈ alternatives, Derives rules alternative text := by
 constructor
 · intro h
   cases h with
   | rule hrule hmem htext hrest =>
    rw [derives_nil.1 hrest, List.append_nil]
    exact ⟨_, hrule, _, hmem, htext⟩
 · rintro ⟨alternatives, hrule, alternative, hmem, htext⟩
   have h := Derives.rule hrule hmem htext .nil
   rwa [List.append_nil] at h

end MoltBrowser.RuleDerivations
