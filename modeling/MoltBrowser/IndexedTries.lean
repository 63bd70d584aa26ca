import MoltBrowser.SortedTable
import Mathlib

set_option autoImplicit false

/-!
# Tries in an array

The nodes of a trie by index, the root first. Each node has the text that leads to it; inserting a
text adds the nodes it lacks and marks the last one.
-/
namespace MoltBrowser.IndexedTries
open SortedTable List

variable {α : Type*} [LinearOrder α]

structure Node (α : Type*) where
 children : List (α × ℕ) := []
 terminal : Bool := false

def leaf : Node α where

def nodeAt (nodes : List (Node α)) (n : ℕ) : Node α := nodes.getD n leaf

def addChild (node : Node α) (c : α) (child : ℕ) : Node α :=
 { node with children := upsert node.children c child }

def mark (node : Node α) : Node α := { node with terminal := true }

/-- Follows a text from a node, adding what is missing. -/
def insertFrom (nodes : List (Node α)) (n : ℕ) : List α → List (Node α) × ℕ
 | [] => (nodes, n)
 | c :: text =>
  match find (nodeAt nodes n).children c with
  | some child => insertFrom nodes child text
  | none => insertFrom ((nodes ++ [leaf]).modify n fun node => addChild node c nodes.length) nodes.length text

def insert (nodes : List (Node α)) (text : List α) : List (Node α) :=
 let (nodes, n) := insertFrom nodes 0 text
 nodes.modify n mark

def build (texts : List (List α)) : List (Node α) := texts.foldl insert [leaf]

/-! ## The texts that lead to the nodes -/

/-- The nodes are a tree: `paths` has the text that leads to each. -/
structure Trie (nodes : List (Node α)) (paths : List (List α)) : Prop where
 length : paths.length = nodes.length
 root : paths[0]? = some []
 nodup : paths.Nodup
 sorted : ∀ n, Sorted (nodeAt nodes n).children
 child : ∀ {n : ℕ} {path : List α}, paths[n]? = some path → ∀ c m,
  find (nodeAt nodes n).children c = some m ↔ paths[m]? = some (path ++ [c])
 later : ∀ {n m : ℕ} {path : List α} {c : α},
  paths[n]? = some path → paths[m]? = some (path ++ [c]) → n < m
 closed : ∀ {path : List α} {c : α}, path ++ [c] ∈ paths → path ∈ paths

def Holds (nodes : List (Node α)) (paths : List (List α)) (text : List α) : Prop :=
 ∃ n, paths[n]? = some text ∧ (nodeAt nodes n).terminal = true

section Nodes

variable {nodes : List (Node α)}

variable {n : ℕ}

omit [LinearOrder α] in
theorem nodeAt_of_le (h : nodes.length ≤ n) : nodeAt nodes n = leaf := by
 rw [nodeAt, getD_eq_getElem?_getD, getElem?_eq_none h]
 rfl

omit [LinearOrder α] in
theorem nodeAt_append (k : ℕ) : nodeAt (nodes ++ [leaf]) k = nodeAt nodes k := by
 rw [nodeAt, getD_eq_getElem?_getD, getElem?_append]
 split_ifs with hlt
 · rw [nodeAt, getD_eq_getElem?_getD]
 · rw [nodeAt_of_le (Nat.not_lt.1 hlt)]
   cases k - nodes.length <;> rfl

omit [LinearOrder α] in
theorem nodeAt_modify (f : Node α → Node α) (h : n < nodes.length) (k : ℕ) :
  nodeAt (nodes.modify n f) k = if n = k then f (nodeAt nodes k) else nodeAt nodes k := by
 rw [nodeAt, getD_eq_getElem?_getD, getElem?_modify, nodeAt, getD_eq_getElem?_getD]
 by_cases hk : n = k
 · subst hk
   rw [getElem?_eq_getElem h]
   simp
 · simp [hk]

omit [LinearOrder α] in
theorem nodeAt_leaf (n : ℕ) : nodeAt [(leaf : Node α)] n = leaf := @nodeAt_append α [] n

theorem nodeAt_grow (c : α) (h : n < nodes.length) (k : ℕ) :
  nodeAt ((nodes ++ [leaf]).modify n fun node => addChild node c nodes.length) k =
   if n = k then addChild (nodeAt nodes k) c nodes.length else nodeAt nodes k := by
 rw [nodeAt_modify _ (by rw [length_append]; exact Nat.lt_add_right 1 h), nodeAt_append]

omit [LinearOrder α] in
theorem getElem?_snoc (paths : List (List α)) (new path : List α) (k : ℕ) :
  (paths ++ [new])[k]? = some path ↔ paths[k]? = some path ∨ (k = paths.length ∧ path = new) := by
 rw [getElem?_append]
 split_ifs with hlt
 · exact (or_iff_left fun h => absurd h.1 (Nat.ne_of_lt hlt)).symm
 · rw [getElem?_eq_none (Nat.not_lt.1 hlt)]
   by_cases hk : k = paths.length
   · subst hk
     simp [eq_comm]
   · rw [getElem?_eq_none]
     · simp [hk]
     · rw [length_singleton]
       omega

end Nodes

section Trie

variable {nodes : List (Node α)} {paths : List (List α)}

variable {n : ℕ} {path : List α}

theorem Trie.unique (h : Trie nodes paths) {m : ℕ} (hn : paths[n]? = some path)
  (hm : paths[m]? = some path) : n = m := by
 obtain ⟨hlt, -⟩ := List.getElem?_eq_some_iff.1 hn
 exact (getElem?_inj hlt h.nodup).1 (hn.trans hm.symm)

theorem Trie.lt (h : Trie nodes paths) (hn : paths[n]? = some path) :
  n < nodes.length := h.length ▸ (List.getElem?_eq_some_iff.1 hn).1

variable {c : α}

theorem Trie.grow (h : Trie nodes paths) (hn : paths[n]? = some path)
  (hc : find (nodeAt nodes n).children c = none) :
  Trie ((nodes ++ [leaf]).modify n fun node => addChild node c nodes.length) (paths ++ [path ++ [c]]) := by
 have hlt := h.lt hn
 have hfresh : path ++ [c] ∉ paths := by
  intro hmem
  obtain ⟨m, hm⟩ := mem_iff_getElem?.1 hmem
  rw [(h.child hn c m).2 hm] at hc
  exact Option.some_ne_none m hc
 have hdeeper : ∀ d, path ++ [c] ++ [d] ∉ paths := fun d hmem => hfresh (h.closed hmem)
 constructor
 case length => rw [length_append, length_modify, length_append, h.length]; rfl
 case root => exact (getElem?_snoc ..).2 (Or.inl h.root)
 case nodup => exact nodup_append.2 ⟨h.nodup, nodup_singleton _, fun a ha b hb hab =>
   hfresh (mem_singleton.1 hb ▸ hab ▸ ha)⟩
 case sorted =>
  intro k
  rw [nodeAt_grow c hlt]
  split_ifs
  · exact sorted_upsert (h.sorted k) c nodes.length
  · exact h.sorted k
 case child =>
  intro k q hk d m
  rw [nodeAt_grow c hlt, getElem?_snoc]
  rcases (getElem?_snoc ..).1 hk with hold | ⟨rfl, rfl⟩
  · split_ifs with hkn
    · subst hkn
      obtain rfl : path = q := Option.some.inj (hn.symm.trans hold)
      rw [addChild, find_upsert]
      split_ifs with hdc
      · subst hdc
        rw [or_iff_right fun hm => hfresh (mem_of_getElem? hm), Option.some.injEq, h.length]
        simp [eq_comm]
      · rw [h.child hold, or_iff_left]
        rintro ⟨-, heq⟩
        exact hdc (by simpa using heq)
    · rw [h.child hold, or_iff_left]
      rintro ⟨-, heq⟩
      obtain ⟨rfl, -⟩ := append_inj' heq rfl
      exact hkn (h.unique hn hold)
  · rw [if_neg (by rw [h.length]; omega), nodeAt_of_le h.length.ge]
    constructor
    · exact fun hnone => absurd hnone (Option.some_ne_none m).symm
    · rintro (hdeep | ⟨-, heq⟩)
      · exact absurd (mem_of_getElem? hdeep) (hdeeper d)
      · exact absurd (congrArg List.length heq) (by simp)
 case later =>
  intro k m q d hk hm
  rcases (getElem?_snoc ..).1 hm with hm | ⟨rfl, heq⟩
  · rcases (getElem?_snoc ..).1 hk with hk | ⟨-, rfl⟩
    · exact h.later hk hm
    · exact absurd (mem_of_getElem? hm) (hdeeper d)
  · obtain ⟨rfl, -⟩ := append_inj' heq rfl
    rcases (getElem?_snoc ..).1 hk with hk | ⟨-, heq'⟩
    · exact (List.getElem?_eq_some_iff.1 hk).1
    · exact absurd (congrArg List.length heq') (by simp)
 case closed =>
  intro q d hmem
  apply mem_append_left
  rcases mem_append.1 hmem with hold | hnew
  · exact h.closed hold
  · obtain ⟨rfl, -⟩ := append_inj' (mem_singleton.1 hnew) rfl
    exact mem_of_getElem? hn

theorem holds_grow (h : Trie nodes paths) (hn : paths[n]? = some path)
  (text : List α) :
  Holds ((nodes ++ [leaf]).modify n fun node => addChild node c nodes.length) (paths ++ [path ++ [c]]) text ↔
   Holds nodes paths text := by
 have hterminal : ∀ k, (nodeAt ((nodes ++ [leaf]).modify n fun node => addChild node c nodes.length) k).terminal =
   (nodeAt nodes k).terminal := fun k => by
  rw [nodeAt_grow c (h.lt hn)]
  split_ifs <;> rfl
 constructor
 · rintro ⟨k, hk, hend⟩
   rw [hterminal] at hend
   rcases (getElem?_snoc ..).1 hk with hold | ⟨rfl, -⟩
   · exact ⟨k, hold, hend⟩
   · rw [nodeAt_of_le h.length.ge] at hend
     exact Bool.noConfusion hend
 · rintro ⟨k, hk, hend⟩
   exact ⟨k, (getElem?_snoc ..).2 (Or.inl hk), by rwa [hterminal]⟩

/-- What `insertFrom` leaves: a trie of the same texts with a node for the one it followed. -/
structure Followed (nodes : List (Node α)) (paths : List (List α)) (text : List α)
  (result : List (Node α) × ℕ) (paths' : List (List α)) : Prop where
 trie : Trie result.1 paths'
 last : paths'[result.2]? = some text
 holds : ∀ other, Holds result.1 paths' other ↔ Holds nodes paths other
 grown : ∀ q ∈ paths', q ∈ paths ∨ q <+: text

theorem insertFrom_spec (h : Trie nodes paths) (hn : paths[n]? = some path)
  (text : List α) : ∃ paths', Followed nodes paths (path ++ text) (insertFrom nodes n text) paths' := by
 induction text generalizing nodes paths n path with
 | nil => exact ⟨paths, h, by rw [append_nil]; exact hn, fun other => Iff.rfl, fun q hq => Or.inl hq⟩
 | cons c text ih =>
  rw [insertFrom, append_cons]
  cases hc : find (nodeAt nodes n).children c with
  | some child => exact ih h ((h.child hn c child).1 hc)
  | none =>
   have hnew : (paths ++ [path ++ [c]])[nodes.length]? = some (path ++ [c]) :=
    (getElem?_snoc ..).2 (Or.inr ⟨h.length.symm, rfl⟩)
   obtain ⟨paths', hfollowed⟩ := ih (h.grow hn hc) hnew
   refine ⟨paths', hfollowed.trie, hfollowed.last, fun other =>
    (hfollowed.holds other).trans (holds_grow h hn other), fun q hq => ?_⟩
   rcases hfollowed.grown q hq with hmem | hprefix
   · rcases mem_append.1 hmem with hold | hlast
     · exact Or.inl hold
     · rw [mem_singleton.1 hlast]
       exact Or.inr (prefix_append _ _)
   · exact Or.inr hprefix

theorem Trie.mark (h : Trie nodes paths) (hn : paths[n]? = some path) :
  Trie (nodes.modify n mark) paths ∧
   ∀ text, Holds (nodes.modify n mark) paths text ↔ Holds nodes paths text ∨ text = path := by
 have hchildren : ∀ k, (nodeAt (nodes.modify n IndexedTries.mark) k).children = (nodeAt nodes k).children :=
  fun k => by
   rw [nodeAt_modify _ (h.lt hn)]
   split_ifs <;> rfl
 refine ⟨⟨?_, h.root, h.nodup, fun k => ?_, fun {k q} hk c m => ?_, h.later, h.closed⟩, fun text => ?_⟩
 · rw [length_modify, h.length]
 · rw [hchildren]
   exact h.sorted k
 · rw [hchildren]
   exact h.child hk c m
 · constructor
   · rintro ⟨k, hk, hend⟩
     rw [nodeAt_modify _ (h.lt hn)] at hend
     split_ifs at hend with hnk
     · subst hnk
       exact Or.inr (Option.some.inj (hk.symm.trans hn))
     · exact Or.inl ⟨k, hk, hend⟩
   · rintro (⟨k, hk, hend⟩ | rfl)
     · refine ⟨k, hk, ?_⟩
       rw [nodeAt_modify _ (h.lt hn)]
       split_ifs
       · rfl
       · exact hend
     · refine ⟨n, hn, ?_⟩
       rw [nodeAt_modify _ (h.lt hn), if_pos rfl]
       rfl

theorem insert_spec (h : Trie nodes paths) (text : List α) :
  ∃ paths', Trie (insert nodes text) paths' ∧ (∀ q ∈ paths', q ∈ paths ∨ q <+: text) ∧
   ∀ other, Holds (insert nodes text) paths' other ↔ Holds nodes paths other ∨ other = text := by
 obtain ⟨paths', hfollowed⟩ := insertFrom_spec h h.root text
 obtain ⟨htrie, hholds⟩ := hfollowed.trie.mark hfollowed.last
 exact ⟨paths', htrie, hfollowed.grown, fun other => (hholds other).trans (or_congr_left (hfollowed.holds other))⟩

theorem trie_leaf : Trie [(leaf : Node α)] [[]] where
 length := rfl
 root := rfl
 nodup := nodup_singleton []
 sorted n := by
  rw [nodeAt_leaf]
  exact List.Pairwise.nil
 child {n path} hn c m := by
  rw [nodeAt_leaf]
  constructor
  · exact fun hnone => absurd hnone (Option.some_ne_none m).symm
  · intro hm
    have hnil := mem_singleton.1 (mem_of_getElem? hm)
    exact absurd hnil (append_ne_nil_of_right_ne_nil path (cons_ne_nil c []))
 later {n m path c} _ hm := by
  have hnil := mem_singleton.1 (mem_of_getElem? hm)
  exact absurd hnil (append_ne_nil_of_right_ne_nil path (cons_ne_nil c []))
 closed {path c} hmem :=
  absurd (mem_singleton.1 hmem) (append_ne_nil_of_right_ne_nil path (cons_ne_nil c []))

theorem foldl_insert (texts : List (List α)) (h : Trie nodes paths) :
  ∃ paths', Trie (texts.foldl insert nodes) paths' ∧
   (∀ q ∈ paths', q ∈ paths ∨ ∃ text ∈ texts, q <+: text) ∧
   ∀ text, Holds (texts.foldl insert nodes) paths' text ↔ Holds nodes paths text ∨ text ∈ texts := by
 induction texts generalizing nodes paths with
 | nil => exact ⟨paths, h, fun q hq => Or.inl hq, fun text => by simp⟩
 | cons first texts ih =>
  obtain ⟨paths₁, h₁, hgrown₁, hholds₁⟩ := insert_spec h first
  obtain ⟨paths₂, h₂, hgrown₂, hholds₂⟩ := ih h₁
  refine ⟨paths₂, h₂, fun q hq => ?_, fun text => (hholds₂ text).trans ?_⟩
  · rcases hgrown₂ q hq with hmem | ⟨text, htext, hprefix⟩
    · rcases hgrown₁ q hmem with hold | hprefix
      · exact Or.inl hold
      · exact Or.inr ⟨first, mem_cons_self .., hprefix⟩
    · exact Or.inr ⟨text, mem_cons_of_mem first htext, hprefix⟩
  · rw [hholds₁, mem_cons, or_assoc]

theorem build_spec (texts : List (List α)) :
  ∃ paths, Trie (build texts) paths ∧ (∀ q ∈ paths, q = [] ∨ ∃ text ∈ texts, q <+: text) ∧
   ∀ text, Holds (build texts) paths text ↔ text ∈ texts := by
 obtain ⟨paths, h, hgrown, hholds⟩ := foldl_insert texts trie_leaf
 refine ⟨paths, h, fun q hq => ?_, fun text => (hholds text).trans (or_iff_right ?_)⟩
 · exact (hgrown q hq).imp_left mem_singleton.1
 · rintro ⟨n, -, hend⟩
   rw [nodeAt_leaf] at hend
   exact Bool.noConfusion hend

theorem Trie.closed_append (h : Trie nodes paths) {rest : List α} (hmem : path ++ rest ∈ paths) :
  path ∈ paths := by
 induction rest using List.reverseRecOn with
 | nil => rwa [append_nil] at hmem
 | append_singleton rest c ih =>
  rw [← append_assoc] at hmem
  exact ih (h.closed hmem)

theorem holds_below (h : Trie nodes paths) (hn : paths[n]? = some path)
  (text : List α) :
  Holds nodes paths (path ++ text) ↔ (text = [] ∧ (nodeAt nodes n).terminal = true) ∨
   ∃ c child, (c, child) ∈ (nodeAt nodes n).children ∧
    ∃ rest, text = c :: rest ∧ Holds nodes paths (path ++ [c] ++ rest) := by
 constructor
 · rintro ⟨k, hk, hend⟩
   cases text with
   | nil =>
    rw [append_nil] at hk
    rw [h.unique hk hn] at hend
    exact Or.inl ⟨rfl, hend⟩
   | cons c rest =>
    rw [append_cons] at hk
    obtain ⟨child, hchild⟩ := mem_iff_getElem?.1 (h.closed_append (mem_of_getElem? hk))
    have hfind := (h.child hn c child).2 hchild
    exact Or.inr ⟨c, child, (mem_iff_find (h.sorted n)).2 hfind, rest, rfl, k, hk, hend⟩
 · rintro (⟨rfl, hend⟩ | ⟨c, child, -, rest, rfl, hrest⟩)
   · exact ⟨n, by rwa [append_nil], hend⟩
   · rwa [append_cons]

theorem Trie.child_of_mem (h : Trie nodes paths) {child : ℕ}
  (hn : paths[n]? = some path) (hmem : (c, child) ∈ (nodeAt nodes n).children) :
  paths[child]? = some (path ++ [c]) ∧ n < child := by
 have hchild := (h.child hn c child).1 ((mem_iff_find (h.sorted n)).1 hmem)
 exact ⟨hchild, h.later hn hchild⟩

/-! ## Chains of single children -/

/-- From a node on as long as it holds no text and has one child: the label and the last node. -/
def chainFrom (nodes : List (Node α)) : ℕ → ℕ → List α × ℕ
 | 0, n => ([], n)
 | fuel + 1, n =>
  match (nodeAt nodes n).terminal, (nodeAt nodes n).children with
  | false, [(c, child)] => (c :: (chainFrom nodes fuel child).1, (chainFrom nodes fuel child).2)
  | _, _ => ([], n)

def Single (nodes : List (Node α)) (n : ℕ) (c : α) (child : ℕ) : Prop :=
 (nodeAt nodes n).terminal = false ∧ (nodeAt nodes n).children = [(c, child)]

omit [LinearOrder α] in
theorem chainFrom_succ (nodes : List (Node α)) (fuel n : ℕ) :
  (∃ c child, Single nodes n c child ∧ chainFrom nodes (fuel + 1) n =
   (c :: (chainFrom nodes fuel child).1, (chainFrom nodes fuel child).2)) ∨
  ((∀ c child, ¬ Single nodes n c child) ∧ chainFrom nodes (fuel + 1) n = ([], n)) := by
 rw [chainFrom]
 split
 · next c child hterminal hchildren => exact Or.inl ⟨c, child, ⟨hterminal, hchildren⟩, rfl⟩
 · next hnot => exact Or.inr ⟨fun c child hsingle => hnot c child hsingle.1 hsingle.2, rfl⟩

theorem chainFrom_spec (h : Trie nodes paths) (fuel : ℕ) (hn : paths[n]? = some path) :
  paths[(chainFrom nodes fuel n).2]? = some (path ++ (chainFrom nodes fuel n).1) ∧
   n ≤ (chainFrom nodes fuel n).2 ∧
   ∀ text, Holds nodes paths (path ++ text) ↔ ∃ rest, text = (chainFrom nodes fuel n).1 ++ rest ∧
    Holds nodes paths (path ++ (chainFrom nodes fuel n).1 ++ rest) := by
 induction fuel generalizing n path with
 | zero => exact ⟨by rw [chainFrom, append_nil]; exact hn, le_refl n, fun text => by simp [chainFrom]⟩
 | succ fuel ih =>
  rcases chainFrom_succ nodes fuel n with ⟨c, child, ⟨hterminal, hchildren⟩, heq⟩ | ⟨-, heq⟩
  · have hmem : (c, child) ∈ (nodeAt nodes n).children := hchildren ▸ mem_singleton_self _
    obtain ⟨hchild, hlater⟩ := h.child_of_mem hn hmem
    obtain ⟨hend, hle, hbelow⟩ := ih hchild
    rw [heq]
    refine ⟨by rw [append_cons]; exact hend, hlater.le.trans hle, fun text => ?_⟩
    rw [holds_below h hn, hchildren, append_cons]
    constructor
    · rintro (⟨-, hstop⟩ | ⟨d, m, hd, rest, rfl, hrest⟩)
      · rw [hterminal] at hstop
        exact Bool.noConfusion hstop
      · obtain ⟨rfl, rfl⟩ := Prod.mk.inj (mem_singleton.1 hd)
        obtain ⟨more, rfl, hmore⟩ := (hbelow rest).1 hrest
        exact ⟨more, rfl, hmore⟩
    · rintro ⟨more, rfl, hmore⟩
      exact Or.inr ⟨c, child, mem_singleton_self _, _, rfl, (hbelow _).2 ⟨more, rfl, hmore⟩⟩
  · rw [heq]
    exact ⟨by rw [append_nil]; exact hn, le_refl n, fun text => by simp⟩

theorem chainFrom_stops (h : Trie nodes paths) {fuel : ℕ} (hn : paths[n]? = some path)
  (hfuel : nodes.length - n ≤ fuel) (c : α) (child : ℕ) :
  ¬ Single nodes (chainFrom nodes fuel n).2 c child := by
 induction fuel generalizing n path with
 | zero =>
  have hlt := h.lt hn
  omega
 | succ fuel ih =>
  rcases chainFrom_succ nodes fuel n with ⟨d, m, ⟨-, hchildren⟩, heq⟩ | ⟨hnot, heq⟩
  · have hmem : (d, m) ∈ (nodeAt nodes n).children := hchildren ▸ mem_singleton_self _
    obtain ⟨hchild, hlater⟩ := h.child_of_mem hn hmem
    rw [heq]
    exact ih hchild (by omega)
  · rw [heq]
    exact hnot c child

end Trie

end MoltBrowser.IndexedTries
