import MoltBrowser.SortedTable
import Mathlib.Order.Defs.LinearOrder

set_option autoImplicit false

/-!
# Walks over a sorted container, a chunk a task

A walk resumes by the last key it reached. Between its steps the container is anything.
-/
namespace MoltBrowser.ChunkedWalks
open SortedTable List

variable {Key Value : Type} [LinearOrder Key]

def keyOf (item : Key × Value) : Key := item.1

def keys (sorted : Table Key Value) : List Key := sorted.entries.map keyOf

/-- `upper_bound` -/
def upperBound (sorted : Table Key Value) (after : Key) : List (Key × Value) := sorted.entries.dropWhile fun item => keyOf item ≤ after

def takeKeys (max : ℕ) : List Key → List (Key × Value) → List Key × Bool
 | chunk, [] => (chunk, false)
 | chunk, item :: rest => if chunk.length < max then takeKeys max (chunk ++ [keyOf item]) rest else (chunk, true)

def nextChunk (sorted : Table Key Value) (after : Option Key) (max : ℕ) : List Key × Bool :=
 takeKeys max [] <| match after with
  | some after => upperBound sorted after
  | none => sorted.entries

/-- The chunks of a walk that finds these containers, step by step, and whether it ended. -/
def walk (max : ℕ) : Option Key → List (Table Key Value) → List (List Key) × Bool
 | _, [] => ([], false)
 | after, sorted :: later =>
  match nextChunk sorted after max with
  | (chunk, false) => ([chunk], true)
  | (chunk, true) =>
   let (chunks, ended) := walk max (chunk.getLast?.or after) later
   (chunk :: chunks, ended)

/-! ## One step -/

variable {sorted : Table Key Value} {after : Option Key} {max : ℕ} {key : Key}

def Past (after : Option Key) (key : Key) : Prop := ∀ k ∈ after, k < key

def rest (sorted : Table Key Value) (after : Option Key) : List Key := (keys sorted).filter fun key => decide (∀ k ∈ after, k < key)

omit [LinearOrder Key] in
theorem takeKeys_eq (chunk : List Key) (items : List (Key × Value)) (h : chunk.length ≤ max) :
  takeKeys max chunk items = (chunk ++ (items.map keyOf).take (max - chunk.length), decide (max - chunk.length < items.length)) := by
 induction items generalizing chunk with
 | nil => simp [takeKeys]
 | cons item items ih =>
  rw [takeKeys]
  by_cases hlt : chunk.length < max
  · obtain ⟨n, hn⟩ : ∃ n, max - chunk.length = n + 1 := ⟨max - chunk.length - 1, by omega⟩
    have hnext : max - (chunk ++ [keyOf item]).length = n := by simp; omega
    rw [if_pos hlt, ih _ (by simp; omega), hnext, hn]
    simp
  · have hzero : max - chunk.length = 0 := by omega
    rw [if_neg hlt, hzero]
    simp

theorem keys_sorted (sorted : Table Key Value) : (keys sorted).Pairwise (· < ·) := pairwise_map.mpr sorted.sorted

theorem dropWhile_eq_filter (items : List (Key × Value)) (h : items.Pairwise fun a b => a.1 < b.1) (after : Key) :
  (items.dropWhile fun item => keyOf item ≤ after) = items.filter fun item => after < keyOf item := by
 induction items with
 | nil => rfl
 | cons item items ih =>
  obtain ⟨hhead, htail⟩ := pairwise_cons.mp h
  by_cases hle : keyOf item ≤ after
  · rw [dropWhile_cons_of_pos (by simpa using hle), ih htail, filter_cons_of_neg (by simpa using hle)]
  · have hall : ∀ x ∈ items, after < keyOf x := fun x hx => (not_le.mp hle).trans (hhead x hx)
    rw [dropWhile_cons_of_neg (by simpa using hle), filter_cons_of_pos (by simpa using hle),
     filter_eq_self.mpr (by simpa using hall)]

theorem nextChunk_eq (sorted : Table Key Value) (after : Option Key) (max : ℕ) :
  nextChunk sorted after max = ((rest sorted after).take max, decide (max < (rest sorted after).length)) := by
 have hitems : ∀ items : List (Key × Value), takeKeys max [] items = ((items.map keyOf).take max, decide (max < (items.map keyOf).length)) := by
  intro items
  rw [takeKeys_eq [] items (Nat.zero_le max)]
  simp
 cases after with
 | none =>
  rw [nextChunk, hitems]
  simp [rest, keys]
 | some after =>
  rw [nextChunk, hitems, upperBound, dropWhile_eq_filter _ sorted.sorted, rest, keys, filter_map]
  simp [Function.comp_def]

theorem mem_rest : key ∈ rest sorted after ↔ key ∈ keys sorted ∧ Past after key := by
 rw [rest, mem_filter, decide_eq_true_eq]
 rfl

theorem rest_sorted (sorted : Table Key Value) (after : Option Key) : (rest sorted after).Pairwise (· < ·) := (keys_sorted sorted).filter _

theorem past_of_last {chunk : List Key} (hchunk : chunk.Pairwise (· < ·)) {k : Key} (hk : k ∈ chunk) (h : Past (chunk.getLast?.or after) key) :
  k < key := by
 have hne := ne_nil_of_mem hk
 have hlast := h (chunk.getLast hne) (by simp [getLast?_eq_some_getLast hne])
 have hle : k ≤ chunk.getLast hne := (hchunk.imp le_of_lt).rel_getLast hk
 exact lt_of_le_of_lt hle hlast

theorem past_of_later {chunk : List Key} (hchunk : ∀ k ∈ chunk, Past after k) (h : Past (chunk.getLast?.or after) key) : Past after key := by
 cases hlast : chunk.getLast? with
 | none => simpa [hlast] using h
 | some last => exact fun k hk => (hchunk last (mem_of_getLast? hlast) k hk).trans (h last (by simp [hlast]))

theorem past_last {l : List Key} (hl : l.Pairwise (· < ·)) {n : ℕ} (hafter : Past after key) (hmem : key ∈ l) (hout : key ∉ l.take n) :
  Past ((l.take n).getLast?.or after) key := by
 cases hlast : (l.take n).getLast? with
 | none => exact hafter
 | some last =>
  have hdrop : key ∈ l.drop n := by
   rw [← take_append_drop n l] at hmem
   exact (mem_append.mp hmem).resolve_left hout
  rw [← take_append_drop n l] at hl
  rw [Option.some_or]
  rintro k ⟨⟩
  exact (pairwise_append.mp hl).2.2 _ (mem_of_getLast? hlast) _ hdrop

/-! ## The whole walk -/

structure Walked (after : Option Key) (max : ℕ) (containers : List (Table Key Value)) (chunks : List (List Key)) (ended : Bool) : Prop where
 ordered : chunks.flatten.Pairwise (· < ·)
 past : ∀ key ∈ chunks.flatten, Past after key
 bounded : ∀ chunk ∈ chunks, chunk.length ≤ max
 /-- Each step's keys are of the container it finds. -/
 found : List.Forall₂ (fun chunk sorted => ∀ key ∈ chunk, key ∈ keys sorted) chunks (containers.take chunks.length)
 misses_none : ended = true → ∀ key, Past after key → (∀ sorted ∈ containers.take chunks.length, key ∈ keys sorted) → key ∈ chunks.flatten

theorem walked (max : ℕ) (after : Option Key) (containers : List (Table Key Value)) :
  Walked after max containers (walk max after containers).1 (walk max after containers).2 := by
 induction containers generalizing after with
 | nil => exact ⟨.nil, by simp [walk], by simp [walk], by simp [walk], by simp [walk]⟩
 | cons sorted later ih =>
  have hordered := (rest_sorted sorted after).sublist (take_sublist max _)
  have hlength : ((rest sorted after).take max).length ≤ max := length_take_le _ _
  have hpast : ∀ key ∈ (rest sorted after).take max, key ∈ keys sorted ∧ Past after key := fun key hkey =>
   mem_rest.mp (mem_of_mem_take hkey)
  rw [walk, nextChunk_eq]
  by_cases hmore : max < (rest sorted after).length
  · obtain ⟨hflat, hlater, hbounded, hfound, hmisses⟩ := ih (((rest sorted after).take max).getLast?.or after)
    rw [decide_eq_true hmore]
    dsimp only
    refine ⟨?_, ?_, ?_, ?_, ?_⟩
    · rw [flatten_cons]
      refine pairwise_append.mpr ⟨hordered, hflat, fun a ha b hb => ?_⟩
      exact past_of_last hordered ha (hlater b hb)
    · intro key hkey
      rw [flatten_cons] at hkey
      rcases mem_append.mp hkey with hkey | hkey
      · exact (hpast key hkey).2
      · exact past_of_later (fun k hk => (hpast k hk).2) (hlater key hkey)
    · exact forall_mem_cons.mpr ⟨hlength, hbounded⟩
    · exact .cons (fun key hkey => (hpast key hkey).1) hfound
    · intro hended key hkey hthroughout
      rw [length_cons, take_succ_cons] at hthroughout
      obtain ⟨hsorted, hthroughout⟩ := forall_mem_cons.mp hthroughout
      rw [flatten_cons, mem_append]
      by_cases htaken : key ∈ (rest sorted after).take max
      · exact .inl htaken
      · exact .inr (hmisses hended key (past_last (rest_sorted sorted after) hkey (mem_rest.mpr ⟨hsorted, hkey⟩) htaken) hthroughout)
  · have hall : (rest sorted after).take max = rest sorted after := take_of_length_le (Nat.le_of_not_lt hmore)
    rw [decide_eq_false hmore, hall]
    rw [hall] at hordered hlength hpast
    dsimp only
    refine ⟨by simpa using hordered, by simpa using fun key hkey => (hpast key hkey).2, by simpa using hlength, ?_, ?_⟩
    · exact .cons (fun key hkey => (hpast key hkey).1) (by simp)
    · intro _ key hkey hthroughout
      simpa using mem_rest.mpr ⟨by simpa using hthroughout, hkey⟩

end MoltBrowser.ChunkedWalks
