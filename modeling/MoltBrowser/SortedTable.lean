import MoltBrowser.TransitionRuns

set_option autoImplicit false

/-!
# Tables sorted by key

Association lists kept in increasing key order, as ordered and flat maps keep
their entries: insertion, lookup, and rebuilding a table by inserting its own
entries in order. A `Table` carries the proof of its order.
-/
namespace MoltBrowser.SortedTable
open List

universe u v w

variable {K : Type u} {V : Type v} [DecidableEq K] [LT K] [DecidableLT K]

def find : List (K × V) → K → Option V
 | [], _ => none
 | (k', v) :: t, k => if k = k' then some v else find t k

/-- Insert at the key's place, or replace the value of an equal key. -/
def upsert : List (K × V) → K → V → List (K × V)
 | [], k, v => [(k, v)]
 | (k', v') :: t, k, v =>
  if k = k' then (k, v) :: t
  else if k < k' then (k, v) :: (k', v') :: t
  else (k', v') :: upsert t k v

def Sorted (t : List (K × V)) : Prop := t.Pairwise fun a b => a.1 < b.1

omit [LT K] [DecidableLT K] in
@[simp] theorem find_nil (k : K) : find ([] : List (K × V)) k = none := rfl

theorem find_upsert (t : List (K × V)) (k k' : K) (v : V) :
  find (upsert t k v) k' = if k' = k then some v else find t k' := by
 induction t with
 | nil => rfl
 | cons p t ih =>
  obtain ⟨j, x⟩ := p
  simp only [upsert]
  by_cases hj : k = j
  · subst hj
    by_cases hk : k' = k <;> simp [find, hk]
  · by_cases hlt : k < j
    · simp only [hj, hlt, ↓reduceIte, find]
    · simp only [hj, hlt, ↓reduceIte, find, ih]
      by_cases hk : k' = k
      · subst hk
        simp [hj]
      · simp [hk]

theorem length_upsert {t : List (K × V)} {k : K} (v : V) (h : find t k = none) :
  (upsert t k v).length = t.length + 1 := by
 induction t with
 | nil => rfl
 | cons p t ih =>
  obtain ⟨j, x⟩ := p
  by_cases hj : k = j
  · simp [find, hj] at h
  · simp only [find, hj, ↓reduceIte] at h
    simp only [upsert, hj, ↓reduceIte]
    split
    · rfl
    · simp only [length_cons, ih h]

theorem mem_upsert {t : List (K × V)} {k : K} {v : V} {p : K × V} (h : p ∈ upsert t k v) :
  p = (k, v) ∨ p ∈ t := by
 induction t with
 | nil => simpa [upsert] using h
 | cons q t ih =>
  obtain ⟨j, x⟩ := q
  simp only [upsert] at h
  split at h
  · rcases mem_cons.1 h with h | h
    · exact .inl h
    · exact .inr (mem_cons_of_mem _ h)
  · split at h
    · rcases mem_cons.1 h with h | h
      · exact .inl h
      · exact .inr h
    · rcases mem_cons.1 h with h | h
      · exact .inr (h ▸ mem_cons_self)
      · rcases ih h with h | h
        · exact .inl h
        · exact .inr (mem_cons_of_mem _ h)

section Order

variable [Std.Asymm fun a b : K => a < b] [Std.Trichotomous fun a b : K => a < b]
 [@Trans K K K (· < ·) (· < ·) (· < ·)]

variable {t : List (K × V)}

omit [Std.Asymm fun a b : K => a < b] in
theorem sorted_upsert (h : Sorted t) (k : K) (v : V) : Sorted (upsert t k v) := by
 induction t with
 | nil => exact pairwise_singleton _ _
 | cons p t ih =>
  obtain ⟨j, x⟩ := p
  obtain ⟨hhead, htail⟩ := pairwise_cons.1 h
  simp only [upsert]
  split
  · next heq =>
    subst heq
    exact pairwise_cons.2 ⟨hhead, htail⟩
  · next hne =>
    split
    · next hlt =>
      refine pairwise_cons.2 ⟨fun q hq => ?_, h⟩
      rcases mem_cons.1 hq with rfl | hq
      · exact hlt
      · exact Trans.trans hlt (hhead q hq)
    · next hlt =>
      refine pairwise_cons.2 ⟨fun q hq => ?_, ih htail⟩
      rcases mem_upsert hq with rfl | hq
      · by_contra hnot
        exact hne (Std.Trichotomous.trichotomous _ _ hlt hnot)
      · exact hhead q hq

variable {k : K}

omit [Std.Trichotomous fun a b : K => a < b] [@Trans K K K (· < ·) (· < ·) (· < ·)] in
theorem upsert_of_lt (v : V) (h : ∀ p ∈ t, p.1 < k) :
  upsert t k v = t ++ [(k, v)] := by
 induction t with
 | nil => rfl
 | cons p t ih =>
  obtain ⟨j, x⟩ := p
  have hj : j < k := h (j, x) mem_cons_self
  have hlt : ¬ k < j := Std.Asymm.asymm _ _ hj
  have hne : k ≠ j := fun heq => by
   subst heq
   exact hlt hj
  simp only [upsert, hne, hlt, ↓reduceIte, cons_append,
   ih fun q hq => h q (mem_cons_of_mem _ hq)]

omit [Std.Trichotomous fun a b : K => a < b] [@Trans K K K (· < ·) (· < ·) (· < ·)] in
/-- Inserting a sorted table's entries in order rebuilds it, whatever is stored for each. -/
theorem foldl_upsert_sorted {W : Type w} (f : V → W) (done : List (K × W)) (t : List (K × V))
  (h : Sorted t) (hdone : ∀ p ∈ done, ∀ q ∈ t, p.1 < q.1) :
  t.foldl (fun d p => upsert d p.1 (f p.2)) done = done ++ t.map fun p => (p.1, f p.2) := by
 induction t generalizing done with
 | nil => simp
 | cons p t ih =>
  obtain ⟨hhead, htail⟩ := pairwise_cons.1 h
  rw [foldl_cons, upsert_of_lt _ fun q hq => hdone q hq p mem_cons_self,
   ih _ htail ?_]
  · simp
  · intro q hq r hr
    rcases mem_append.1 hq with hq | hq
    · exact hdone q hq r (mem_cons_of_mem _ hr)
    · rw [mem_singleton.1 hq]
      exact hhead r hr

variable (K V) in
structure Table where
 entries : List (K × V)
 sorted : Sorted entries

omit [DecidableEq K] [DecidableLT K] [Std.Asymm fun a b : K => a < b]
 [Std.Trichotomous fun a b : K => a < b] [@Trans K K K (· < ·) (· < ·) (· < ·)] in
@[ext] theorem Table.ext {s t : Table K V} (h : s.entries = t.entries) : s = t := by
 cases s
 cases t
 congr

def Table.empty : Table K V := ⟨[], List.Pairwise.nil⟩

def Table.get (t : Table K V) (k : K) : Option V := find t.entries k

def Table.insert (t : Table K V) (k : K) (v : V) : Table K V :=
 ⟨upsert t.entries k v, sorted_upsert t.sorted k v⟩

omit [Std.Asymm fun a b : K => a < b] in
theorem Table.get_insert (t : Table K V) (k k' : K) (v : V) :
  (t.insert k v).get k' = if k' = k then some v else t.get k' := find_upsert _ _ _ _

def Table.erase (t : Table K V) (k : K) : Table K V := ⟨t.entries.filter fun p => p.1 ≠ k, t.sorted.filter _⟩

omit [DecidableLT K] [Std.Asymm fun a b : K => a < b] [Std.Trichotomous fun a b : K => a < b]
 [@Trans K K K (· < ·) (· < ·) (· < ·)] in
theorem Table.get_erase (t : Table K V) (k k' : K) : (t.erase k).get k' = if k' = k then none else t.get k' := by
 obtain ⟨entries, sorted⟩ := t
 change find (entries.filter fun p => p.1 ≠ k) k' = if k' = k then none else find entries k'
 clear sorted
 induction entries with
 | nil => simp
 | cons p t ih =>
  obtain ⟨j, x⟩ := p
  by_cases hj : j = k
  · rw [filter_cons_of_neg (by simp [hj]), ih, find, hj]
    by_cases hk : k' = k
    · rw [if_pos hk, if_pos hk]
    · rw [if_neg hk, if_neg hk, if_neg hk]
  · rw [filter_cons_of_pos (by simp [hj]), find, ih, find]
    by_cases hk : k' = j
    · rw [if_pos hk, if_pos hk, if_neg fun h => hj (hk.symm.trans h)]
    · rw [if_neg hk, if_neg hk]

/-! ## Entries by their keys -/

omit [DecidableLT K] [Std.Trichotomous fun a b : K => a < b] [@Trans K K K (· < ·) (· < ·) (· < ·)] in
theorem find_of_above (h : ∀ p ∈ t, k < p.1) : find t k = none := by
 induction t with
 | nil => rfl
 | cons p t ih =>
  have hne : k ≠ p.1 := fun heq => Std.Asymm.asymm _ _ (heq ▸ h p mem_cons_self) (heq ▸ h p mem_cons_self)
  rw [find, if_neg hne]
  exact ih fun q hq => h q (mem_cons_of_mem _ hq)

variable {v : V}

omit [DecidableLT K] [Std.Trichotomous fun a b : K => a < b] [@Trans K K K (· < ·) (· < ·) (· < ·)] in
theorem mem_iff_find (h : Sorted t) : (k, v) ∈ t ↔ find t k = some v := by
 induction t with
 | nil => simp
 | cons p t ih =>
  obtain ⟨j, x⟩ := p
  obtain ⟨hhead, htail⟩ := pairwise_cons.1 h
  rw [mem_cons, find, ih htail]
  by_cases hj : k = j
  · rw [if_pos hj, find_of_above fun q hq => hj ▸ hhead q hq]
    simp [hj, eq_comm]
  · rw [if_neg hj]
    simp [hj]

omit [DecidableLT K] [Std.Trichotomous fun a b : K => a < b] [@Trans K K K (· < ·) (· < ·) (· < ·)] in
theorem Table.mem_entries (t : Table K V) : (k, v) ∈ t.entries ↔ t.get k = some v := mem_iff_find t.sorted

omit [DecidableLT K] [Std.Trichotomous fun a b : K => a < b] [@Trans K K K (· < ·) (· < ·) (· < ·)] in
theorem Table.ext_get {s t : Table K V} (h : ∀ k, s.get k = t.get k) : s = t := by
 apply Table.ext
 have hirrefl : Std.Irrefl fun p q : K × V => p.1 < q.1 := ⟨fun p hp => Std.Asymm.asymm _ _ hp hp⟩
 have hantisymm : Std.Antisymm fun p q : K × V => p.1 < q.1 := ⟨fun p q hpq hqp => absurd hqp (Std.Asymm.asymm _ _ hpq)⟩
 refine List.Pairwise.eq_of_mem_iff s.sorted t.sorted fun p => ?_
 rw [← Prod.mk.eta (p := p), Table.mem_entries, Table.mem_entries, h]

theorem Table.insert_get {t : Table K V} (h : t.get k = some v) : t.insert k v = t := by
 apply Table.ext_get
 intro j
 rw [Table.get_insert]
 split_ifs with hj
 · rw [hj, h]
 · rfl

theorem Table.erase_insert (t : Table K V) (k : K) (v : V) : (t.insert k v).erase k = t.erase k := by
 apply Table.ext_get
 intro j
 rw [Table.get_erase, Table.get_erase, Table.get_insert]
 split_ifs <;> rfl

omit [DecidableLT K] [Std.Trichotomous fun a b : K => a < b] [@Trans K K K (· < ·) (· < ·) (· < ·)] in
theorem Table.erase_none {t : Table K V} (h : t.get k = none) : t.erase k = t := by
 apply Table.ext_get
 intro j
 rw [Table.get_erase]
 split_ifs with hj
 · rw [hj, h]
 · rfl

/-- With the entries that fail `p` erased. -/
def Table.filter (t : Table K V) (p : V → Bool) : Table K V := ⟨t.entries.filter fun e => p e.2, t.sorted.filter _⟩

omit [DecidableLT K] [Std.Trichotomous fun a b : K => a < b] [@Trans K K K (· < ·) (· < ·) (· < ·)] in
theorem Table.get_filter (t : Table K V) (p : V → Bool) (k : K) : (t.filter p).get k = (t.get k).filter p := by
 apply Option.ext
 intro v
 rw [← Table.mem_entries, Table.filter, mem_filter, Table.mem_entries, Option.filter_eq_some_iff]

/-- With the entries that fail `p` erased, their keys read too. -/
def Table.keep (t : Table K V) (p : K × V → Bool) : Table K V := ⟨t.entries.filter p, t.sorted.filter _⟩

omit [DecidableLT K] [Std.Trichotomous fun a b : K => a < b] [@Trans K K K (· < ·) (· < ·) (· < ·)] in
theorem Table.get_keep (t : Table K V) (p : K × V → Bool) (k : K) : (t.keep p).get k = (t.get k).filter fun v => p (k, v) := by
 apply Option.ext
 intro v
 rw [← Table.mem_entries, Table.keep, mem_filter, Table.mem_entries, Option.filter_eq_some_iff]

def Table.size (t : Table K V) : ℕ := t.entries.length

def Table.sum (t : Table K V) (f : V → ℕ) : ℕ := (t.entries.map fun e => f e.2).sum

omit [Std.Trichotomous fun a b : K => a < b] in
theorem sum_upsert (f : V → ℕ) (h : Sorted t) (k : K) (v : V) :
  ((upsert t k v).map fun e => f e.2).sum + ((find t k).elim 0 f) = (t.map fun e => f e.2).sum + f v := by
 induction t with
 | nil => simp [upsert]
 | cons p t ih =>
  obtain ⟨j, x⟩ := p
  obtain ⟨hhead, htail⟩ := pairwise_cons.1 h
  have hrest := ih htail
  rw [upsert, find]
  by_cases hj : k = j
  · rw [if_pos hj, if_pos hj, map_cons, map_cons, sum_cons, sum_cons, Option.elim_some]
    dsimp only
    omega
  · rw [if_neg hj, if_neg hj]
    by_cases hlt : k < j
    · rw [if_pos hlt, find_of_above fun q hq => ?_, map_cons, sum_cons, Option.elim_none]
      · dsimp only
        omega
      · exact Trans.trans hlt (hhead q hq)
    · rw [if_neg hlt, map_cons, map_cons, sum_cons, sum_cons]
      omega

theorem Table.sum_insert (t : Table K V) (f : V → ℕ) (k : K) (v : V) :
  (t.insert k v).sum f + (t.get k).elim 0 f = t.sum f + f v := sum_upsert f t.sorted k v

theorem Table.sum_erase (t : Table K V) (f : V → ℕ) (k : K) : (t.erase k).sum f + (t.get k).elim 0 f = t.sum f := by
 cases hget : t.get k with
 | none => rw [erase_none hget, Option.elim_none, Nat.add_zero]
 | some v =>
  have hback : (t.erase k).insert k v = t := by
   apply Table.ext_get
   intro j
   rw [Table.get_insert, Table.get_erase]
   split_ifs with hj
   · rw [hj, hget]
   · rfl
  have hsum := (t.erase k).sum_insert f k v
  rw [hback, Table.get_erase, if_pos rfl, Option.elim_none, Nat.add_zero] at hsum
  exact hsum.symm

omit [DecidableEq K] [DecidableLT K] [Std.Asymm fun a b : K => a < b] [Std.Trichotomous fun a b : K => a < b]
 [@Trans K K K (· < ·) (· < ·) (· < ·)] in
theorem Table.size_eq_sum (t : Table K V) : t.size = t.sum fun _ => 1 := by
 rw [size, sum, map_const', sum_replicate, smul_eq_mul, mul_one]

theorem Table.size_insert (t : Table K V) (k : K) (v : V) : (t.insert k v).size + ((t.get k).elim 0 fun _ => 1) = t.size + 1 := by
 rw [size_eq_sum, size_eq_sum]
 exact t.sum_insert (fun _ => 1) k v

theorem Table.size_erase (t : Table K V) (k : K) : (t.erase k).size + ((t.get k).elim 0 fun _ => 1) = t.size := by
 rw [size_eq_sum, size_eq_sum]
 exact t.sum_erase (fun _ => 1) k

omit [DecidableEq K] [DecidableLT K] [Std.Asymm fun a b : K => a < b] [Std.Trichotomous fun a b : K => a < b]
 [@Trans K K K (· < ·) (· < ·) (· < ·)] in
theorem Table.size_keep_le (t : Table K V) (p : K × V → Bool) : (t.keep p).size ≤ t.size := length_filter_le _ _

omit [DecidableEq K] [DecidableLT K] [Std.Asymm fun a b : K => a < b] [Std.Trichotomous fun a b : K => a < b]
 [@Trans K K K (· < ·) (· < ·) (· < ·)] in
theorem Table.sum_filter (t : Table K V) (f : V → ℕ) (p : V → Bool) (h : ∀ v, p v = false → f v = 0) :
  (t.filter p).sum f = t.sum f := by
 obtain ⟨entries, sorted⟩ := t
 change ((entries.filter fun e => p e.2).map fun e => f e.2).sum = (entries.map fun e => f e.2).sum
 clear sorted
 induction entries with
 | nil => rfl
 | cons e t ih =>
  by_cases he : p e.2 = true
  · rw [filter_cons_of_pos (p := fun e : K × V => p e.2) he, map_cons, map_cons, sum_cons, sum_cons, ih]
  · rw [filter_cons_of_neg (p := fun e : K × V => p e.2) he, map_cons, sum_cons, ih, h _ (Bool.not_eq_true _ ▸ he), Nat.zero_add]

omit [Std.Asymm fun a b : K => a < b] in
theorem Table.entries_foldl_insert (l : List (K × V)) (t : Table K V) :
  (l.foldl (fun t p => t.insert p.1 p.2) t).entries =
   l.foldl (fun d p => upsert d p.1 p.2) t.entries := by
 induction l generalizing t with
 | nil => rfl
 | cons p l ih => exact ih (t.insert p.1 p.2)

theorem Table.rebuild (t : Table K V) :
  t.entries.foldl (fun t p => t.insert p.1 p.2) Table.empty = t := by
 apply Table.ext
 rw [entries_foldl_insert]
 simpa [empty] using foldl_upsert_sorted (fun v : V => v) [] t.entries t.sorted (by simp)

end Order

end MoltBrowser.SortedTable
