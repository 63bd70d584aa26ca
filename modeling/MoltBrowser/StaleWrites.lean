import MoltBrowser.TransitionRuns

set_option autoImplicit false

/-!
# Writing back what was computed from an earlier read

Several parties read one stored value, work, and write a value computed from
what they read. The writes add up when nobody reads while another is at work;
otherwise at least one of them is lost.
-/
namespace MoltBrowser.StaleWrites

universe u v w

variable {K : Type u} {V : Type v} {E : Type w}

structure Store (K : Type u) (V : Type v) where
 stored : V
 /-- Who is at work, and on what value. -/
 held : List (K × V) := []

inductive Event (K : Type u) (E : Type w) where
 | read (k : K)
 | write (k : K) (e : E)

def Event.written : Event K E → Option E
 | .read _ => none
 | .write _ e => some e

def writes (ops : List (Event K E)) : List E := ops.filterMap Event.written

theorem length_writes_cons (a : Event K E) (ops : List (Event K E)) :
  (writes (a :: ops)).length = a.written.toList.length + (writes ops).length := by
 cases a with
 | read k => exact (Nat.zero_add _).symm
 | write k e => exact Nat.add_comm _ 1

variable [DecidableEq K]

/-- The value that `k` works on. -/
def Store.holds (s : Store K V) (k : K) : Option V := (s.held.find? fun kv => kv.1 = k).map Prod.snd

def step (apply : V → E → V) (s : Store K V) : Event K E → Store K V
 | .read k => { s with held := (k, s.stored) :: s.held }
 | .write k e =>
  match s.holds k with
  | some v => { stored := apply v e, held := s.held.eraseP fun kv => kv.1 = k }
  | none => s

def Valid (s : Store K V) : Event K E → Prop
 | .read k => s.holds k = none
 | .write k _ => (s.holds k).isSome

def Alone (s : Store K V) : Event K E → Prop
 | .read _ => s.held = []
 | .write _ _ => True

instance (s : Store K V) (a : Event K E) : Decidable (Valid s a) := by
 cases a <;> unfold Valid <;> infer_instance

theorem holds_eq_some {s : Store K V} {k : K} {v : V} (h : s.holds k = some v) :
  (k, v) ∈ s.held ∧ (s.held.eraseP fun kv => kv.1 = k).length + 1 = s.held.length := by
 simp only [Store.holds, Option.map_eq_some_iff] at h
 obtain ⟨⟨k', v'⟩, hfind, rfl⟩ := h
 have hk : k' = k := by simpa using List.find?_some hfind
 subst hk
 have hmem := List.mem_of_find?_eq_some hfind
 refine ⟨hmem, ?_⟩
 have hlen := List.length_eraseP_of_mem hmem (p := fun kv => decide (kv.1 = k')) (by simp)
 have hpos := List.length_pos_of_mem hmem
 omega

theorem step_cases (apply : V → E → V) {s : Store K V} {a : Event K E} (hvalid : Valid s a) :
  (∃ k, a = .read k ∧ step apply s a = { s with held := (k, s.stored) :: s.held }) ∨
   ∃ k e v, a = .write k e ∧ (k, v) ∈ s.held ∧
    (s.held.eraseP fun kv => kv.1 = k).length + 1 = s.held.length ∧
    step apply s a = ⟨apply v e, s.held.eraseP fun kv => kv.1 = k⟩ := by
 cases a with
 | read k => exact .inl ⟨k, rfl, rfl⟩
 | write k e =>
  obtain ⟨v, hv⟩ := Option.isSome_iff_exists.1 hvalid
  obtain ⟨hmem, hlen⟩ := holds_eq_some hv
  exact .inr ⟨k, e, v, rfl, hmem, hlen, by simp only [step, hv]⟩

/-! ## One at a time -/

section Alone

variable (apply : V → E → V)

def Current (s : Store K V) : Prop := s.held = [] ∨ ∃ k, s.held = [(k, s.stored)]

theorem Current.step {s : Store K V} {a : Event K E} (hs : Current s) (hvalid : Valid s a)
  (halone : Alone s a) :
  Current (step apply s a) ∧
   (StaleWrites.step apply s a).stored = a.written.toList.foldl apply s.stored := by
 obtain ⟨k, rfl, hstep⟩ | ⟨k, e, v, rfl, hmem, hlen, hstep⟩ := step_cases apply hvalid
 · rw [hstep]
   refine ⟨.inr ⟨k, ?_⟩, rfl⟩
   rw [show s.held = [] from halone]
 · rw [hstep]
   rcases hs with hnil | ⟨k', hone⟩
   · rw [hnil] at hmem
     cases hmem
   · rw [hone, List.mem_singleton] at hmem
     obtain ⟨rfl, rfl⟩ := Prod.mk.inj hmem
     exact ⟨.inl (by simp [hone]), rfl⟩

theorem run_stored_of_alone {s : Store K V} {ops : List (Event K E)} (hs : Current s)
  (hvalid : TransitionRuns.Along (step apply) Valid s ops)
  (halone : TransitionRuns.Along (step apply) Alone s ops) :
  (TransitionRuns.run (step apply) s ops).stored = (writes ops).foldl apply s.stored := by
 induction ops generalizing s with
 | nil => rfl
 | cons a ops ih =>
  obtain ⟨hcurrent, hstored⟩ := hs.step apply hvalid.1 halone.1
  rw [TransitionRuns.run_cons, ih hcurrent hvalid.2 halone.2, hstored]
  cases a with
  | read k => rfl
  | write k e => rfl

end Alone

/-! ## A write that is lost -/

section Lost

variable {A : Type*} {apply : V → E → V} {next : A → A} {count : V → A}

/-- The count is that of `n` writes after `c`. -/
def Counts (next : A → A) (count : V → A) (c : A) (n : ℕ) (v : V) : Prop := count v = next^[n] c

def Bounded (next : A → A) (count : V → A) (c : A) (n : ℕ) (s : Store K V) : Prop :=
 (∃ m ≤ n, Counts next count c m s.stored) ∧ ∀ kv ∈ s.held, ∃ m ≤ n, Counts next count c m kv.2

def Behind (next : A → A) (count : V → A) (c : A) (n : ℕ) (s : Store K V) : Prop :=
 2 ≤ s.held.length ∨ (∃ k v, ∃ m < n, s.held = [(k, v)] ∧ Counts next count c m v) ∨
  (s.held = [] ∧ ∃ m < n, Counts next count c m s.stored)

variable (hcount : ∀ v e, count (apply v e) = next (count v)) {c : A} {n : ℕ} {s : Store K V}
 {a : Event K E}

include hcount in
theorem Counts.written {m : ℕ} {v : V} (h : Counts next count c m v) (e : E) :
  Counts next count c (m + 1) (apply v e) := by
 rw [Counts, hcount, h, Function.iterate_succ_apply']

include hcount in
theorem Bounded.step (h : Bounded next count c n s) (hvalid : Valid s a) :
  Bounded next count c (n + a.written.toList.length) (step apply s a) := by
 obtain ⟨hstored, hheld⟩ := h
 obtain ⟨k, rfl, hstep⟩ | ⟨k, e, v, rfl, hmem, -, hstep⟩ := step_cases apply hvalid
 · rw [hstep]
   refine ⟨hstored, ?_⟩
   rintro kv (_ | ⟨_, hkv⟩)
   · exact hstored
   · exact hheld kv hkv
 · rw [hstep]
   obtain ⟨m, hm, hv⟩ := hheld _ hmem
   refine ⟨⟨m + 1, Nat.succ_le_succ hm, hv.written hcount e⟩, ?_⟩
   intro kv hkv
   obtain ⟨m', hm', hv'⟩ := hheld kv (List.mem_of_mem_eraseP hkv)
   exact ⟨m', Nat.le_succ_of_le hm', hv'⟩

include hcount in
theorem Behind.step (h : Behind next count c n s) (hb : Bounded next count c n s) (hvalid : Valid s a) :
  Behind next count c (n + a.written.toList.length) (step apply s a) := by
 obtain ⟨k, rfl, hstep⟩ | ⟨k, e, v, rfl, hmem, hlen, hstep⟩ := step_cases apply hvalid
 · rw [hstep]
   rcases h with htwo | ⟨k', v, m, hm, hone, hv⟩ | ⟨hnil, m, hm, hv⟩
   · exact .inl (by simp only [List.length_cons]; omega)
   · exact .inl (by simp [hone])
   · exact .inr (.inl ⟨k, s.stored, m, hm, by rw [hnil], hv⟩)
 · rw [hstep]
   rcases h with htwo | ⟨k', v', m, hm, hone, hv⟩ | ⟨hnil, -⟩
   · -- One of the two at work stays, with a value that misses this write.
     by_cases hmore : 2 ≤ (s.held.eraseP fun kv => kv.1 = k).length
     · exact .inl hmore
     · obtain ⟨⟨k', v'⟩, hrest⟩ : ∃ kv, s.held.eraseP (fun kv => kv.1 = k) = [kv] :=
        List.length_eq_one_iff.1 (by omega)
       have hmem' : (k', v') ∈ s.held :=
        List.mem_of_mem_eraseP (by rw [hrest]; exact List.mem_singleton_self _)
       obtain ⟨m, hm, hv⟩ := hb.2 _ hmem'
       exact .inr (.inl ⟨k', v', m, Nat.lt_succ_of_le hm, hrest, hv⟩)
   · rw [hone, List.mem_singleton] at hmem
     obtain ⟨rfl, rfl⟩ := Prod.mk.inj hmem
     exact .inr (.inr ⟨by simp [hone], m + 1, Nat.succ_lt_succ hm, hv.written hcount e⟩)
   · rw [hnil] at hmem
     cases hmem

theorem behind_of_not_alone (hvalid : Valid s a) (h : ¬ Alone s a) :
  Behind next count c n (step apply s a) := by
 cases a with
 | read k =>
  have hpos : 0 < s.held.length := List.length_pos_iff.2 h
  exact .inl (by simp only [step, List.length_cons]; omega)
 | write k e => exact absurd trivial h

include hcount in
theorem run_behind {ops : List (Event K E)} (hb : Bounded next count c n s) (h : Behind next count c n s)
  (hvalid : TransitionRuns.Along (step apply) Valid s ops) :
  Behind next count c (n + (writes ops).length) (TransitionRuns.run (step apply) s ops) := by
 induction ops generalizing s n with
 | nil => exact h
 | cons a ops ih =>
  rw [length_writes_cons, ← Nat.add_assoc, TransitionRuns.run_cons]
  exact ih (hb.step hcount hvalid.1) (h.step hcount hb hvalid.1) hvalid.2

include hcount in
theorem run_behind_of_not_alone {ops : List (Event K E)} (hb : Bounded next count c n s)
  (hvalid : TransitionRuns.Along (step apply) Valid s ops)
  (halone : ¬ TransitionRuns.Along (step apply) Alone s ops) :
  Behind next count c (n + (writes ops).length) (TransitionRuns.run (step apply) s ops) := by
 induction ops generalizing s n with
 | nil => exact absurd trivial halone
 | cons a ops ih =>
  have hb' := hb.step hcount hvalid.1
  rw [length_writes_cons, ← Nat.add_assoc, TransitionRuns.run_cons]
  by_cases h : Alone s a
  · exact ih hb' hvalid.2 fun hrest => halone ⟨h, hrest⟩
  · exact run_behind hcount hb' (behind_of_not_alone hvalid.1 h) hvalid.2

variable (next count) in
include hcount in
theorem lost_of_not_alone {ops : List (Event K E)} (hnil : s.held = [])
  (hvalid : TransitionRuns.Along (step apply) Valid s ops)
  (halone : ¬ TransitionRuns.Along (step apply) Alone s ops)
  (hdone : (TransitionRuns.run (step apply) s ops).held = []) :
  ∃ m < (writes ops).length,
   count (TransitionRuns.run (step apply) s ops).stored = next^[m] (count s.stored) := by
 have hb : Bounded next count (count s.stored) 0 s :=
  ⟨⟨0, le_rfl, rfl⟩, by rw [hnil]; exact fun kv hkv => by cases hkv⟩
 have h := run_behind_of_not_alone hcount hb hvalid halone
 rw [Nat.zero_add] at h
 rcases h with htwo | ⟨k, v, m, hm, hone, hv⟩ | ⟨-, hlost⟩
 · rw [hdone, List.length_nil] at htwo
   omega
 · rw [hdone] at hone
   cases hone
 · exact hlost

end Lost

end MoltBrowser.StaleWrites
