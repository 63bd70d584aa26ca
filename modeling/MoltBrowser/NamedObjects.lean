import MoltBrowser.TransitionRuns

set_option autoImplicit false

/-!
# Objects under names

A directory gives some names an object, and some objects an identity. Writing,
removing and moving keep every identity under one name, and lose none, when
nothing of an identity of its own is written over.
-/
namespace MoltBrowser.NamedObjects

universe u v w

variable {N : Type u} {X : Type v} {I : Type w} [DecidableEq N] (ident : X → Option I)

abbrev Dir (N : Type u) (X : Type v) := N → Option X

def put (d : Dir N X) (n : N) (x : X) : Dir N X := Function.update d n (some x)

def remove (d : Dir N X) (n : N) : Dir N X := Function.update d n none

/-- The object at `a` moves to `b`, over what was there, and is `x` there. -/
def move (d : Dir N X) (a b : N) (x : X) : Dir N X := put (remove d a) b x

omit [DecidableEq N] in
/-- The object of the identity `i` is under the name `n`. -/
def At (d : Dir N X) (n : N) (i : I) : Prop := ∃ x, d n = some x ∧ ident x = some i

def Single (d : Dir N X) : Prop := ∀ n m i, At ident d n i → At ident d m i → n = m

variable {ident} {d : Dir N X} {n m a b : N} {i : I} {x y : X}

theorem put_self : put d n x n = some x := Function.update_self _ _ _

theorem put_of_ne (h : m ≠ n) : put d n x m = d m := Function.update_of_ne h _ _

theorem remove_self : remove d n n = none := Function.update_self _ _ _

theorem remove_of_ne (h : m ≠ n) : remove d n m = d m := Function.update_of_ne h _ _

theorem at_put : At ident (put d n x) m i ↔ (m = n ∧ ident x = some i) ∨ (m ≠ n ∧ At ident d m i) := by
 by_cases h : m = n
 · subst h
   simp [At, put_self]
 · simp [At, put_of_ne h, h]

theorem at_remove : At ident (remove d n) m i ↔ m ≠ n ∧ At ident d m i := by
 by_cases h : m = n
 · subst h
   simp [At, remove_self]
 · simp [At, remove_of_ne h, h]

theorem at_move (hab : a ≠ b) (hd : d a = some y) (hx : ident x = ident y) :
  At ident (move d a b x) m i ↔ (m = b ∧ At ident d a i) ∨ (m ≠ a ∧ m ≠ b ∧ At ident d m i) := by
 have ha : At ident d a i ↔ ident x = some i := by simp [At, hd, hx]
 rw [move, at_put, at_remove, ha]
 by_cases hb : m = b
 · subst hb
   simp
 · by_cases hma : m = a <;> simp [hb, hma]

theorem at_put_version (hd : d n = some y) (h : ident x = ident y) :
  At ident (put d n x) m i ↔ At ident d m i := by
 rw [at_put]
 by_cases hm : m = n
 · subst hm
   simp [At, hd, h]
 · simp [hm]

theorem Single.put_new (h : Single ident d) (hnew : ∀ m, ¬ At ident d m i) (hx : ident x = some i) :
  Single ident (put d n x) := by
 intro m m' j hm hm'
 rw [at_put] at hm hm'
 rcases hm with ⟨rfl, hj⟩ | ⟨-, hm⟩
 · rcases hm' with ⟨rfl, -⟩ | ⟨-, hm'⟩
   · rfl
   · rw [hx, Option.some.injEq] at hj
     exact absurd (hj ▸ hm') (hnew m')
 · rcases hm' with ⟨rfl, hj⟩ | ⟨-, hm'⟩
   · rw [hx, Option.some.injEq] at hj
     exact absurd (hj ▸ hm) (hnew m)
   · exact h m m' j hm hm'

theorem Single.put_version (h : Single ident d) (hd : d n = some y) (hx : ident x = ident y) :
  Single ident (put d n x) := by
 intro m m' j hm hm'
 rw [at_put_version hd hx] at hm hm'
 exact h m m' j hm hm'

theorem Single.remove (h : Single ident d) (n : N) : Single ident (remove d n) := by
 intro m m' j hm hm'
 rw [at_remove] at hm hm'
 exact h m m' j hm.2 hm'.2

theorem Single.move (h : Single ident d) (hab : a ≠ b) (hd : d a = some y) (hx : ident x = ident y) :
  Single ident (move d a b x) := by
 intro m m' j hm hm'
 rw [at_move hab hd hx] at hm hm'
 rcases hm with ⟨rfl, hm⟩ | ⟨hma, -, hm⟩
 · rcases hm' with ⟨rfl, -⟩ | ⟨hma, -, hm'⟩
   · rfl
   · exact absurd (h _ _ j hm' hm) hma
 · rcases hm' with ⟨rfl, hm'⟩ | ⟨-, -, hm'⟩
   · exact absurd (h _ _ j hm hm') hma
   · exact h m m' j hm hm'

theorem move_keeps (hab : a ≠ b) (hd : d a = some y) (hx : ident x = ident y) (hb : d b = none)
  (h : ∃ n, At ident d n i) : ∃ n, At ident (NamedObjects.move d a b x) n i := by
 obtain ⟨n, hn⟩ := h
 by_cases hna : n = a
 · exact ⟨b, (at_move hab hd hx).2 (.inl ⟨rfl, hna ▸ hn⟩)⟩
 · have hnb : n ≠ b := by
    rintro rfl
    simp [At, hb] at hn
   exact ⟨n, (at_move hab hd hx).2 (.inr ⟨hna, hnb, hn⟩)⟩

end MoltBrowser.NamedObjects
