import Mathlib

set_option autoImplicit false

/-!
# Evaluations that stop at the first error

An evaluation checks its items one after the other. It ends in the error of the
first item that has one, or with a value.
-/
namespace MoltBrowser.FirstError

universe u v w

variable {ι : Type u} {ε : Type v} {α β : Type w} {check : ι → Option ε}

theorem bind_eq_ok {x : Except ε α} {f : α → Except ε β} {b : β} :
  (x >>= f) = .ok b ↔ ∃ a, x = .ok a ∧ f a = .ok b := by
 cases x with
 | error e => exact ⟨fun h => (by cases h), fun ⟨_, h, _⟩ => (by cases h)⟩
 | ok a => exact ⟨fun h => ⟨a, rfl, h⟩, fun ⟨_, ha, h⟩ => (Except.ok.inj ha) ▸ h⟩

/-- The evaluation of `items` ends so: the value is one that `Q` holds of. -/
def Ends (check : ι → Option ε) (items : List ι) (result : Except ε α) (Q : α → Prop) : Prop :=
 match items.findSome? check with
 | some e => result = .error e
 | none => ∃ a, result = .ok a ∧ Q a

variable {Q : α → Prop}

theorem ends_ok {a : α} (h : Q a) : Ends check [] (.ok a) Q := ⟨a, rfl, h⟩

variable {result : Except ε α}

theorem Ends.error {items : List ι} {e : ε}
  (h : Ends check items result Q) (he : items.findSome? check = some e) : result = .error e := by
 rwa [Ends, he] at h

theorem Ends.ok {items : List ι}
  (h : Ends check items result Q) (hnone : items.findSome? check = none) :
  ∃ a, result = .ok a ∧ Q a := by
 rwa [Ends, hnone] at h

theorem Ends.bind {items more : List ι} {next : α → Except ε β}
  {Q' : β → Prop} (h : Ends check items result Q)
  (hnext : ∀ a, Q a → Ends check more (next a) Q') :
  Ends check (items ++ more) (result >>= next) Q' := by
 unfold Ends at h
 rw [Ends, List.findSome?_append]
 cases hitems : items.findSome? check with
 | some e =>
  rw [hitems] at h
  subst h
  rfl
 | none =>
  rw [hitems] at h
  obtain ⟨a, rfl, hQ⟩ := h
  exact hnext a hQ

theorem ends_mapM {σ : Type u} {item : σ → ι} {f : σ → Except ε α} {Q : σ → α → Prop}
  (h : ∀ x, Ends check [item x] (f x) (Q x)) (xs : List σ) :
  Ends check (xs.map item) (xs.mapM f) (List.Forall₂ Q xs) := by
 induction xs with
 | nil => exact ends_ok .nil
 | cons x xs ih =>
  rw [List.mapM_cons, List.map_cons, ← List.singleton_append]
  refine (h x).bind fun a ha => ?_
  rw [← List.append_nil (xs.map item)]
  exact ih.bind fun as has => ends_ok (.cons ha has)

theorem foldlM_simulates {σ : Type w} {τ : Type v} {R : σ → τ → Prop} {f : σ → ι → Except ε σ}
  {g : τ → ι → τ} (hstep : ∀ x s s' t, R s t → f s x = .ok s' → R s' (g t x)) {xs : List ι} {s s' : σ}
  {t : τ} (hR : R s t) (h : xs.foldlM f s = .ok s') : R s' (xs.foldl g t) := by
 induction xs generalizing s t with
 | nil =>
  cases h
  exact hR
 | cons x xs ih =>
  rw [List.foldlM_cons] at h
  obtain ⟨s₁, hs₁, h⟩ := bind_eq_ok.1 h
  exact ih (hstep x s s₁ t hR hs₁) h

end MoltBrowser.FirstError
