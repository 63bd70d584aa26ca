import Mathlib

set_option autoImplicit false

/-!
# Reading frames from a stream

`next` looks at the front of what has arrived: it asks for more, takes a frame
off, or refuses the stream. When its answers stand whatever arrives later, what is
read depends on the stream alone, not on where it was cut.
-/
namespace MoltBrowser.StreamScan
open List

variable {α F E : Type*}

inductive Outcome (α F E : Type*) where
 | needMore
 | frame (f : F) (rest : List α)
 | bad (e : E)

structure Stable (next : List α → Outcome α F E) : Prop where
 frame : ∀ {b f rest}, next b = .frame f rest → ∀ more, next (b ++ more) = .frame f (rest ++ more)
 bad : ∀ {b e}, next b = .bad e → ∀ more, next (b ++ more) = .bad e

/-- The frames of a stream, why it was refused if it was, and what is left of it. -/
inductive Scans (next : List α → Outcome α F E) :
  List α → List F → Option E → List α → Prop where
 | more {b : List α} (h : next b = .needMore) : Scans next b [] none b
 | bad {b : List α} {e : E} (h : next b = .bad e) : Scans next b [] (some e) []
 | frame {b rest left : List α} {f : F} {fs : List F} {e : Option E} (h : next b = .frame f rest)
   (tail : Scans next rest fs e left) : Scans next b (f :: fs) e left

variable {next : List α → Outcome α F E} {b left : List α} {fs : List F} {e : Option E}

theorem Scans.unique (h : Scans next b fs e left) {fs' : List F} {e' : Option E} {left' : List α}
  (h' : Scans next b fs' e' left') : fs = fs' ∧ e = e' ∧ left = left' := by
 induction h generalizing fs' e' left' with
 | more h =>
  cases h' with
  | more => exact ⟨rfl, rfl, rfl⟩
  | bad h' => exact absurd (h.symm.trans h') (by simp)
  | frame h' => exact absurd (h.symm.trans h') (by simp)
 | bad h =>
  cases h' with
  | more h' => exact absurd (h.symm.trans h') (by simp)
  | bad h' =>
   obtain rfl := Outcome.bad.inj (h.symm.trans h')
   exact ⟨rfl, rfl, rfl⟩
  | frame h' => exact absurd (h.symm.trans h') (by simp)
 | frame h _ ih =>
  cases h' with
  | more h' => exact absurd (h.symm.trans h') (by simp)
  | bad h' => exact absurd (h.symm.trans h') (by simp)
  | frame h' tail' =>
   obtain ⟨rfl, rfl⟩ := Outcome.frame.inj (h.symm.trans h')
   obtain ⟨rfl, rfl, rfl⟩ := ih tail'
   exact ⟨rfl, rfl, rfl⟩

theorem Scans.append (hstable : Stable next) (h : Scans next b fs none left) {more left' : List α}
  {fs' : List F} (h' : Scans next (left ++ more) fs' e left') :
  Scans next (b ++ more) (fs ++ fs') e left' := by
 generalize hnone : (none : Option E) = ending at h
 induction h with
 | more => exact h'
 | bad => exact absurd hnone (by simp)
 | frame hframe _ ih => exact .frame (hstable.frame hframe more) (ih h' hnone)

theorem Scans.refused (hstable : Stable next) {why : E} (h : Scans next b fs (some why) left)
  (more : List α) : Scans next (b ++ more) fs (some why) [] := by
 generalize hwhy : some why = ending at h
 induction h with
 | more => exact absurd hwhy (by simp)
 | bad hbad =>
  obtain rfl := Option.some.inj hwhy
  exact .bad (hstable.bad hbad more)
 | frame hframe _ ih => exact .frame (hstable.frame hframe more) (ih hwhy)

theorem scans_encoded (hempty : next [] = .needMore) {β : Type*} (encode : β → List α) (frameOf : β → F)
  (xs : List β) (hone : ∀ x ∈ xs, ∀ more, next (encode x ++ more) = .frame (frameOf x) more) :
  Scans next (xs.flatMap encode) (xs.map frameOf) none [] := by
 induction xs with
 | nil => exact .more hempty
 | cons x xs ih =>
  rw [flatMap_cons, map_cons]
  exact .frame (hone x mem_cons_self _) (ih fun y hy => hone y (mem_cons_of_mem _ hy))

theorem Scans.left_needMore (h : Scans next b fs none left) : next left = .needMore := by
 generalize hnone : (none : Option E) = ending at h
 induction h with
 | more hmore => exact hmore
 | bad => exact absurd hnone (by simp)
 | frame _ _ ih => exact ih hnone

/-! ## Readers that keep a buffer -/

inductive Status (F E : Type*) where
 | frame (f : F)
 | needMore
 | error (e : E)

variable {R : Type*}

/-- `take` until it says anything but a frame, `fuel` times at most. -/
def drain (take : R → Status F E × R) : ℕ → R → List F × Option E × R
 | 0, r => ([], none, r)
 | fuel + 1, r =>
  match take r with
  | (.frame f, r) =>
   let (fs, e, r) := drain take fuel r
   (f :: fs, e, r)
  | (.needMore, r) => ([], none, r)
  | (.error e, r) => ([], some e, r)

/-- Reads added one after another, the reader drained after each, until it fails. -/
def readAll (append : R → List α → Bool × R) (take : R → Status F E × R) (size : R → ℕ)
  (refused : E) : R → List (List α) → List F × Option E
 | _, [] => ([], none)
 | r, data :: rest =>
  match append r data with
  | (false, _) => ([], some refused)
  | (true, r) =>
   match drain take (size r + 1) r with
   | (fs, some e, _) => (fs, some e)
   | (fs, none, r) =>
    let (more, e) := readAll append take size refused r rest
    (fs ++ more, e)

/-- A reader that hands out what `next` sees in its pending bytes, while `healthy`. -/
structure Faithful (next : List α → Outcome α F E) (take : R → Status F E × R)
  (pending : R → List α) (healthy : R → Prop) : Prop where
 stable : Stable next
 shorter : ∀ {b f rest}, next b = .frame f rest → rest.length < b.length
 needMore : ∀ {r}, healthy r → next (pending r) = .needMore → take r = (.needMore, r)
 bad : ∀ {r e}, healthy r → next (pending r) = .bad e → ∃ r', take r = (.error e, r')
 frame : ∀ {r f rest}, healthy r → next (pending r) = .frame f rest →
  ∃ r', take r = (.frame f, r') ∧ healthy r' ∧ pending r' = rest

section Readers

variable {take : R → Status F E × R} {pending : R → List α} {healthy : R → Prop}

theorem Faithful.drain_scans (h : Faithful next take pending healthy) {fuel : ℕ} {r : R}
  (hr : healthy r) (hfuel : (pending r).length < fuel) :
  ∃ fs e r' left, drain take fuel r = (fs, e, r') ∧ Scans next (pending r) fs e left ∧
   (e = none → healthy r' ∧ pending r' = left) := by
 induction fuel generalizing r with
 | zero => omega
 | succ fuel ih =>
  rw [drain]
  cases hnext : next (pending r) with
  | needMore =>
   rw [h.needMore hr hnext]
   exact ⟨[], none, r, pending r, rfl, .more hnext, fun _ => ⟨hr, rfl⟩⟩
  | bad e =>
   obtain ⟨r', htake⟩ := h.bad hr hnext
   rw [htake]
   exact ⟨[], some e, r', [], rfl, .bad hnext, fun hnone => absurd hnone (by simp)⟩
  | frame f rest =>
   obtain ⟨r', htake, hr', hpending⟩ := h.frame hr hnext
   rw [htake]
   have hshort := h.shorter hnext
   obtain ⟨fs, e, r'', left, hdrain, hscans, hend⟩ := ih hr' (by rw [hpending]; omega)
   rw [hpending] at hscans
   exact ⟨f :: fs, e, r'', left, by simp only [hdrain], .frame hnext hscans, hend⟩

variable {append : R → List α → Bool × R} {size : R → ℕ} {refused : E} {fits : List α → Prop}

theorem Faithful.readAll_scans (h : Faithful next take pending healthy)
  (hsize : ∀ r, size r = (pending r).length)
  (happend : ∀ {r}, healthy r → next (pending r) = .needMore → ∀ {data}, fits data →
   ∃ r', append r data = (true, r') ∧ healthy r' ∧ pending r' = pending r ++ data)
  {r : R} (hr : healthy r) (hmore : next (pending r) = .needMore) {chunks : List (List α)}
  (hfits : ∀ data ∈ chunks, fits data) :
  ∃ left, Scans next (pending r ++ chunks.flatten)
   (readAll append take size refused r chunks).1
   (readAll append take size refused r chunks).2 left := by
 induction chunks generalizing r with
 | nil =>
  rw [flatten_nil, append_nil]
  exact ⟨pending r, .more hmore⟩
 | cons data rest ih =>
  obtain ⟨r', hadded, hr', hpending⟩ := happend hr hmore (hfits data mem_cons_self)
  obtain ⟨fs, e, r'', left, hdrain, hscans, hend⟩ :=
   h.drain_scans hr' (show (pending r').length < size r' + 1 by rw [hsize]; omega)
  rw [readAll, hadded, flatten_cons, ← append_assoc, ← hpending]
  simp only [hdrain]
  cases e with
  | some e => exact ⟨[], hscans.refused h.stable _⟩
  | none =>
   obtain ⟨hr'', hleft⟩ := hend rfl
   obtain ⟨left', htail⟩ := ih hr'' (by rw [hleft]; exact hscans.left_needMore)
    fun data hdata => hfits data (mem_cons_of_mem _ hdata)
   rw [hleft] at htail
   exact ⟨left', hscans.append h.stable htail⟩

end Readers

/-! ## Little-endian numbers -/

def bytesOf32 (value : UInt32) : List UInt8 :=
 [0, 8, 16, 24].map fun shift : UInt32 => ((value >>> shift) &&& 0xff).toUInt8

def read32 (b0 b1 b2 b3 : UInt8) : UInt32 :=
 b0.toUInt32 ||| (b1.toUInt32 <<< 8) ||| (b2.toUInt32 <<< 16) ||| (b3.toUInt32 <<< 24)

def bytesOf16 (value : UInt16) : List UInt8 :=
 [(value &&& 0xff).toUInt8, ((value >>> 8) &&& 0xff).toUInt8]

def read16 (b0 b1 : UInt8) : UInt16 := b0.toUInt16 ||| (b1.toUInt16 <<< 8)

theorem low32 (x : UInt32) : (x &&& 0xff).toUInt8 = x.toUInt8 := by
 apply UInt8.eq_of_toBitVec_eq
 ext i hi
 have hones : ∀ i (hi : i < 8), (255#8)[i] = true := by decide
 simp [hones i hi]

theorem low16 (x : UInt16) : (x &&& 0xff).toUInt8 = x.toUInt8 := by
 apply UInt8.eq_of_toBitVec_eq
 ext i hi
 have hones : ∀ i (hi : i < 8), (255#8)[i] = true := by decide
 simp [hones i hi]

@[simp] theorem bytesOf32_eq (v : UInt32) : bytesOf32 v =
  [(v >>> 0).toUInt8, (v >>> 8).toUInt8, (v >>> 16).toUInt8, (v >>> 24).toUInt8] := by
 simp only [bytesOf32, map_cons, map_nil, low32]

@[simp] theorem bytesOf16_eq (v : UInt16) : bytesOf16 v = [v.toUInt8, (v >>> 8).toUInt8] := by
 simp only [bytesOf16, low16]

theorem read32_bytes (v : UInt32) : read32 (v >>> 0).toUInt8 (v >>> 8).toUInt8 (v >>> 16).toUInt8
  (v >>> 24).toUInt8 = v := by
 unfold read32
 apply UInt32.eq_of_toBitVec_eq
 simp only [UInt32.toBitVec_or, UInt32.toBitVec_shiftLeft, UInt8.toBitVec_toUInt32,
  UInt32.toBitVec_toUInt8, UInt32.toBitVec_shiftRight]
 ext i hi
 have h0 : (UInt32.toBitVec 0 % 32) = 0#32 := by decide
 have h8 : (UInt32.toBitVec 8 % 32) = 8#32 := by decide
 have h16 : (UInt32.toBitVec 16 % 32) = 16#32 := by decide
 have h24 : (UInt32.toBitVec 24 % 32) = 24#32 := by decide
 simp only [h0, h8, h16, h24]
 simp [BitVec.getElem_or, BitVec.getElem_shiftLeft, BitVec.getElem_setWidth,
  BitVec.getLsbD_eq_getElem, hi]
 interval_cases i <;> simp

theorem read16_bytes (v : UInt16) : read16 v.toUInt8 (v >>> 8).toUInt8 = v := by
 unfold read16
 apply UInt16.eq_of_toBitVec_eq
 simp only [UInt16.toBitVec_or, UInt16.toBitVec_shiftLeft, UInt8.toBitVec_toUInt16,
  UInt16.toBitVec_toUInt8, UInt16.toBitVec_shiftRight]
 ext i hi
 have h8 : (UInt16.toBitVec 8 % 16) = 8#16 := by decide
 simp only [h8]
 simp [BitVec.getElem_or, BitVec.getElem_shiftLeft, BitVec.getElem_setWidth]
 interval_cases i <;> simp

/-! ## Frames with a type and a length in front -/

section Headed

variable {T : Type*}

/-- A header of two little-endian numbers, checked as soon as it is in, and then as
many bytes as the second says. -/
@[grind =] def headed (check : UInt32 → UInt32 → Except E T) (make : T → List UInt8 → F) :
  List UInt8 → Outcome UInt8 F E
 | t0 :: t1 :: t2 :: t3 :: l0 :: l1 :: l2 :: l3 :: body =>
  match check (read32 t0 t1 t2 t3) (read32 l0 l1 l2 l3) with
  | .error e => .bad e
  | .ok t =>
   if body.length < (read32 l0 l1 l2 l3).toNat then .needMore
   else .frame (make t (body.take (read32 l0 l1 l2 l3).toNat))
    (body.drop (read32 l0 l1 l2 l3).toNat)
 | _ => .needMore

variable {check : UInt32 → UInt32 → Except E T} {make : T → List UInt8 → F}

theorem headed_cases (check : UInt32 → UInt32 → Except E T) (make : T → List UInt8 → F)
  (b : List UInt8) :
  (∃ t0 t1 t2 t3 l0 l1 l2 l3 body, b = t0 :: t1 :: t2 :: t3 :: l0 :: l1 :: l2 :: l3 :: body) ∨
   (b.length < 8 ∧ headed check make b = .needMore) := by
 rcases Nat.lt_or_ge b.length 8 with hlt | hge
 · refine Or.inr ⟨hlt, ?_⟩
   unfold headed
   split
   · simp only [length_cons] at hlt
     omega
   · rfl
 · match b, hge with
   | t0 :: t1 :: t2 :: t3 :: l0 :: l1 :: l2 :: l3 :: body, _ =>
    exact Or.inl ⟨t0, t1, t2, t3, l0, l1, l2, l3, body, rfl⟩

theorem stable_headed (check : UInt32 → UInt32 → Except E T) (make : T → List UInt8 → F) :
  Stable (headed check make) where
 frame := by
  intro b f rest h more
  rcases headed_cases check make b with ⟨t0, t1, t2, t3, l0, l1, l2, l3, body, rfl⟩ | ⟨-, hneed⟩
  · simp only [headed, cons_append] at h ⊢
    split at h
    · exact absurd h (by simp)
    · split at h
      · exact absurd h (by simp)
      · next hlong =>
        obtain ⟨rfl, rfl⟩ := Outcome.frame.inj h
        have hle : (read32 l0 l1 l2 l3).toNat ≤ body.length := by omega
        rw [if_neg (by rw [length_append]; omega), take_append_of_le_length hle,
         drop_append_of_le_length hle]
  · exact absurd (hneed.symm.trans h) (by simp)
 bad := by
  intro b e h more
  rcases headed_cases check make b with ⟨t0, t1, t2, t3, l0, l1, l2, l3, body, rfl⟩ | ⟨-, hneed⟩
  · simp only [headed, cons_append] at h ⊢
    split at h
    · exact h
    · split at h <;> exact absurd h (by simp)
  · exact absurd (hneed.symm.trans h) (by simp)

theorem shorter_headed {b rest : List UInt8} {f : F} (h : headed check make b = .frame f rest) :
  rest.length < b.length := by
 rcases headed_cases check make b with ⟨t0, t1, t2, t3, l0, l1, l2, l3, body, rfl⟩ | ⟨-, hneed⟩
 · simp only [headed] at h
   split at h
   · exact absurd h (by simp)
   · split at h
     · exact absurd h (by simp)
     · obtain ⟨-, rfl⟩ := Outcome.frame.inj h
       simp only [length_drop, length_cons]
       omega
 · exact absurd (hneed.symm.trans h) (by simp)

theorem held_of_needMore {longest : ℕ}
  (hcheck : ∀ {type length t}, check type length = .ok t → length.toNat ≤ longest)
  {b : List UInt8} (h : headed check make b = .needMore) : b.length < 8 + longest := by
 rcases headed_cases check make b with ⟨t0, t1, t2, t3, l0, l1, l2, l3, body, rfl⟩ | ⟨hlt, -⟩
 · simp only [headed] at h
   split at h
   · exact absurd h (by simp)
   · next hok =>
     have hmax := hcheck hok
     split at h
     · simp only [length_cons]
       omega
     · exact absurd h (by simp)
 · omega

theorem headed_frame {type : UInt32} {payload : List UInt8} {t : T}
  (hlen : payload.length < 4294967296)
  (hcheck : check type (UInt32.ofNat payload.length) = .ok t) (more : List UInt8) :
  headed check make (bytesOf32 type ++ bytesOf32 (UInt32.ofNat payload.length) ++ payload ++ more) =
   .frame (make t payload) more := by
 have hnat : (UInt32.ofNat payload.length).toNat = payload.length := by
  rw [UInt32.toNat_ofNat']
  exact Nat.mod_eq_of_lt hlen
 simp only [bytesOf32_eq, cons_append, nil_append, headed, read32_bytes, hcheck, hnat]
 rw [if_neg (by rw [length_append]; omega), take_left, drop_left]

end Headed

end MoltBrowser.StreamScan
