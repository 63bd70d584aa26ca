import MoltBrowser.LittleEndian

set_option autoImplicit false

/-!
# A serialized engine

Two engines of the blocker, each with its length before it, after a magic. What the blocker itself writes and reads is a parameter.
-/
namespace MoltBrowser.EngineSerialization
open LittleEndian List

def serializedMagic : Bytes := utf8 "MOLTSE02"

/-- Splits a little-endian u64 length-prefixed chunk off the data. -/
def takeChunk (data : Bytes) : Option (Bytes × Bytes) :=
 if data.length < 8 then none
 else
  let len := valueOf (data.take 8)
  let rest := data.drop 8
  if rest.length < len then none else some (rest.take len, rest.drop len)

/-- The blocker's engine: what it writes itself as, and what it becomes of data, with whether it took it. -/
structure Blocker where
 Engine : Type
 default : Engine
 serialize : Engine → Bytes
 deserialize : Engine → Bytes → Engine × Bool

structure ShieldEngine (blocker : Blocker) where
 engine : blocker.Engine
 paramExceptions : blocker.Engine

namespace ShieldEngine

variable {blocker : Blocker} (e : ShieldEngine blocker)

def serialize : Bytes :=
 let main := blocker.serialize e.engine
 let exceptions := blocker.serialize e.paramExceptions
 serializedMagic ++ (bytesOf 8 main.length ++ main) ++ (bytesOf 8 exceptions.length ++ exceptions)

def deserialize (data : Bytes) : ShieldEngine blocker × Bool :=
 if serializedMagic.isPrefixOf data = false then (e, false)
 else
  match takeChunk (data.drop serializedMagic.length) with
  | none => (e, false)
  | some (main, rest) =>
   match takeChunk rest with
   | none => (e, false)
   | some (exceptions, rest) =>
    if !rest.isEmpty then (e, false)
    else
     match blocker.deserialize blocker.default exceptions with
     | (_, false) => (e, false)
     | (paramExceptions, true) =>
      -- The last step that can fail.
      match blocker.deserialize e.engine main with
      | (engine, false) => ({ e with engine }, false)
      | (engine, true) => ({ engine, paramExceptions }, true)

end ShieldEngine

structure Documented (blocker : Blocker) : Prop where
 /-- An engine that doesn't take the data is as it was. -/
 unchanged : ∀ e data, (blocker.deserialize e data).2 = false → (blocker.deserialize e data).1 = e
 /-- An engine takes what another wrote, and then writes that itself. -/
 reads : ∀ e written, (blocker.deserialize e (blocker.serialize written)).2 = true ∧
  blocker.serialize (blocker.deserialize e (blocker.serialize written)).1 = blocker.serialize written
 /-- No vector has more bytes. -/
 sized : ∀ e, (blocker.serialize e).length < 2 ^ 63

/-! ## Chunks -/

def chunk (bytes : Bytes) : Bytes := bytesOf 8 bytes.length ++ bytes

theorem takeChunk_chunk {bytes : Bytes} (h : bytes.length < 2 ^ 64) (rest : Bytes) : takeChunk (chunk bytes ++ rest) = some (bytes, rest) := by
 have hhead : (bytesOf 8 bytes.length).length = 8 := length_bytesOf 8 _
 have hlength : valueOf (bytesOf 8 bytes.length) = bytes.length := by
  rw [valueOf_bytesOf]
  exact Nat.mod_eq_of_lt h
 have htake : (chunk bytes ++ rest).take 8 = bytesOf 8 bytes.length := by
  rw [chunk, append_assoc, take_left' hhead]
 have hdrop : (chunk bytes ++ rest).drop 8 = bytes ++ rest := by
  rw [chunk, append_assoc, drop_left' hhead]
 have hlong : ¬(chunk bytes ++ rest).length < 8 := by
  rw [chunk, length_append, length_append, hhead]
  omega
 have hfits : ¬(bytes ++ rest).length < bytes.length := by
  rw [length_append]
  omega
 rw [takeChunk, if_neg hlong]
 dsimp only
 rw [htake, hdrop, hlength, if_neg hfits, take_left, drop_left]

theorem takeChunk_some {data bytes rest : Bytes} (h : takeChunk data = some (bytes, rest)) :
  data = chunk bytes ++ rest ∧ bytes.length < 2 ^ 64 := by
 unfold takeChunk at h
 dsimp only at h
 split_ifs at h with hshort hfits
 obtain ⟨rfl, rfl⟩ := Prod.mk.inj (Option.some.inj h)
 have hhead : (data.take 8).length = 8 := by
  rw [length_take]
  omega
 have hlength : ((data.drop 8).take (valueOf (data.take 8))).length = valueOf (data.take 8) := by
  rw [length_take]
  omega
 have hbytes := bytesOf_valueOf (data.take 8)
 have hlt := valueOf_lt (data.take 8)
 rw [hhead] at hbytes hlt
 constructor
 · rw [chunk, hlength, hbytes, append_assoc, take_append_drop, take_append_drop]
 · rw [hlength]
   exact hlt

/-! ## Reading -/

section Reading

variable {blocker : Blocker} {e : ShieldEngine blocker} {data : Bytes}

def Framed (data main exceptions : Bytes) : Prop :=
 data = serializedMagic ++ chunk main ++ chunk exceptions ∧ main.length < 2 ^ 64 ∧ exceptions.length < 2 ^ 64

def readBoth (e : ShieldEngine blocker) (main exceptions : Bytes) : ShieldEngine blocker × Bool :=
 match blocker.deserialize blocker.default exceptions with
 | (_, false) => (e, false)
 | (paramExceptions, true) =>
  match blocker.deserialize e.engine main with
  | (engine, false) => ({ e with engine }, false)
  | (engine, true) => ({ engine, paramExceptions }, true)

theorem deserialize_framed {main exceptions : Bytes} (h : Framed data main exceptions) : e.deserialize data = readBoth e main exceptions := by
 obtain ⟨rfl, hmain, hexceptions⟩ := h
 have hmagic : serializedMagic.isPrefixOf (serializedMagic ++ chunk main ++ chunk exceptions) = true := by
  rw [List.isPrefixOf_iff_prefix, append_assoc]
  exact prefix_append _ _
 have hrest : takeChunk (chunk exceptions) = some (exceptions, []) := by
  simpa using takeChunk_chunk hexceptions []
 rw [ShieldEngine.deserialize, if_neg (by rw [hmagic]; exact Bool.true_eq_false.mp), append_assoc, drop_left, takeChunk_chunk hmain]
 dsimp only
 rw [hrest]
 rfl

theorem deserialize_unframed (h : ∀ main exceptions, ¬Framed data main exceptions) : e.deserialize data = (e, false) := by
 rw [ShieldEngine.deserialize]
 by_cases hmagic : serializedMagic.isPrefixOf data = true
 · rw [if_neg (by simp [hmagic])]
   obtain ⟨t, rfl⟩ := isPrefixOf_iff_prefix.mp hmagic
   rw [drop_left]
   cases hmain : takeChunk t with
   | none => rfl
   | some first =>
    obtain ⟨main, rest⟩ := first
    dsimp only
    obtain ⟨rfl, hmainlt⟩ := takeChunk_some hmain
    cases hexceptions : takeChunk rest with
    | none => rfl
    | some second =>
     obtain ⟨exceptions, rest'⟩ := second
     dsimp only
     obtain ⟨rfl, hexceptionslt⟩ := takeChunk_some hexceptions
     cases rest' with
     | nil => exact absurd ⟨by simp, hmainlt, hexceptionslt⟩ (h main exceptions)
     | cons b rest' => rfl
 · rw [if_pos (Bool.not_eq_true _ ▸ hmagic)]

theorem readBoth_accepts (main exceptions : Bytes) : (readBoth e main exceptions).2 = true ↔
  (blocker.deserialize blocker.default exceptions).2 = true ∧ (blocker.deserialize e.engine main).2 = true := by
 unfold readBoth
 rcases blocker.deserialize blocker.default exceptions with ⟨paramExceptions, _ | _⟩
 · simp
 · rcases blocker.deserialize e.engine main with ⟨engine, _ | _⟩ <;> simp

theorem readBoth_refused (hdoc : Documented blocker) {main exceptions : Bytes} (h : (readBoth e main exceptions).2 = false) :
  (readBoth e main exceptions).1 = e := by
 have hunchanged := hdoc.unchanged e.engine main
 unfold readBoth at h ⊢
 generalize blocker.deserialize blocker.default exceptions = first at h ⊢
 generalize blocker.deserialize e.engine main = second at h hunchanged ⊢
 obtain ⟨paramExceptions, _ | _⟩ := first
 · rfl
 · obtain ⟨engine, _ | _⟩ := second
   · obtain rfl : engine = e.engine := hunchanged rfl
     rfl
   · exact absurd h (by simp)

theorem serialize_framed (hdoc : Documented blocker) (e : ShieldEngine blocker) :
  Framed e.serialize (blocker.serialize e.engine) (blocker.serialize e.paramExceptions) :=
 ⟨rfl, (hdoc.sized _).trans (by norm_num), (hdoc.sized _).trans (by norm_num)⟩

theorem readBoth_serialized (hdoc : Documented blocker) (written : ShieldEngine blocker) :
  let read := readBoth e (blocker.serialize written.engine) (blocker.serialize written.paramExceptions)
  read.2 = true ∧ read.1.serialize = written.serialize := by
 obtain ⟨hexceptions, hexceptionsSame⟩ := hdoc.reads blocker.default written.paramExceptions
 obtain ⟨hmain, hmainSame⟩ := hdoc.reads e.engine written.engine
 unfold readBoth
 generalize blocker.deserialize blocker.default (blocker.serialize written.paramExceptions) = first at hexceptions hexceptionsSame ⊢
 generalize blocker.deserialize e.engine (blocker.serialize written.engine) = second at hmain hmainSame ⊢
 obtain ⟨paramExceptions, _⟩ := first
 obtain ⟨engine, _⟩ := second
 subst hexceptions hmain
 exact ⟨rfl, by simp only [ShieldEngine.serialize, hexceptionsSame, hmainSame]⟩

end Reading

/-- What an engine writes, any engine reads to the same; just the framed data whose two parts the blocker takes is read, and a refusal leaves
the engine as it was. -/
theorem serialization_sound {blocker : Blocker} (hdoc : Documented blocker) (e written : ShieldEngine blocker) (data : Bytes) :
  ((e.deserialize written.serialize).2 = true ∧ (e.deserialize written.serialize).1.serialize = written.serialize) ∧
  ((e.deserialize data).2 = true ↔ ∃ main exceptions, Framed data main exceptions ∧
   (blocker.deserialize blocker.default exceptions).2 = true ∧ (blocker.deserialize e.engine main).2 = true) ∧
  ((e.deserialize data).2 = false → (e.deserialize data).1 = e) := by
 refine ⟨?_, ?_, ?_⟩
 · rw [deserialize_framed (serialize_framed hdoc written)]
   exact readBoth_serialized hdoc written
 · constructor
   · intro htaken
     by_cases hframed : ∃ main exceptions, Framed data main exceptions
     · obtain ⟨main, exceptions, hframed⟩ := hframed
       rw [deserialize_framed hframed] at htaken
       exact ⟨main, exceptions, hframed, (readBoth_accepts main exceptions).mp htaken⟩
     · rw [deserialize_unframed fun main exceptions h => hframed ⟨main, exceptions, h⟩] at htaken
       exact absurd htaken Bool.false_ne_true
   · rintro ⟨main, exceptions, hframed, hboth⟩
     rw [deserialize_framed hframed]
     exact (readBoth_accepts main exceptions).mpr hboth
 · intro hrefused
   by_cases hframed : ∃ main exceptions, Framed data main exceptions
   · obtain ⟨main, exceptions, hframed⟩ := hframed
     rw [deserialize_framed hframed] at hrefused ⊢
     exact readBoth_refused hdoc hrefused
   · rw [deserialize_unframed fun main exceptions h => hframed ⟨main, exceptions, h⟩]

def switchBlocker : Blocker where
 Engine := Bool
 default := false
 serialize on := [if on then 1 else 0]
 deserialize on data := if data = [0] then (false, true) else if data = [1] then (true, true) else (on, false)

theorem switchBlocker_documented : Documented switchBlocker where
 unchanged on data h := by
  change (if data = [0] then (false, true) else if data = [1] then (true, true) else (on, false)).1 = on
  change (if data = [0] then (false, true) else if data = [1] then (true, true) else (on, false)).2 = false at h
  split_ifs at h ⊢
  rfl
 reads on written := by cases on <;> cases written <;> decide
 sized on := by
  change 1 < 2 ^ 63
  norm_num

def off : ShieldEngine switchBlocker := { engine := false, paramExceptions := false }

def on : ShieldEngine switchBlocker := { engine := true, paramExceptions := false }

theorem serialization_sound_switch : (off.deserialize on.serialize).1.serialize = on.serialize ∧ (off.deserialize on.serialize.dropLast).1 = off :=
 have hsound := serialization_sound switchBlocker_documented off on on.serialize.dropLast
 ⟨hsound.1.2, hsound.2.2 rfl⟩

end MoltBrowser.EngineSerialization
