import MoltBrowser.TransitionRuns

set_option autoImplicit false

/-! Byte strings: a C++ `std::string` is its bytes, and a literal its UTF-8. -/
namespace MoltBrowser

abbrev Bytes := List UInt8

def utf8 (s : String) : Bytes := s.toByteArray.data.toList

instance : Coe String Bytes := ⟨utf8⟩

instance lawfulBEq_bytes : LawfulBEq Bytes := inferInstance
instance trichotomous_bytes : Std.Trichotomous fun s t : Bytes => s < t := inferInstance
instance isPreorder_byte : Std.IsPreorder UInt8 := inferInstance

@[simp] theorem utf8_inj (s t : String) : utf8 s = utf8 t ↔ s = t := by
 constructor
 · intro h
   have hd : s.toByteArray.data = t.toByteArray.data := Array.toList_inj.1 h
   exact String.toByteArray_inj.1 (ByteArray.ext hd)
 · rintro rfl
   rfl

end MoltBrowser
