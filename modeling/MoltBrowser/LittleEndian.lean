import MoltBrowser.Bytes

set_option autoImplicit false

/-! # Numbers as their bytes, the lowest first -/
namespace MoltBrowser.LittleEndian

def bytesOf : (width : ℕ) → ℕ → Bytes
 | 0, _ => []
 | width + 1, n => UInt8.ofNat (n % 256) :: bytesOf width (n / 256)

def valueOf : Bytes → ℕ
 | [] => 0
 | b :: bytes => b.toNat + 256 * valueOf bytes

@[simp] theorem length_bytesOf (width n : ℕ) : (bytesOf width n).length = width := by
 induction width generalizing n with
 | zero => rfl
 | succ width ih => rw [bytesOf, List.length_cons, ih]

theorem valueOf_bytesOf (width n : ℕ) : valueOf (bytesOf width n) = n % 256 ^ width := by
 induction width generalizing n with
 | zero => rw [pow_zero, Nat.mod_one]; rfl
 | succ width ih =>
  have hlow : (UInt8.ofNat (n % 256)).toNat = n % 256 := by
   rw [UInt8.toNat_ofNat']
   omega
  rw [bytesOf, valueOf, ih, hlow, pow_succ', Nat.mod_mul]

theorem bytesOf_valueOf (bytes : Bytes) : bytesOf bytes.length (valueOf bytes) = bytes := by
 induction bytes with
 | nil => rfl
 | cons b bytes ih =>
  have hb : b.toNat < 256 := b.toNat_lt
  have hlow : (b.toNat + 256 * valueOf bytes) % 256 = b.toNat := by omega
  have hrest : (b.toNat + 256 * valueOf bytes) / 256 = valueOf bytes := by omega
  rw [List.length_cons, valueOf, bytesOf, hlow, hrest, ih, UInt8.ofNat_toNat]

theorem valueOf_lt (bytes : Bytes) : valueOf bytes < 256 ^ bytes.length := by
 induction bytes with
 | nil => decide
 | cons b bytes ih =>
  have hb : b.toNat < 256 := b.toNat_lt
  rw [valueOf, List.length_cons, pow_succ']
  omega

end MoltBrowser.LittleEndian
