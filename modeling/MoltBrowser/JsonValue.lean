import MoltBrowser.Bytes
import MoltBrowser.SortedTable

set_option autoImplicit false

/-!
# JSON values (`base::Value`, `base::DictValue`)

A dictionary is a flat map in key order. Doubles are finite: an integer below
`2 ^ 53` in magnitude times a power of two. Only the two conversions between
doubles and 64-bit integers are needed.
-/
namespace MoltBrowser

/-- A finite double `mantissa * 2 ^ exponent`. -/
structure Double where
 mantissa : ℤ
 exponent : ℤ
 inMantissa : mantissa.natAbs < 2 ^ 53
 inExponent : -1074 ≤ exponent ∧ exponent ≤ 971

namespace Double

def int64Min : ℤ := -2 ^ 63
def int64Max : ℤ := 2 ^ 63 - 1

def trunc (d : Double) : ℤ :=
 if 0 ≤ d.exponent then d.mantissa * 2 ^ d.exponent.toNat
 else d.mantissa.tdiv (2 ^ (-d.exponent).toNat)

/-- `base::saturated_cast<int64_t>`. -/
def toInt64 (d : Double) : ℤ := max int64Min (min int64Max d.trunc)

/-- The bits of `n` beyond a mantissa's 53. -/
def excess (n : ℕ) : ℕ := n.log2 + 1 - 53

/-- `n` in units of `2 ^ excess n`, to the nearest, ties to even. -/
def roundedUnits (n : ℕ) : ℕ :=
 let k := excess n
 let q := n / 2 ^ k
 let r := n % 2 ^ k
 if 2 * r > 2 ^ k ∨ (2 * r = 2 ^ k ∧ q % 2 = 1) then q + 1 else q

theorem div_excess_lt (n : ℕ) : n / 2 ^ excess n < 2 ^ 53 := by
 rw [Nat.div_lt_iff_lt_mul (by positivity), ← pow_add]
 refine lt_of_lt_of_le Nat.lt_log2_self (Nat.pow_le_pow_right (by omega) ?_)
 unfold excess
 omega

theorem excess_le {n : ℕ} (h : n ≤ 2 ^ 63) : excess n ≤ 11 := by
 by_cases h0 : n = 0
 · simp [excess, h0]
 · have hlog : n.log2 < 64 := (Nat.log2_lt h0).2 (by omega)
   unfold excess
   omega

/-- `static_cast<double>` of an `int64_t`: larger magnitudes are not values of that type. -/
def ofInt64 (i : ℤ) : Double :=
 let n := min i.natAbs (2 ^ 63)
 have hn : excess n ≤ 11 := excess_le (Nat.min_le_right _ _)
 if roundedUnits n = 2 ^ 53 then
  -- Rounded up to a power of two: one bit fewer, one exponent more.
  ⟨i.sign * 2 ^ 52, excess n + 1, by
   rw [Int.natAbs_mul, Int.natAbs_sign]
   split <;> norm_num, by omega⟩
 else ⟨i.sign * (roundedUnits n % 2 ^ 53 : ℕ), excess n, by
   have hlt := Nat.mod_lt (roundedUnits n) (show 0 < 2 ^ 53 by positivity)
   rw [Int.natAbs_mul, Int.natAbs_sign, Int.natAbs_natCast]
   split <;> omega, by omega⟩

def keepInt64 (i : ℤ) : ℤ := (ofInt64 i).toInt64

theorem sign_mul_natAbs (i : ℤ) : i.sign * (i.natAbs : ℤ) = i := Int.sign_mul_natAbs i

theorem keepInt64_of_dvd {i : ℤ} (hmin : int64Min ≤ i) (hmax : i ≤ int64Max)
  (hdvd : 2 ^ excess i.natAbs ∣ i.natAbs) : keepInt64 i = i := by
 have hn : min i.natAbs (2 ^ 63) = i.natAbs := by
  unfold int64Min int64Max at *
  omega
 have hunits : roundedUnits i.natAbs = i.natAbs / 2 ^ excess i.natAbs := by
  simp only [roundedUnits, Nat.mod_eq_zero_of_dvd hdvd]
  have hpos : 0 < 2 ^ excess i.natAbs := by positivity
  rw [if_neg (by omega)]
 have hlt := div_excess_lt i.natAbs
 have htrunc : (ofInt64 i).trunc = i := by
  simp only [ofInt64, hn, hunits, hlt.ne, ↓reduceIte, Nat.mod_eq_of_lt hlt, trunc]
  rw [if_pos (Int.natCast_nonneg _), Int.toNat_natCast, mul_assoc]
  have hmul : ((i.natAbs / 2 ^ excess i.natAbs : ℕ) : ℤ) * 2 ^ excess i.natAbs = i.natAbs := by
   exact_mod_cast Nat.div_mul_cancel hdvd
  rw [hmul, sign_mul_natAbs]
 rw [keepInt64, toInt64, htrunc]
 omega

theorem keepInt64_of_small {i : ℤ} (h : i.natAbs ≤ 2 ^ 53) : keepInt64 i = i := by
 apply keepInt64_of_dvd
 · unfold int64Min
   omega
 · unfold int64Max
   omega
 · by_cases heq : i.natAbs = 2 ^ 53
   · rw [heq]
     decide
   · have hexcess : excess i.natAbs = 0 := by
      by_cases h0 : i.natAbs = 0
      · simp [excess, h0]
      · have hlog : i.natAbs.log2 < 53 := (Nat.log2_lt h0).2 (by omega)
        unfold excess
        omega
     simp [hexcess]

theorem trunc_ofInt64_of_small {i : ℤ} (h : i.natAbs ≤ 2 ^ 53) : (ofInt64 i).trunc = i := by
 have hkeep := keepInt64_of_small h
 rw [keepInt64, toInt64] at hkeep
 unfold int64Min int64Max at hkeep
 omega

def toRat (d : Double) : ℚ := d.mantissa * 2 ^ d.exponent

theorem toRat_of_exponent {d : Double} (h : 0 ≤ d.exponent) : d.toRat = d.trunc := by
 obtain ⟨k, hk⟩ := Int.eq_ofNat_of_zero_le h
 rw [toRat, trunc, if_pos h, hk, Int.toNat_natCast, zpow_natCast]
 push_cast
 rfl

theorem exponent_ofInt64 (i : ℤ) : 0 ≤ (ofInt64 i).exponent := by
 unfold ofInt64
 dsimp only
 split
 · exact Int.natCast_nonneg (_ + 1)
 · exact Int.natCast_nonneg _

theorem keepInt64_toInt64 (d : Double) : keepInt64 d.toInt64 = d.toInt64 := by
 by_cases hsmall : d.toInt64.natAbs ≤ 2 ^ 53
 · exact keepInt64_of_small hsmall
 by_cases hlow : d.trunc ≤ int64Min
 · have heq : d.toInt64 = int64Min := by
    unfold toInt64 int64Min int64Max at *
    omega
   rw [heq]
   decide
 by_cases hhigh : int64Max ≤ d.trunc
 · have heq : d.toInt64 = int64Max := by
    unfold toInt64 int64Min int64Max at *
    omega
   rw [heq]
   decide
 have heq : d.toInt64 = d.trunc := by
  unfold toInt64
  omega
 rw [heq] at hsmall ⊢
 refine keepInt64_of_dvd (by omega) (by omega) ?_
 have hm := d.inMantissa
 have hexp : 0 ≤ d.exponent := by
  by_contra hneg
  have hle : d.trunc.natAbs ≤ d.mantissa.natAbs := by
   rw [trunc, if_neg hneg, Int.natAbs_tdiv]
   exact Nat.div_le_self _ _
  omega
 have habs : d.trunc.natAbs = d.mantissa.natAbs * 2 ^ d.exponent.toNat := by
  rw [trunc, if_pos hexp, Int.natAbs_mul, Int.natAbs_pow]
  rfl
 have hne : d.trunc.natAbs ≠ 0 := by omega
 rw [habs] at hne ⊢
 apply Dvd.dvd.mul_left
 apply pow_dvd_pow
 have hlog : (d.mantissa.natAbs * 2 ^ d.exponent.toNat).log2 < 53 + d.exponent.toNat := by
  rw [Nat.log2_lt hne, pow_add]
  exact Nat.mul_lt_mul_of_pos_right hm (by positivity)
 unfold excess
 omega

end Double

/-- `int` is a C++ `int`; larger integers are doubles. -/
inductive Value where
 | none
 | bool (b : Bool)
 | int (i : Int32)
 | double (d : Double)
 | string (s : Bytes)
 | binary (b : Bytes)
 | list (l : List Value)
 | dict (d : List (Bytes × Value))

abbrev Dict := List (Bytes × Value)

namespace Value

def isNone : Value → Bool
 | .none => true
 | _ => false

def bool? : Value → Option Bool
 | .bool b => some b
 | _ => Option.none

def int? : Value → Option Int32
 | .int i => some i
 | _ => Option.none

def double? : Value → Option Double
 | .double x => some x
 | .int i => some (.ofInt64 i.toInt)
 | _ => Option.none

def string? : Value → Option Bytes
 | .string s => some s
 | _ => Option.none

def list? : Value → Option (List Value)
 | .list l => some l
 | _ => Option.none

def dict? : Value → Option Dict
 | .dict d => some d
 | _ => Option.none

@[simp] theorem bool?_bool (b : Bool) : bool? (.bool b) = some b := rfl

@[simp] theorem int?_int (i : Int32) : int? (.int i) = some i := rfl

@[simp] theorem string?_string (s : Bytes) : string? (.string s) = some s := rfl

@[simp] theorem list?_list (l : List Value) : list? (.list l) = some l := rfl

@[simp] theorem dict?_dict (d : Dict) : dict? (.dict d) = some d := rfl

end Value

namespace Dict
open SortedTable

def find (d : Dict) (key : Bytes) : Option Value := SortedTable.find d key

/-- `Set`: adds the key at its place, or replaces its value. -/
def set (d : Dict) (key : Bytes) (v : Value) : Dict := upsert d key v

/-- The writers' `if (...) d.Set(...)`. -/
def setIf (c : Prop) [Decidable c] (d : Dict) (key : Bytes) (v : Value) : Dict :=
 if c then set d key v else d

def findBool (d : Dict) (key : Bytes) : Option Bool := (find d key).bind Value.bool?

def findInt (d : Dict) (key : Bytes) : Option Int32 := (find d key).bind Value.int?

def findDouble (d : Dict) (key : Bytes) : Option Double := (find d key).bind Value.double?

def findString (d : Dict) (key : Bytes) : Option Bytes := (find d key).bind Value.string?

def findList (d : Dict) (key : Bytes) : Option (List Value) := (find d key).bind Value.list?

def findDict (d : Dict) (key : Bytes) : Option Dict := (find d key).bind Value.dict?

def remove (d : Dict) (key : Bytes) : Dict := d.filter fun kv => kv.1 ≠ key

/-- Changes the dictionaries of the list under `key` in place; other entries are passed over. -/
def changeList (d : Dict) (key : Bytes) (f : Dict → Dict) : Dict :=
 match findList d key with
 | some l => set d key (.list (l.map fun v =>
   match v with
   | .dict e => .dict (f e)
   | v => v))
 | none => d

@[simp] theorem find_nil (key : Bytes) : find [] key = none := rfl

@[simp] theorem find_set (d : Dict) (key k : Bytes) (v : Value) :
  find (set d key v) k = if k = key then some v else find d k := find_upsert _ _ _ _

@[simp] theorem find_setIf (c : Prop) [Decidable c] (d : Dict) (key k : Bytes) (v : Value) :
  find (setIf c d key v) k = if c ∧ k = key then some v else find d k := by
 unfold setIf
 by_cases hc : c <;> simp [hc]

theorem length_set {d : Dict} {key : Bytes} (v : Value) (h : find d key = none) :
  (set d key v).length = d.length + 1 := length_upsert v h

end Dict
end MoltBrowser
