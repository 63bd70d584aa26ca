import Mathlib

set_option autoImplicit false

/-!
# How much of a model goes on the GPU

The layers that fit a device's memory beside the compute buffers and a small context, and the
context that then fits beside the layers. Every fixed-width operation records whether its result
left the range of its type.
-/
namespace MoltBrowser.GpuOffload

/-! ## Fixed-width arithmetic -/

/-- A value and whether some operation on the way to it wrapped around. -/
structure Computed (α : Type) where
 value : α
 wrapped : Bool := false

instance : Monad Computed where
 pure value := { value }
 bind x f := ⟨(f x.value).value, x.wrapped || (f x.value).wrapped⟩

/-- A result of type `uint64_t`. -/
def u64 (n : ℤ) : Computed ℕ := ⟨(n % 2 ^ 64).toNat, decide (¬ (0 ≤ n ∧ n < 2 ^ 64))⟩

/-- A value cast to `uint32_t`. -/
def u32 (n : ℤ) : Computed ℕ := ⟨(n % 2 ^ 32).toNat, decide (¬ (0 ≤ n ∧ n < 2 ^ 32))⟩

/-- A value cast to `int32_t`. -/
def i32 (n : ℤ) : Computed ℤ := ⟨n.bmod (2 ^ 32), decide (¬ (-2 ^ 31 ≤ n ∧ n < 2 ^ 31))⟩

theorem pure_bind {α β : Type} (a : α) (f : α → Computed β) : (pure a >>= f) = f a := rfl

theorem bind_wrapped {α β : Type} (x : Computed α) (f : α → Computed β) :
  (x >>= f).wrapped = (x.wrapped || (f x.value).wrapped) := rfl

theorem u64_eq {n : ℤ} {k : ℕ} (h : n = k) (hk : k < 2 ^ 64) : u64 n = pure k := by
 have hmod : n % 2 ^ 64 = k := by rw [h]; exact Int.emod_eq_of_lt (by omega) (by omega)
 rw [u64, hmod, Int.toNat_natCast, decide_eq_false (by omega)]
 rfl

theorem u32_eq {n : ℤ} {k : ℕ} (h : n = k) (hk : k < 2 ^ 32) : u32 n = pure k := by
 have hmod : n % 2 ^ 32 = k := by rw [h]; exact Int.emod_eq_of_lt (by omega) (by omega)
 rw [u32, hmod, Int.toNat_natCast, decide_eq_false (by omega)]
 rfl

theorem i32_eq {n : ℤ} (hlow : -2 ^ 31 ≤ n) (hhigh : n < 2 ^ 31) : i32 n = pure n := by
 have hmod : n.bmod (2 ^ 32) = n := Int.bmod_eq_of_le (by omega) (by omega)
 rw [i32, hmod, decide_eq_false (not_not.2 ⟨hlow, hhigh⟩)]
 rfl

def maxU64 : ℕ := 2 ^ 64 - 1

def saturatingMul (a b : ℕ) : Computed ℕ :=
 if a ≠ 0 ∧ maxU64 / a < b then pure maxU64 else u64 (a * b)

theorem saturatingMul_eq (a b : ℕ) : saturatingMul a b = pure (min (a * b) maxU64) := by
 rw [saturatingMul]
 split_ifs with h
 · have hover := (Nat.div_lt_iff_lt_mul (Nat.pos_of_ne_zero h.1)).1 h.2
   rw [Nat.mul_comm] at hover
   rw [min_eq_right hover.le]
 · have hfits : a * b ≤ maxU64 := by
    by_cases ha : a = 0
    · rw [ha, Nat.zero_mul]
      exact Nat.zero_le _
    · have hle := Nat.not_lt.1 fun hlt => h ⟨ha, hlt⟩
      rw [Nat.mul_comm]
      exact (Nat.le_div_iff_mul_le (Nat.pos_of_ne_zero ha)).1 hle
   rw [min_eq_left hfits]
   exact u64_eq (by push_cast; rfl) (Nat.lt_of_le_of_lt hfits (by decide))

/-! ## The plan -/

/-- The share of the device's free memory that a model may use, of a hundred. -/
def gpuUsablePercent : ℕ := 90
def gpuComputeReserveBytes : ℕ := 512 * 2 ^ 20
def gpuMinKvReserveBytes : ℕ := 256 * 2 ^ 20
def gpuMinLayerFraction : ℕ := 4

structure GpuOffloadInput where
 modelFileBytes : UInt64
 /-- The model's repeating layers; 0 if unknown. -/
 layerCount : UInt32
 memoryTotal : UInt64
 memoryFree : UInt64

inductive GpuOffloadReason where
 | allLayers
 | someLayers
 | tooLittleMemory
 | tooFewLayers
 | unknownLayers
 deriving DecidableEq

structure GpuOffloadPlan where
 /-- 0 is the CPU only, -1 every layer. -/
 gpuLayers : ℤ := 0
 reason : GpuOffloadReason := .tooLittleMemory
 weightBytes : ℕ := 0
 deriving DecidableEq

def availableMemory (total free : ℕ) : ℕ := if 0 < total then min total free else free

def usableMemory (input : GpuOffloadInput) : Computed ℕ :=
 u64 (availableMemory input.memoryTotal.toNat input.memoryFree.toNat / 100 * gpuUsablePercent)

/-- One layer's share of the file; the output layer counts as one more. -/
def bytesPerLayer (input : GpuOffloadInput) : Computed ℕ := do
 let shares ← u64 (input.layerCount.toNat + 1)
 let model := input.modelFileBytes.toNat
 let bytes ← u64 (model / shares + (if model % shares ≠ 0 then 1 else 0))
 pure (max 1 bytes)

def planGpuOffload (input : GpuOffloadInput) : Computed GpuOffloadPlan := do
 let usable ← usableMemory input
 let reserve ← u64 (gpuComputeReserveBytes + gpuMinKvReserveBytes)
 let model := input.modelFileBytes.toNat
 if model = 0 ∨ usable ≤ reserve then pure { reason := .tooLittleMemory }
 else
  let room ← u64 (usable - reserve)
  if model ≤ room then pure { gpuLayers := -1, reason := .allLayers, weightBytes := model }
  else if input.layerCount = 0 then pure { reason := .unknownLayers }
  else
   let perLayer ← bytesPerLayer input
   let fit := min (room / perLayer) input.layerCount.toNat
   let scaled ← saturatingMul fit gpuMinLayerFraction
   if fit = 0 ∨ scaled < input.layerCount.toNat then pure { reason := .tooFewLayers }
   else
    let gpuLayers ← i32 fit
    let weightBytes ← saturatingMul fit perLayer
    pure { gpuLayers, reason := .someLayers, weightBytes }

/-- The offloaded layers' share of the KV cache's bytes per token. -/
def kvOnDevice (input : GpuOffloadInput) (plan : GpuOffloadPlan) (kvBytesPerToken : ℕ) : Computed ℕ := do
 if 0 < plan.gpuLayers ∧ 0 < input.layerCount then
  let layers ← u32 plan.gpuLayers
  if layers < input.layerCount.toNat then
   let layers ← u64 plan.gpuLayers
   let bytes ← saturatingMul kvBytesPerToken layers
   pure (max 1 (bytes / input.layerCount.toNat))
  else pure kvBytesPerToken
 else pure kvBytesPerToken

def gpuContextLimit (input : GpuOffloadInput) (plan : GpuOffloadPlan) (kvBytesPerToken : ℕ) :
  Computed (Option ℕ) := do
 if plan.gpuLayers = 0 ∨ kvBytesPerToken = 0 then pure none
 else
  let kvBytes ← kvOnDevice input plan kvBytesPerToken
  let usable ← usableMemory input
  let used ← u64 (plan.weightBytes + gpuComputeReserveBytes)
  if usable < plan.weightBytes ∨ usable < used then pure (some 0)
  else
   let left ← u64 (usable - used)
   let tokens ← u32 (min (left / kvBytes) (2 ^ 32 - 1) : ℕ)
   pure (some tokens)

/-! ## What the plan comes to -/

def usable (input : GpuOffloadInput) : ℕ :=
 availableMemory input.memoryTotal.toNat input.memoryFree.toNat / 100 * gpuUsablePercent

def room (input : GpuOffloadInput) : ℕ := usable input - (gpuComputeReserveBytes + gpuMinKvReserveBytes)

def perLayer (input : GpuOffloadInput) : ℕ :=
 max 1 (input.modelFileBytes.toNat / (input.layerCount.toNat + 1) +
  (if input.modelFileBytes.toNat % (input.layerCount.toNat + 1) ≠ 0 then 1 else 0))

section Plan

variable (input : GpuOffloadInput)

theorem usable_lt : usable input < 2 ^ 64 := by
 have htotal := input.memoryTotal.toNat_lt
 have hfree := input.memoryFree.toNat_lt
 rw [usable, availableMemory, gpuUsablePercent]
 split_ifs <;> omega

theorem usableMemory_eq : usableMemory input = pure (usable input) :=
 u64_eq (by rw [usable]; push_cast; rfl) (usable_lt input)

theorem rounded_lt : input.modelFileBytes.toNat / (input.layerCount.toNat + 1) +
  (if input.modelFileBytes.toNat % (input.layerCount.toNat + 1) ≠ 0 then 1 else 0) < 2 ^ 64 := by
 have hmodel := input.modelFileBytes.toNat_lt
 have hdiv := Nat.div_le_self input.modelFileBytes.toNat (input.layerCount.toNat + 1)
 split_ifs with hrest
 · have hshares : input.layerCount.toNat ≠ 0 := by
    intro hzero
    rw [hzero, Nat.mod_one] at hrest
    exact hrest rfl
   have hhalf : input.modelFileBytes.toNat / (input.layerCount.toNat + 1) ≤ input.modelFileBytes.toNat / 2 :=
    Nat.div_le_div_left (by omega) Nat.two_pos
   omega
 · omega

theorem bytesPerLayer_eq : bytesPerLayer input = pure (perLayer input) := by
 have hlayers := input.layerCount.toNat_lt
 rw [bytesPerLayer, u64_eq (k := input.layerCount.toNat + 1) (by push_cast; rfl) (by omega), pure_bind]
 dsimp only
 rw [u64_eq (by push_cast; rfl) (rounded_lt input)]
 rfl

def fit : ℕ := min (room input / perLayer input) input.layerCount.toNat

/-- The whole file fits, or the count of layers that do fits an `int32_t`. -/
def LayersFit : Prop :=
 input.modelFileBytes.toNat ≤ room input ∨ input.layerCount.toNat < 2 ^ 31 ∨
  room input / perLayer input < 2 ^ 31

theorem perLayer_pos : 0 < perLayer input := Nat.lt_of_lt_of_le Nat.one_pos (le_max_left _ _)

theorem fit_mul_le : fit input * perLayer input ≤ room input :=
 (Nat.mul_le_mul_right _ (min_le_left _ _)).trans (Nat.div_mul_le_self _ _)

theorem saturatingMul_of_lt {a b : ℕ} (h : a * b < 2 ^ 64) : saturatingMul a b = pure (a * b) := by
 rw [saturatingMul_eq, min_eq_left]
 exact Nat.le_pred_of_lt h

theorem planGpuOffload_eq : planGpuOffload input =
  if input.modelFileBytes.toNat = 0 ∨ usable input ≤ gpuComputeReserveBytes + gpuMinKvReserveBytes then
   pure { reason := .tooLittleMemory }
  else if input.modelFileBytes.toNat ≤ room input then
   pure { gpuLayers := -1, reason := .allLayers, weightBytes := input.modelFileBytes.toNat }
  else if input.layerCount = 0 then pure { reason := .unknownLayers }
  else if fit input = 0 ∨ fit input * gpuMinLayerFraction < input.layerCount.toNat then
   pure { reason := .tooFewLayers }
  else (i32 (fit input) >>= fun gpuLayers =>
   pure { gpuLayers, reason := .someLayers, weightBytes := fit input * perLayer input }) := by
 have husable := usable_lt input
 rw [planGpuOffload, usableMemory_eq, pure_bind,
  u64_eq (k := gpuComputeReserveBytes + gpuMinKvReserveBytes) (by push_cast; rfl) (by decide), pure_bind]
 dsimp only
 by_cases hlittle : input.modelFileBytes.toNat = 0 ∨
   usable input ≤ gpuComputeReserveBytes + gpuMinKvReserveBytes
 · rw [if_pos hlittle, if_pos hlittle]
 have hroom : room input < 2 ^ 64 := Nat.lt_of_le_of_lt (Nat.sub_le _ _) husable
 have hsub : ((usable input : ℤ) - (gpuComputeReserveBytes + gpuMinKvReserveBytes : ℕ)) = (room input : ℕ) := by
  rw [room]
  omega
 have hscaled : fit input * gpuMinLayerFraction < 2 ^ 64 := by
  have hlayers := input.layerCount.toNat_lt
  have hle : fit input ≤ input.layerCount.toNat := min_le_right _ _
  rw [gpuMinLayerFraction]
  omega
 have hweights : fit input * perLayer input < 2 ^ 64 := Nat.lt_of_le_of_lt (fit_mul_le input) hroom
 rw [if_neg hlittle, if_neg hlittle, u64_eq hsub hroom, pure_bind, bytesPerLayer_eq, pure_bind]
 by_cases hall : input.modelFileBytes.toNat ≤ room input
 · rw [if_pos hall, if_pos hall]
 rw [if_neg hall, if_neg hall]
 by_cases hunknown : input.layerCount = 0
 · rw [if_pos hunknown, if_pos hunknown]
 rw [if_neg hunknown, if_neg hunknown]
 rw [show min (room input / perLayer input) input.layerCount.toNat = fit input from rfl,
  saturatingMul_of_lt hscaled, saturatingMul_of_lt hweights, pure_bind]
 rfl

/-- Nothing wraps around: the layers are in range and their weights leave both reserves free. -/
theorem plan_fits (h : LayersFit input) : ∃ plan, planGpuOffload input = pure plan ∧
  (plan.gpuLayers = -1 ∨ plan.gpuLayers = 0 ∨
   (1 ≤ plan.gpuLayers ∧ plan.gpuLayers ≤ input.layerCount.toNat ∧ plan.gpuLayers < 2 ^ 31)) ∧
  (plan.gpuLayers ≠ 0 →
   plan.weightBytes + (gpuComputeReserveBytes + gpuMinKvReserveBytes) ≤ usable input) := by
 rw [planGpuOffload_eq]
 by_cases hlittle : input.modelFileBytes.toNat = 0 ∨
   usable input ≤ gpuComputeReserveBytes + gpuMinKvReserveBytes
 · rw [if_pos hlittle]
   exact ⟨_, rfl, Or.inr (Or.inl rfl), fun hne => absurd rfl hne⟩
 have hroom : room input + (gpuComputeReserveBytes + gpuMinKvReserveBytes) = usable input := by
  rw [room]
  omega
 rw [if_neg hlittle]
 by_cases hall : input.modelFileBytes.toNat ≤ room input
 · rw [if_pos hall]
   exact ⟨_, rfl, Or.inl rfl, fun _ => by dsimp only; omega⟩
 rw [if_neg hall]
 by_cases hunknown : input.layerCount = 0
 · rw [if_pos hunknown]
   exact ⟨_, rfl, Or.inr (Or.inl rfl), fun hne => absurd rfl hne⟩
 rw [if_neg hunknown]
 by_cases hfew : fit input = 0 ∨ fit input * gpuMinLayerFraction < input.layerCount.toNat
 · rw [if_pos hfew]
   exact ⟨_, rfl, Or.inr (Or.inl rfl), fun hne => absurd rfl hne⟩
 have hlayers : fit input ≤ input.layerCount.toNat := min_le_right _ _
 have hquotient : fit input ≤ room input / perLayer input := min_le_left _ _
 have hcast : fit input < 2 ^ 31 := by
  rcases h with hwhole | hcount | hper
  · exact absurd hwhole hall
  · omega
  · omega
 rw [if_neg hfew, i32_eq (by omega) (by omega), pure_bind]
 refine ⟨_, rfl, Or.inr (Or.inr ⟨?_, ?_, ?_⟩), fun _ => ?_⟩
 · dsimp only
   omega
 · dsimp only
   omega
 · dsimp only
   omega
 · have hweights := fit_mul_le input
   dsimp only
   omega

theorem plan_wraps (h : ¬ LayersFit input) : (planGpuOffload input).wrapped = true := by
 rw [LayersFit, not_or, not_or, Nat.not_lt, Nat.not_lt] at h
 obtain ⟨hall, hcount, hper⟩ := h
 have hfit : 2 ^ 31 ≤ fit input := le_min hper hcount
 have hlayers := input.layerCount.toNat_lt
 have hfraction : gpuMinLayerFraction = 4 := rfl
 have hroom : room input ≠ 0 := by
  intro hzero
  rw [hzero, Nat.zero_div] at hper
  exact absurd hper (by decide)
 have hlittle : ¬ (input.modelFileBytes.toNat = 0 ∨
   usable input ≤ gpuComputeReserveBytes + gpuMinKvReserveBytes) := by
  rw [room] at hroom hall
  omega
 have hknown : ¬ input.layerCount = 0 := by
  intro hzero
  rw [hzero] at hcount
  exact absurd hcount (by decide)
 have hmany : ¬ (fit input = 0 ∨ fit input * gpuMinLayerFraction < input.layerCount.toNat) := by
  rw [hfraction]
  omega
 have hcast : ¬ (-2 ^ 31 ≤ (fit input : ℤ) ∧ (fit input : ℤ) < 2 ^ 31) := by omega
 rw [planGpuOffload_eq, if_neg hlittle, if_neg hall, if_neg hknown, if_neg hmany]
 rw [bind_wrapped, i32, decide_eq_true hcast, Bool.true_or]

end Plan

/-! ## The context beside it -/

section Context

variable (input : GpuOffloadInput) {plan : GpuOffloadPlan} {kv : ℕ}

def GpuOffloadPlan.Counted (plan : GpuOffloadPlan) : Prop :=
 plan.gpuLayers = -1 ∨ (1 ≤ plan.gpuLayers ∧ plan.gpuLayers < 2 ^ 31)

theorem kvOnDevice_eq (h : plan.Counted) (hkv : kv ≠ 0) :
  ∃ share, kvOnDevice input plan kv = pure share ∧ 0 < share := by
 rw [kvOnDevice]
 split_ifs with hsome
 · have hlayers : plan.gpuLayers = plan.gpuLayers.toNat := by omega
   have hlt : plan.gpuLayers.toNat < 2 ^ 31 := by
    rcases h with hall | ⟨-, hlt⟩ <;> omega
   rw [u32_eq hlayers (by omega), pure_bind]
   split_ifs
   · rw [u64_eq hlayers (by omega), pure_bind, saturatingMul_eq, pure_bind]
     exact ⟨_, rfl, Nat.lt_of_lt_of_le Nat.one_pos (le_max_left _ _)⟩
   · exact ⟨kv, rfl, Nat.pos_of_ne_zero hkv⟩
 · exact ⟨kv, rfl, Nat.pos_of_ne_zero hkv⟩

theorem gpuContextLimit_fits (h : plan.Counted) (hroom : plan.weightBytes + gpuComputeReserveBytes ≤ usable input) :
  (gpuContextLimit input plan kv).wrapped = false ∧
   ∀ tokens, (gpuContextLimit input plan kv).value = some tokens →
    plan.weightBytes + gpuComputeReserveBytes + tokens * (kvOnDevice input plan kv).value ≤
     usable input := by
 have husable := usable_lt input
 by_cases hnone : plan.gpuLayers = 0 ∨ kv = 0
 · rw [gpuContextLimit, if_pos hnone]
   exact ⟨rfl, fun tokens htokens => absurd htokens (Option.some_ne_none tokens).symm⟩
 obtain ⟨share, hshare, hpos⟩ := kvOnDevice_eq input h (not_or.1 hnone).2
 have hused : ((plan.weightBytes : ℤ) + gpuComputeReserveBytes) =
   (plan.weightBytes + gpuComputeReserveBytes : ℕ) := by push_cast; rfl
 have hleft : ((usable input : ℤ) - (plan.weightBytes + gpuComputeReserveBytes : ℕ)) =
   (usable input - (plan.weightBytes + gpuComputeReserveBytes) : ℕ) := by omega
 rw [gpuContextLimit, if_neg hnone, hshare, pure_bind, usableMemory_eq, pure_bind,
  u64_eq hused (by omega), pure_bind, if_neg (by omega), u64_eq hleft (by omega), pure_bind,
  u32_eq rfl (by omega), pure_bind]
 refine ⟨rfl, fun tokens htokens => ?_⟩
 obtain rfl := Option.some.inj htokens
 have hcache := Nat.div_mul_le_self (usable input - (plan.weightBytes + gpuComputeReserveBytes)) share
 have hle := Nat.mul_le_mul_right share (min_le_left
  ((usable input - (plan.weightBytes + gpuComputeReserveBytes)) / share) (2 ^ 32 - 1))
 change _ + _ * share ≤ _
 omega

end Context

/-- No operation wraps around, the count of layers is one that the runtime knows, and the weights,
the compute buffers and the cache of every token allowed are within the usable memory. -/
def WithinMemory (input : GpuOffloadInput) (kvBytesPerToken : UInt64) : Prop :=
 let plan := planGpuOffload input
 let limit := gpuContextLimit input plan.value kvBytesPerToken.toNat
 (plan.wrapped = false ∧ limit.wrapped = false) ∧
  (plan.value.gpuLayers = -1 ∨ plan.value.gpuLayers = 0 ∨
   (1 ≤ plan.value.gpuLayers ∧ plan.value.gpuLayers ≤ input.layerCount.toNat)) ∧
  ∀ tokens, limit.value = some tokens →
   plan.value.weightBytes + gpuComputeReserveBytes +
    tokens * (kvOnDevice input plan.value kvBytesPerToken.toNat).value ≤ (usableMemory input).value

def manyLayers : GpuOffloadInput := ⟨8589934592, 4294967295, 8589934592, 8589934592⟩

end MoltBrowser.GpuOffload
