import MoltBrowser.Bytes

set_option autoImplicit false

/-!
# Images for the model

An image of any size is scaled down and centred on a grey canvas whose sides and aspect ratio
are within the bounds that the service checks again.
-/
namespace MoltBrowser.ModelImages
open List

def maxImageSide : ℕ := 1024
def minImageSide : ℕ := 32
def maxImageAspectRatio : ℕ := 8
def imageBytesPerPixel : ℕ := 3
def imagePadValue : ℕ := 128

def u32 (n : ℕ) : ℕ := n % 2 ^ 32
def u64 (n : ℕ) : ℕ := n % 2 ^ 64

inductive ImageCheck where
 | ok
 | badSize
 | badAspectRatio
 | badByteLength
 deriving DecidableEq

def checkModelImage (width height byteLength : ℕ) : ImageCheck :=
 if width < minImageSide ∨ maxImageSide < width ∨ height < minImageSide ∨ maxImageSide < height then
  .badSize
 else if u64 (min width height * maxImageAspectRatio) < max width height then .badAspectRatio
 else if byteLength ≠ u64 (width * height * imageBytesPerPixel) then .badByteLength
 else .ok

structure ImagePlan where
 contentWidth : ℕ
 contentHeight : ℕ
 canvasWidth : ℕ
 canvasHeight : ℕ
 offsetX : ℕ
 offsetY : ℕ
 deriving DecidableEq

/-- The sides the content is scaled to, never up: the long one fits `maxSide`. -/
def contentSides (srcLong srcShort maxSide : ℕ) : ℕ × ℕ :=
 if maxSide < srcLong then
  (maxSide, max 1 (u64 (srcShort * maxSide * 2 + srcLong) / u64 (srcLong * 2)))
 else (srcLong, srcShort)

def canvasSides (longSide shortSide : ℕ) : ℕ × ℕ :=
 let canvasLong := max longSide minImageSide
 (canvasLong, max shortSide (max
  (u64 (canvasLong + maxImageAspectRatio - 1) / maxImageAspectRatio) minImageSide))

def planModelImage (srcWidth srcHeight maxSide : ℕ) : Option ImagePlan :=
 if srcWidth = 0 ∨ srcHeight = 0 ∨ maxSide < minImageSide ∨ maxImageSide < maxSide then none
 else
  let landscape := srcHeight ≤ srcWidth
  let content := contentSides (if landscape then srcWidth else srcHeight)
   (if landscape then srcHeight else srcWidth) maxSide
  let canvas := canvasSides content.1 content.2
  let contentWidth := u32 (if landscape then content.1 else content.2)
  let contentHeight := u32 (if landscape then content.2 else content.1)
  let canvasWidth := u32 (if landscape then canvas.1 else canvas.2)
  let canvasHeight := u32 (if landscape then canvas.2 else canvas.1)
  some {
   contentWidth, contentHeight, canvasWidth, canvasHeight
   offsetX := u32 (canvasWidth + 2 ^ 32 - contentWidth) / 2
   offsetY := u32 (canvasHeight + 2 ^ 32 - contentHeight) / 2 }

/-- `c` over the pad colour, rounded. -/
def overPad (c a : UInt8) : UInt8 :=
 UInt8.ofNat ((c.toNat * a.toNat + imagePadValue * (255 - a.toNat) + 127) / 255)

def ImagePlan.canvasBytes (plan : ImagePlan) : ℕ :=
 u64 (plan.canvasWidth * plan.canvasHeight * imageBytesPerPixel)

/-- What is written for `width` pixels read from `src` on: the offsets from `dst` on, in order. -/
def rowStores (content : Bytes) : ℕ → ℕ → ℕ → List (ℕ × UInt8)
 | 0, _, _ => []
 | width + 1, src, dst =>
  let a := content.getD (src + 3) 0
  (dst, overPad (content.getD src 0) a) ::
  (dst + 1, overPad (content.getD (src + 1) 0) a) ::
  (dst + 2, overPad (content.getD (src + 2) 0) a) ::
  rowStores content width (src + 4) (dst + imageBytesPerPixel)

def ImagePlan.rowStart (plan : ImagePlan) (y : ℕ) : ℕ :=
 u64 ((u32 (plan.offsetY + y) * plan.canvasWidth + plan.offsetX) * imageBytesPerPixel)

def contentStores (plan : ImagePlan) (content : Bytes) (rowBytes : ℕ) : List (ℕ × UInt8) :=
 (List.range plan.contentHeight).flatMap fun y =>
  rowStores content plan.contentWidth (u64 (y * rowBytes)) (plan.rowStart y)

/-- `content` is none for a null pointer. -/
def composeModelImage (plan : ImagePlan) (content : Option Bytes) (rowBytes : ℕ) : Option Bytes :=
 match content with
 | none => none
 | some content =>
  let width := plan.contentWidth
  let height := plan.contentHeight
  let rowPixelsBytes := width * 4
  if checkModelImage plan.canvasWidth plan.canvasHeight plan.canvasBytes ≠ .ok then none
  else if width = 0 ∨ height = 0 ∨ plan.canvasWidth < plan.offsetX + width ∨
    plan.canvasHeight < plan.offsetY + height then none
  else if rowBytes < rowPixelsBytes ∨ content.length < rowPixelsBytes then none
  else if 1 < height ∧ (content.length - rowPixelsBytes) / (height - 1) < rowBytes then none
  else some ((contentStores plan content rowBytes).foldl (fun out store => out.set store.1 store.2)
   (List.replicate plan.canvasBytes (UInt8.ofNat imagePadValue)))

/-! ## The plan -/

theorem u64_eq {n : ℕ} (h : n < 2 ^ 64) : u64 n = n := Nat.mod_eq_of_lt h

theorem u32_eq {n : ℕ} (h : n < 2 ^ 32) : u32 n = n := Nat.mod_eq_of_lt h

section Sides

variable {srcLong srcShort maxSide : ℕ}

theorem contentSides_spec (hshort : 0 < srcShort) (hle : srcShort ≤ srcLong) (hlong : srcLong < 2 ^ 32)
  (hmin : minImageSide ≤ maxSide) (hmax : maxSide ≤ maxImageSide) :
  0 < (contentSides srcLong srcShort maxSide).2 ∧
   (contentSides srcLong srcShort maxSide).2 ≤ (contentSides srcLong srcShort maxSide).1 ∧
   (contentSides srcLong srcShort maxSide).1 ≤ maxSide := by
 rw [minImageSide] at hmin
 rw [maxImageSide] at hmax
 have hscaled : srcShort * maxSide ≤ srcLong * maxSide := Nat.mul_le_mul_right maxSide hle
 have hbound : srcLong * maxSide ≤ 2 ^ 32 * 1024 := Nat.mul_le_mul hlong.le hmax
 rw [contentSides]
 split_ifs with hscale
 · have hround : (srcShort * maxSide * 2 + srcLong) / (srcLong * 2) < maxSide + 1 := by
    apply (Nat.div_lt_iff_lt_mul (by omega)).2
    calc srcShort * maxSide * 2 + srcLong < srcLong * maxSide * 2 + srcLong * 2 := by omega
     _ = (maxSide + 1) * (srcLong * 2) := by ring
   dsimp only
   rw [u64_eq (by omega), u64_eq (by omega)]
   omega
 · dsimp only
   omega

variable {longSide shortSide : ℕ}

theorem canvasSides_spec (hle : shortSide ≤ longSide) (hmax : longSide ≤ maxImageSide) :
  let canvas := canvasSides longSide shortSide
  shortSide ≤ canvas.2 ∧ longSide ≤ canvas.1 ∧ minImageSide ≤ canvas.2 ∧ canvas.2 ≤ canvas.1 ∧
   canvas.1 ≤ maxImageSide ∧ canvas.1 ≤ canvas.2 * maxImageAspectRatio := by
 simp only [canvasSides, minImageSide, maxImageSide, maxImageAspectRatio] at *
 rw [u64_eq (by omega)]
 omega

end Sides

structure ImagePlan.Sound (plan : ImagePlan) : Prop where
 contentWidth : 0 < plan.contentWidth
 contentHeight : 0 < plan.contentHeight
 insideX : plan.offsetX + plan.contentWidth ≤ plan.canvasWidth
 insideY : plan.offsetY + plan.contentHeight ≤ plan.canvasHeight
 canvas : checkModelImage plan.canvasWidth plan.canvasHeight
  (plan.canvasWidth * plan.canvasHeight * imageBytesPerPixel) = .ok

theorem checkModelImage_ok {width height : ℕ} (hmin : minImageSide ≤ min width height)
  (hmax : max width height ≤ maxImageSide)
  (hratio : max width height ≤ min width height * maxImageAspectRatio) :
  checkModelImage width height (width * height * imageBytesPerPixel) = .ok := by
 have hbounds : minImageSide = 32 ∧ maxImageSide = 1024 ∧ maxImageAspectRatio = 8 ∧
   imageBytesPerPixel = 3 := ⟨rfl, rfl, rfl, rfl⟩
 have hpixels : width * height ≤ 1024 * 1024 := Nat.mul_le_mul (by omega) (by omega)
 have hlength : width * height * imageBytesPerPixel = width * height * 3 := rfl
 have hshort : min width height * maxImageAspectRatio = min width height * 8 := rfl
 rw [checkModelImage, u64_eq (by omega), u64_eq (by omega), if_neg (by omega), if_neg (by omega),
  if_neg (not_not.2 rfl)]

theorem sound_of_sides {width height canvasWidth canvasHeight : ℕ} (hw : 0 < width) (hh : 0 < height)
  (hx : width ≤ canvasWidth) (hy : height ≤ canvasHeight)
  (hmin : minImageSide ≤ min canvasWidth canvasHeight) (hmax : max canvasWidth canvasHeight ≤ maxImageSide)
  (hratio : max canvasWidth canvasHeight ≤ min canvasWidth canvasHeight * maxImageAspectRatio) :
  ImagePlan.Sound {
   contentWidth := u32 width
   contentHeight := u32 height
   canvasWidth := u32 canvasWidth
   canvasHeight := u32 canvasHeight
   offsetX := u32 (u32 canvasWidth + 2 ^ 32 - u32 width) / 2
   offsetY := u32 (u32 canvasHeight + 2 ^ 32 - u32 height) / 2 } := by
 have hside : maxImageSide = 1024 := rfl
 have hsub : ∀ a b : ℕ, b ≤ a → a < 2 ^ 32 → u32 (a + 2 ^ 32 - b) = a - b := fun a b hab ha => by
  rw [u32]
  omega
 rw [u32_eq (n := width) (by omega), u32_eq (n := height) (by omega), u32_eq (n := canvasWidth) (by omega),
  u32_eq (n := canvasHeight) (by omega), hsub _ _ hx (by omega), hsub _ _ hy (by omega)]
 constructor
 case contentWidth => exact hw
 case contentHeight => exact hh
 case insideX =>
  dsimp only
  omega
 case insideY =>
  dsimp only
  omega
 case canvas => exact checkModelImage_ok hmin hmax hratio

theorem planModelImage_sound (srcWidth srcHeight maxSide : ℕ) (hw : 0 < srcWidth)
  (hw' : srcWidth < 2 ^ 32) (hh : 0 < srcHeight) (hh' : srcHeight < 2 ^ 32) (hmin : minImageSide ≤ maxSide)
  (hmax : maxSide ≤ maxImageSide) :
  ∃ plan, planModelImage srcWidth srcHeight maxSide = some plan ∧ plan.Sound := by
 rw [planModelImage, if_neg (by omega)]
 refine ⟨_, rfl, ?_⟩
 by_cases hland : srcHeight ≤ srcWidth
 · simp only [hland, if_true]
   obtain ⟨hpos, hle, hfit⟩ := contentSides_spec hh hland hw' hmin hmax
   obtain ⟨hshort, hlong, hmin', hle', hmax', hratio⟩ := canvasSides_spec hle (hfit.trans hmax)
   apply sound_of_sides (by omega) hpos hlong hshort
   · rwa [min_eq_right hle']
   · rwa [max_eq_left hle']
   · rwa [max_eq_left hle', min_eq_right hle']
 · simp only [hland, if_false]
   obtain ⟨hpos, hle, hfit⟩ := contentSides_spec hw (Nat.le_of_not_le hland) hh' hmin hmax
   obtain ⟨hshort, hlong, hmin', hle', hmax', hratio⟩ := canvasSides_spec hle (hfit.trans hmax)
   apply sound_of_sides hpos (by omega) hshort hlong
   · rwa [min_eq_left hle']
   · rwa [max_eq_right hle']
   · rwa [max_eq_right hle', min_eq_left hle']

/-! ## What is written -/

/-- The byte belongs to a pixel of the content's rectangle. -/
def ImagePlan.InContent (plan : ImagePlan) (o : ℕ) : Prop :=
 (plan.offsetX ≤ o / imageBytesPerPixel % plan.canvasWidth ∧
   o / imageBytesPerPixel % plan.canvasWidth < plan.offsetX + plan.contentWidth) ∧
  plan.offsetY ≤ o / imageBytesPerPixel / plan.canvasWidth ∧
  o / imageBytesPerPixel / plan.canvasWidth < plan.offsetY + plan.contentHeight

instance (plan : ImagePlan) (o : ℕ) : Decidable (plan.InContent o) :=
 inferInstanceAs (Decidable ((_ ∧ _) ∧ _ ∧ _))

theorem rowStores_offsets (content : Bytes) (width src dst : ℕ) :
  (rowStores content width src dst).map Prod.fst = List.range' dst (width * 3) := by
 induction width generalizing src dst with
 | zero => rw [Nat.zero_mul]; rfl
 | succ width ih =>
  rw [show (width + 1) * 3 = width * 3 + 1 + 1 + 1 by omega, range'_succ, range'_succ,
   range'_succ, ← ih (src + 4) (dst + 3)]
  rfl

section Writes

variable {plan : ImagePlan} (h : plan.Sound)
include h

theorem canvas_bounds : plan.canvasWidth ≤ 1024 ∧ plan.canvasHeight ≤ 1024 := by
 have hcanvas := h.canvas
 rw [checkModelImage] at hcanvas
 split_ifs at hcanvas with hsize
 rw [not_or, not_or, not_or] at hsize
 exact ⟨Nat.not_lt.1 hsize.2.1, Nat.not_lt.1 hsize.2.2.2⟩

theorem canvasBytes_eq : plan.canvasBytes = plan.canvasWidth * plan.canvasHeight * 3 := by
 obtain ⟨hw, hh⟩ := canvas_bounds h
 have hpixels : plan.canvasWidth * plan.canvasHeight ≤ 1024 * 1024 := Nat.mul_le_mul hw hh
 exact u64_eq (by rw [imageBytesPerPixel]; omega)

theorem rowStart_eq {y : ℕ} (hy : y < plan.contentHeight) :
  plan.rowStart y = ((plan.offsetY + y) * plan.canvasWidth + plan.offsetX) * 3 := by
 obtain ⟨hw, hh⟩ := canvas_bounds h
 have hx := h.insideX
 have hy' := h.insideY
 have hrow : (plan.offsetY + y) * plan.canvasWidth ≤ 1024 * 1024 := Nat.mul_le_mul (by omega) hw
 rw [ImagePlan.rowStart, u32_eq (by omega), imageBytesPerPixel, u64_eq (by omega)]

theorem contentStores_offsets (content : Bytes) (rowBytes : ℕ) :
  (contentStores plan content rowBytes).map Prod.fst =
   (List.range plan.contentHeight).flatMap fun y =>
    List.range' (((plan.offsetY + y) * plan.canvasWidth + plan.offsetX) * 3) (plan.contentWidth * 3) := by
 rw [contentStores, map_flatMap]
 apply flatMap_congr
 intro y hy
 rw [rowStores_offsets, rowStart_eq h (mem_range.1 hy)]

theorem mem_offsets (content : Bytes) (rowBytes o : ℕ) :
  o ∈ (contentStores plan content rowBytes).map Prod.fst ↔ plan.InContent o := by
 have hx := h.insideX
 have hpos := h.contentWidth
 rw [contentStores_offsets h, mem_flatMap]
 simp only [mem_range, mem_range'_1, ImagePlan.InContent, imageBytesPerPixel]
 constructor
 · rintro ⟨y, hy, hlow, hhigh⟩
   have hsplit : o / 3 / plan.canvasWidth = plan.offsetY + y ∧
     o / 3 % plan.canvasWidth = o / 3 - (plan.offsetY + y) * plan.canvasWidth := by
    apply (Nat.div_mod_unique (by omega)).2
    rw [Nat.mul_comm plan.canvasWidth]
    omega
   rw [hsplit.1, hsplit.2]
   omega
 · rintro ⟨⟨hx1, hx2⟩, hy1, hy2⟩
   have hsplit := Nat.div_add_mod (o / 3) plan.canvasWidth
   refine ⟨o / 3 / plan.canvasWidth - plan.offsetY, by omega, ?_⟩
   rw [Nat.add_sub_cancel' hy1, Nat.mul_comm (o / 3 / plan.canvasWidth)]
   omega

theorem nodup_offsets (content : Bytes) (rowBytes : ℕ) :
  ((contentStores plan content rowBytes).map Prod.fst).Nodup := by
 have hx := h.insideX
 rw [contentStores_offsets h, nodup_flatMap]
 refine ⟨fun y _ => nodup_range', pairwise_lt_range.imp fun {y y'} hlt => ?_⟩
 intro o ho ho'
 rw [mem_range'_1] at ho ho'
 have hrow : (plan.offsetY + y + 1) * plan.canvasWidth ≤ (plan.offsetY + y') * plan.canvasWidth :=
  Nat.mul_le_mul_right _ (by omega)
 rw [Nat.add_mul, Nat.one_mul] at hrow
 omega

theorem count_offsets (content : Bytes) (rowBytes o : ℕ) :
  ((contentStores plan content rowBytes).map Prod.fst).count o = if plan.InContent o then 1 else 0 := by
 rw [(nodup_offsets h content rowBytes).count]
 exact if_congr (mem_offsets h content rowBytes o) rfl rfl

theorem inContent_inside {o : ℕ} (ho : plan.InContent o) : o < plan.canvasBytes := by
 obtain ⟨⟨-, hx⟩, -, hy⟩ := ho
 have hx' := h.insideX
 have hy' := h.insideY
 rw [imageBytesPerPixel] at hx hy
 have hsplit := Nat.div_add_mod (o / 3) plan.canvasWidth
 have hrow : (o / 3 / plan.canvasWidth + 1) * plan.canvasWidth ≤ plan.canvasHeight * plan.canvasWidth :=
  Nat.mul_le_mul_right _ (by omega)
 rw [Nat.add_mul, Nat.one_mul, Nat.mul_comm (o / 3 / plan.canvasWidth),
  Nat.mul_comm plan.canvasHeight] at hrow
 rw [canvasBytes_eq h]
 omega

theorem composeModelImage_eq {content : Bytes} {rowBytes : ℕ} (hrow : plan.contentWidth * 4 ≤ rowBytes)
  (hlen : (plan.contentHeight - 1) * rowBytes + plan.contentWidth * 4 ≤ content.length) :
  composeModelImage plan (some content) rowBytes =
   some ((contentStores plan content rowBytes).foldl (fun out store => out.set store.1 store.2)
    (List.replicate plan.canvasBytes (UInt8.ofNat imagePadValue))) := by
 have hw := h.contentWidth
 have hh := h.contentHeight
 have hx := h.insideX
 have hy := h.insideY
 have hcheck : checkModelImage plan.canvasWidth plan.canvasHeight plan.canvasBytes = .ok := by
  rw [canvasBytes_eq h]
  exact h.canvas
 have hrows : ¬ (1 < plan.contentHeight ∧
   (content.length - plan.contentWidth * 4) / (plan.contentHeight - 1) < rowBytes) := by
  rintro ⟨hmany, hlt⟩
  apply absurd hlt
  rw [Nat.not_lt, Nat.le_div_iff_mul_le (by omega), Nat.mul_comm]
  omega
 simp only [composeModelImage]
 rw [if_neg (not_not.2 hcheck), if_neg (by omega), if_neg (by omega), if_neg hrows]

end Writes

theorem getElem?_stores (stores : List (ℕ × UInt8)) (out : Bytes) {o : ℕ} (h : o ∉ stores.map Prod.fst) :
  (stores.foldl (fun out store => out.set store.1 store.2) out)[o]? = out[o]? := by
 induction stores generalizing out with
 | nil => rfl
 | cons store stores ih =>
  rw [map_cons, mem_cons, not_or] at h
  rw [foldl_cons, ih _ h.2, getElem?_set_ne (Ne.symm h.1)]

theorem length_stores (stores : List (ℕ × UInt8)) (out : Bytes) :
  (stores.foldl (fun out store => out.set store.1 store.2) out).length = out.length := by
 induction stores generalizing out with
 | nil => rfl
 | cons store stores ih => rw [foldl_cons, ih, List.length_set]

/-- The canvas is made of the pad value; over it every byte of the content's rectangle is written
exactly once, and no other, on the canvas or outside it. -/
theorem plan_composes (srcWidth srcHeight maxSide : ℕ) (hw : 0 < srcWidth)
  (hw' : srcWidth < 2 ^ 32) (hh : 0 < srcHeight) (hh' : srcHeight < 2 ^ 32) (hmin : minImageSide ≤ maxSide)
  (hmax : maxSide ≤ maxImageSide) :
  ∃ plan, planModelImage srcWidth srcHeight maxSide = some plan ∧
   checkModelImage plan.canvasWidth plan.canvasHeight
    (plan.canvasWidth * plan.canvasHeight * imageBytesPerPixel) = .ok ∧
   (0 < plan.contentWidth ∧ 0 < plan.contentHeight) ∧
   (plan.offsetX + plan.contentWidth ≤ plan.canvasWidth ∧
    plan.offsetY + plan.contentHeight ≤ plan.canvasHeight) ∧
   ∀ (content : Bytes) (rowBytes : ℕ), plan.contentWidth * 4 ≤ rowBytes →
    (plan.contentHeight - 1) * rowBytes + plan.contentWidth * 4 ≤ content.length →
    ∃ out, composeModelImage plan (some content) rowBytes = some out ∧
     out.length = plan.canvasWidth * plan.canvasHeight * imageBytesPerPixel ∧
     (∀ o, ((contentStores plan content rowBytes).map Prod.fst).count o =
      if plan.InContent o then 1 else 0) ∧
     ∀ o, (plan.InContent o → o < out.length) ∧
      (o < out.length → ¬ plan.InContent o → out[o]? = some (UInt8.ofNat imagePadValue)) := by
 obtain ⟨plan, hplan, h⟩ := planModelImage_sound _ _ _ hw hw' hh hh' hmin hmax
 refine ⟨plan, hplan, h.canvas, ⟨h.contentWidth, h.contentHeight⟩, ⟨h.insideX, h.insideY⟩, ?_⟩
 intro content rowBytes hrow hlen
 have hlength := length_stores (contentStores plan content rowBytes)
  (List.replicate plan.canvasBytes (UInt8.ofNat imagePadValue))
 rw [List.length_replicate] at hlength
 refine ⟨_, composeModelImage_eq h hrow hlen, hlength.trans (canvasBytes_eq h), count_offsets h content rowBytes,
  fun o => ⟨fun ho => ?_, fun ho hout => ?_⟩⟩
 · rw [hlength]
   exact inContent_inside h ho
 · rw [hlength] at ho
   rw [getElem?_stores _ _ (mt (mem_offsets h content rowBytes o).1 hout), List.getElem?_replicate, if_pos ho]

theorem plan_composes_wide : ∃ plan, planModelImage 4294967295 1 1024 = some plan ∧
  checkModelImage plan.canvasWidth plan.canvasHeight
   (plan.canvasWidth * plan.canvasHeight * imageBytesPerPixel) = .ok :=
 let ⟨plan, hplan, hcheck, _⟩ := plan_composes 4294967295 1 1024
  (by decide) (by decide) (by decide) (by decide) (by decide) (by decide)
 ⟨plan, hplan, hcheck⟩

/-- Every write to the canvas: the vector is filled when it is made, then the pixels are stored. -/
def canvasWrites (plan : ImagePlan) (content : Bytes) (rowBytes : ℕ) : List ℕ :=
 List.range plan.canvasBytes ++ (contentStores plan content rowBytes).map Prod.fst

/-- One pixel on the least canvas: its bytes are written twice, and by the loops alone no other byte
is written at all. -/
theorem canvas_not_written_once : ∃ plan, planModelImage 1 1 32 = some plan ∧
  (∃ out, composeModelImage plan (some [0, 0, 0, 0]) 4 = some out) ∧
  ¬ (∀ o < plan.canvasBytes, (canvasWrites plan [0, 0, 0, 0] 4).count o = 1) ∧
  ¬ (∀ o < plan.canvasBytes, ((contentStores plan [0, 0, 0, 0] 4).map Prod.fst).count o = 1) := by
 obtain ⟨plan, hplan, h⟩ := planModelImage_sound 1 1 32
  (by decide) (by decide) (by decide) (by decide) (by decide) (by decide)
 obtain rfl : ⟨1, 1, 32, 32, 15, 15⟩ = plan := by
  apply Option.some.inj
  rw [← hplan]
  decide
 refine ⟨_, hplan, ⟨_, composeModelImage_eq h (le_refl 4) (by decide)⟩, fun hall => ?_, fun hall => ?_⟩
 · have hcount := hall 1485 (by decide)
   rw [canvasWrites, List.count_append, count_offsets h, if_pos (by decide)] at hcount
   have hfilled : 1485 ∈ List.range (ImagePlan.canvasBytes ⟨1, 1, 32, 32, 15, 15⟩) :=
    List.mem_range.2 (by decide)
   have hpos := List.count_pos_iff.2 hfilled
   omega
 · have hcount := hall 0 (by decide)
   rw [count_offsets h, if_neg (by decide)] at hcount
   exact absurd hcount (by decide)

end MoltBrowser.ModelImages
