import Mathlib.Data.List.Induction
import Mathlib.Tactic.FieldSimp
import Mathlib.Tactic.Linarith
import BBNotifier.Foundation.Truncation
import BBNotifier.Item.NotificationItem

/-! # The contrast of an icon

`NormalizeIcon` blends an icon with white, and stretches the colors of a gray
one around the middle between its darkest and its lightest pixel. The factor is
taken from the green of the pixels that are opaque enough; it is applied to all
channels of all pixels, and the result is divided by the opacity again.
-/

namespace BBNotifier

open Foundation

/-- The channels of a pixel. -/
structure QRgb where
  red : UInt8
  green : UInt8
  blue : UInt8
  alpha : UInt8
deriving DecidableEq

namespace QRgb

/-- The colors of a pixel. -/
def colors : List (QRgb → UInt8) := [red, green, blue]

end QRgb

/-- `qRgba` keeps the lower eight bits of each value. -/
def qRgba (red green blue alpha : Int) : QRgb :=
  ⟨UInt8.ofInt red, UInt8.ofInt green, UInt8.ofInt blue, UInt8.ofInt alpha⟩

namespace QImage

/-- Where the bytes of a pixel start. -/
def offset (x y : Nat) : Nat := 4 * (24 * y + x)

def pixel (image : QImage) (x y : Nat) : QRgb where
  red := image.bits.getD (offset x y) 0
  green := image.bits.getD (offset x y + 1) 0
  blue := image.bits.getD (offset x y + 2) 0
  alpha := image.bits.getD (offset x y + 3) 0

def setPixel (image : QImage) (x y : Nat) (pixel : QRgb) : QImage where
  bits := (((image.bits.set (offset x y) pixel.red).set (offset x y + 1) pixel.green).set
    (offset x y + 2) pixel.blue).set (offset x y + 3) pixel.alpha
  length_bits := by simp only [List.length_set, image.length_bits]

variable (image : QImage) {x y i j : Nat}

theorem pixel_setPixel_self (hx : x < 24) (hy : y < 24) (pixel : QRgb) :
    (image.setPixel x y pixel).pixel x y = pixel := by
  have hlength : offset x y + 3 < image.bits.length := by
    rw [image.length_bits, offset, imageBytes]
    omega
  have hget : ∀ k < 4, (image.setPixel x y pixel).bits[offset x y + k]? =
      some (match k with
        | 0 => pixel.red
        | 1 => pixel.green
        | 2 => pixel.blue
        | _ => pixel.alpha) := by
    intro k hk
    simp only [setPixel, List.getElem?_set, List.length_set]
    match k with
    | 0 | 1 | 2 | 3 => simp; omega
  simp only [QImage.pixel, List.getD_eq_getElem?_getD, hget 1 (by decide), hget 2 (by decide),
    hget 3 (by decide), Option.getD_some]
  rw [show (image.setPixel x y pixel).bits[offset x y]? = some pixel.red from hget 0 (by decide)]
  rfl

theorem pixel_setPixel_of_ne (hx : x < 24) (hi : i < 24) (h : ¬ (i = x ∧ j = y))
    (pixel : QRgb) : (image.setPixel x y pixel).pixel i j = image.pixel i j := by
  have hget : ∀ k < 4, (image.setPixel x y pixel).bits[offset i j + k]? =
      image.bits[offset i j + k]? := by
    intro k hk
    simp only [setPixel, offset]
    rw [List.getElem?_set_ne (by omega), List.getElem?_set_ne (by omega),
      List.getElem?_set_ne (by omega), List.getElem?_set_ne (by omega)]
  have hfirst : (image.setPixel x y pixel).bits[offset i j]? = image.bits[offset i j]? :=
    hget 0 (by decide)
  simp only [QImage.pixel, List.getD_eq_getElem?_getD, hfirst, hget 1 (by decide),
    hget 2 (by decide), hget 3 (by decide)]

end QImage

/-- The pixels in the order of the loops. -/
def coordinates : List (Nat × Nat) :=
  (List.range 24).flatMap fun x => (List.range 24).map fun y => (x, y)

theorem mem_coordinates {x y : Nat} : (x, y) ∈ coordinates ↔ x < 24 ∧ y < 24 := by
  simp [coordinates]

namespace QImage

/-- A loop that sets all pixels. -/
def setPixels (color : Nat → Nat → QRgb) (image : QImage) : QImage :=
  coordinates.foldl (fun image (x, y) => image.setPixel x y (color x y)) image

theorem pixel_foldl_setPixel (color : Nat → Nat → QRgb) (image : QImage) {x y : Nat}
    {places : List (Nat × Nat)} (hplaces : ∀ place ∈ places, place.1 < 24 ∧ place.2 < 24)
    (hmem : (x, y) ∈ places) :
    (places.foldl (fun image (i, j) => image.setPixel i j (color i j)) image).pixel x y =
      color x y := by
  induction places using List.reverseRecOn with
  | nil => contradiction
  | append_singleton front place ih =>
      obtain ⟨i, j⟩ := place
      have hhere := hplaces (i, j) (List.mem_append_right _ List.mem_cons_self)
      have hthere := hplaces (x, y) hmem
      rw [List.foldl_append, List.foldl_cons, List.foldl_nil]
      by_cases hsame : x = i ∧ y = j
      · obtain ⟨rfl, rfl⟩ := hsame
        exact pixel_setPixel_self _ hhere.1 hhere.2 _
      · rw [pixel_setPixel_of_ne _ hhere.1 hthere.1 hsame]
        apply ih fun other hother => hplaces other (List.mem_append_left _ hother)
        rcases List.mem_append.mp hmem with hfront | hlast
        · exact hfront
        · exact absurd (Prod.mk.inj (List.mem_singleton.mp hlast)) hsame

theorem pixel_setPixels (color : Nat → Nat → QRgb) (image : QImage) {x y : Nat} (hx : x < 24)
    (hy : y < 24) : (image.setPixels color).pixel x y = color x y :=
  pixel_foldl_setPixel color image (fun _ hplace => mem_coordinates.mp hplace)
    (mem_coordinates.mpr ⟨hx, hy⟩)

end QImage

namespace NormalizeIcon

/-- A channel over a white background. -/
def blend (channel alpha : UInt8) : Int := channel.toNat * alpha.toNat / 255 + (255 - alpha.toNat)

def blendPixel (pixel : QRgb) : QRgb :=
  qRgba (blend pixel.red pixel.alpha) (blend pixel.green pixel.alpha)
    (blend pixel.blue pixel.alpha) pixel.alpha.toNat

def colorDistance (pixel : QRgb) : Int :=
  ((pixel.red.toNat : Int) - pixel.green.toNat).natAbs +
    ((pixel.red.toNat : Int) - pixel.blue.toNat).natAbs

/-- The variables of the first loop. -/
structure Scan where
  minLight : Int
  maxLight : Int
  colorDiff : Int
  pixels : Nat → Nat → QRgb

/-- The body of the first loop. -/
def scanPixel (image : QImage) (scan : Scan) (x y : Nat) : Scan :=
  let pixel := image.pixel x y
  let blended := blendPixel pixel
  { colorDiff := scan.colorDiff + colorDistance pixel
    pixels := fun i j => if i = x ∧ j = y then blended else scan.pixels i j
    minLight :=
      if scan.minLight > blended.green.toNat ∧ blended.alpha.toNat > 128 then blended.green.toNat
      else scan.minLight
    maxLight :=
      if scan.maxLight < blended.green.toNat ∧ blended.alpha.toNat > 128 then blended.green.toNat
      else scan.maxLight }

def scan (image : QImage) : Scan :=
  coordinates.foldl (fun scan (x, y) => scanPixel image scan x y)
    ⟨255, 0, 0, fun _ _ => ⟨0, 0, 0, 0⟩⟩

def meanDiff (scan : Scan) : Int := (scan.maxLight + scan.minLight) / 2

/-- `200./(maxLight - minLight)`, where `byZero` is what a division by zero
gives. -/
def scale (byZero : Rat) (scan : Scan) : Rat :=
  if scan.maxLight - scan.minLight = 0 then byZero
  else 200 / ((scan.maxLight - scan.minLight : Int) : Rat)

/-- The test for a grayscale image that needs more contrast. -/
def IsGrayscale (byZero : Rat) (scan : Scan) : Prop :=
  scan.minLight < scan.maxLight ∧ scan.colorDiff < 24 * 24 * 2 * 8 ∧ scale byZero scan > 1

instance (byZero : Rat) (scan : Scan) : Decidable (IsGrayscale byZero scan) :=
  inferInstanceAs (Decidable (_ ∧ _))

def alphaCorrection (alpha : UInt8) : Rat :=
  if alpha.toNat > 16 then 255 / (alpha.toNat : Rat) else 1

/-- A value passed to `qRgba` by the second loop. -/
def stretch (scale : Rat) (meanDiff : Int) (channel alpha : UInt8) : Int :=
  truncate ((((channel.toNat : Rat) - meanDiff) * scale + 150) * alphaCorrection alpha)

def stretchPixel (scale : Rat) (meanDiff : Int) (pixel : QRgb) : QRgb :=
  qRgba (stretch scale meanDiff pixel.red pixel.alpha)
    (stretch scale meanDiff pixel.green pixel.alpha)
    (stretch scale meanDiff pixel.blue pixel.alpha) pixel.alpha.toNat

/-- The function on an image that is there. -/
def normalize (byZero : Rat) (image : QImage) : QImage :=
  let scan := scan image
  if IsGrayscale byZero scan then
    image.setPixels fun x y => stretchPixel (scale byZero scan) (meanDiff scan) (scan.pixels x y)
  else image

end NormalizeIcon

/-- `NormalizeIcon`; a null image stays as it is. -/
def CNotificationItem.normalizeIcon (byZero : Rat) (item : CNotificationItem) :
    CNotificationItem :=
  { item with image := item.image.map (NormalizeIcon.normalize byZero) }

namespace NormalizeIcon

/-! ## Blending -/

theorem toNat_ofInt {value : Int} (h : 0 ≤ value ∧ value ≤ 255) :
    ((UInt8.ofInt value).toNat : Int) = value := by
  rw [UInt8.ofInt, UInt8.toNat_ofNat']
  omega

theorem blend_mem (channel alpha : UInt8) :
    0 ≤ blend channel alpha ∧ blend channel alpha ≤ 255 := by
  have hchannel := channel.toNat_lt
  have halpha := alpha.toNat_lt
  have hproduct : channel.toNat * alpha.toNat ≤ 255 * alpha.toNat :=
    Nat.mul_le_mul_right _ (by omega)
  rw [blend, ← Nat.cast_mul]
  omega

theorem blendPixel_alpha (pixel : QRgb) : (blendPixel pixel).alpha = pixel.alpha := by
  apply UInt8.toNat_inj.mp
  have halpha := pixel.alpha.toNat_lt
  exact Int.ofNat_inj.mp (toNat_ofInt (by omega))

theorem blendPixel_color {color : QRgb → UInt8} (hcolor : color ∈ QRgb.colors)
    (pixel : QRgb) :
    ((color (blendPixel pixel)).toNat : Int) = blend (color pixel) pixel.alpha := by
  simp only [QRgb.colors, List.mem_cons, List.not_mem_nil, or_false] at hcolor
  rcases hcolor with rfl | rfl | rfl
  · exact toNat_ofInt (blend_mem _ _)
  · exact toNat_ofInt (blend_mem _ _)
  · exact toNat_ofInt (blend_mem _ _)

/-! ## What the first loop finds -/

def pixelsAt (image : QImage) (places : List (Nat × Nat)) : List QRgb :=
  places.map fun place => image.pixel place.1 place.2

/-- The greens of the pixels that are opaque enough. -/
def opaqueGreens (pixels : List QRgb) : List Int :=
  (pixels.filter (128 < ·.alpha.toNat)).map fun pixel => blend pixel.green pixel.alpha

def darkest (image : QImage) : Int := (opaqueGreens (pixelsAt image coordinates)).foldl min 255

def lightest (image : QImage) : Int := (opaqueGreens (pixelsAt image coordinates)).foldl max 0

/-- How far the image is from gray. -/
def colorDifference (image : QImage) : Int :=
  ((pixelsAt image coordinates).map colorDistance).sum

theorem opaqueGreens_singleton (pixel : QRgb) :
    opaqueGreens [pixel] =
      if 128 < pixel.alpha.toNat then [blend pixel.green pixel.alpha] else [] := by
  by_cases hopaque : 128 < pixel.alpha.toNat
  · simp [opaqueGreens, hopaque]
  · simp [opaqueGreens, hopaque]

theorem scanPixel_minLight (image : QImage) (scan : Scan) (x y : Nat) :
    (scanPixel image scan x y).minLight =
      (opaqueGreens [image.pixel x y]).foldl min scan.minLight := by
  have hgreen := @blendPixel_color QRgb.green (by simp [QRgb.colors]) (image.pixel x y)
  simp only [scanPixel, hgreen, blendPixel_alpha, opaqueGreens_singleton]
  by_cases hopaque : 128 < (image.pixel x y).alpha.toNat
  · rw [if_pos hopaque, List.foldl_cons, List.foldl_nil]
    by_cases hless : scan.minLight > blend (image.pixel x y).green (image.pixel x y).alpha
    · rw [if_pos ⟨hless, hopaque⟩, min_eq_right hless.le]
    · rw [if_neg (fun h => hless h.1), min_eq_left (not_lt.mp hless)]
  · rw [if_neg hopaque, if_neg (fun h => hopaque h.2), List.foldl_nil]

theorem scanPixel_maxLight (image : QImage) (scan : Scan) (x y : Nat) :
    (scanPixel image scan x y).maxLight =
      (opaqueGreens [image.pixel x y]).foldl max scan.maxLight := by
  have hgreen := @blendPixel_color QRgb.green (by simp [QRgb.colors]) (image.pixel x y)
  simp only [scanPixel, hgreen, blendPixel_alpha, opaqueGreens_singleton]
  by_cases hopaque : 128 < (image.pixel x y).alpha.toNat
  · rw [if_pos hopaque, List.foldl_cons, List.foldl_nil]
    by_cases hless : scan.maxLight < blend (image.pixel x y).green (image.pixel x y).alpha
    · rw [if_pos ⟨hless, hopaque⟩, max_eq_right hless.le]
    · rw [if_neg (fun h => hless h.1), max_eq_left (not_lt.mp hless)]
  · rw [if_neg hopaque, if_neg (fun h => hopaque h.2), List.foldl_nil]

theorem opaqueGreens_append (first second : List QRgb) :
    opaqueGreens (first ++ second) = opaqueGreens first ++ opaqueGreens second := by
  rw [opaqueGreens, List.filter_append, List.map_append]
  rfl

/-- What the first loop has found after some of the pixels. -/
structure Scanned (image : QImage) (places : List (Nat × Nat)) (scan : Scan) : Prop where
  minLight : scan.minLight = (opaqueGreens (pixelsAt image places)).foldl min 255
  maxLight : scan.maxLight = (opaqueGreens (pixelsAt image places)).foldl max 0
  colorDiff : scan.colorDiff = ((pixelsAt image places).map colorDistance).sum
  pixels : ∀ x y, (x, y) ∈ places → scan.pixels x y = blendPixel (image.pixel x y)

theorem Scanned.scanPixel {image : QImage} {places : List (Nat × Nat)} {scan : Scan}
    (hscanned : Scanned image places scan) (x y : Nat) :
    Scanned image (places ++ [(x, y)]) (scanPixel image scan x y) := by
  have hpixels : pixelsAt image (places ++ [(x, y)]) =
      pixelsAt image places ++ [image.pixel x y] := List.map_append
  constructor
  · rw [scanPixel_minLight, hscanned.minLight, hpixels, opaqueGreens_append, List.foldl_append]
  · rw [scanPixel_maxLight, hscanned.maxLight, hpixels, opaqueGreens_append, List.foldl_append]
  · rw [hpixels, List.map_append, List.sum_append, ← hscanned.colorDiff]
    simp [NormalizeIcon.scanPixel]
  · intro i j hplace
    simp only [NormalizeIcon.scanPixel]
    split
    next hhere => rw [hhere.1, hhere.2]
    next hother =>
      rcases List.mem_append.mp hplace with hbefore | hlast
      · exact hscanned.pixels i j hbefore
      · exact absurd (Prod.mk.inj (List.mem_singleton.mp hlast)) hother

theorem scanned_scan (image : QImage) : Scanned image coordinates (scan image) := by
  rw [scan]
  induction coordinates using List.reverseRecOn with
  | nil => exact ⟨rfl, rfl, rfl, fun _ _ h => nomatch h⟩
  | append_singleton places place ih =>
      rw [List.foldl_append]
      exact ih.scanPixel place.1 place.2

/-! ## The range of the stretched colors -/

/-- How far a blended channel may be from the mean. The opacity decides whether
the result is divided by it. -/
def InWindow (contrast mean channel alpha : Int) : Prop :=
  if 16 < alpha then
    -(38250 + alpha) * contrast < 51000 * (channel - mean) ∧
      51000 * (channel - mean) < (256 * alpha - 38250) * contrast
  else -151 * contrast < 200 * (channel - mean) ∧ 200 * (channel - mean) < 106 * contrast

theorem stretch_mem_iff {contrast : Int} (hcontrast : 0 < contrast) (mean : Int)
    (channel alpha : UInt8) :
    0 ≤ stretch (200 / (contrast : Rat)) mean channel alpha ∧
        stretch (200 / (contrast : Rat)) mean channel alpha ≤ 255 ↔
      InWindow contrast mean channel.toNat alpha.toNat := by
  have hpos : (0 : Rat) < contrast := Int.cast_pos.mpr hcontrast
  rw [stretch, truncate_nonneg_iff, truncate_le_iff (by norm_num), InWindow, alphaCorrection]
  by_cases halpha : 16 < alpha.toNat
  · have hopacity : (0 : Rat) < alpha.toNat := Nat.cast_pos.mpr (by omega)
    have hvalue : (((channel.toNat : Rat) - mean) * (200 / contrast) + 150) * (255 / alpha.toNat) =
        (51000 * (channel.toNat - mean) + 38250 * contrast) / (contrast * alpha.toNat) := by
      field_simp
      ring
    rw [if_pos halpha, if_pos (by exact_mod_cast halpha), hvalue,
      lt_div_iff₀ (mul_pos hpos hopacity), div_lt_iff₀ (mul_pos hpos hopacity),
      ← @Int.cast_lt Rat, ← @Int.cast_lt Rat]
    push_cast
    constructor
    · rintro ⟨hlow, hhigh⟩
      exact ⟨by linarith, by linarith⟩
    · rintro ⟨hlow, hhigh⟩
      exact ⟨by linarith, by linarith⟩
  · have hvalue : (((channel.toNat : Rat) - mean) * (200 / contrast) + 150) * 1 =
        (200 * (channel.toNat - mean) + 150 * contrast) / contrast := by
      field_simp
    rw [if_neg halpha, if_neg (by exact_mod_cast halpha), hvalue, lt_div_iff₀ hpos,
      div_lt_iff₀ hpos, ← @Int.cast_lt Rat, ← @Int.cast_lt Rat]
    push_cast
    constructor
    · rintro ⟨hlow, hhigh⟩
      exact ⟨by linarith, by linarith⟩
    · rintro ⟨hlow, hhigh⟩
      exact ⟨by linarith, by linarith⟩

/-- What raising the contrast must not do to an icon: leave the range of a
channel, or depend on what a division by zero gives. -/
structure KeepsColors (image : QImage) : Prop where
  blended : ∀ x < 24, ∀ y < 24, ∀ color ∈ QRgb.colors,
    0 ≤ blend (color (image.pixel x y)) (image.pixel x y).alpha ∧
      blend (color (image.pixel x y)) (image.pixel x y).alpha ≤ 255
  divisions : ∀ byZero other, normalize byZero image = normalize other image
  stretched : ∀ byZero, IsGrayscale byZero (scan image) →
    ∀ x < 24, ∀ y < 24, ∀ color ∈ QRgb.colors,
      let pixel := (scan image).pixels x y
      let value := stretch (scale byZero (scan image)) (meanDiff (scan image)) (color pixel)
        pixel.alpha
      0 ≤ value ∧ value ≤ 255

/-- A gray icon with some contrast, but little. -/
def LowContrast (image : QImage) : Prop :=
  darkest image < lightest image ∧ colorDifference image < 9216 ∧
    lightest image - darkest image < 200

/-- If the icon is gray and has little contrast, no channel is far from the
mean of its darkest and its lightest pixel. -/
def NearMean (image : QImage) : Prop :=
  LowContrast image → ∀ x < 24, ∀ y < 24, ∀ color ∈ QRgb.colors,
    InWindow (lightest image - darkest image) ((lightest image + darkest image) / 2)
      (blend (color (image.pixel x y)) (image.pixel x y).alpha) (image.pixel x y).alpha.toNat

theorem scale_scan {image : QImage} (hless : darkest image < lightest image) (byZero : Rat) :
    scale byZero (scan image) = 200 / ((lightest image - darkest image : Int) : Rat) := by
  have hscanned := scanned_scan image
  rw [scale, hscanned.minLight, hscanned.maxLight]
  exact if_neg (sub_ne_zero.mpr hless.ne')

theorem isGrayscale_iff (byZero : Rat) (image : QImage) :
    IsGrayscale byZero (scan image) ↔ LowContrast image := by
  have hscanned := scanned_scan image
  rw [IsGrayscale, LowContrast, hscanned.minLight, hscanned.maxLight, hscanned.colorDiff,
    ← darkest, ← lightest, ← colorDifference]
  apply and_congr_right
  intro hless
  have hpos : (0 : Rat) < ((lightest image - darkest image : Int) : Rat) :=
    Int.cast_pos.mpr (sub_pos.mpr hless)
  rw [scale_scan hless, gt_iff_lt, one_lt_div hpos]
  norm_cast

/-- Where the contrast is raised, it is not zero. -/
theorem normalize_congr (byZero other : Rat) (image : QImage) :
    normalize byZero image = normalize other image := by
  simp only [normalize]
  by_cases hlow : LowContrast image
  · rw [if_pos ((isGrayscale_iff byZero image).mpr hlow),
      if_pos ((isGrayscale_iff other image).mpr hlow), scale_scan hlow.1, scale_scan hlow.1]
  · rw [if_neg (mt (isGrayscale_iff byZero image).mp hlow),
      if_neg (mt (isGrayscale_iff other image).mp hlow)]

/-- The values for one pixel, in terms of the image. -/
theorem stretch_scan_mem_iff {image : QImage} (hless : darkest image < lightest image)
    (byZero : Rat) {x y : Nat} (hx : x < 24) (hy : y < 24) {color : QRgb → UInt8}
    (hcolor : color ∈ QRgb.colors) :
    (let pixel := (scan image).pixels x y
     let value := stretch (scale byZero (scan image)) (meanDiff (scan image)) (color pixel)
       pixel.alpha
     0 ≤ value ∧ value ≤ 255) ↔
      InWindow (lightest image - darkest image) ((lightest image + darkest image) / 2)
        (blend (color (image.pixel x y)) (image.pixel x y).alpha)
        (image.pixel x y).alpha.toNat := by
  have hscanned := scanned_scan image
  simp only
  rw [hscanned.pixels x y (mem_coordinates.mpr ⟨hx, hy⟩), scale_scan hless, meanDiff,
    hscanned.minLight, hscanned.maxLight, ← darkest, ← lightest,
    stretch_mem_iff (sub_pos.mpr hless), blendPixel_color hcolor, blendPixel_alpha]

/-- For every image, blending stays in the range of a channel and no division by
zero matters. Stretching stays in range exactly when no channel is too far from
the mean. -/
theorem keeps_colors_iff (image : QImage) : KeepsColors image ↔ NearMean image := by
  constructor
  · intro hkeeps hlow x hx y hy color hcolor
    apply (stretch_scan_mem_iff hlow.1 0 hx hy hcolor).mp
    exact hkeeps.stretched 0 ((isGrayscale_iff 0 image).mpr hlow) x hx y hy color hcolor
  · intro hnear
    refine ⟨fun _ _ _ _ _ _ => blend_mem _ _, fun _ _ => normalize_congr _ _ image, ?_⟩
    intro byZero hgrayscale x hx y hy color hcolor
    have hlow := (isGrayscale_iff byZero image).mp hgrayscale
    exact (stretch_scan_mem_iff hlow.1 byZero hx hy hcolor).mpr (hnear hlow x hx y hy color hcolor)

/-- An opaque gray icon with one pixel that is lighter by one. -/
def lighterByOne (x y : Nat) : QRgb :=
  if x = 0 ∧ y = 0 then ⟨101, 101, 101, 255⟩ else ⟨100, 100, 100, 255⟩

/-- The lighter pixel would get 350. -/
theorem not_keeps_colors : ¬ ∀ image : QImage, KeepsColors image := by
  intro hall
  obtain ⟨image, hpixel⟩ : ∃ image : QImage, ∀ x < 24, ∀ y < 24,
      image.pixel x y = lighterByOne x y :=
    ⟨QImage.setPixels lighterByOne ⟨List.replicate imageBytes 0, List.length_replicate⟩,
      fun x hx y hy => QImage.pixel_setPixels lighterByOne _ hx hy⟩
  have hpixels : pixelsAt image coordinates =
      coordinates.map fun place => lighterByOne place.1 place.2 := by
    apply List.map_congr_left
    intro place hplace
    obtain ⟨hx, hy⟩ := mem_coordinates.mp hplace
    exact hpixel place.1 hx place.2 hy
  have hdarkest : darkest image = 100 := by
    rw [darkest, hpixels]
    decide +kernel
  have hlightest : lightest image = 101 := by
    rw [lightest, hpixels]
    decide +kernel
  have hcolors : colorDifference image = 0 := by
    rw [colorDifference, hpixels]
    decide +kernel
  have hlow : LowContrast image := by
    rw [LowContrast, hdarkest, hlightest, hcolors]
    decide
  have hred : QRgb.red ∈ QRgb.colors := List.mem_cons_self
  have hvalue := (hall image).stretched 0 ((isGrayscale_iff 0 image).mpr hlow)
    0 (by decide) 0 (by decide) QRgb.red hred
  have hwindow := (stretch_scan_mem_iff hlow.1 0 (by decide) (by decide) hred).mp hvalue
  rw [hdarkest, hlightest, hpixel 0 (by decide) 0 (by decide)] at hwindow
  revert hwindow
  unfold InWindow
  decide +kernel

end NormalizeIcon

end BBNotifier
