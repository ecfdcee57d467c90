import Mathlib.Algebra.Order.Ring.Int
import Mathlib.Data.List.TakeWhile
import Mathlib.Tactic.Linarith

/-!
# Pools and buffers of the compositor

What `pool_create_buffer` accepts, and what `draw_buffer` then reads from the pool and writes to the
back buffer. The product in the check of the stride is an `int` and can wrap around, and `draw_buffer`
clips its rectangle on the right but not on the left.

## Main results

* `accepted_confined_iff`: every access is inside the pool and the back buffer unless the product
  wraps, or the first pixel that is drawn lies before the back buffer.
-/

namespace Wos.Wayland

open List

/-- The size of the pool `shm_create_pool` makes of `real` bytes of shared memory. -/
def shmCreatePool (real size : ℤ) : Option ℤ :=
  if real < 0 ∨ size ≤ 0 ∨ real < size then none else some size

/-- The numbers of a `struct buffer`. -/
structure Extent where
  offset : ℤ
  width : ℤ
  height : ℤ
  stride : ℤ
  /-- `width` and `stride` are `int`s. -/
  ints : width < 2 ^ 31 ∧ stride < 2 ^ 31

/-- The checks of `pool_create_buffer`. The formats are `ARGB8888` and `XRGB8888`. -/
def poolCreateBuffer (size : ℤ) (b : Extent) (format : ℕ) : Bool :=
  ¬ (b.width ≤ 0 ∨ b.height ≤ 0 ∨ b.stride < (b.width * 4).bmod (2 ^ 32) ∨ b.offset < 0) ∧
    b.offset + b.stride * b.height ≤ size ∧ (format = 0 ∨ format = 1)

/-- `draw_buffer` on a screen of `sw` by `sh`: the place in the pool and in the back buffer of every
pixel. Rows outside the screen are skipped, and the first that fails the check is the end. -/
def drawBuffer (size sw sh : ℤ) (b : Extent) (x y w h : ℤ) : List (ℤ × ℤ) :=
  let copyW := min b.width w
  let offset (row : ℕ) := (b.offset + row * b.stride) % 2 ^ 64
  let rows := (range (min b.height h).toNat).filter fun row : ℕ =>
    0 ≤ y + row ∧ y + row < sh
  (rows.takeWhile fun row => (offset row + copyW * 4) % 2 ^ 64 ≤ size).flatMap fun row =>
    (range (min copyW (sw - x)).toNat).map fun col : ℕ =>
      (offset row + 4 * col, (y + row) * sw + x + col)

/-- Four bytes are read inside the pool, and a pixel of the back buffer is written. -/
def Confined (size sw sh : ℤ) (accesses : List (ℤ × ℤ)) : Prop :=
  ∀ a ∈ accesses, (0 ≤ a.1 ∧ a.1 + 4 ≤ size) ∧ 0 ≤ a.2 ∧ a.2 < sh * sw

/-- The rows of the buffer are in the pool and do not overlap. -/
def Extent.Fits (b : Extent) (size : ℤ) : Prop :=
  b.offset + (b.height - 1) * b.stride + 4 * b.width ≤ size ∧ 4 * b.width ≤ b.stride

/-- The part of a rectangle that is copied is empty, or above or below the screen. -/
def Hidden (sw sh : ℤ) (b : Extent) (x y w h : ℤ) : Prop :=
  min (min b.width w) (sw - x) ≤ 0 ∨ min b.height h ≤ max (-y) 0 ∨ sh ≤ max y 0

section Draw

variable {size sw sh x y w h : ℤ} {b : Extent}

/-- The check of `draw_buffer` passes for all rows of a buffer that fits. -/
lemma mem_drawBuffer (hsize : size < 2 ^ 31) (hoffset : 0 ≤ b.offset)
    (hstride : 4 * b.width ≤ b.stride) (hfits : b.offset + b.stride * b.height ≤ size)
    (hw : 0 < min b.width w) {a : ℤ × ℤ} :
    a ∈ drawBuffer size sw sh b x y w h ↔
      ∃ row : ℕ, (row < min b.height h ∧ 0 ≤ y + row ∧ y + row < sh) ∧
        ∃ col : ℕ, col < min (min b.width w) (sw - x) ∧
          a = (b.offset + row * b.stride + 4 * col, (y + row) * sw + x + col) := by
  have hrows (row : ℕ) (hrow : row < min b.height h) :
      0 ≤ b.offset + row * b.stride ∧
        b.offset + row * b.stride + min b.width w * 4 ≤ size := by
    have hpool : b.stride * (row + 1) ≤ b.stride * b.height :=
      mul_le_mul_of_nonneg_left (by omega) (by omega)
    have hstart : 0 ≤ row * b.stride := mul_nonneg (by omega) (by omega)
    have hcopy := min_le_left b.width w
    exact ⟨by omega, by linarith⟩
  have hmod (row : ℕ) (hrow : row < min b.height h) :
      (b.offset + row * b.stride) % 2 ^ 64 = b.offset + row * b.stride :=
    Int.emod_eq_of_lt (hrows row hrow).1 (by have := (hrows row hrow).2; omega)
  have hall : ∀ row ∈ (range (min b.height h).toNat).filter fun row : ℕ => 0 ≤ y + row ∧ y + row < sh,
      decide (((b.offset + row * b.stride) % 2 ^ 64 + min b.width w * 4) % 2 ^ 64 ≤ size) = true := by
    intro row hrow
    have hlt : (row : ℤ) < min b.height h := by
      have := mem_range.mp (mem_filter.mp hrow).1
      omega
    have hin := hrows row hlt
    rw [hmod row hlt, Int.emod_eq_of_lt (by omega) (by omega)]
    exact decide_eq_true hin.2
  simp only [drawBuffer, takeWhile_eq_self_iff.mpr hall, mem_flatMap, mem_map, mem_filter, mem_range,
    decide_eq_true_eq]
  constructor
  · rintro ⟨row, ⟨hrow, hscreen⟩, col, hcol, rfl⟩
    refine ⟨row, ⟨by omega, hscreen⟩, col, by omega, ?_⟩
    rw [hmod row (by omega)]
  · rintro ⟨row, ⟨hrow, hscreen⟩, col, hcol, rfl⟩
    refine ⟨row, ⟨by omega, hscreen⟩, col, by omega, ?_⟩
    rw [hmod row hrow]

/-- A buffer that fits is drawn inside its pool, and inside the back buffer if and only if the first
pixel is. -/
lemma confined_drawBuffer_iff (hsw : 0 ≤ sw) (hsize : size < 2 ^ 31) (hoffset : 0 ≤ b.offset)
    (hwidth : 0 < b.width) (hstride : 4 * b.width ≤ b.stride)
    (hfits : b.offset + b.stride * b.height ≤ size) :
    Confined size sw sh (drawBuffer size sw sh b x y w h) ↔
      Hidden sw sh b x y w h ∨ 0 ≤ max y 0 * sw + x := by
  by_cases hw : min b.width w ≤ 0
  · -- no pixel is copied
    refine iff_of_true (fun a ha => ?_) (.inl (.inl ((min_le_left _ _).trans hw)))
    simp only [drawBuffer, mem_flatMap, mem_map, mem_range] at ha
    obtain ⟨row, -, col, hcol, -⟩ := ha
    omega
  rw [not_le] at hw
  have hmem {a : ℤ × ℤ} : a ∈ drawBuffer size sw sh b x y w h ↔ _ :=
    mem_drawBuffer hsize hoffset hstride hfits hw
  constructor
  · intro hconf
    by_contra! hnot
    obtain ⟨hshown, hbefore⟩ := hnot
    rw [Hidden] at hshown
    -- the first pixel that is copied
    have hrow : y + ((max (-y) 0).toNat : ℤ) = max y 0 := by omega
    have ha := (hconf _ (hmem.mpr ⟨(max (-y) 0).toNat, ⟨by omega, by omega, by omega⟩, 0, by omega,
      rfl⟩)).2.1
    rw [hrow] at ha
    simp only [Nat.cast_zero, add_zero] at ha
    omega
  · intro hcond a ha
    obtain ⟨row, ⟨hrow, hscreen⟩, col, hcol, rfl⟩ := hmem.mp ha
    have hfirst : 0 ≤ max y 0 * sw + x := by
      refine hcond.resolve_left fun hhidden => ?_
      rw [Hidden] at hhidden
      omega
    have hpool : b.stride * (row + 1) ≤ b.stride * b.height :=
      mul_le_mul_of_nonneg_left (by omega) (by omega)
    have hstart : 0 ≤ b.stride * row := mul_nonneg (by omega) (by omega)
    have hhigh : (y + row + 1) * sw ≤ sh * sw := mul_le_mul_of_nonneg_right (by omega) hsw
    have hlow : max y 0 * sw ≤ (y + row) * sw := mul_le_mul_of_nonneg_right (by omega) hsw
    rw [lt_min_iff, lt_min_iff] at hcol
    dsimp only
    refine ⟨⟨?_, ?_⟩, ?_, ?_⟩ <;> linarith

/-- An accepted buffer is in its pool and is drawn inside it and inside the back buffer, if and only
if four times its width is an `int`, and nothing of it is copied or the first pixel that is copied
does not lie before the back buffer. -/
theorem accepted_confined_iff {real asked : ℤ} {format : ℕ} (x y w h sh : ℤ) (hsw : 0 ≤ sw)
    (hreal : real < 2 ^ 31) (hpool : shmCreatePool real asked = some size)
    (hok : poolCreateBuffer size b format = true) :
    (b.Fits size ∧ Confined size sw sh (drawBuffer size sw sh b x y w h)) ↔
      b.width * 4 < 2 ^ 31 ∧ (Hidden sw sh b x y w h ∨ 0 ≤ max y 0 * sw + x) := by
  rw [shmCreatePool, Option.ite_none_left_eq_some] at hpool
  obtain ⟨hsize, ⟨⟩⟩ := hpool
  simp only [poolCreateBuffer, decide_eq_true_eq, not_or, not_le, not_lt] at hok
  obtain ⟨⟨hwidth, hheight, hstride, hoffset⟩, hneeded, -⟩ := hok
  by_cases hint : b.width * 4 < 2 ^ 31
  · rw [Int.bmod_eq_of_le (by omega) (by omega)] at hstride
    have hrows : b.Fits size := ⟨by linarith, by linarith⟩
    rw [and_iff_right hrows, and_iff_right hint]
    exact confined_drawBuffer_iff hsw (by omega) hoffset hwidth hrows.2 hneeded
  · -- a stride is an `int`, and so less than such a row
    refine iff_of_false (fun hconf => ?_) (fun hcond => hint hcond.1)
    have hrow := hconf.1.2
    have hints := b.ints.2
    omega

end Draw

/-- A buffer in a pool of 16 bytes, drawn with its upper left corner outside the screen. -/
theorem accepted_confined_iff_sample : Extent.Fits ⟨0, 2, 2, 8, by decide⟩ 16 ∧
    Confined 16 4 4 (drawBuffer 16 4 4 ⟨0, 2, 2, 8, by decide⟩ (-1) 1 2 2) :=
  (accepted_confined_iff (-1) 1 2 2 4 (by decide) (show (16 : ℤ) < 2 ^ 31 by decide)
    (show shmCreatePool 16 16 = _ by decide)
    (show poolCreateBuffer 16 _ 0 = true by decide)).mpr ⟨by decide, .inr (by decide)⟩

/-- A buffer four times whose width is no `int`. -/
def wideExtent : Extent := ⟨0, 2 ^ 29, 2, -4, by decide⟩

/-- Four times the width wraps around, and a stride below zero is accepted: the second row is read
before the pool. -/
theorem negative_stride_drawn : shmCreatePool 16 16 = some 16 ∧
    poolCreateBuffer 16 wideExtent 0 = true ∧ ¬ Extent.Fits wideExtent 16 ∧
    ¬ Confined 16 4 4 (drawBuffer 16 4 4 wideExtent 0 0 1 2) := by
  refine ⟨by decide, by decide, fun h => absurd h.2 (by decide), fun h => ?_⟩
  exact absurd (h (2 ^ 64 - 4, 4) (by decide)).1 (by decide)

end Wos.Wayland
