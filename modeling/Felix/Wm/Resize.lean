import Mathlib.Algebra.GroupWithZero.Nat
import Mathlib.Data.List.Basic

/-!
# Resizing a window

`apply_resize` makes a surface of the new size and copies the rows that it has in common with the
old one.  But a new surface gets its pixels when something is drawn, and a row is only copied into
pixels that are there: after a change of size the client area is empty.

The event that the window gets is left out, and so are windows that share their pixels with a
program.
-/

namespace Felix.Wm

structure Surface where
  width : Nat
  height : Nat
  pitch : Nat
  /-- Four bytes for each pixel; empty until something is drawn. -/
  pixels : List UInt8

namespace Surface

def new (width height : Nat) : Option Surface :=
  let pitch := min (width * 4) (2 ^ 32 - 1)
  if width = 0 ∨ height = 0 then none
  else if 2 ^ 32 ≤ pitch * height ∨ 8 * 1024 * 1024 < pitch * height then none
  else some ⟨width, height, pitch, []⟩

/-- What is drawn where a surface has no pixels: blue, green and red. -/
def background : UInt8 × UInt8 × UInt8 := (0x20, 0x18, 0x10)

/-- The colour of a pixel of the client area. -/
def colour (s : Surface) (x y : Nat) : UInt8 × UInt8 × UInt8 :=
  if s.pixels = [] then background
  else
    let i := y * s.pitch + x * 4
    (s.pixels.getD i 0, s.pixels.getD (i + 1) 0, s.pixels.getD (i + 2) 0)

/-- The loop of `apply_resize`: `row` bytes of a row are copied if both surfaces have them. -/
def copyRow (row : Nat) (src dst : Surface) (y : Nat) : Surface :=
  let s := y * src.pitch
  let d := y * dst.pitch
  if s + row ≤ src.pixels.length ∧ d + row ≤ dst.pixels.length then
    { dst with
      pixels := dst.pixels.take d ++ (src.pixels.drop s).take row ++ dst.pixels.drop (d + row) }
  else dst

/-- The surface that `apply_resize` makes for a client area. -/
def resize (s : Surface) (width height : Nat) : Surface :=
  if s.width ≠ width ∨ s.height ≠ height then
    match new width height with
    | none => s
    | some new =>
      (List.range (min s.height height)).foldl (copyRow (min s.width width * 4) s) new
  else s

end Surface

structure Window where
  w : Nat
  h : Nat
  titleBar : Bool
  surface : Surface

namespace Window

variable (w : Window) (newW newH : Nat)

def titleHeight : Nat := if w.titleBar = true then 18 else 0

/-- The size of the client area for a new size of the window. -/
def newClient : Nat × Nat :=
  (max 80 (min newW 1600), max (w.titleHeight + 40) (min newH 1200) - w.titleHeight)

def applyResize : Window :=
  { w with
    w := max 80 (min newW 1600)
    h := max (w.titleHeight + 40) (min newH 1200)
    surface := w.surface.resize (w.newClient newW newH).1 (w.newClient newW newH).2 }

/-- The pixel is in the old and in the new client area. -/
def Common (newW newH x y : Nat) : Prop :=
  (x < w.surface.width ∧ y < w.surface.height) ∧
    x < (w.newClient newW newH).1 ∧ y < (w.newClient newW newH).2

/-- The pixels of both client areas keep their colour. -/
def KeepsPixels : Prop :=
  ∀ x y, w.Common newW newH x y →
    (w.applyResize newW newH).surface.colour x y = w.surface.colour x y

end Window

theorem Surface.pixels_copyRows (row : Nat) (src : Surface) {dst : Surface} (h : dst.pixels = [])
    (rows : List Nat) : (rows.foldl (copyRow row src) dst).pixels = [] := by
  induction rows generalizing dst with
  | nil => exact h
  | cons y rows ih =>
    refine ih ?_
    unfold copyRow
    dsimp only
    split
    · rename_i hfits
      rw [h, List.length_nil] at hfits
      have hrow : row = 0 := by omega
      rw [h, hrow, List.take_nil, List.drop_nil]
      rfl
    · exact h

theorem Surface.new_eq {width height : Nat} (hw : 80 ≤ width) (hw' : width ≤ 1600)
    (hh : 40 ≤ height) (hh' : height ≤ 1200) :
    new width height = some ⟨width, height, width * 4, []⟩ := by
  have hpitch : min (width * 4) (2 ^ 32 - 1) = width * 4 := Nat.min_eq_left (by omega)
  have hsize : width * 4 * height ≤ 1600 * 4 * 1200 :=
    Nat.mul_le_mul (Nat.mul_le_mul_right 4 hw') hh'
  unfold new
  rw [hpitch, if_neg (by omega), if_neg (by omega)]

namespace Window

variable {w : Window} {newW newH : Nat}

/-- After a change of size nothing but the background is shown. -/
theorem colour_applyResize (hsize : w.newClient newW newH ≠ (w.surface.width, w.surface.height))
    (x y : Nat) : (w.applyResize newW newH).surface.colour x y = Surface.background := by
  have hnew := @Surface.new_eq (w.newClient newW newH).1 (w.newClient newW newH).2
    (by unfold newClient; omega) (by unfold newClient; omega)
    (by unfold newClient; omega) (by unfold newClient; omega)
  have hne : w.surface.width ≠ (w.newClient newW newH).1 ∨
      w.surface.height ≠ (w.newClient newW newH).2 := by
    rw [← not_and_or]
    exact fun h => hsize (Prod.ext h.1.symm h.2.symm)
  show (w.surface.resize _ _).colour x y = _
  unfold Surface.resize
  rw [if_pos hne, hnew]
  exact if_pos (Surface.pixels_copyRows _ _ rfl _)

/-- The pixels are kept iff the client area keeps its size, or has nothing but the background in
the part that is left. -/
theorem resize_keeps_pixels_iff (w : Window) (newW newH : Nat) :
    w.KeepsPixels newW newH ↔ w.newClient newW newH = (w.surface.width, w.surface.height) ∨
      ∀ x y, w.Common newW newH x y → w.surface.colour x y = Surface.background := by
  by_cases hsize : w.newClient newW newH = (w.surface.width, w.surface.height)
  · refine iff_of_true (fun x y _ => ?_) (.inl hsize)
    show (w.surface.resize _ _).colour x y = _
    unfold Surface.resize
    rw [hsize, if_neg (by simp)]
  · rw [or_iff_right hsize]
    refine forall_congr' fun x => forall_congr' fun y => imp_congr_right fun _ => ?_
    rw [colour_applyResize hsize]
    exact eq_comm

/-- A white window. -/
def white : Window := ⟨40, 40, false, 40, 40, 160, List.replicate 6400 255⟩

/-- Its pixels are lost when it is made larger. -/
theorem white_pixels_lost : ¬ white.KeepsPixels 100 100 := by
  intro h
  have hfirst := h 0 0 ⟨⟨by decide, by decide⟩, by decide, by decide⟩
  rw [colour_applyResize (by decide)] at hfirst
  exact absurd hfirst (by decide)

end Window

end Felix.Wm
