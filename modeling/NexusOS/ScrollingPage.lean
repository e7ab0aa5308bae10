import Mathlib.Algebra.GroupWithZero.Nat
import Mathlib.Logic.Function.Basic

/-!
An unbounded page of rows `width` cells wide, of which a console shows the last
`height` rows reached so far. A page carries its own well-formedness: the
cursor stays inside the shown rows and no row below the last one reached has
been written. Cells hold any type; `none` is a cell never written.
-/

namespace NexusOS.ScrollingPage

variable {Cell : Type} {width height : Nat}

structure Page (Cell : Type) (width height : Nat) where
  cell : Nat → Nat → Option Cell
  row : Nat
  column : Nat
  reached : Nat
  column_lt : column < width
  row_le : row ≤ reached
  top_le : reached + 1 - height ≤ row
  unreached : ∀ r x, reached < r → cell r x = none

namespace Page

def top (page : Page Cell width height) : Nat := page.reached + 1 - height

def empty (Cell : Type) (width height : Nat) [NeZero width] [NeZero height] :
    Page Cell width height where
  cell := fun _ _ => none
  row := 0
  column := 0
  reached := 0
  column_lt := Nat.pos_of_neZero width
  row_le := Nat.le_refl 0
  top_le := by have := Nat.pos_of_neZero height; omega
  unreached := fun _ _ _ => rfl

def write (page : Page Cell width height) (value : Cell) : Page Cell width height :=
  { page with
    cell := fun r x => if r = page.row ∧ x = page.column then some value else page.cell r x
    unreached := by
      intro r x below
      have other : ¬ (r = page.row ∧ x = page.column) := by
        have := page.row_le
        omega
      simp only [other, if_false, page.unreached r x below] }

def place [NeZero height] (page : Page Cell width height) (row column : Nat)
    (fits : column < width) (shown : page.top ≤ row) : Page Cell width height where
  cell := page.cell
  row := row
  column := column
  reached := max page.reached row
  column_lt := fits
  row_le := Nat.le_max_right _ _
  top_le := by
    have := Nat.pos_of_neZero height
    have : page.reached + 1 - height ≤ row := shown
    omega
  unreached := fun r x below => page.unreached r x (by omega)

section Moves
variable [NeZero width] [NeZero height]

def nextRow (page : Page Cell width height) : Page Cell width height :=
  page.place (page.row + 1) 0 (Nat.pos_of_neZero width) (Nat.le_succ_of_le page.top_le)

def carriageReturn (page : Page Cell width height) : Page Cell width height :=
  page.place page.row 0 (Nat.pos_of_neZero width) page.top_le

/-- To `column` of the same row, or to the next row when it is past the edge. -/
def moveTo (page : Page Cell width height) (column : Nat) : Page Cell width height :=
  if fits : column < width then page.place page.row column fits page.top_le
  else page.nextRow

def put (page : Page Cell width height) (value : Cell) : Page Cell width height :=
  (page.write value).moveTo (page.column + 1)

def tab (page : Page Cell width height) (stop : Nat) : Page Cell width height :=
  page.moveTo ((page.column / stop + 1) * stop)

/-- One cell back, over the row boundary if need be, and blank that cell. -/
def backspace (page : Page Cell width height) (blank : Cell) : Page Cell width height :=
  if page.column > 0 then
    (page.place page.row (page.column - 1)
      (Nat.lt_of_le_of_lt (Nat.sub_le _ _) page.column_lt) page.top_le).write blank
  else if inside : page.top < page.row then
    (page.place (page.row - 1) (width - 1)
      (Nat.sub_lt (Nat.pos_of_neZero width) Nat.one_pos) (Nat.le_sub_one_of_lt inside)).write blank
  else page

end Moves

theorem place_top [NeZero height] (page : Page Cell width height) (row column : Nat)
    (fits : column < width) (shown : page.top ≤ row) (within : row < page.top + height) :
    (page.place row column fits shown).top = page.top := by
  simp only [top, place] at within ⊢
  omega

theorem place_row_top [NeZero height] (page : Page Cell width height) (row column : Nat)
    (fits : column < width) (shown : page.top ≤ row) (past : row = page.top + height) :
    (page.place row column fits shown).top = page.top + 1 ∧ page.reached < row := by
  have reached := page.row_le
  have inside := page.top_le
  have tall := Nat.pos_of_neZero height
  simp only [top, place] at past ⊢
  omega

end Page

end NexusOS.ScrollingPage
