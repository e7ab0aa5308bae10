import Mathlib.Algebra.GroupWithZero.Nat
import Mathlib.Data.List.Basic

/-!
A bump allocator over the natural numbers: blocks are carved off one after
another below a limit, and the cursor is rounded up behind each. Whatever the
requests, the blocks lie between the first cursor and the limit, each behind the
ones before it.
-/

namespace NexusOS.BumpArena

structure Arena where
  cursor : Nat
  limit : Nat

structure Block where
  first : Nat
  size : Nat

def Block.Inside (low high : Nat) (b : Block) : Prop := low ≤ b.first ∧ b.first + b.size ≤ high

def Block.Before (b later : Block) : Prop := b.first + b.size ≤ later.first

/-- The next multiple of `align`, or the number itself. -/
def roundUp (align x : Nat) : Nat := x + (align - x % align) % align

def carve (align : Nat) (a : Arena) (size : Nat) : Option Block × Arena :=
  if a.cursor + size ≤ a.limit then
    (some ⟨a.cursor, size⟩, { a with cursor := roundUp align (a.cursor + size) })
  else (none, a)

def carveAll (align : Nat) : Arena → List Nat → List Block
  | _, [] => []
  | a, size :: rest =>
      (carve align a size).1.toList ++ carveAll align (carve align a size).2 rest

def arenaAfter (align : Nat) : Arena → List Nat → Arena
  | a, [] => a
  | a, size :: rest => arenaAfter align (carve align a size).2 rest

/-- What the blocks use up, with the rounding behind each. -/
def taken (align : Nat) (blocks : List Block) : Nat :=
  (blocks.map fun b => roundUp align b.size).sum

theorem round_up_le (align x : Nat) : x ≤ roundUp align x := Nat.le_add_right _ _

theorem round_up_aligned {align : Nat} (positive : 0 < align) (x : Nat) :
    roundUp align x % align = 0 := by
  have below := Nat.mod_lt x positive
  have split := Nat.div_add_mod x align
  have whole : x + (align - x % align) = align * (x / align + 1) := by
    rw [Nat.mul_succ]
    omega
  rw [roundUp, Nat.add_mod_mod, whole, Nat.mul_mod_right]

theorem round_up_shift {align base : Nat} (aligned : base % align = 0) (x : Nat) :
    roundUp align (base + x) = base + roundUp align x := by
  have rest : (base + x) % align = x % align := by
    rw [Nat.add_mod, aligned, Nat.zero_add, Nat.mod_mod]
  rw [roundUp, roundUp, rest, Nat.add_assoc]

-- One request: the block is behind the cursor and before the next one.
theorem carve_step (align : Nat) (a : Arena) (size : Nat) :
    (carve align a size).2.limit = a.limit ∧ a.cursor ≤ (carve align a size).2.cursor ∧
      ∀ b, (carve align a size).1 = some b →
        b.Inside a.cursor a.limit ∧ b.first + b.size ≤ (carve align a size).2.cursor := by
  unfold carve
  by_cases fits : a.cursor + size ≤ a.limit
  · rw [if_pos fits]
    have up := round_up_le align (a.cursor + size)
    refine ⟨rfl, Nat.le_trans (Nat.le_add_right _ _) up, ?_⟩
    intro b carved
    cases carved
    exact ⟨⟨Nat.le_refl _, fits⟩, up⟩
  · rw [if_neg fits]
    exact ⟨rfl, Nat.le_refl _, fun b carved => by cases carved⟩

-- A granted block moves an aligned cursor by its size rounded up.
theorem carve_moves {align : Nat} (positive : 0 < align) {a : Arena}
    (aligned : a.cursor % align = 0) (size : Nat) :
    (carve align a size).2.cursor = a.cursor + taken align (carve align a size).1.toList ∧
      (carve align a size).2.cursor % align = 0 := by
  unfold carve
  by_cases fits : a.cursor + size ≤ a.limit
  · rw [if_pos fits]
    refine ⟨?_, round_up_aligned positive _⟩
    simp only [Option.toList, taken, List.map_cons, List.map_nil, List.sum_cons, List.sum_nil,
      Nat.add_zero]
    exact round_up_shift aligned size
  · rw [if_neg fits]
    exact ⟨rfl, aligned⟩

theorem taken_append (align : Nat) (blocks more : List Block) :
    taken align (blocks ++ more) = taken align blocks + taken align more := by
  rw [taken, List.map_append, List.sum_append]
  rfl

theorem cursor_after {align : Nat} (positive : 0 < align) (sizes : List Nat) {a : Arena}
    (aligned : a.cursor % align = 0) :
    (arenaAfter align a sizes).cursor = a.cursor + taken align (carveAll align a sizes) ∧
      (arenaAfter align a sizes).cursor % align = 0 ∧
      (arenaAfter align a sizes).limit = a.limit := by
  induction sizes generalizing a with
  | nil => exact ⟨rfl, aligned, rfl⟩
  | cons size rest ih =>
      rcases carve_moves positive aligned size with ⟨moved, still⟩
      rcases ih still with ⟨cursor, later, limit⟩
      refine ⟨?_, later, limit.trans (carve_step align a size).1⟩
      rw [arenaAfter, cursor, moved, carveAll, taken_append, Nat.add_assoc]

theorem carved_inside (align : Nat) (sizes : List Nat) (a : Arena) :
    ∀ b ∈ carveAll align a sizes, b.Inside a.cursor a.limit := by
  induction sizes generalizing a with
  | nil => exact fun b member => absurd member List.not_mem_nil
  | cons size rest ih =>
      intro b member
      rcases carve_step align a size with ⟨limit, moved, block⟩
      rcases List.mem_append.mp member with here | later
      · exact (block b (Option.mem_toList.mp here)).1
      · have inside := ih _ b later
        rw [limit] at inside
        exact ⟨Nat.le_trans moved inside.1, inside.2⟩

theorem carved_in_order (align : Nat) (sizes : List Nat) (a : Arena) :
    (carveAll align a sizes).Pairwise Block.Before := by
  induction sizes generalizing a with
  | nil => exact .nil
  | cons size rest ih =>
      have after := carved_inside align rest (carve align a size).2
      rcases carve_step align a size with ⟨_, _, block⟩
      rw [carveAll]
      cases carved : (carve align a size).1 with
      | none => exact ih _
      | some b =>
          refine List.pairwise_cons.mpr ⟨fun later member => ?_, ih _⟩
          exact Nat.le_trans (block b carved).2 (after later member).1

end NexusOS.BumpArena
