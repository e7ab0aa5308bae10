import Mathlib.Logic.Function.Basic

/-!
A numbered sequence kept in a ring of `n` cells. `Window n cells items first`
says that item number `k` stands in cell `k % n` for every `k` from `first` on.
A queue raises `first` as items are taken; a log that only remembers its last
`n` items lets `first` follow the length. Cells hold any type.
-/

namespace NexusOS.RingWindow

variable {Item : Type} {n : Nat} {cells : Nat → Item} {items : List Item} {first : Nat}

structure Window (n : Nat) (cells : Nat → Item) (items : List Item) (first : Nat) : Prop where
  span : items.length ≤ first + n
  cell : ∀ k item, first ≤ k → items[k]? = some item → cells (k % n) = item

theorem cells_distinct {k l : Nat} (before : k < l) (near : l < k + n) : k % n ≠ l % n := by
  intro same
  have whole : n ∣ l - k := Nat.dvd_of_mod_eq_zero (Nat.sub_mod_eq_zero_of_mod_eq same.symm)
  have far := Nat.le_of_dvd (by omega) whole
  omega

theorem window_empty (n : Nat) (cells : Nat → Item) : Window n cells [] 0 :=
  ⟨Nat.zero_le _, by simp⟩

theorem window_congr (window : Window n cells items first) {others : Nat → Item}
    (same : ∀ k, others (k % n) = cells (k % n)) : Window n others items first :=
  ⟨window.span, fun k item start found => (same k).trans (window.cell k item start found)⟩

theorem window_release (window : Window n cells items first) (later : Nat)
    (taken : first ≤ later) : Window n cells items later := by
  refine ⟨?_, fun k item start => window.cell k item (Nat.le_trans taken start)⟩
  have := window.span
  omega

/-- A new item goes to cell `length % n`; it may overwrite items before `later`. -/
theorem window_push (window : Window n cells items first) (item : Item) (later : Nat)
    (taken : first ≤ later) (room : items.length < later + n) :
    Window n (Function.update cells (items.length % n) item) (items ++ [item]) later := by
  constructor
  · rw [List.length_append, List.length_singleton]
    exact room
  · intro k value start found
    have bound := (List.getElem?_eq_some_iff.mp found).1
    rw [List.length_append, List.length_singleton] at bound
    rcases Nat.lt_or_eq_of_le (Nat.le_of_lt_succ bound) with old | new
    · rw [Function.update_of_ne (cells_distinct old (by omega))]
      rw [List.getElem?_append_left old] at found
      exact window.cell k value (Nat.le_trans taken start) found
    · subst new
      rw [List.getElem?_concat_length, Option.some.injEq] at found
      rw [Function.update_self, found]

end NexusOS.RingWindow
