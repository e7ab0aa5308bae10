import Mathlib.Data.List.Perm.Basic
import Mathlib.Logic.Function.Basic

/-!
Dictionaries as lists of pairs in no particular order. Keys count as one when
`same` says so; the key first put stays when its value is put again.
-/

namespace NexusOS.Association

variable {K V : Type} {same : K → K → Bool}

def find (same : K → K → Bool) (d : List (K × V)) (key : K) : Option (K × V) :=
  d.find? fun e => same e.1 key

def erase (same : K → K → Bool) (d : List (K × V)) (key : K) : List (K × V) :=
  d.filter fun e => !same e.1 key

def put (same : K → K → Bool) (d : List (K × V)) (key : K) (value : V) : List (K × V) :=
  match find same d key with
  | some e => (e.1, value) :: erase same d key
  | none => (key, value) :: d

def Distinct (same : K → K → Bool) (d : List (K × V)) : Prop :=
  d.Pairwise fun a b => same a.1 b.1 = false

theorem find_none_perm {d e : List (K × V)} (order : d.Perm e) (key : K) :
    find same d key = none ↔ find same e key = none := by
  simp only [find, List.find?_eq_none]
  exact forall_congr' fun pair => by rw [order.mem_iff]

theorem find_cons_away {d : List (K × V)} {pair : K × V} {key : K}
    (away : ¬ same pair.1 key = true) : find same (pair :: d) key = find same d key := by
  rw [find, List.find?_cons_of_neg (by exact away), find]

section Laws
variable (laws : Equivalence fun a b => same a b = true)
include laws

theorem same_comm (a b : K) : same a b = same b a :=
  Bool.eq_iff_iff.mpr ⟨laws.symm, laws.symm⟩

theorem distinct_perm {d e : List (K × V)} (order : d.Perm e) :
    Distinct same d ↔ Distinct same e :=
  order.pairwise_iff fun {a b} apart => (same_comm laws b.1 a.1).trans apart

-- What is found is the one pair under the key, wherever it stands.
theorem find_head {d : List (K × V)} {key : K} {pair : K × V} {rest : List (K × V)}
    (distinct : Distinct same d) (order : d.Perm (pair :: rest)) (equal : same pair.1 key = true) :
    find same d key = some pair := by
  cases found : find same d key with
  | none =>
      have lacking := (find_none_perm order key).mp found
      simp [find, equal] at lacking
  | some other =>
      have member := order.mem_iff.mp (List.mem_of_find?_eq_some found)
      have hit : same other.1 key = true := by simpa using List.find?_some found
      rcases List.mem_cons.mp member with rfl | later
      · rfl
      · have apart := (distinct_perm laws order).mp distinct
        have differ := List.rel_of_pairwise_cons apart later
        rw [laws.trans equal (laws.symm hit)] at differ
        cases differ

theorem erase_head {d : List (K × V)} {key : K} {pair : K × V} {rest : List (K × V)}
    (distinct : Distinct same d) (order : d.Perm (pair :: rest)) (equal : same pair.1 key = true) :
    (erase same d key).Perm rest := by
  have apart := (distinct_perm laws order).mp distinct
  have whole : rest.filter (fun e => !same e.1 key) = rest := by
    refine List.filter_eq_self.mpr fun other later => ?_
    have differ : same pair.1 other.1 = false := List.rel_of_pairwise_cons apart later
    cases hit : same other.1 key with
    | false => rfl
    | true =>
        rw [laws.trans equal (laws.symm hit)] at differ
        cases differ
  have filtered := order.filter fun e => !same e.1 key
  rwa [List.filter_cons_of_neg (by simp [equal]), whole] at filtered

theorem put_head {d : List (K × V)} {key : K} {pair : K × V} {rest : List (K × V)}
    (distinct : Distinct same d) (order : d.Perm (pair :: rest)) (equal : same pair.1 key = true)
    (value : V) : (put same d key value).Perm ((pair.1, value) :: rest) := by
  rw [put, find_head laws distinct order equal]
  exact (erase_head laws distinct order equal).cons _

theorem find_mem {d : List (K × V)} {key : K} {pair : K × V} (distinct : Distinct same d)
    (member : pair ∈ d) (equal : same pair.1 key = true) : find same d key = some pair := by
  rcases List.append_of_mem member with ⟨before, later, rfl⟩
  exact find_head laws distinct List.perm_middle equal

theorem covered_length {W : Type} {d : List (K × V)} {e : List (K × W)} (first : Distinct same d)
    (second : Distinct same e) (covered : ∀ pair ∈ d, find same e pair.1 ≠ none) :
    d.length ≤ e.length := by
  induction d generalizing e with
  | nil => exact Nat.zero_le _
  | cons pair rest ih =>
      rcases Option.ne_none_iff_exists'.mp (covered pair List.mem_cons_self) with ⟨other, found⟩
      have equal : same other.1 pair.1 = true := by simpa using List.find?_some found
      rcases List.append_of_mem (List.mem_of_find?_eq_some found) with ⟨before, later, split⟩
      have order : e.Perm (other :: (before ++ later)) := split ▸ List.perm_middle
      have apart := (distinct_perm laws order).mp second
      rw [order.length_eq]
      refine Nat.succ_le_succ (ih (List.Pairwise.of_cons first) (List.Pairwise.of_cons apart)
        fun mine member lacking => ?_)
      have differ : same pair.1 mine.1 = false := List.rel_of_pairwise_cons first member
      refine covered mine (List.mem_cons_of_mem _ member)
        ((find_none_perm order mine.1).mpr ?_)
      have away : ¬ same other.1 mine.1 = true := fun hit => by
        rw [laws.trans (laws.symm equal) hit] at differ
        cases differ
      rw [find_cons_away away]
      exact lacking

/-- Dictionaries of one size agree in both directions when they do in one. -/
theorem covered_back {W : Type} {d : List (K × V)} {e : List (K × W)} (first : Distinct same d)
    (second : Distinct same e) (size : e.length ≤ d.length)
    (covered : ∀ pair ∈ d, find same e pair.1 ≠ none) (other : K × W) (member : other ∈ e) :
    find same d other.1 ≠ none := by
  intro lacking
  rcases List.append_of_mem member with ⟨before, later, rfl⟩
  have fewer := covered_length laws (e := before ++ later) first
    (List.Pairwise.of_cons ((distinct_perm laws List.perm_middle).mp second)) fun mine here => by
      have apart : ¬ same other.1 mine.1 = true := fun hit =>
        absurd (laws.symm hit) (List.find?_eq_none.mp lacking mine here)
      have found := covered mine here
      rw [Ne, find_none_perm List.perm_middle mine.1, find_cons_away apart] at found
      exact found
  rw [List.length_append, List.length_cons] at size
  rw [List.length_append] at fewer
  omega

end Laws

section Cells
variable {A : Type}

/-- What the places below `size` hold, in their order. -/
def entries (cell : Nat → Option A) (size : Nat) : List A := (List.range size).filterMap cell

theorem mem_entries {cell : Nat → Option A} {size : Nat} {a : A} :
    a ∈ entries cell size ↔ ∃ p < size, cell p = some a := by
  simp [entries]

theorem entries_succ (cell : Nat → Option A) (size : Nat) :
    entries cell (size + 1) = entries cell size ++ (cell size).toList := by
  rw [entries, List.range_succ, List.filterMap_append]
  cases held : cell size <;> simp [entries, held]

theorem entries_congr {cell other : Nat → Option A} {size : Nat}
    (agree : ∀ p < size, cell p = other p) : entries cell size = entries other size :=
  List.filterMap_congr fun p below => agree p (List.mem_range.mp below)

-- One place apart, two tables hold the same things.
theorem entries_split (cell : Nat → Option A) {size p : Nat} (below : p < size) :
    (entries cell size).Perm
      ((cell p).toList ++ entries (Function.update cell p none) size) := by
  induction size with
  | zero => cases below
  | succ size ih =>
      rw [entries_succ, entries_succ]
      by_cases here : p = size
      · subst here
        have lower : entries (Function.update cell p none) p = entries cell p :=
          entries_congr fun q under => Function.update_of_ne (Nat.ne_of_lt under) none cell
        rw [Function.update_self, lower]
        simpa using List.perm_append_comm
      · have earlier : p < size := by omega
        rw [Function.update_of_ne (Ne.symm here)]
        simpa using (ih earlier).append_right (cell size).toList

theorem entries_update (cell : Nat → Option A) {size p : Nat} (below : p < size)
    (a : Option A) :
    (entries (Function.update cell p a) size).Perm
      (a.toList ++ entries (Function.update cell p none) size) := by
  have split := entries_split (Function.update cell p a) below
  rwa [Function.update_self, Function.update_idem] at split

theorem entries_length_le (cell : Nat → Option A) (size : Nat) :
    (entries cell size).length ≤ size := by
  have shorter := List.length_filterMap_le cell (List.range size)
  rwa [List.length_range] at shorter

theorem entries_length_full {cell : Nat → Option A} {size : Nat}
    (full : ∀ p < size, (cell p).isSome) : (entries cell size).length = size := by
  induction size with
  | zero => rfl
  | succ size ih =>
      rw [entries_succ, List.length_append, ih fun p below => full p (Nat.lt_succ_of_lt below)]
      rcases Option.isSome_iff_exists.mp (full size (Nat.lt_succ_self size)) with ⟨a, held⟩
      rw [held]
      rfl

theorem entries_pairwise {cell : Nat → Option A} {size : Nat} {R : A → A → Prop}
    (apart : ∀ p q, p < q → q < size → ∀ a b, cell p = some a → cell q = some b → R a b) :
    (entries cell size).Pairwise R := by
  induction size with
  | zero => exact List.Pairwise.nil
  | succ size ih =>
      rw [entries_succ]
      refine List.pairwise_append.mpr
        ⟨ih fun p q before below => apart p q before (Nat.lt_succ_of_lt below), ?_, ?_⟩
      · cases cell size <;> simp
      · intro a first b last
        rcases mem_entries.mp first with ⟨p, below, held⟩
        exact apart p size below (Nat.lt_succ_self size) a b held (Option.mem_toList.mp last)

end Cells

end NexusOS.Association
