import NexusOS.BumpArena
import Mathlib.Data.UInt

/-!
`mem_initialize` and `kmalloc` of `kernel/drivers/mem.c`, in the 32-bit
arithmetic of the code: `size_t` and pointers are 32 bits wide and NULL is 0.
While no addition wraps, the heap is the bump arena over the same addresses.
-/

namespace NexusOS.BumpHeap

open BumpArena

structure Heap where
  heapStart : UInt32
  heapEnd : UInt32
  currentAddr : UInt32

def memInitialize (startAddr size : UInt32) : Heap where
  heapStart := startAddr
  heapEnd := startAddr + size
  currentAddr := startAddr

def null : UInt32 := 0

/-- `current_addr` brought to a multiple of 4. -/
def align (current : UInt32) : UInt32 :=
  if current % 4 ≠ 0 then current + (4 - current % 4) else current

def kmalloc (h : Heap) (size : UInt32) : UInt32 × Heap :=
  -- the sum wraps like `size_t`, and nothing checks it
  if h.currentAddr + size > h.heapEnd then (null, h)
  else (h.currentAddr, { h with currentAddr := align (h.currentAddr + size) })

structure Grant where
  ptr : UInt32
  size : UInt32

def grants : Heap → List UInt32 → List Grant
  | _, [] => []
  | h, size :: rest => ⟨(kmalloc h size).1, size⟩ :: grants (kmalloc h size).2 rest

def Grant.block (g : Grant) : Block := ⟨g.ptr.toNat, g.size.toNat⟩

def Grant.Covers (g : Grant) (address : Nat) : Prop :=
  g.ptr.toNat ≤ address ∧ address < g.ptr.toNat + g.size.toNat

def Apart (g other : Grant) : Prop := ∀ address, ¬ (g.Covers address ∧ other.Covers address)

/-- The non-NULL results are inside the heap and share no address. -/
structure SoundGrants (start size : UInt32) (gs : List Grant) : Prop where
  inside : ∀ g ∈ gs, g.ptr ≠ null →
    start.toNat ≤ g.ptr.toNat ∧ g.ptr.toNat + g.size.toNat ≤ start.toNat + size.toNat
  apart : (gs.filter fun g => g.ptr ≠ null).Pairwise Apart

/-- The request is one that `kmalloc` would refuse, or neither `current_addr`
plus its size nor that sum brought to a multiple of 4 reaches 2^32. -/
def NoWrap (h : Heap) (size : UInt32) : Prop :=
  h.currentAddr + size > h.heapEnd ∨
    roundUp 4 (h.currentAddr.toNat + size.toNat) < 2 ^ 32

def NeverWraps : Heap → List UInt32 → Prop
  | _, [] => True
  | h, size :: rest => NoWrap h size ∧ NeverWraps (kmalloc h size).2 rest

def arena (h : Heap) : Arena := ⟨h.currentAddr.toNat, h.heapEnd.toNat⟩

theorem add_exact {a b : UInt32} (fits : a.toNat + b.toNat < 2 ^ 32) :
    (a + b).toNat = a.toNat + b.toNat := by
  rw [UInt32.toNat_add, Nat.mod_eq_of_lt fits]

theorem align_exact (current : UInt32) (fits : roundUp 4 current.toNat < 2 ^ 32) :
    (align current).toNat = roundUp 4 current.toNat := by
  have rest : (current % 4).toNat = current.toNat % 4 := UInt32.toNat_mod current 4
  have small := Nat.mod_lt current.toNat (show 0 < 4 by decide)
  unfold align
  by_cases aligned : current % 4 = 0
  · rw [if_neg (not_not_intro aligned)]
    rw [aligned] at rest
    simp only [roundUp, ← rest]
    rfl
  · rw [if_pos aligned]
    have ragged : current.toNat % 4 ≠ 0 := by
      rw [← rest]
      exact fun zero => aligned (UInt32.toNat_inj.mp zero)
    have gap : (4 - current % 4).toNat = 4 - current.toNat % 4 := by
      rw [UInt32.toNat_sub_of_le _ _ (UInt32.le_iff_toNat_le.mpr (rest ▸ Nat.le_of_lt small)), rest]
      rfl
    have whole : (4 - current.toNat % 4) % 4 = 4 - current.toNat % 4 :=
      Nat.mod_eq_of_lt (Nat.sub_lt (by decide) (Nat.pos_of_ne_zero ragged))
    rw [roundUp, whole] at fits ⊢
    rw [add_exact (gap ▸ fits), gap]

-- A refused request does not fit the arena either, wrapped or not.
theorem refused_carves_none {h : Heap} {size : UInt32}
    (refused : h.currentAddr + size > h.heapEnd) :
    carve 4 (arena h) size.toNat = (none, arena h) := by
  have wrapped := UInt32.lt_iff_toNat_lt.mp refused
  rw [UInt32.toNat_add] at wrapped
  have beyond := Nat.lt_of_lt_of_le wrapped (Nat.mod_le _ _)
  exact if_neg (Nat.not_le.mpr beyond)

theorem granted_carves {h : Heap} {size : UInt32} (granted : ¬ h.currentAddr + size > h.heapEnd)
    (fits : roundUp 4 (h.currentAddr.toNat + size.toNat) < 2 ^ 32) :
    carve 4 (arena h) size.toNat =
      (some (Grant.block ⟨(kmalloc h size).1, size⟩), arena (kmalloc h size).2) := by
  have sum := add_exact (Nat.lt_of_le_of_lt (round_up_le 4 _) fits)
  have room : (arena h).cursor + size.toNat ≤ (arena h).limit := by
    have below := UInt32.le_iff_toNat_le.mp (UInt32.not_lt.mp granted)
    rw [sum] at below
    exact below
  have rounded := align_exact (h.currentAddr + size) (sum ▸ fits)
  rw [carve, if_pos room, kmalloc, if_neg granted]
  simp only [arena, Grant.block, rounded, sum]

theorem grants_carved (requests : List UInt32) (h : Heap) (guarded : NeverWraps h requests) :
    List.Sublist (((grants h requests).filter fun g => g.ptr ≠ null).map Grant.block)
      (carveAll 4 (arena h) (requests.map UInt32.toNat)) := by
  induction requests generalizing h with
  | nil => exact .slnil
  | cons size rest ih =>
      rcases guarded with ⟨noWrap, guarded⟩
      have later := ih _ guarded
      rw [List.map_cons, carveAll, grants, List.filter_cons]
      by_cases refused : h.currentAddr + size > h.heapEnd
      · have answer : kmalloc h size = (null, h) := if_pos refused
        rw [answer] at later ⊢
        rw [refused_carves_none refused]
        simpa using later
      · have block := granted_carves refused (noWrap.resolve_left refused)
        rw [block]
        -- a block at address 0 is carved, but its pointer reads as NULL
        by_cases atZero : (kmalloc h size).1 = null
        · simpa [atZero] using later.cons _
        · simpa [atZero] using later

theorem kmalloc_sound {start size : UInt32} (fits : start.toNat + size.toNat < 2 ^ 32)
    (requests : List UInt32) (guarded : NeverWraps (memInitialize start size) requests) :
    SoundGrants start size (grants (memInitialize start size) requests) := by
  have carved := grants_carved requests _ guarded
  have limit : (memInitialize start size).heapEnd.toNat = start.toNat + size.toNat :=
    add_exact fits
  constructor
  · intro g member nonNull
    have kept : g ∈ (grants (memInitialize start size) requests).filter fun g => g.ptr ≠ null :=
      List.mem_filter.mpr ⟨member, by simpa using nonNull⟩
    have block := carved.subset (List.mem_map_of_mem kept)
    exact limit ▸ carved_inside 4 _ _ _ block
  -- an address in two blocks would be both below and above the second one's start
  · have ordered := (carved_in_order 4 _ _).sublist carved
    refine (List.pairwise_map.mp ordered).imp ?_
    rintro g other before address ⟨⟨_, below⟩, above, _⟩
    exact absurd (Nat.lt_of_lt_of_le below before) (Nat.not_lt.mpr above)

theorem kernel_heap_sound :
    (0x200000 : UInt32).toNat + (0x400000 : UInt32).toNat < 2 ^ 32 ∧
    NeverWraps (memInitialize 0x200000 0x400000) [10, 6] ∧
    SoundGrants 0x200000 0x400000 (grants (memInitialize 0x200000 0x400000) [10, 6]) := by
  have guarded : NeverWraps (memInitialize 0x200000 0x400000) [10, 6] :=
    ⟨.inr (by decide), .inr (by decide), trivial⟩
  exact ⟨by decide, guarded, kmalloc_sound (by decide) _ guarded⟩

/-- A request of 2^32 - 1 bytes wraps the sum in the bound check, and the whole
address space is handed out. -/
theorem oversized_request_granted :
    ¬ ∀ (start size : UInt32) (requests : List UInt32), start.toNat + size.toNat < 2 ^ 32 →
      SoundGrants start size (grants (memInitialize start size) requests) := by
  intro always
  have sound := always 0x200000 0x400000 [0xFFFFFFFF] (by decide)
  have granted : (⟨0x200000, 0xFFFFFFFF⟩ : Grant) ∈
      grants (memInitialize 0x200000 0x400000) [0xFFFFFFFF] := List.mem_singleton.mpr rfl
  exact absurd (sound.inside _ granted (by decide)).2 (by decide)

end NexusOS.BumpHeap
