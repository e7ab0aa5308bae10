import NexusOS.FirstFit
import NexusOS.GcCollect

/-!
`gc_alloc` of `gc.c`: the search of the allocation table byte by byte, a
collection when it fails, and the taking of the run it found.
-/

namespace NexusOS.GcAlloc

open BlockCopy ByteMemory CountedLoop FirstFit GcHeap GcMark GcCollect MemoryMove PackedTable

/-- `ATB_0_IS_FREE` to `ATB_3_IS_FREE`. -/
def atbIsFree (slot : Nat) (a : UInt8) : Bool := a &&& (3 <<< UInt8.ofNat (2 * slot)) == 0

/-- The four tests on one byte; a run once found is passed on, as by `goto found`. -/
def searchByte (nBlocks i : Nat) (a : UInt8) (s : Search) : Search :=
  visit nBlocks (i * 4 + 3) (atbIsFree 3 a)
    (visit nBlocks (i * 4 + 2) (atbIsFree 2 a)
      (visit nBlocks (i * 4 + 1) (atbIsFree 1 a)
        (visit nBlocks (i * 4 + 0) (atbIsFree 0 a) s)))

def findRun (a : Area) (nBlocks : Nat) : Search :=
  countUp (a.gcAllocTableByteLen - a.gcLastFreeAtbIndex)
    (fun j s => searchByte nBlocks (a.gcLastFreeAtbIndex + j)
      (a.gcAllocTable (a.gcLastFreeAtbIndex + j)) s) (.on 0)

/-- `((n_bytes + BYTES_PER_BLOCK - 1) & ~(BYTES_PER_BLOCK - 1)) / BYTES_PER_BLOCK`. -/
def blocksFor (nBytes : UInt32) : Nat := (((nBytes + 15) &&& ~~~15) / 16).toNat

def freeToTails (t : AllocTable) (first count : Nat) : AllocTable :=
  countUp count (fun i t => atbFreeToTail t (first + i)) t

/-- From the label `found` on: the run ends at block `i`. -/
def takeRun (h : Heap) (i nFree : Nat) : Heap × UInt32 :=
  let endBlock := i
  let startBlock := i + 1 - nFree
  let t := atbFreeToHead h.area.gcAllocTable startBlock
  let area : Area := { h.area with
    gcAllocTable := freeToTails t (startBlock + 1) (endBlock - startBlock)
    gcLastFreeAtbIndex := if nFree = 1 then (i + 1) / 4 else h.area.gcLastFreeAtbIndex
    gcLastUsedBlock := max h.area.gcLastUsedBlock endBlock }
  let retPtr := ptrFromBlock area startBlock
  let size := UInt32.ofNat ((endBlock - startBlock + 1) * 16)
  ({ h with area, memory := (memset h.memory retPtr 0 size).memory }, retPtr)

/-- `gc_alloc`, with `sp` the stack pointer of a collection it starts; `NULL` is 0. -/
def gcAlloc (h : Heap) (r : Roots) (sp : UInt32) (nBytes : UInt32) : Heap × UInt32 :=
  let nBlocks := blocksFor nBytes
  if nBlocks = 0 then (h, 0)
  else if 0 < h.gcLockDepth then (h, 0)
  else
    match findRun h.area nBlocks with
    | .found i nFree => takeRun h i nFree
    | .on _ =>
        if h.gcAutoCollectEnabled then
          let collected := gcCollect h r sp
          match findRun collected.area nBlocks with
          | .found i nFree => takeRun collected i nFree
          | .on _ => (collected, 0)
        else (h, 0)

def IsFree (a : Area) (block : Nat) : Prop := a.kind block = .free

theorem atb_is_free (t : AllocTable) (i slot : Nat) (inByte : slot < 4) :
    atbIsFree slot (t i) = true ↔ atbGetKind t (i * 4 + slot) = .free := by
  have byte : (i * 4 + slot) / 4 = i := by omega
  have here : UInt8.ofNat (2 * slot) = shift (i * 4 + slot) := by
    rw [shift]
    congr 2
    omega
  have zero : atbGetKind t (i * 4 + slot) = .free ↔ field t (i * 4 + slot) = 0 := by
    constructor
    · exact free_field
    · intro zero
      rw [atbGetKind, zero]
      rfl
  rw [atbIsFree, beq_iff_eq, here, masked_zero _ _ _ (shift_range _), zero, field, byte]

theorem searched_byte {a : Area} {base n i : Nat} {s : Search}
    (searched : Searched (IsFree a) base n (i * 4) s) :
    Searched (IsFree a) base n ((i + 1) * 4) (searchByte n i (a.gcAllocTable i) s) := by
  have test : ∀ slot, slot < 4 → (atbIsFree slot (a.gcAllocTable i) = true ↔
      IsFree a (i * 4 + slot)) := fun slot inByte => atb_is_free a.gcAllocTable i slot inByte
  have first := searched_visit (test 0 (by decide)) searched
  have second := searched_visit (test 1 (by decide)) first
  have third := searched_visit (test 2 (by decide)) second
  have fourth := searched_visit (test 3 (by decide)) third
  rw [Nat.succ_mul]
  exact fourth

theorem index_inside {a : Area} (wellFormed : WellFormed a) :
    a.gcLastFreeAtbIndex * 4 ≤ a.blocks := by
  by_contra beyond
  exact wellFormed.full a.blocks (by omega) (wellFormed.gap a.blocks (Nat.le_refl _))

/-- The search finds the lowest run of the whole area, or there is none. -/
theorem find_run_exact {a : Area} (wellFormed : WellFormed a) {n : Nat} (pos : 0 < n) :
    match findRun a n with
    | .found last count =>
        count = n ∧ last < a.blocks ∧ ∃ start, last + 1 = start + n ∧ First (IsFree a) 0 n start
    | .on _ => NoRun (IsFree a) 0 n a.blocks := by
  have inside := index_inside wellFormed
  have searched := count_up_invariant
    (fun j s => Searched (IsFree a) (a.gcLastFreeAtbIndex * 4) n ((a.gcLastFreeAtbIndex + j) * 4) s)
    (a.gcAllocTableByteLen - a.gcLastFreeAtbIndex)
    (fun j s => searchByte n (a.gcLastFreeAtbIndex + j)
      (a.gcAllocTable (a.gcLastFreeAtbIndex + j)) s) (.on 0) (searched_start pos)
    fun j s _ before => searched_byte before
  have whole : (a.gcLastFreeAtbIndex + (a.gcAllocTableByteLen - a.gcLastFreeAtbIndex)) * 4 =
      a.blocks := by
    rw [Area.blocks] at inside ⊢
    omega
  rw [whole] at searched
  change Searched _ _ _ _ (findRun a n) at searched
  cases result : findRun a n with
  | found last count =>
      rw [result] at searched
      rcases searched with ⟨whole, below, start, ends, first⟩
      exact ⟨whole, below, start, ends, first_from_zero first pos wellFormed.full⟩
  | on count =>
      rw [result] at searched
      exact no_run_from_zero searched.passed pos wellFormed.full

/-- The kinds after `start` and the `n - 1` blocks above it were taken. -/
def takenKind (before : Area) (start n block : Nat) : Kind :=
  if block = start then .head else if start < block ∧ block < start + n then .tail
  else before.kind block

theorem free_to_tails {t : AllocTable} {first count : Nat}
    (free : ∀ block, first ≤ block → block < first + count → atbGetKind t block = .free)
    (block : Nat) : atbGetKind (freeToTails t first count) block =
      if first ≤ block ∧ block < first + count then .tail else atbGetKind t block := by
  have swept := count_up_invariant
    (fun i now => ∀ block, atbGetKind now block =
      if first ≤ block ∧ block < first + i then .tail else atbGetKind t block)
    count (fun i t => atbFreeToTail t (first + i)) t (fun block => (if_neg (by omega)).symm) ?step
  case step =>
    intro i now bound kinds block
    have here : atbGetKind now (first + i) = .free := by
      rw [kinds, if_neg (by omega)]
      exact free (first + i) (Nat.le_add_right _ _) (by omega)
    rw [kind_free_to_tail here, kinds]
    by_cases same : block = first + i
    · rw [if_pos same, if_pos (by omega)]
    · rw [if_neg same]
      congr 1
      exact propext (by omega)
  exact swept block

structure Granted (before : Heap) (n start : Nat) (after : Heap) : Prop where
  first : First (IsFree before.area) 0 n start
  inside : start + n ≤ before.area.blocks
  frame : after = { before with
    area := { before.area with
      gcAllocTable := after.area.gcAllocTable
      gcLastFreeAtbIndex := after.area.gcLastFreeAtbIndex
      gcLastUsedBlock := after.area.gcLastUsedBlock }
    memory := after.memory }
  kinds : ∀ block, after.area.kind block = takenKind before.area start n block
  memory : ∀ a, after.memory a =
    if offset (ptrFromBlock before.area start) a < 16 * n then 0 else before.memory a
  wellFormed : WellFormed after.area

section Taking

variable {a after : Area} {start n : Nat} (first : First (IsFree a) 0 n start)
  (kinds : ∀ block, after.kind block = takenKind a start n block)
include first kinds

theorem taken_used (pos : 0 < n) {block : Nat} (used : a.kind block ≠ .free) :
    after.kind block = a.kind block := by
  have outside : ¬ (start ≤ block ∧ block < start + n) := fun inRun =>
    used (first.run block inRun.1 inRun.2)
  rw [kinds, takenKind, if_neg (by omega), if_neg (by omega)]

omit first in
theorem taken_inside {block : Nat} (above : start ≤ block) (below : block < start + n) :
    after.kind block = if block = start then .head else .tail := by
  rw [kinds, takenKind]
  by_cases same : block = start
  · rw [if_pos same, if_pos same]
  · rw [if_neg same, if_neg same, if_pos (by omega)]

omit first in
theorem taken_outside {block : Nat} (outside : block < start ∨ start + n ≤ block) (pos : 0 < n) :
    after.kind block = a.kind block := by
  rw [kinds, takenKind, if_neg (by omega), if_neg (by omega)]

theorem taken_well_formed (wellFormed : WellFormed a) (pos : 0 < n)
    (inside : start + n ≤ a.blocks) (len : after.gcAllocTableByteLen = a.gcAllocTableByteLen)
    (last : after.gcLastUsedBlock = max a.gcLastUsedBlock (start + n - 1))
    (index : after.gcLastFreeAtbIndex = if n = 1 then (start + 1) / 4 else a.gcLastFreeAtbIndex) :
    WellFormed after := by
  have cases : ∀ block, after.kind block = a.kind block ∨
      start ≤ block ∧ block < start + n ∧
        after.kind block = if block = start then .head else .tail := by
    intro block
    by_cases inRun : start ≤ block ∧ block < start + n
    · exact Or.inr ⟨inRun.1, inRun.2, taken_inside kinds inRun.1 inRun.2⟩
    · exact Or.inl (taken_outside kinds (by omega) pos)
  have inRun : ∀ block, start ≤ block → block < start + n → after.kind block ≠ .free := by
    intro block above below
    rw [taken_inside kinds above below]
    split
    · decide
    · decide
  refine ⟨⟨fun block outside => ?_, ?_, fun block tail => ?_⟩, fun block mark => ?_,
    fun block used => ?_, fun block below => ?_⟩
  · rw [Area.blocks, len] at outside
    rw [taken_outside kinds (Or.inr (Nat.le_trans inside outside)) pos]
    exact wellFormed.gap block outside
  · rcases cases 0 with same | ⟨above, _, same⟩
    · rw [same]
      exact wellFormed.first
    · rw [same, if_pos (Nat.le_zero.mp above).symm]
      decide
  · rcases cases (block + 1) with same | ⟨above, below, same⟩
    · have used := wellFormed.follows block (same ▸ tail)
      rw [taken_used first kinds pos used]
      exact used
    · by_cases atStart : block + 1 = start
      · rw [same, if_pos atStart] at tail
        exact absurd tail (by decide)
      · exact inRun block (by omega) (by omega)
  · rcases cases block with same | ⟨_, _, same⟩
    · exact wellFormed.unmarked block (same ▸ mark)
    · rw [same] at mark
      split at mark
      · exact absurd mark (by decide)
      · exact absurd mark (by decide)
  · rw [last]
    rcases cases block with same | ⟨_, below, _⟩
    · exact Nat.le_trans (wellFormed.used block (same ▸ used)) (Nat.le_max_left _ _)
    · exact Nat.le_trans (by omega) (Nat.le_max_right _ _)
  · rw [index] at below
    split at below
    case isTrue one =>
      subst one
      rcases Nat.lt_or_ge block start with earlier | reached
      · rcases first.first block (Nat.zero_le _) earlier with ⟨place, above, under, used⟩
        have same : place = block := by omega
        rw [taken_used first kinds pos (same ▸ used)]
        exact same ▸ used
      · exact inRun block reached (by omega)
    case isFalse =>
      have used := wellFormed.full block below
      rw [taken_used first kinds pos used]
      exact used

end Taking

-- A run taken off a well-formed heap.
theorem take_run_granted {h : Heap} {n start last : Nat} (wellFormed : WellFormed h.area)
    (pos : 0 < n) (below : last < h.area.blocks) (ends : last + 1 = start + n)
    (first : First (IsFree h.area) 0 n start) :
    Granted h n start (takeRun h last n).1 ∧
      (takeRun h last n).2 = ptrFromBlock h.area start := by
  have inside : start + n ≤ h.area.blocks := by omega
  have from' : last + 1 - n = start := by omega
  have count : last - start = n - 1 := by omega
  have free := first.run start (Nat.le_refl _) (by omega)
  have kinds : ∀ block, (takeRun h last n).1.area.kind block = takenKind h.area start n block := by
    intro block
    have head := kind_free_to_head free
    change atbGetKind (freeToTails (atbFreeToHead h.area.gcAllocTable (last + 1 - n))
      (last + 1 - n + 1) (last - (last + 1 - n))) block = _
    rw [from', count, free_to_tails fun other above under => ?_, head, takenKind]
    · by_cases same : block = start
      · rw [if_pos same, if_neg (by omega), if_pos same]
      · rw [if_neg same, if_neg same, Area.kind]
        congr 1
        exact propext (by omega)
    · rw [head, if_neg (by omega)]
      exact first.run other (by omega) (by omega)
  have sized := h.area.sized
  have limit := h.area.gcPoolEnd.toNat_lt
  rw [Area.blocks] at inside
  have size : (UInt32.ofNat ((last - start + 1) * 16)).toNat = 16 * n := by
    rw [UInt32.toNat_ofNat', Nat.mod_eq_of_lt (by omega)]
    omega
  have wellFormed' := taken_well_formed first kinds wellFormed pos inside rfl ?_ ?_
  · refine ⟨⟨first, inside, rfl, kinds, fun a => ?_, wellFormed'⟩, ?_⟩
    · change fill h.memory (ptrFromBlock h.area (last + 1 - n)) 0
        (UInt32.ofNat ((last - (last + 1 - n) + 1) * 16)).toNat a = _
      rw [from', size, fill_exact _ _ _ _ (by omega)]
    · rw [takeRun, from']
      rfl
  · rw [← ends]
    rfl
  · change (if n = 1 then (last + 1) / 4 else _) = _
    by_cases one : n = 1
    · rw [if_pos one, if_pos one, ends, one]
    · rw [if_neg one, if_neg one]

/-- What `gc_alloc` does once it may search: the lowest run of the heap it is given
or, if there is none, of the collected heap; `NULL` if there is none there either. -/
inductive Allocation (h : Heap) (r : Roots) (sp : UInt32) (n : Nat) : Heap × UInt32 → Prop where
  | direct (start : Nat) (after : Heap) (granted : Granted h n start after) :
      Allocation h r sp n (after, ptrFromBlock h.area start)
  | collected (start : Nat) (after : Heap) (enabled : h.gcAutoCollectEnabled = true)
      (noRun : NoRun (IsFree h.area) 0 n h.area.blocks)
      (granted : Granted (gcCollect h r sp) n start after) :
      Allocation h r sp n (after, ptrFromBlock (gcCollect h r sp).area start)
  | refused (enabled : h.gcAutoCollectEnabled = false)
      (noRun : NoRun (IsFree h.area) 0 n h.area.blocks) : Allocation h r sp n (h, 0)
  | exhausted (enabled : h.gcAutoCollectEnabled = true)
      (noRun : NoRun (IsFree h.area) 0 n h.area.blocks)
      (still : NoRun (IsFree (gcCollect h r sp).area) 0 n (gcCollect h r sp).area.blocks) :
      Allocation h r sp n (gcCollect h r sp, 0)

theorem search_cases {h : Heap} {n : Nat} (wellFormed : WellFormed h.area) (pos : 0 < n) :
    (∃ last start after, findRun h.area n = .found last n ∧ takeRun h last n =
      (after, ptrFromBlock h.area start) ∧ Granted h n start after) ∨
      ∃ count, findRun h.area n = .on count ∧ NoRun (IsFree h.area) 0 n h.area.blocks := by
  have searched := find_run_exact wellFormed pos
  cases result : findRun h.area n with
  | found last count =>
      rw [result] at searched
      rcases searched with ⟨rfl, below, start, ends, first⟩
      rcases take_run_granted wellFormed pos below ends first with ⟨granted, pointer⟩
      exact Or.inl ⟨last, start, _, rfl, Prod.ext rfl pointer, granted⟩
  | on count =>
      rw [result] at searched
      exact Or.inr ⟨count, rfl, searched⟩

theorem alloc_outcome {h : Heap} (r : Roots) (sp : UInt32) {nBytes : UInt32}
    (wellFormed : WellFormed h.area) (pos : 0 < blocksFor nBytes) (unlocked : h.gcLockDepth = 0) :
    Allocation h r sp (blocksFor nBytes) (gcAlloc h r sp nBytes) := by
  rw [gcAlloc]
  simp only [if_neg (Nat.ne_of_gt pos), unlocked, Nat.lt_irrefl, if_false]
  rcases search_cases wellFormed pos with ⟨last, start, after, found, taken, granted⟩ |
    ⟨count, found, noRun⟩
  · rw [found]
    simp only [taken]
    exact .direct start after granted
  · rw [found]
    cases enabled : h.gcAutoCollectEnabled with
    | false => exact .refused enabled noRun
    | true =>
        have collection := (collected h r sp wellFormed).wellFormed
        rcases search_cases collection pos with ⟨last, start, after, found, taken, granted⟩ |
          ⟨count, found, still⟩
        · simp only [found, taken, if_true]
          exact .collected start after enabled noRun granted
        · simp only [found, if_true]
          exact .exhausted enabled noRun still

-- Rounding up to whole blocks, unless the request is within 15 of the address space.
theorem blocks_for_exact {nBytes : UInt32} (fits : nBytes.toNat + 15 < 2 ^ 32) :
    blocksFor nBytes = (nBytes.toNat + 15) / 16 := by
  have sum : (nBytes + 15).toNat = nBytes.toNat + 15 := by
    rw [UInt32.toNat_add]
    exact Nat.mod_eq_of_lt fits
  have masked : ((nBytes + 15) &&& ~~~15).toNat / 16 = (nBytes.toNat + 15) / 16 := by
    rw [UInt32.toNat_and, sum]
    change ((nBytes.toNat + 15) &&& (2 ^ 32 - 16)) / 2 ^ 4 = (nBytes.toNat + 15) / 2 ^ 4
    rw [Nat.and_div_two_pow]
    change (nBytes.toNat + 15) / 2 ^ 4 &&& (2 ^ 28 - 1) = _
    rw [Nat.and_two_pow_sub_one_eq_mod, Nat.mod_eq_of_lt (by omega)]
  rw [blocksFor, UInt32.toNat_div]
  exact masked

/-- `gc_alloc` takes the lowest run there is, collects only when there is none, and
fails only when a collection does not make one. -/
theorem alloc_exact (h : Heap) (r : Roots) (sp nBytes : UInt32) (wellFormed : WellFormed h.area)
    (positive : 0 < nBytes.toNat) (fits : nBytes.toNat + 15 < 2 ^ 32)
    (unlocked : h.gcLockDepth = 0) :
    Allocation h r sp ((nBytes.toNat + 15) / 16) (gcAlloc h r sp nBytes) := by
  have blocks := blocks_for_exact fits
  have pos : 0 < blocksFor nBytes := by omega
  have outcome := alloc_outcome r sp wellFormed pos unlocked
  rwa [blocks] at outcome

theorem third_object_allocated :
    Allocation twoObjects oneRoot 0x90000 1 (gcAlloc twoObjects oneRoot 0x90000 16) :=
  alloc_exact twoObjects oneRoot 0x90000 16 two_objects_well_formed (by decide) (by decide) rfl

end NexusOS.GcAlloc
