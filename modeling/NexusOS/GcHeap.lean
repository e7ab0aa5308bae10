import NexusOS.MemoryMove
import NexusOS.PackedTable

/-!
The heap of `kernel/python/py/gc.c` as this port configures it: one area, four
words to a block, no finalisers. The allocation table stands apart from the
memory the blocks are in; `gc_setup_area` keeps the two from overlapping.
-/

namespace NexusOS.GcHeap

open ByteMemory PackedTable

/-- `AT_FREE`, `AT_HEAD`, `AT_TAIL` and `AT_MARK`. -/
inductive Kind where
  | free
  | head
  | tail
  | mark
  deriving DecidableEq

def kindOf (code : UInt8) : Kind :=
  if code = 0 then .free else if code = 1 then .head else if code = 2 then .tail else .mark

abbrev AllocTable := Nat → UInt8

def atbGetKind (t : AllocTable) (block : Nat) : Kind := kindOf (field t block)
def atbAnyToFree (t : AllocTable) (block : Nat) : AllocTable := clearBits t block 3
def atbFreeToHead (t : AllocTable) (block : Nat) : AllocTable := setBits t block 1
def atbFreeToTail (t : AllocTable) (block : Nat) : AllocTable := setBits t block 2
def atbHeadToMark (t : AllocTable) (block : Nat) : AllocTable := setBits t block 3
def atbMarkToHead (t : AllocTable) (block : Nat) : AllocTable := clearBits t block 2

theorem field_range (t : AllocTable) (block : Nat) :
    field t block = 0 ∨ field t block = 1 ∨ field t block = 2 ∨ field t block = 3 := by
  have small : (field t block).toNat ≤ 3 := by
    rw [field, UInt8.toNat_and]
    exact Nat.and_le_right
  have cases : (field t block).toNat = 0 ∨ (field t block).toNat = 1 ∨
      (field t block).toNat = 2 ∨ (field t block).toNat = 3 := by omega
  simp only [← UInt8.toNat_inj]
  exact cases

theorem kind_any_to_free (t : AllocTable) (block other : Nat) :
    atbGetKind (atbAnyToFree t block) other =
      if other = block then .free else atbGetKind t other := by
  rw [atbGetKind, atbAnyToFree, field_clear t block other (by decide)]
  by_cases same : other = block
  · rw [if_pos same, if_pos same]
    rcases field_range t block with h | h | h | h <;> rw [h] <;> rfl
  · rw [if_neg same, if_neg same, atbGetKind]

theorem kind_head_to_mark (t : AllocTable) (block other : Nat) :
    atbGetKind (atbHeadToMark t block) other =
      if other = block then .mark else atbGetKind t other := by
  rw [atbGetKind, atbHeadToMark, field_set t block other (by decide)]
  by_cases same : other = block
  · rw [if_pos same, if_pos same]
    rcases field_range t block with h | h | h | h <;> rw [h] <;> rfl
  · rw [if_neg same, if_neg same, atbGetKind]

theorem free_field {t : AllocTable} {block : Nat} (free : atbGetKind t block = .free) :
    field t block = 0 := by
  rw [atbGetKind] at free
  rcases field_range t block with h | h | h | h
  · exact h
  all_goals
    rw [h] at free
    exact absurd free (by decide)

-- `|=` writes a kind only over a free block.
theorem kind_free_to_head {t : AllocTable} {block : Nat} (free : atbGetKind t block = .free)
    (other : Nat) : atbGetKind (atbFreeToHead t block) other =
      if other = block then .head else atbGetKind t other := by
  rw [atbGetKind, atbFreeToHead, field_set t block other (by decide), free_field free]
  by_cases same : other = block
  · rw [if_pos same, if_pos same]
    rfl
  · rw [if_neg same, if_neg same, atbGetKind]

theorem kind_free_to_tail {t : AllocTable} {block : Nat} (free : atbGetKind t block = .free)
    (other : Nat) : atbGetKind (atbFreeToTail t block) other =
      if other = block then .tail else atbGetKind t other := by
  rw [atbGetKind, atbFreeToTail, field_set t block other (by decide), free_field free]
  by_cases same : other = block
  · rw [if_pos same, if_pos same]
    rfl
  · rw [if_neg same, if_neg same, atbGetKind]

theorem kind_mark_to_head {t : AllocTable} {block : Nat} (mark : atbGetKind t block = .mark)
    (other : Nat) : atbGetKind (atbMarkToHead t block) other =
      if other = block then .head else atbGetKind t other := by
  rw [atbGetKind, atbMarkToHead, field_clear t block other (by decide)]
  by_cases same : other = block
  · rw [if_pos same, if_pos same]
    rw [atbGetKind] at mark
    rcases field_range t block with h | h | h | h <;> rw [h] at mark ⊢
    all_goals first
      | exact absurd mark (by decide)
      | rfl
  · rw [if_neg same, if_neg same, atbGetKind]

/-- `mp_state_mem_area_t`; the last three fields hold from `gc_setup_area` on. -/
structure Area where
  gcAllocTableStart : UInt32
  gcAllocTableByteLen : Nat
  gcAllocTable : AllocTable
  gcPoolStart : UInt32
  gcPoolEnd : UInt32
  gcLastFreeAtbIndex : Nat
  gcLastUsedBlock : Nat
  nonnull : 0 < gcPoolStart.toNat
  aligned : gcPoolStart.toNat % 16 = 0
  sized : gcPoolStart.toNat + 64 * gcAllocTableByteLen = gcPoolEnd.toNat

def Area.blocks (a : Area) : Nat := a.gcAllocTableByteLen * 4
def Area.kind (a : Area) (block : Nat) : Kind := atbGetKind a.gcAllocTable block

/-- `VERIFY_PTR`. -/
def verifyPtr (a : Area) (ptr : UInt32) : Prop :=
  ptr &&& 15 = 0 ∧ a.gcPoolStart ≤ ptr ∧ ptr < a.gcPoolEnd

instance (a : Area) (ptr : UInt32) : Decidable (verifyPtr a ptr) := instDecidableAnd

def blockFromPtr (a : Area) (ptr : UInt32) : Nat := ((ptr - a.gcPoolStart) / 16).toNat
def ptrFromBlock (a : Area) (block : Nat) : UInt32 := UInt32.ofNat (block * 16) + a.gcPoolStart

/-- A word that `VERIFY_PTR` takes for a pointer, and the block it points at. -/
def Refers (a : Area) (ptr : UInt32) (block : Nat) : Prop :=
  verifyPtr a ptr ∧ blockFromPtr a ptr = block

theorem low_bits_zero (ptr : UInt32) : ptr &&& 15 = 0 ↔ ptr.toNat % 16 = 0 := by
  rw [← UInt32.toNat_inj, UInt32.toNat_and]
  exact iff_of_eq (congrArg (· = 0) (Nat.and_two_pow_sub_one_eq_mod ptr.toNat 4))

theorem ptr_from_block_exact {a : Area} {block : Nat} (inside : block ≤ a.blocks) :
    (ptrFromBlock a block).toNat = a.gcPoolStart.toNat + 16 * block := by
  have sized := a.sized
  have limit := a.gcPoolEnd.toNat_lt
  rw [Area.blocks] at inside
  rw [ptrFromBlock, UInt32.add_comm, address_exact _ _ (by omega)]
  omega

theorem refers_iff (a : Area) (ptr : UInt32) (block : Nat) :
    Refers a ptr block ↔ block < a.blocks ∧ ptr = ptrFromBlock a block := by
  have sized := a.sized
  have aligned := a.aligned
  rw [Refers, verifyPtr, low_bits_zero, UInt32.le_iff_toNat_le, UInt32.lt_iff_toNat_lt, Area.blocks]
  constructor
  · rintro ⟨⟨low, above, below⟩, rfl⟩
    have distance : (ptr - a.gcPoolStart).toNat = ptr.toNat - a.gcPoolStart.toNat :=
      UInt32.toNat_sub_of_le _ _ (UInt32.le_iff_toNat_le.mpr above)
    have value : blockFromPtr a ptr = (ptr.toNat - a.gcPoolStart.toNat) / 16 := by
      rw [blockFromPtr, UInt32.toNat_div, distance]
      rfl
    have inside : blockFromPtr a ptr < a.gcAllocTableByteLen * 4 := by omega
    refine ⟨inside, UInt32.toNat_inj.mp ?_⟩
    rw [ptr_from_block_exact (Nat.le_of_lt inside)]
    omega
  · rintro ⟨inside, rfl⟩
    have address := ptr_from_block_exact (Nat.le_of_lt inside)
    have above : a.gcPoolStart ≤ ptrFromBlock a block := UInt32.le_iff_toNat_le.mpr (by omega)
    refine ⟨by omega, ?_⟩
    rw [blockFromPtr, UInt32.toNat_div, UInt32.toNat_sub_of_le _ _ above, address]
    change (_ - _) / 16 = block
    omega

theorem refers_here {a : Area} {block : Nat} (inside : block < a.blocks) :
    Refers a (ptrFromBlock a block) block := (refers_iff a _ block).mpr ⟨inside, rfl⟩

/-- `MP_STATE_MEM` and the memory; `mp_state_ctx` and the C stack lie in it too. -/
structure Heap where
  area : Area
  memory : Memory
  gcStackOverflow : Bool
  gcLockDepth : Nat
  gcAutoCollectEnabled : Bool

def Heap.setTable (h : Heap) (t : AllocTable) : Heap :=
  { h with area := { h.area with gcAllocTable := t } }

/-- `gc_alloc_table_byte_len`: one byte of table for each four blocks, and the gap byte. -/
def tableByteLen (start finish : UInt32) : UInt32 := (finish - start - 1) / 65

theorem table_byte_len {start finish : UInt32} (room : start < finish) :
    (tableByteLen start finish).toNat = (finish.toNat - start.toNat - 1) / 65 := by
  have below := UInt32.lt_iff_toNat_lt.mp room
  have total := UInt32.toNat_sub_of_le _ _ (UInt32.le_of_lt room)
  have one : (1 : UInt32).toNat = 1 := rfl
  have positive : (1 : UInt32) ≤ finish - start := UInt32.le_iff_toNat_le.mpr (by omega)
  rw [tableByteLen, UInt32.toNat_div, UInt32.toNat_sub_of_le _ _ positive, total]
  rfl

theorem pool_start {start finish : UInt32} (room : start < finish) :
    (finish - tableByteLen start finish * 64).toNat =
      finish.toNat - 64 * (tableByteLen start finish).toNat := by
  have below := UInt32.lt_iff_toNat_lt.mp room
  have limit := finish.toNat_lt
  have len := table_byte_len room
  have size : (tableByteLen start finish * 64).toNat = (tableByteLen start finish).toNat * 64 := by
    rw [UInt32.toNat_mul]
    exact Nat.mod_eq_of_lt (by change _ * 64 < _; omega)
  rw [UInt32.toNat_sub_of_le _ _ (UInt32.le_iff_toNat_le.mpr (by omega)), size, Nat.mul_comm]

/-- `gc_setup_area`. -/
def gcSetupArea (start finish : UInt32) (aligned : finish.toNat % 16 = 0) (room : start < finish) :
    Area where
  gcAllocTableStart := start
  gcAllocTableByteLen := (tableByteLen start finish).toNat
  gcAllocTable := fun _ => 0
  gcPoolStart := finish - tableByteLen start finish * 64
  gcPoolEnd := finish
  gcLastFreeAtbIndex := 0
  gcLastUsedBlock := 0
  nonnull := by
    have below := UInt32.lt_iff_toNat_lt.mp room
    have len := table_byte_len room
    rw [pool_start room]
    omega
  aligned := by
    have below := UInt32.lt_iff_toNat_lt.mp room
    have len := table_byte_len room
    rw [pool_start room]
    omega
  sized := by
    have below := UInt32.lt_iff_toNat_lt.mp room
    have len := table_byte_len room
    rw [pool_start room]
    omega

theorem table_below_pool (start finish : UInt32) (aligned : finish.toNat % 16 = 0)
    (room : start < finish) :
    start.toNat + (gcSetupArea start finish aligned room).gcAllocTableByteLen + 1 ≤
      (gcSetupArea start finish aligned room).gcPoolStart.toNat := by
  have below := UInt32.lt_iff_toNat_lt.mp room
  have len := table_byte_len room
  change _ + (tableByteLen start finish).toNat + 1 ≤ (finish - _).toNat
  rw [pool_start room]
  omega

def roundDown (finish : UInt32) : UInt32 := finish &&& ~~~15

theorem round_down_aligned (finish : UInt32) : (roundDown finish).toNat % 16 = 0 := by
  apply (low_bits_zero _).mp
  rw [roundDown, UInt32.and_assoc]
  exact UInt32.and_zero

def gcInit (memory : Memory) (start finish : UInt32) (room : start < roundDown finish) : Heap where
  area := gcSetupArea start (roundDown finish) (round_down_aligned finish) room
  memory
  gcStackOverflow := false
  gcLockDepth := 0
  gcAutoCollectEnabled := true

/-- How many of the `fuel` blocks from `block` on are tails in a row. -/
def tailRun (t : AllocTable) : Nat → Nat → Nat
  | _, 0 => 0
  | block, fuel + 1 => if atbGetKind t block = .tail then tailRun t (block + 1) fuel + 1 else 0

/-- `do { n_blocks += 1; } while (ATB_GET_KIND(area, block + n_blocks) == AT_TAIL)`. The free
entries of the gap byte end it at the last block. -/
def chainBlocks (a : Area) (block : Nat) : Nat :=
  tailRun a.gcAllocTable (block + 1) (a.blocks - block) + 1

/-- What a table is between operations, marked or not: free past the last block,
and no tail without a head. -/
structure Shaped (a : Area) : Prop where
  gap : ∀ block, a.blocks ≤ block → a.kind block = .free
  first : a.kind 0 ≠ .tail
  follows : ∀ block, a.kind (block + 1) = .tail → a.kind block ≠ .free

theorem tail_run_tails (t : AllocTable) (block fuel k : Nat) (below : k < tailRun t block fuel) :
    atbGetKind t (block + k) = .tail := by
  induction fuel generalizing block k with
  | zero => exact absurd below (Nat.not_lt_zero k)
  | succ fuel ih =>
      rw [tailRun] at below
      split at below
      case isTrue tail =>
        cases k with
        | zero => exact tail
        | succ k =>
            have later := ih (block + 1) k (Nat.lt_of_succ_lt_succ below)
            rwa [Nat.add_right_comm] at later
      case isFalse => exact absurd below (Nat.not_lt_zero k)

theorem tail_run_ends (t : AllocTable) (block fuel : Nat) (short : tailRun t block fuel < fuel) :
    atbGetKind t (block + tailRun t block fuel) ≠ .tail := by
  induction fuel generalizing block with
  | zero => exact absurd short (Nat.not_lt_zero _)
  | succ fuel ih =>
      rw [tailRun] at short ⊢
      split at short
      case isTrue tail =>
        rw [if_pos tail, ← Nat.add_assoc, Nat.add_right_comm]
        exact ih (block + 1) (Nat.lt_of_succ_lt_succ short)
      case isFalse other =>
        rw [if_neg other]
        exact other

theorem chain_tails {a : Area} {block c : Nat} (after : block < c)
    (inside : c < block + chainBlocks a block) : a.kind c = .tail := by
  rw [chainBlocks] at inside
  have tail := tail_run_tails a.gcAllocTable (block + 1) (a.blocks - block) (c - (block + 1))
    (by omega)
  rwa [Nat.add_sub_cancel' after] at tail

theorem chain_inside {a : Area} {block : Nat}
    (gap : ∀ block, a.blocks ≤ block → a.kind block = .free) (here : block < a.blocks) :
    block + chainBlocks a block ≤ a.blocks := by
  by_contra outside
  have tail : a.kind a.blocks = .tail := chain_tails here (by omega)
  rw [gap a.blocks (Nat.le_refl _)] at tail
  exact absurd tail (by decide)

theorem chain_ends {a : Area} {block : Nat}
    (gap : ∀ block, a.blocks ≤ block → a.kind block = .free) (here : block < a.blocks) :
    a.kind (block + chainBlocks a block) ≠ .tail := by
  have inside := chain_inside gap here
  rw [chainBlocks] at inside ⊢
  have ends := tail_run_ends a.gcAllocTable (block + 1) (a.blocks - block) (by omega)
  rwa [Nat.add_right_comm, Nat.add_assoc] at ends

theorem chain_congr {a other : Area} (sized : other.gcAllocTableByteLen = a.gcAllocTableByteLen)
    (same : ∀ block, other.kind block = .tail ↔ a.kind block = .tail) (block : Nat) :
    chainBlocks other block = chainBlocks a block := by
  have runs : ∀ fuel start, tailRun other.gcAllocTable start fuel =
      tailRun a.gcAllocTable start fuel := by
    intro fuel
    induction fuel with
    | zero => intro start; rfl
    | succ fuel ih =>
        intro start
        have tail : atbGetKind other.gcAllocTable start = .tail ↔
            atbGetKind a.gcAllocTable start = .tail := same start
        simp only [tailRun, ih, tail]
  rw [chainBlocks, chainBlocks, runs, Area.blocks, Area.blocks, sized]

def IsHead (a : Area) (block : Nat) : Prop := a.kind block = .head ∨ a.kind block = .mark

/-- `block` is in the chain of `owner`. -/
structure Owns (a : Area) (owner block : Nat) : Prop where
  isHead : IsHead a owner
  before : owner ≤ block
  tails : ∀ c, owner < c → c ≤ block → a.kind c = .tail

theorem head_not_tail {a : Area} {block : Nat} (isHead : IsHead a block) :
    a.kind block ≠ .tail := by
  rcases isHead with head | mark
  · simp [head]
  · simp [mark]

theorem owns_self {a : Area} {block : Nat} (isHead : IsHead a block) : Owns a block block :=
  ⟨isHead, Nat.le_refl _, fun _ above upto => absurd upto (Nat.not_le.mpr above)⟩

theorem owner_unique {a : Area} {first second block : Nat} (one : Owns a first block)
    (other : Owns a second block) : first = second := by
  rcases Nat.lt_trichotomy first second with below | same | above
  · exact absurd (one.tails second below other.before) (head_not_tail other.isHead)
  · exact same
  · exact absurd (other.tails first above one.before) (head_not_tail one.isHead)

theorem owner_self {a : Area} {owner block : Nat} (owns : Owns a owner block)
    (isHead : IsHead a block) : owner = block := owner_unique owns (owns_self isHead)

theorem owns_back {a : Area} {owner block : Nat} (owns : Owns a owner (block + 1))
    (tail : a.kind (block + 1) = .tail) : Owns a owner block := by
  refine ⟨owns.isHead, ?_, fun c above upto => owns.tails c above (Nat.le_succ_of_le upto)⟩
  rcases Nat.lt_or_eq_of_le owns.before with below | same
  · exact Nat.le_of_lt_succ below
  · exact absurd tail (same ▸ head_not_tail owns.isHead)

theorem owns_next {a : Area} {owner block : Nat} (owns : Owns a owner block)
    (tail : a.kind (block + 1) = .tail) : Owns a owner (block + 1) := by
  refine ⟨owns.isHead, Nat.le_succ_of_le owns.before, fun c above upto => ?_⟩
  rcases Nat.lt_or_eq_of_le upto with below | rfl
  · exact owns.tails c above (Nat.le_of_lt_succ below)
  · exact tail

theorem owner_exists {a : Area} (shaped : Shaped a) (block : Nat) (used : a.kind block ≠ .free) :
    ∃ owner, Owns a owner block := by
  induction block with
  | zero =>
      refine ⟨0, owns_self ?_⟩
      have first := shaped.first
      cases kind : a.kind 0 with
      | free => exact absurd kind used
      | head => exact Or.inl kind
      | tail => exact absurd kind first
      | mark => exact Or.inr kind
  | succ block ih =>
      cases kind : a.kind (block + 1) with
      | free => exact absurd kind used
      | head => exact ⟨_, owns_self (Or.inl kind)⟩
      | mark => exact ⟨_, owns_self (Or.inr kind)⟩
      | tail =>
          rcases ih (shaped.follows block kind) with ⟨owner, owns⟩
          exact ⟨owner, owns_next owns kind⟩

theorem owned_used {a : Area} {owner block : Nat} (owns : Owns a owner block) :
    a.kind block ≠ .free := by
  rcases Nat.lt_or_eq_of_le owns.before with below | rfl
  · simp [owns.tails block below (Nat.le_refl _)]
  · rcases owns.isHead with head | mark
    · simp [head]
    · simp [mark]

theorem owns_inside {a : Area} (gap : ∀ block, a.blocks ≤ block → a.kind block = .free)
    {owner block : Nat} (owns : Owns a owner block) : block < a.blocks := by
  by_contra outside
  exact owned_used owns (gap block (Nat.le_of_not_lt outside))

theorem owns_iff {a : Area} (gap : ∀ block, a.blocks ≤ block → a.kind block = .free)
    {owner : Nat} (isHead : IsHead a owner) (block : Nat) :
    Owns a owner block ↔ owner ≤ block ∧ block < owner + chainBlocks a owner := by
  have here := owns_inside gap (owns_self isHead)
  constructor
  · intro owns
    refine ⟨owns.before, ?_⟩
    by_contra beyond
    have first : owner < owner + chainBlocks a owner := by
      rw [chainBlocks]
      omega
    exact chain_ends gap here (owns.tails _ first (Nat.le_of_not_lt beyond))
  · rintro ⟨before, inside⟩
    exact ⟨isHead, before, fun c above upto => chain_tails above (Nat.lt_of_le_of_lt upto inside)⟩

theorem chain_exact {a : Area} {block n : Nat}
    (gap : ∀ block, a.blocks ≤ block → a.kind block = .free) (isHead : IsHead a block)
    (pos : 0 < n) (tails : ∀ c, block < c → c < block + n → a.kind c = .tail)
    (ends : a.kind (block + n) ≠ .tail) : chainBlocks a block = n := by
  have last := (owns_iff gap isHead (block + n - 1)).mp
    ⟨isHead, by omega, fun c above upto => tails c above (by omega)⟩
  have next := mt (owns_iff gap isHead (block + n)).mpr fun owns =>
    ends (owns.tails _ (by omega) (Nat.le_refl _))
  omega

theorem owns_stays {before after : Area} {owner : Nat} (isHead : IsHead before owner)
    (kinds : ∀ block, Owns before owner block → after.kind block = before.kind block)
    (stops : ∀ block, Owns before owner block → after.kind (block + 1) = .tail →
      before.kind (block + 1) = .tail) (block : Nat) :
    Owns after owner block ↔ Owns before owner block := by
  constructor
  · rintro ⟨_, above, tails⟩
    induction block, above using Nat.le_induction with
    | base => exact owns_self isHead
    | succ block above ih =>
        have below := ih fun c past upto => tails c past (Nat.le_succ_of_le upto)
        exact owns_next below (stops block below (tails (block + 1) (Nat.lt_succ_of_le above)
          (Nat.le_refl _)))
  · intro owns
    refine ⟨?_, owns.before, fun c above upto => ?_⟩
    · rw [IsHead, kinds owner (owns_self isHead)]
      exact isHead
    · have found : Owns before owner c :=
        ⟨isHead, Nat.le_of_lt above,
          fun d past under => owns.tails d past (Nat.le_trans under upto)⟩
      rw [kinds c found]
      exact owns.tails c above upto

/-- The chains of the heads in `gone` are free now, and every other block is what
it was. -/
structure Released (before : Area) (gone : Nat → Prop) (after : Area) : Prop where
  len : after.gcAllocTableByteLen = before.gcAllocTableByteLen
  kept : ∀ owner block, Owns before owner block → ¬ gone owner →
    after.kind block = before.kind block
  freed : ∀ owner block, Owns before owner block → gone owner → after.kind block = .free
  free : ∀ block, before.kind block = .free → after.kind block = .free

section Releasing

variable {before after : Area} {gone : Nat → Prop} (released : Released before gone after)
  (shaped : Shaped before)
include released shaped

theorem released_cases (block : Nat) :
    (∃ owner, Owns before owner block ∧ ¬ gone owner ∧
      after.kind block = before.kind block) ∨ after.kind block = .free := by
  by_cases free : before.kind block = .free
  · exact Or.inr (released.free block free)
  · rcases owner_exists shaped block free with ⟨owner, owns⟩
    by_cases departed : gone owner
    · exact Or.inr (released.freed owner block owns departed)
    · exact Or.inl ⟨owner, owns, departed, released.kept owner block owns departed⟩

theorem released_shaped : Shaped after := by
  refine ⟨fun block outside => ?_, ?_, fun block tail => ?_⟩
  · rw [Area.blocks, released.len] at outside
    exact released.free block (shaped.gap block outside)
  · rcases released_cases released shaped 0 with ⟨_, _, _, same⟩ | free
    · rw [same]
      exact shaped.first
    · simp [free]
  · rcases released_cases released shaped (block + 1) with ⟨owner, owns, stays, same⟩ | free
    · have before' := owns_back owns (same ▸ tail)
      rw [released.kept owner block before' stays]
      exact owned_used before'
    · rw [free] at tail
      exact absurd tail (by decide)

theorem released_owns (owner block : Nat) :
    Owns after owner block ↔ Owns before owner block ∧ ¬ gone owner := by
  constructor
  · intro owns
    have still : Owns before owner owner ∧ ¬ gone owner := by
      rcases released_cases released shaped owner with ⟨other, found, stays, same⟩ | free
      · have isHead : IsHead before owner := by
          rw [IsHead, ← same]
          exact owns.isHead
        have self := owner_self found isHead
        subst self
        exact ⟨found, stays⟩
      · exact absurd free (owned_used (owns_self owns.isHead))
    refine ⟨⟨still.1.isHead, owns.before, fun c above upto => ?_⟩, still.2⟩
    have tail := owns.tails c above upto
    rcases released_cases released shaped c with ⟨_, _, _, same⟩ | free
    · rw [← same, tail]
    · rw [free] at tail
      exact absurd tail (by decide)
  · rintro ⟨owns, stays⟩
    have same : ∀ c, Owns before owner c → after.kind c = before.kind c :=
      fun c found => released.kept owner c found stays
    refine ⟨?_, owns.before, fun c above upto => ?_⟩
    · rw [IsHead, same owner (owns_self owns.isHead)]
      exact owns.isHead
    · have found : Owns before owner c :=
        ⟨owns.isHead, Nat.le_of_lt above, fun d past under =>
          owns.tails d past (Nat.le_trans under upto)⟩
      rw [same c found]
      exact owns.tails c above upto

end Releasing

end NexusOS.GcHeap
