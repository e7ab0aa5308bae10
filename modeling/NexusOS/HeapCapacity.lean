import NexusOS.BumpHeap

/-!
How much the heap of `kernel/drivers/mem.c` gives out. Below 2^31 no addition of
`kmalloc` wraps and the heap is the bump arena run by run: a request passes the
bound check exactly when it still fits behind the rounded sizes of the requests
that passed before it. A heap at address 0 is the one where the caller cannot
tell: its first block has the address that also says no.
-/

namespace NexusOS.HeapCapacity

open BumpArena BumpHeap

/-- The request passes the bound check of `kmalloc`. -/
def Granted (h : Heap) (size : UInt32) : Prop := ¬ h.currentAddr + size > h.heapEnd

instance (h : Heap) (size : UInt32) : Decidable (Granted h size) :=
  inferInstanceAs (Decidable (¬ _))

def passed : Heap → List UInt32 → List Grant
  | _, [] => []
  | h, size :: rest =>
      if Granted h size then ⟨(kmalloc h size).1, size⟩ :: passed (kmalloc h size).2 rest
      else passed (kmalloc h size).2 rest

def heapAfter : Heap → List UInt32 → Heap
  | h, [] => h
  | h, size :: rest => heapAfter (kmalloc h size).2 rest

/-- The sizes, each rounded up to a multiple of 4. -/
def rounded (gs : List Grant) : Nat := taken 4 (gs.map Grant.block)

structure Low (h : Heap) : Prop where
  limit : h.heapEnd.toNat ≤ 2 ^ 31
  cursor : h.currentAddr.toNat ≤ 2 ^ 31

/-- What one more request gets after `requests`, and what the refused ones leave behind. -/
structure ExactCapacity (start size : UInt32) (requests : List UInt32) (n : UInt32) : Prop where
  fits : Granted (heapAfter (memInitialize start size) requests) n ↔
    rounded (passed (memInitialize start size) requests) + n.toNat ≤ size.toNat
  address : Granted (heapAfter (memInitialize start size) requests) n →
    (kmalloc (heapAfter (memInitialize start size) requests) n).1.toNat =
        start.toNat + rounded (passed (memInitialize start size) requests) ∧
      (start.toNat + rounded (passed (memInitialize start size) requests)) % 4 = 0
  refused : ¬ Granted (heapAfter (memInitialize start size) requests) n →
    kmalloc (heapAfter (memInitialize start size) requests) n =
      (null, heapAfter (memInitialize start size) requests)
  deletion : grants (memInitialize start size)
      ((passed (memInitialize start size) requests).map Grant.size) =
    passed (memInitialize start size) requests
  visible : start ≠ 0 →
    passed (memInitialize start size) requests =
      (grants (memInitialize start size) requests).filter fun g => g.ptr ≠ null

theorem refused_answer {h : Heap} {size : UInt32} (refused : ¬ Granted h size) :
    kmalloc h size = (null, h) := if_pos (not_not.mp refused)

theorem passed_granted {h : Heap} {size : UInt32} (granted : Granted h size)
    (rest : List UInt32) : passed h (size :: rest) =
      ⟨(kmalloc h size).1, size⟩ :: passed (kmalloc h size).2 rest := if_pos granted

theorem passed_refused {h : Heap} {size : UInt32} (refused : ¬ Granted h size)
    (rest : List UInt32) : passed h (size :: rest) = passed h rest := by
  rw [passed, if_neg refused, refused_answer refused]

section Step
variable {h : Heap} {size : UInt32} (low : Low h) (small : size.toNat < 2 ^ 31)
include low small

theorem granted_iff :
    Granted h size ↔ h.currentAddr.toNat + size.toNat ≤ h.heapEnd.toNat := by
  have cursor := low.cursor
  have sum : (h.currentAddr + size).toNat = h.currentAddr.toNat + size.toNat :=
    add_exact (by omega)
  rw [Granted, UInt32.not_lt, UInt32.le_iff_toNat_le, sum]

theorem granted_below (granted : Granted h size) :
    roundUp 4 (h.currentAddr.toNat + size.toNat) ≤ 2 ^ 31 := by
  have room := (granted_iff low small).mp granted
  have limit := low.limit
  -- 2^31 is a multiple of 4, so the rounding does not get past it
  unfold roundUp
  omega

-- One request keeps the heap low and is one request of the arena.
theorem kmalloc_carves :
    Low (kmalloc h size).2 ∧ arena (kmalloc h size).2 = (carve 4 (arena h) size.toNat).2 ∧
      ∀ rest, (passed h (size :: rest)).map Grant.block =
        (carve 4 (arena h) size.toNat).1.toList ++
          (passed (kmalloc h size).2 rest).map Grant.block := by
  by_cases granted : Granted h size
  · have below := granted_below low small granted
    have carved := granted_carves granted (by omega)
    have cursor : (kmalloc h size).2.currentAddr.toNat =
        roundUp 4 (h.currentAddr.toNat + size.toNat) := by
      have moved := congrArg (fun answer => answer.2.cursor) carved
      have room : (arena h).cursor + size.toNat ≤ (arena h).limit :=
        (granted_iff low small).mp granted
      rw [carve, if_pos room] at moved
      exact moved.symm
    have limit : (kmalloc h size).2.heapEnd = h.heapEnd := by
      rw [kmalloc, if_neg granted]
    refine ⟨⟨limit ▸ low.limit, cursor ▸ below⟩, (congrArg Prod.snd carved).symm, ?_⟩
    intro rest
    rw [passed_granted granted, carved]
    rfl
  · have carved := refused_carves_none (not_not.mp granted)
    rw [refused_answer granted]
    refine ⟨low, (congrArg Prod.snd carved).symm, ?_⟩
    intro rest
    rw [passed_refused granted, carved]
    rfl

end Step

theorem run_carves (requests : List UInt32) {h : Heap} (low : Low h)
    (small : ∀ n ∈ requests, n.toNat < 2 ^ 31) :
    Low (heapAfter h requests) ∧
      arena (heapAfter h requests) = arenaAfter 4 (arena h) (requests.map UInt32.toNat) ∧
      (passed h requests).map Grant.block =
        carveAll 4 (arena h) (requests.map UInt32.toNat) := by
  induction requests generalizing h with
  | nil => exact ⟨low, rfl, rfl⟩
  | cons size rest ih =>
      rcases kmalloc_carves low (small size List.mem_cons_self) with ⟨still, step, blocks⟩
      rcases ih still (fun n member => small n (List.mem_cons_of_mem _ member)) with
        ⟨after, run, later⟩
      rw [step] at run later
      refine ⟨after, run, ?_⟩
      rw [blocks rest, later]
      rfl

theorem refused_deleted (requests : List UInt32) (h : Heap) :
    grants h ((passed h requests).map Grant.size) = passed h requests := by
  induction requests generalizing h with
  | nil => rfl
  | cons size rest ih =>
      by_cases granted : Granted h size
      · rw [passed_granted granted, List.map_cons, grants, ih]
      · rw [passed_refused granted]
        exact ih h

theorem granted_nonzero {h : Heap} {size : UInt32} (low : Low h) (small : size.toNat < 2 ^ 31)
    (granted : Granted h size) (nonzero : h.currentAddr ≠ 0) :
    (kmalloc h size).1 = h.currentAddr ∧ (kmalloc h size).2.currentAddr ≠ 0 := by
  have answer : kmalloc h size =
      (h.currentAddr, { h with currentAddr := align (h.currentAddr + size) }) := if_neg granted
  have below := granted_below low small granted
  have short : roundUp 4 (h.currentAddr.toNat + size.toNat) < 2 ^ 32 :=
    Nat.lt_of_le_of_lt below (by decide)
  have sum := add_exact (Nat.lt_of_le_of_lt (round_up_le 4 _) short)
  have next := align_exact (h.currentAddr + size) (sum ▸ short)
  have positive : 0 < h.currentAddr.toNat :=
    Nat.pos_of_ne_zero fun zero => nonzero (UInt32.toNat_inj.mp zero)
  rw [answer]
  refine ⟨rfl, fun zero => ?_⟩
  have up := round_up_le 4 (h.currentAddr + size).toNat
  rw [← next, sum] at up
  have same : (align (h.currentAddr + size)).toNat = 0 := congrArg UInt32.toNat zero
  omega

theorem grants_visible (requests : List UInt32) {h : Heap} (low : Low h)
    (small : ∀ n ∈ requests, n.toNat < 2 ^ 31) (nonzero : h.currentAddr ≠ 0) :
    passed h requests = (grants h requests).filter fun g => g.ptr ≠ null := by
  induction requests generalizing h with
  | nil => rfl
  | cons size rest ih =>
      have here := small size List.mem_cons_self
      have there : ∀ n ∈ rest, n.toNat < 2 ^ 31 :=
        fun n member => small n (List.mem_cons_of_mem _ member)
      have still := (kmalloc_carves low here).1
      by_cases granted : Granted h size
      -- behind a heap start that is not 0 no block has address 0
      · rcases granted_nonzero low here granted nonzero with ⟨ptr, later⟩
        have kept : (kmalloc h size).1 ≠ null := ptr ▸ nonzero
        rw [passed_granted granted, grants, List.filter_cons_of_pos (by simpa using kept),
          ih still there later]
      · rw [passed_refused granted, grants, refused_answer granted,
          List.filter_cons_of_neg (by simp), ih low there nonzero]

theorem capacity_exact (start size : UInt32) (aligned : start.toNat % 4 = 0)
    (fits : start.toNat + size.toNat ≤ 2 ^ 31) (requests : List UInt32) (n : UInt32)
    (small : ∀ m ∈ n :: requests, m.toNat < 2 ^ 31) : ExactCapacity start size requests n := by
  have limit : (memInitialize start size).heapEnd.toNat = start.toNat + size.toNat :=
    add_exact (Nat.lt_of_le_of_lt fits (by decide))
  have low : Low (memInitialize start size) :=
    ⟨limit ▸ fits, Nat.le_trans (Nat.le_add_right _ _) fits⟩
  have earlier : ∀ m ∈ requests, m.toNat < 2 ^ 31 :=
    fun m member => small m (List.mem_cons_of_mem _ member)
  rcases run_carves requests low earlier with ⟨after, run, blocks⟩
  rcases @cursor_after 4 (by decide) (requests.map UInt32.toNat)
    (arena (memInitialize start size)) aligned with ⟨cursor, still, bound⟩
  rw [← run, ← blocks] at cursor
  rw [← run] at still bound
  have room := granted_iff after (small n List.mem_cons_self)
  change (heapAfter _ _).currentAddr.toNat = start.toNat + rounded _ at cursor
  change (heapAfter _ _).heapEnd.toNat = (memInitialize start size).heapEnd.toNat at bound
  change (heapAfter _ _).currentAddr.toNat % 4 = 0 at still
  constructor
  · rw [room, cursor, bound, limit, Nat.add_assoc, Nat.add_le_add_iff_left]
  · intro granted
    have answer : (kmalloc (heapAfter (memInitialize start size) requests) n).1 =
        (heapAfter (memInitialize start size) requests).currentAddr := by
      rw [kmalloc, if_neg granted]
    rw [answer, ← cursor]
    exact ⟨rfl, still⟩
  · exact refused_answer
  · exact refused_deleted requests _
  · exact grants_visible requests low earlier

/-- A kernel heap of 10 bytes: the second request ends behind its last aligned byte. -/
theorem ragged_heap_capacity :
    (0x200000 : UInt32).toNat % 4 = 0 ∧
      (0x200000 : UInt32).toNat + (10 : UInt32).toNat ≤ 2 ^ 31 ∧
      (∀ m ∈ [(0 : UInt32), 5, 100, 2], m.toNat < 2 ^ 31) ∧
      ExactCapacity 0x200000 10 [5, 100, 2] 0 := by
  have small : ∀ m ∈ [(0 : UInt32), 5, 100, 2], m.toNat < 2 ^ 31 := by simp
  exact ⟨by decide, by decide, small, capacity_exact _ _ (by decide) (by decide) _ _ small⟩

/-- A heap at address 0 answers its first request with the address that means failure. -/
theorem first_block_reads_null :
    ¬ ∀ (start size : UInt32) (requests : List UInt32) (n : UInt32), start.toNat % 4 = 0 →
      start.toNat + size.toNat ≤ 2 ^ 31 → (∀ m ∈ n :: requests, m.toNat < 2 ^ 31) →
        ((kmalloc (heapAfter (memInitialize start size) requests) n).1 ≠ null ↔
          rounded ((grants (memInitialize start size) requests).filter fun g => g.ptr ≠ null) +
            n.toNat ≤ size.toNat) := by
  intro always
  have first := always 0 4 [] 4 (by decide) (by decide) (by simp)
  exact absurd rfl (first.mpr (by decide))

end NexusOS.HeapCapacity
