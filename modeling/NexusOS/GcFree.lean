import NexusOS.GcAlloc

/-!
`gc_free` and `gc_nbytes` of `gc.c`. A failed `assert` hangs the
machine: `none`. What an operation leaves of the objects it is not about is
`Untouched`.
-/

namespace NexusOS.GcFree

open BlockCopy ByteMemory CountedLoop FirstFit GcHeap GcMark GcCollect GcAlloc MemoryMove

/-- `do { ATB_ANY_TO_FREE(area, block); block += 1; } while (kind of block is AT_TAIL)`. -/
def freeChain (t : AllocTable) (block : Nat) : Nat → AllocTable
  | 0 => atbAnyToFree t block
  | fuel + 1 =>
      let freed := atbAnyToFree t block
      if atbGetKind freed (block + 1) = .tail then freeChain freed (block + 1) fuel else freed

def freeBlock (h : Heap) (block : Nat) : Heap :=
  { h with area := { h.area with
      gcLastFreeAtbIndex :=
        if block / 4 < h.area.gcLastFreeAtbIndex then block / 4 else h.area.gcLastFreeAtbIndex
      gcAllocTable := freeChain h.area.gcAllocTable block (h.area.blocks - block) } }

/-- What the two `assert`s ask of a pointer. -/
def isObject (a : Area) (ptr : UInt32) : Bool :=
  decide (verifyPtr a ptr) && decide (a.kind (blockFromPtr a ptr) = .head)

def gcFree (h : Heap) (ptr : UInt32) : Option Heap :=
  if 0 < h.gcLockDepth then some h
  else if ptr = 0 then some h
  else if isObject h.area ptr then some (freeBlock h (blockFromPtr h.area ptr)) else none

def gcNbytes (h : Heap) (ptr : UInt32) : Nat :=
  if isObject h.area ptr then chainBlocks h.area (blockFromPtr h.area ptr) * 16 else 0

theorem tail_run_congr {t other : AllocTable} (start : Nat)
    (same : ∀ block, start ≤ block → atbGetKind other block = atbGetKind t block) (fuel : Nat) :
    tailRun other start fuel = tailRun t start fuel := by
  induction fuel generalizing start with
  | zero => rfl
  | succ fuel ih =>
      have rest := ih (start + 1) fun block above => same block (Nat.le_of_succ_le above)
      simp only [tailRun, same start (Nat.le_refl _), rest]

theorem free_chain_kinds (t : AllocTable) (block fuel c : Nat) :
    atbGetKind (freeChain t block fuel) c =
      if block ≤ c ∧ c ≤ block + tailRun t (block + 1) fuel then .free else atbGetKind t c := by
  induction fuel generalizing t block with
  | zero =>
      rw [freeChain, kind_any_to_free, tailRun]
      congr 1
      exact propext (by omega)
  | succ fuel ih =>
      have later : ∀ c, block + 1 ≤ c → atbGetKind (atbAnyToFree t block) c = atbGetKind t c :=
        fun c above => (kind_any_to_free t block c).trans (if_neg (Nat.ne_of_gt above))
      have run := tail_run_congr (block + 1 + 1)
        (fun c above => later c (Nat.le_of_succ_le above)) fuel
      simp only [freeChain]
      rw [later (block + 1) (Nat.le_refl _), tailRun]
      split
      case isTrue =>
        rw [ih, run, kind_any_to_free]
        by_cases first : c = block
        · rw [if_neg (by omega), if_pos first, if_pos (by omega)]
        · rw [if_neg first]
          congr 1
          exact propext (by omega)
      case isFalse =>
        rw [kind_any_to_free]
        congr 1
        exact propext (by omega)

/-- The object of `owner` is where it was, as long as it was, with what it held. -/
structure Untouched (h after : Heap) (owner : Nat) : Prop where
  len : after.area.gcAllocTableByteLen = h.area.gcAllocTableByteLen
  pool : after.area.gcPoolStart = h.area.gcPoolStart
  kind : after.area.kind owner = h.area.kind owner
  owns : ∀ block, Owns after.area owner block ↔ Owns h.area owner block
  bytes : ∀ k < chainBlocks h.area owner * 16,
    after.memory (ptrFromBlock h.area owner + UInt32.ofNat k) =
      h.memory (ptrFromBlock h.area owner + UInt32.ofNat k)

theorem untouched_refl (h : Heap) (owner : Nat) : Untouched h h owner :=
  ⟨rfl, rfl, rfl, fun _ => Iff.rfl, fun _ _ => rfl⟩

theorem same_ptr {h after : Heap} (same : after.area.gcPoolStart = h.area.gcPoolStart)
    (block : Nat) : ptrFromBlock after.area block = ptrFromBlock h.area block := by
  rw [ptrFromBlock, ptrFromBlock, same]

-- A chain is as long as what it owns.
theorem chain_same {a other : Area} {owner : Nat}
    (gap : ∀ block, a.blocks ≤ block → a.kind block = .free)
    (otherGap : ∀ block, other.blocks ≤ block → other.kind block = .free)
    (isHead : IsHead a owner) (owns : ∀ block, Owns other owner block ↔ Owns a owner block) :
    chainBlocks other owner = chainBlocks a owner := by
  have otherHead := ((owns owner).mpr (owns_self isHead)).isHead
  have same : ∀ block, owner ≤ block ∧ block < owner + chainBlocks other owner ↔
      owner ≤ block ∧ block < owner + chainBlocks a owner := fun block => by
    rw [← owns_iff otherGap otherHead, ← owns_iff gap isHead, owns]
  have up := same (owner + chainBlocks a owner)
  have down := same (owner + chainBlocks other owner)
  omega

theorem untouched_chain {h after : Heap} {owner : Nat} (untouched : Untouched h after owner)
    (shaped : Shaped h.area) (afterShaped : Shaped after.area) (isHead : IsHead h.area owner) :
    chainBlocks after.area owner = chainBlocks h.area owner :=
  chain_same shaped.gap afterShaped.gap isHead untouched.owns

theorem untouched_trans {h mid after : Heap} {owner : Nat} (first : Untouched h mid owner)
    (second : Untouched mid after owner) (shaped : Shaped h.area) (midShaped : Shaped mid.area)
    (isHead : IsHead h.area owner) : Untouched h after owner := by
  refine ⟨second.len.trans first.len, second.pool.trans first.pool, second.kind.trans first.kind,
    fun block => (second.owns block).trans (first.owns block), fun k inside => ?_⟩
  rw [← first.bytes k inside, ← same_ptr first.pool]
  apply second.bytes k
  rwa [untouched_chain first shaped midShaped isHead]

theorem collect_untouched {h after : Heap} {live : Nat → Prop} {owner : Nat}
    (collected : Collected h live after) (shaped : Shaped h.area) (isHead : IsHead h.area owner)
    (kept : live owner) : Untouched h after owner := by
  have released := collected.released
  have frame := collected.frame
  refine ⟨released.len, ?_, released.kept owner owner (owns_self isHead) (not_not_intro kept),
    fun block => ?_, fun k inside => ?_⟩
  · rw [frame]
  · rw [released_owns released shaped]
    exact and_iff_left (not_not_intro kept)
  · rw [frame]

theorem object_bytes {a : Area} {owner start n k : Nat} (inside : start + n ≤ a.blocks)
    (below : owner + chainBlocks a owner ≤ a.blocks) (inObject : k < chainBlocks a owner * 16)
    (apart : owner + chainBlocks a owner ≤ start ∨ start + n ≤ owner) :
    16 * n ≤ offset (ptrFromBlock a start) (ptrFromBlock a owner + UInt32.ofNat k) := by
  have sized := a.sized
  have limit := a.gcPoolEnd.toNat_lt
  rw [Area.blocks] at inside below
  have first := ptr_from_block_exact (show start ≤ a.blocks by rw [Area.blocks]; omega)
  have second := ptr_from_block_exact (show owner ≤ a.blocks by rw [Area.blocks]; omega)
  have address := address_exact (ptrFromBlock a owner) k (by omega)
  apply outside_offset (by omega)
  omega

theorem apart_from_free {a : Area} {owner start n : Nat} (pos : 0 < n)
    (free : ∀ block, start ≤ block → block < start + n → a.kind block = .free)
    (gap : ∀ block, a.blocks ≤ block → a.kind block = .free) (isHead : IsHead a owner) :
    owner + chainBlocks a owner ≤ start ∨ start + n ≤ owner := by
  by_contra meet
  have chain : 0 < chainBlocks a owner := by
    rw [chainBlocks]
    exact Nat.succ_pos _
  have shared : ∃ block, start ≤ block ∧ block < start + n ∧ owner ≤ block ∧
      block < owner + chainBlocks a owner := by
    rcases Nat.le_total owner start with before | after
    · exact ⟨start, by omega⟩
    · exact ⟨owner, by omega⟩
  rcases shared with ⟨block, above, below, inChain⟩
  exact owned_used ((owns_iff gap isHead block).mpr inChain) (free block above below)

theorem granted_untouched {h after : Heap} {n start owner : Nat} (granted : Granted h n start after)
    (pos : 0 < n) (shaped : Shaped h.area) (isHead : IsHead h.area owner) :
    Untouched h after owner := by
  have kinds : ∀ block, h.area.kind block ≠ .free → after.area.kind block = h.area.kind block :=
    fun block used => taken_used granted.first granted.kinds pos used
  have free := granted.first.run
  have chain := chain_inside shaped.gap (owns_inside shaped.gap (owns_self isHead))
  have frame := granted.frame
  refine ⟨?_, ?_, kinds owner (owned_used (owns_self isHead)), owns_stays isHead ?_ ?_, ?_⟩
  · rw [frame]
  · rw [frame]
  · exact fun block owns => kinds block (owned_used owns)
  · intro block owns tail
    rw [granted.kinds, takenKind] at tail
    split at tail
    · exact absurd tail (by decide)
    · split at tail
      case isTrue inRun =>
        exact absurd (free block (by omega) (by omega)) (owned_used owns)
      case isFalse => exact tail
  · intro k inside
    have away := object_bytes granted.inside chain inside
      (apart_from_free pos free shaped.gap isHead)
    rw [granted.memory, if_neg (Nat.not_lt.mpr away)]

-- `gc_free` frees the object's chain and nothing else.
theorem free_releases {h : Heap} {block : Nat} (shaped : Shaped h.area)
    (head : h.area.kind block = .head) :
    Released h.area (· = block) (freeBlock h block).area := by
  have isHead : IsHead h.area block := Or.inl head
  have kinds : ∀ c, (freeBlock h block).area.kind c =
      if block ≤ c ∧ c < block + chainBlocks h.area block then .free else h.area.kind c := by
    intro c
    refine (free_chain_kinds h.area.gcAllocTable block (h.area.blocks - block) c).trans ?_
    rw [chainBlocks]
    congr 1
    exact propext (by omega)
  refine ⟨rfl, fun owner c owns stays => ?_, fun owner c owns gone => ?_, fun c free => ?_⟩
  · rw [kinds, if_neg]
    intro inChain
    exact stays (owner_unique owns ((owns_iff shaped.gap isHead c).mpr inChain))
  · subst gone
    rw [kinds, if_pos ((owns_iff shaped.gap isHead c).mp owns)]
  · rw [kinds, free]
    exact ite_self _

theorem free_well_formed {h : Heap} {block : Nat} (wellFormed : WellFormed h.area)
    (head : h.area.kind block = .head) : WellFormed (freeBlock h block).area := by
  have released := free_releases wellFormed.toShaped head
  have cases := released_cases released wellFormed.toShaped
  refine ⟨released_shaped released wellFormed.toShaped, fun c mark => ?_, fun c used => ?_,
    fun c below => ?_⟩
  · rcases cases c with ⟨_, _, _, same⟩ | free
    · exact wellFormed.unmarked c (same.symm.trans mark)
    · exact absurd (free.symm.trans mark) (by decide)
  · rcases cases c with ⟨_, _, _, same⟩ | free
    · exact wellFormed.used c (same ▸ used)
    · exact absurd free used
  · have bound : c < block ∧ c < h.area.gcLastFreeAtbIndex * 4 := by
      change c < (if block / 4 < h.area.gcLastFreeAtbIndex then block / 4
        else h.area.gcLastFreeAtbIndex) * 4 at below
      split at below
      · omega
      · omega
    have used := wellFormed.full c bound.2
    rcases owner_exists wellFormed.toShaped c used with ⟨owner, owns⟩
    have before : owner ≠ block := Nat.ne_of_lt (Nat.lt_of_le_of_lt owns.before bound.1)
    rw [released.kept owner c owns before]
    exact used

theorem free_untouched {h : Heap} {block owner : Nat} (shaped : Shaped h.area)
    (head : h.area.kind block = .head) (isHead : IsHead h.area owner) (apart : owner ≠ block) :
    Untouched h (freeBlock h block) owner := by
  have released := free_releases shaped head
  refine ⟨rfl, rfl, released.kept owner owner (owns_self isHead) apart, fun c => ?_,
    fun _ _ => rfl⟩
  rw [released_owns released shaped]
  exact and_iff_left apart

theorem is_object_iff (a : Area) (ptr : UInt32) : isObject a ptr = true ↔
    verifyPtr a ptr ∧ a.kind (blockFromPtr a ptr) = .head := by
  rw [isObject, Bool.and_eq_true, decide_eq_true_iff, decide_eq_true_iff]

theorem ptr_nonnull {a : Area} {block : Nat} (inside : block ≤ a.blocks) :
    ptrFromBlock a block ≠ 0 := by
  intro null
  have address := ptr_from_block_exact inside
  have nonnull := a.nonnull
  rw [null] at address
  have zero : (0 : UInt32).toNat = 0 := rfl
  omega

theorem object_here {a : Area} {block : Nat} (shaped : Shaped a) (head : a.kind block = .head) :
    isObject a (ptrFromBlock a block) = true ∧ blockFromPtr a (ptrFromBlock a block) = block := by
  have inside := owns_inside shaped.gap (owns_self (Or.inl head))
  have refers := refers_here inside
  refine ⟨(is_object_iff a _).mpr ⟨refers.1, ?_⟩, refers.2⟩
  rw [refers.2]
  exact head

theorem nbytes_exact {h : Heap} {block : Nat} (shaped : Shaped h.area)
    (head : h.area.kind block = .head) :
    gcNbytes h (ptrFromBlock h.area block) = chainBlocks h.area block * 16 := by
  rcases object_here shaped head with ⟨object, same⟩
  rw [gcNbytes, if_pos object, same]

theorem free_object {h : Heap} {block : Nat} (shaped : Shaped h.area) (unlocked : h.gcLockDepth = 0)
    (head : h.area.kind block = .head) :
    gcFree h (ptrFromBlock h.area block) = some (freeBlock h block) := by
  have inside := owns_inside shaped.gap (owns_self (Or.inl head))
  rcases object_here shaped head with ⟨object, same⟩
  rw [gcFree, unlocked, if_neg (Nat.lt_irrefl 0), if_neg (ptr_nonnull (Nat.le_of_lt inside)),
    if_pos object, same]

end NexusOS.GcFree
