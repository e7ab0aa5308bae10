import NexusOS.GcFree

/-!
`gc_realloc` of `gc.c`: it keeps, shrinks or grows an object where it is, or
moves it to a new run. Whatever it does, the object keeps its bytes as far as
both sizes reach, and no other object that is in use changes.
-/

namespace NexusOS.GcRealloc

open BlockCopy ByteMemory CountedLoop FirstFit GcHeap GcMark GcCollect GcAlloc GcFree Marking
  MemoryMove

/-- The counting loop, over the `fuel` blocks from `bl` on: `n_blocks` and `n_free`. -/
def countBlocks (a : Area) (newBlocks : Nat) : Nat → Nat → Nat → Nat → Nat × Nat
  | 0, _, nBlocks, nFree => (nBlocks, nFree)
  | fuel + 1, bl, nBlocks, nFree =>
      match a.kind bl with
      | .tail => countBlocks a newBlocks fuel (bl + 1) (nBlocks + 1) nFree
      | .free =>
          if newBlocks ≤ nBlocks + (nFree + 1) then (nBlocks, nFree + 1)
          else countBlocks a newBlocks fuel (bl + 1) nBlocks (nFree + 1)
      | .head => (nBlocks, nFree)
      | .mark => (nBlocks, nFree)

def tailsToFree (t : AllocTable) (first count : Nat) : AllocTable :=
  countUp count (fun i t => atbAnyToFree t (first + i)) t

def shrink (h : Heap) (block newBlocks nBlocks : Nat) : Heap :=
  { h with area := { h.area with
      gcAllocTable := tailsToFree h.area.gcAllocTable (block + newBlocks) (nBlocks - newBlocks)
      gcLastFreeAtbIndex :=
        if (block + newBlocks) / 4 < h.area.gcLastFreeAtbIndex then (block + newBlocks) / 4
        else h.area.gcLastFreeAtbIndex } }

def grow (h : Heap) (ptrIn : UInt32) (block newBlocks nBlocks : Nat) : Heap :=
  { h with
    area := { h.area with
      gcAllocTable := freeToTails h.area.gcAllocTable (block + nBlocks) (newBlocks - nBlocks)
      gcLastUsedBlock := max h.area.gcLastUsedBlock (block + newBlocks) }
    memory := (memset h.memory (ptrIn + UInt32.ofNat (nBlocks * 16)) 0
      (UInt32.ofNat ((newBlocks - nBlocks) * 16))).memory }

/-- The move to a new run: `gc_alloc`, `memcpy`, `gc_free`. -/
def relocate (h : Heap) (r : Roots) (sp ptrIn nBytes : UInt32) (nBlocks : Nat) :
    Option (Heap × UInt32) :=
  let (out, ptrOut) := gcAlloc h r sp nBytes
  if ptrOut = 0 then some (out, 0)
  else
    let copied := (memcpy out.memory ptrOut ptrIn (UInt32.ofNat (nBlocks * 16))).memory
    (gcFree { out with memory := copied } ptrIn).map fun freed => (freed, ptrOut)

def gcRealloc (h : Heap) (r : Roots) (sp ptrIn nBytes : UInt32) (allowMove : Bool) :
    Option (Heap × UInt32) :=
  if ptrIn = 0 then some (gcAlloc h r sp nBytes)
  else if nBytes = 0 then (gcFree h ptrIn).map fun freed => (freed, 0)
  else if 0 < h.gcLockDepth then some (h, 0)
  else if isObject h.area ptrIn then
    let block := blockFromPtr h.area ptrIn
    let newBlocks := ((nBytes + 15) / 16).toNat
    let (nBlocks, nFree) :=
      countBlocks h.area newBlocks (h.area.blocks - (block + 1)) (block + 1) 1 0
    if newBlocks = nBlocks then some (h, ptrIn)
    else if newBlocks < nBlocks then some (shrink h block newBlocks nBlocks, ptrIn)
    else if newBlocks ≤ nBlocks + nFree then some (grow h ptrIn block newBlocks nBlocks, ptrIn)
    else if allowMove then relocate h r sp ptrIn nBytes nBlocks
    else some (h, 0)
  else none

/-- The object's blocks, the free ones after them that may be used, and why there
are no more. -/
structure Counted (a : Area) (block newBlocks nBlocks nFree : Nat) : Prop where
  chain : nBlocks = chainBlocks a block
  free : ∀ c, block + nBlocks ≤ c → c < block + nBlocks + nFree → a.kind c = .free
  inside : block + nBlocks + nFree ≤ a.blocks
  most : nBlocks + nFree < newBlocks → a.blocks ≤ block + nBlocks + nFree ∨
    a.kind (block + nBlocks + nFree) ≠ .free

theorem counted_chain {a : Area} {block nBlocks nFree : Nat} (shaped : Shaped a)
    (isHead : IsHead a block) (pos : 0 < nBlocks)
    (tails : ∀ c, block < c → c < block + nBlocks → a.kind c = .tail)
    (free : ∀ c, block + nBlocks ≤ c → c < block + nBlocks + nFree → a.kind c = .free)
    (ends : a.kind (block + nBlocks + nFree) ≠ .tail) : nBlocks = chainBlocks a block := by
  have stop : a.kind (block + nBlocks) ≠ .tail := by
    rcases Nat.eq_zero_or_pos nFree with lacking | more
    · rwa [lacking] at ends
    · simp [free (block + nBlocks) (Nat.le_refl _) (by omega)]
  exact (chain_exact shaped.gap isHead pos tails stop).symm

theorem count_blocks_exact {a : Area} {block : Nat} (newBlocks fuel nBlocks nFree : Nat)
    (shaped : Shaped a) (upto : fuel + (block + nBlocks + nFree) = a.blocks)
    (isHead : IsHead a block) (pos : 0 < nBlocks)
    (tails : ∀ c, block < c → c < block + nBlocks → a.kind c = .tail)
    (free : ∀ c, block + nBlocks ≤ c → c < block + nBlocks + nFree → a.kind c = .free) :
    Counted a block newBlocks
      (countBlocks a newBlocks fuel (block + nBlocks + nFree) nBlocks nFree).1
      (countBlocks a newBlocks fuel (block + nBlocks + nFree) nBlocks nFree).2 := by
  induction fuel generalizing nBlocks nFree with
  | zero =>
      have edge := shaped.gap (block + nBlocks + nFree) (by omega)
      rw [countBlocks]
      refine ⟨counted_chain shaped isHead pos tails free (by simp [edge]), free, by omega,
        fun _ => ?_⟩
      exact Or.inl (by omega)
  | succ fuel ih =>
      have stopped : a.kind (block + nBlocks + nFree) ≠ .free →
          a.kind (block + nBlocks + nFree) ≠ .tail →
          Counted a block newBlocks nBlocks nFree := fun used ends =>
        ⟨counted_chain shaped isHead pos tails free ends, free, by omega, fun _ => Or.inr used⟩
      rw [countBlocks]
      cases kind : a.kind (block + nBlocks + nFree) with
      | head => exact stopped (by simp [kind]) (by simp [kind])
      | mark => exact stopped (by simp [kind]) (by simp [kind])
      | tail =>
          have lacking : nFree = 0 := by
            by_contra more
            have back : block + nBlocks + nFree = block + nBlocks + (nFree - 1) + 1 := by omega
            rw [back] at kind
            exact shaped.follows _ kind (free _ (by omega) (by omega))
          subst lacking
          have later := ih (nBlocks + 1) 0 (by omega) (by omega)
            (fun c above under => ?_) (fun c above under => by omega)
          · exact later
          · rcases Nat.lt_or_ge c (block + nBlocks) with old | last
            · exact tails c above old
            · have same : c = block + nBlocks := by omega
              exact same ▸ kind
      | free =>
          have longer : ∀ c, block + nBlocks ≤ c → c < block + nBlocks + (nFree + 1) →
              a.kind c = .free := by
            intro c above under
            rcases Nat.lt_or_ge c (block + nBlocks + nFree) with old | last
            · exact free c above old
            · have same : c = block + nBlocks + nFree := by omega
              exact same ▸ kind
          dsimp only
          split
          case isTrue enough =>
            exact ⟨counted_chain shaped isHead pos tails free (by simp [kind]), longer, by omega,
              fun short => absurd enough (Nat.not_le.mpr short)⟩
          case isFalse => exact ih nBlocks (nFree + 1) (by omega) pos tails longer

/-- The object of `block` is now the one of `target`, of `newBlocks` blocks: what it had
beside them is free, and no other object is new. -/
structure Resized (h : Heap) (block newBlocks : Nat) (kept : Nat → Prop) (after : Heap)
    (target : Nat) : Prop where
  wellFormed : WellFormed after.area
  pool : after.area.gcPoolStart = h.area.gcPoolStart
  len : after.area.gcAllocTableByteLen = h.area.gcAllocTableByteLen
  lock : after.gcLockDepth = h.gcLockDepth
  head : after.area.kind target = .head
  chain : chainBlocks after.area target = newBlocks
  bytes : ∀ k < newBlocks * 16, after.memory (ptrFromBlock h.area target + UInt32.ofNat k) =
    if k < chainBlocks h.area block * 16 then
      h.memory (ptrFromBlock h.area block + UInt32.ofNat k)
    else 0
  others : ∀ owner, owner ≠ block → IsHead h.area owner → kept owner → Untouched h after owner
  freed : ∀ c, Owns h.area block c → ¬ Owns after.area target c → after.area.kind c = .free
  heads : ∀ owner, owner ≠ target → IsHead after.area owner →
    owner ≠ block ∧ IsHead h.area owner

theorem tails_to_free (t : AllocTable) (first count block : Nat) :
    atbGetKind (tailsToFree t first count) block =
      if first ≤ block ∧ block < first + count then .free else atbGetKind t block := by
  have swept := count_up_invariant
    (fun i now => ∀ block, atbGetKind now block =
      if first ≤ block ∧ block < first + i then .free else atbGetKind t block)
    count (fun i t => atbAnyToFree t (first + i)) t (fun block => (if_neg (by omega)).symm) ?step
  case step =>
    intro i now bound kinds block
    rw [kind_any_to_free, kinds]
    by_cases same : block = first + i
    · rw [if_pos same, if_pos (by omega)]
    · rw [if_neg same]
      congr 1
      exact propext (by omega)
  exact swept block

section Shrinking

variable {a after : Area} {block newBlocks : Nat} (shaped : Shaped a) (isHead : IsHead a block)
  (kinds : ∀ c, after.kind c =
    if block + newBlocks ≤ c ∧ c < block + chainBlocks a block then .free else a.kind c)
  (len : after.gcAllocTableByteLen = a.gcAllocTableByteLen)
include shaped isHead kinds

theorem shrunk_other {owner c : Nat} (apart : owner ≠ block) (owns : Owns a owner c) :
    after.kind c = a.kind c := by
  rw [kinds, if_neg]
  intro inChain
  have mine : Owns a block c := (owns_iff shaped.gap isHead c).mpr (by omega)
  exact apart (owner_unique owns mine)

include len

theorem shrunk_shaped : Shaped after := by
  have ends := chain_ends shaped.gap (owns_inside shaped.gap (owns_self isHead))
  refine ⟨fun c outside => ?_, ?_, fun c tail => ?_⟩
  · rw [Area.blocks, len] at outside
    rw [kinds, shaped.gap c outside]
    exact ite_self _
  · rw [kinds]
    split
    · decide
    · exact shaped.first
  · rw [kinds] at tail ⊢
    split at tail
    · exact absurd tail (by decide)
    · split
      case isTrue freed =>
        have last : c + 1 = block + chainBlocks a block := by omega
        exact absurd (last ▸ tail) ends
      case isFalse => exact shaped.follows c tail

theorem shrunk_chain (pos : 0 < newBlocks) (less : newBlocks < chainBlocks a block) :
    IsHead after block ∧ chainBlocks after block = newBlocks := by
  have first : after.kind block = a.kind block := by
    rw [kinds, if_neg (by omega)]
  have still : IsHead after block := by
    rw [IsHead, first]
    exact isHead
  refine ⟨still, chain_exact (shrunk_shaped shaped isHead kinds len).gap still pos
    (fun c above under => ?_) ?_⟩
  · rw [kinds, if_neg (by omega)]
    exact chain_tails above (by omega)
  · rw [kinds, if_pos (by omega)]
    decide

end Shrinking

theorem shrink_kinds (h : Heap) (block newBlocks nBlocks : Nat) (less : newBlocks ≤ nBlocks)
    (c : Nat) : (shrink h block newBlocks nBlocks).area.kind c =
      if block + newBlocks ≤ c ∧ c < block + nBlocks then .free else h.area.kind c := by
  refine (tails_to_free h.area.gcAllocTable (block + newBlocks) _ c).trans ?_
  rw [Area.kind]
  congr 1
  exact propext (by omega)

theorem shrink_resized {h : Heap} {block newBlocks : Nat} (kept : Nat → Prop)
    (wellFormed : WellFormed h.area) (head : h.area.kind block = .head) (pos : 0 < newBlocks)
    (less : newBlocks < chainBlocks h.area block) :
    Resized h block newBlocks kept (shrink h block newBlocks (chainBlocks h.area block)) block := by
  have isHead : IsHead h.area block := Or.inl head
  have shaped := wellFormed.toShaped
  have kinds := shrink_kinds h block newBlocks (chainBlocks h.area block) (Nat.le_of_lt less)
  have chain := shrunk_chain shaped isHead kinds rfl pos less
  have either : ∀ c, (shrink h block newBlocks (chainBlocks h.area block)).area.kind c = .free ∨
      (shrink h block newBlocks (chainBlocks h.area block)).area.kind c = h.area.kind c := by
    intro c
    rw [kinds]
    split
    · exact Or.inl rfl
    · exact Or.inr rfl
  have afterShaped := shrunk_shaped shaped isHead kinds rfl
  refine ⟨⟨afterShaped, fun c mark => ?_, fun c used => ?_, fun c below => ?_⟩, rfl, rfl, rfl, ?_,
    chain.2, fun k inside => ?_, fun owner apart other _ => ?_, fun c owns lost => ?_,
    fun owner apart isHead => ⟨apart, ?_⟩⟩
  · rcases either c with free | same
    · exact absurd (free.symm.trans mark) (by decide)
    · exact wellFormed.unmarked c (same.symm.trans mark)
  · rcases either c with free | same
    · exact absurd free used
    · exact wellFormed.used c (same ▸ used)
  · change c < (if (block + newBlocks) / 4 < h.area.gcLastFreeAtbIndex then (block + newBlocks) / 4
      else h.area.gcLastFreeAtbIndex) * 4 at below
    have bound : c < block + newBlocks ∧ c < h.area.gcLastFreeAtbIndex * 4 := by
      split at below
      · omega
      · omega
    rw [kinds, if_neg (by omega)]
    exact wellFormed.full c bound.2
  · rw [kinds, if_neg (by omega)]
    exact head
  · rw [if_pos (by omega)]
    rfl
  · have same : ∀ c, Owns h.area owner c → (shrink h block newBlocks _).area.kind c =
        h.area.kind c := fun c owns => shrunk_other shaped isHead kinds apart owns
    refine ⟨rfl, rfl, same owner (owns_self other), owns_stays other same fun c _ tail => ?_,
      fun _ _ => rfl⟩
    rw [kinds] at tail
    split at tail
    · exact absurd tail (by decide)
    · exact tail
  · have mine := (owns_iff shaped.gap isHead c).mp owns
    have outside := mt (owns_iff afterShaped.gap chain.1 c).mpr lost
    rw [chain.2] at outside
    rw [kinds, if_pos (by omega)]
  · rcases either owner with free | same
    · exact absurd free (owned_used (owns_self isHead))
    · rw [IsHead, same] at isHead
      exact isHead

section Growing

variable {a after : Area} {block newBlocks : Nat} (shaped : Shaped a) (isHead : IsHead a block)
  (inside : block + newBlocks ≤ a.blocks)
  (free : ∀ c, block + chainBlocks a block ≤ c → c < block + newBlocks → a.kind c = .free)
  (kinds : ∀ c, after.kind c =
    if block + chainBlocks a block ≤ c ∧ c < block + newBlocks then .tail else a.kind c)
  (len : after.gcAllocTableByteLen = a.gcAllocTableByteLen)
include free kinds

theorem grown_used {c : Nat} (used : a.kind c ≠ .free) : after.kind c = a.kind c := by
  rw [kinds, if_neg]
  exact fun added => used (free c added.1 added.2)

include shaped isHead inside len

theorem grown_shaped : Shaped after := by
  have chain : 0 < chainBlocks a block := by
    rw [chainBlocks]
    exact Nat.succ_pos _
  refine ⟨fun c outside => ?_, ?_, fun c tail => ?_⟩
  · rw [Area.blocks, len] at outside
    rw [kinds, if_neg (by rw [Area.blocks] at inside; omega)]
    exact shaped.gap c outside
  · rw [kinds, if_neg (by omega)]
    exact shaped.first
  · by_cases added : block + chainBlocks a block ≤ c + 1 ∧ c + 1 < block + newBlocks
    · by_cases first : c + 1 = block + chainBlocks a block
      · have last : Owns a block c := (owns_iff shaped.gap isHead c).mpr (by omega)
        rw [grown_used free kinds (owned_used last)]
        exact owned_used last
      · rw [kinds, if_pos (by omega)]
        decide
    · rw [kinds, if_neg added] at tail
      have used := shaped.follows c tail
      rw [grown_used free kinds used]
      exact used

theorem grown_chain (more : chainBlocks a block < newBlocks) :
    IsHead after block ∧ chainBlocks after block = newBlocks := by
  have first := grown_used free kinds (owned_used (owns_self isHead))
  have still : IsHead after block := by
    rw [IsHead, first]
    exact isHead
  have afterShaped := grown_shaped shaped isHead inside free kinds len
  refine ⟨still, chain_exact afterShaped.gap still (by omega) (fun c above below => ?_) ?_⟩
  · rcases Nat.lt_or_ge c (block + chainBlocks a block) with old | added
    · have tail := chain_tails above old
      rw [grown_used free kinds (by simp [tail]), tail]
    · rw [kinds, if_pos ⟨added, below⟩]
  · rw [kinds, if_neg (by omega)]
    intro tail
    have edge : block + newBlocks = block + newBlocks - 1 + 1 := by omega
    rw [edge] at tail
    exact shaped.follows _ tail (free _ (by omega) (by omega))

end Growing

theorem grow_kinds {h : Heap} {block newBlocks nBlocks : Nat} (ptrIn : UInt32)
    (more : nBlocks ≤ newBlocks)
    (free : ∀ c, block + nBlocks ≤ c → c < block + newBlocks → h.area.kind c = .free) (c : Nat) :
    (grow h ptrIn block newBlocks nBlocks).area.kind c =
      if block + nBlocks ≤ c ∧ c < block + newBlocks then .tail else h.area.kind c := by
  refine (free_to_tails (fun c above below => ?_) c).trans ?_
  · exact free c above (by omega)
  · rw [Area.kind]
    congr 1
    exact propext (by omega)

-- The memory after growing: the object's new blocks are zero.
theorem grow_memory {h : Heap} {block newBlocks nBlocks : Nat} (more : nBlocks ≤ newBlocks)
    (inside : block + newBlocks ≤ h.area.blocks) (a : UInt32) :
    (grow h (ptrFromBlock h.area block) block newBlocks nBlocks).memory a =
      if offset (ptrFromBlock h.area (block + nBlocks)) a < 16 * (newBlocks - nBlocks) then 0
      else h.memory a := by
  have sized := h.area.sized
  have limit := h.area.gcPoolEnd.toNat_lt
  rw [Area.blocks] at inside
  have start : ptrFromBlock h.area block + UInt32.ofNat (nBlocks * 16) =
      ptrFromBlock h.area (block + nBlocks) := by
    have here := ptr_from_block_exact (show block ≤ h.area.blocks by rw [Area.blocks]; omega)
    have next := ptr_from_block_exact
      (show block + nBlocks ≤ h.area.blocks by rw [Area.blocks]; omega)
    apply UInt32.toNat_inj.mp
    rw [address_exact _ _ (by omega)]
    omega
  have size : (UInt32.ofNat ((newBlocks - nBlocks) * 16)).toNat = 16 * (newBlocks - nBlocks) := by
    rw [UInt32.toNat_ofNat', Nat.mod_eq_of_lt (by omega)]
    omega
  change fill h.memory (ptrFromBlock h.area block + UInt32.ofNat (nBlocks * 16)) 0
    (UInt32.ofNat ((newBlocks - nBlocks) * 16)).toNat a = _
  rw [start, size, fill_exact _ _ _ _ (by omega)]

theorem ptr_shift (a : Area) (block : Nat) {n k : Nat} (here : n * 16 ≤ k) :
    ptrFromBlock a block + UInt32.ofNat k =
      ptrFromBlock a (block + n) + UInt32.ofNat (k - n * 16) := by
  have whole : ptrFromBlock a (block + n) = ptrFromBlock a block + UInt32.ofNat (n * 16) := by
    rw [ptrFromBlock, ptrFromBlock, Nat.add_mul, UInt32.ofNat_add, UInt32.add_assoc,
      UInt32.add_assoc, UInt32.add_comm (UInt32.ofNat (n * 16))]
  rw [whole, UInt32.add_assoc, ← UInt32.ofNat_add, Nat.add_sub_cancel' here]

theorem grow_resized {h : Heap} {block newBlocks : Nat} (kept : Nat → Prop)
    (wellFormed : WellFormed h.area) (head : h.area.kind block = .head)
    (more : chainBlocks h.area block < newBlocks) (inside : block + newBlocks ≤ h.area.blocks)
    (free : ∀ c, block + chainBlocks h.area block ≤ c → c < block + newBlocks →
      h.area.kind c = .free) :
    Resized h block newBlocks kept
      (grow h (ptrFromBlock h.area block) block newBlocks (chainBlocks h.area block)) block := by
  have isHead : IsHead h.area block := Or.inl head
  have shaped := wellFormed.toShaped
  have kinds := grow_kinds (ptrFromBlock h.area block) (Nat.le_of_lt more) free
  have memory := grow_memory (Nat.le_of_lt more) inside
  have used : ∀ c, h.area.kind c ≠ .free → (grow h (ptrFromBlock h.area block) block newBlocks
      (chainBlocks h.area block)).area.kind c = h.area.kind c :=
    fun c isUsed => grown_used free kinds isUsed
  have chain := grown_chain shaped isHead inside free kinds rfl more
  have room : block + chainBlocks h.area block + (newBlocks - chainBlocks h.area block) ≤
      h.area.blocks := by omega
  have afterShaped := grown_shaped shaped isHead inside free kinds rfl
  refine ⟨⟨afterShaped, fun c mark => ?_, fun c isUsed => ?_, fun c below => ?_⟩, rfl, rfl, rfl, ?_,
    chain.2, fun k bound => ?_, fun owner apart other _ => ?_, fun c owns lost => ?_,
    fun owner apart other => ⟨apart, ?_⟩⟩
  · rw [kinds] at mark
    split at mark
    · exact absurd mark (by decide)
    · exact wellFormed.unmarked c mark
  · change c ≤ max h.area.gcLastUsedBlock (block + newBlocks)
    rw [kinds] at isUsed
    split at isUsed
    · omega
    · exact Nat.le_trans (wellFormed.used c isUsed) (Nat.le_max_left _ _)
  · have isUsed := wellFormed.full c below
    rw [used c isUsed]
    exact isUsed
  · rw [used block (by simp [head])]
    exact head
  · rw [memory]
    by_cases old : k < chainBlocks h.area block * 16
    · have away := object_bytes room (by omega) old (Or.inl (Nat.le_refl _))
      rw [if_neg (Nat.not_lt.mpr away), if_pos old]
    · have sized := h.area.sized
      have limit := h.area.gcPoolEnd.toNat_lt
      rw [Area.blocks] at inside
      rw [ptr_shift _ _ (Nat.le_of_not_lt old), offset_add _ _ (by omega), if_pos (by omega),
        if_neg old]
  · have added : 0 < newBlocks - chainBlocks h.area block := Nat.sub_pos_of_lt more
    have away := apart_from_free added (fun c above below => free c above (by omega))
      shaped.gap other
    have below := chain_inside shaped.gap (owns_inside shaped.gap (owns_self other))
    refine ⟨rfl, rfl, used owner (owned_used (owns_self other)),
      owns_stays other (fun c owns => used c (owned_used owns)) fun c owns tail => ?_,
      fun k bound => ?_⟩
    · rw [kinds] at tail
      split at tail
      case isTrue range =>
        have mine : Owns h.area block c := by
          by_cases first : c + 1 = block + chainBlocks h.area block
          · have chain : 0 < chainBlocks h.area block := Nat.succ_pos _
            exact (owns_iff shaped.gap isHead c).mpr (by omega)
          · exact absurd (free c (by omega) (by omega)) (owned_used owns)
        exact absurd (owner_unique owns mine) apart
      case isFalse => exact tail
    · rw [memory, if_neg (Nat.not_lt.mpr (object_bytes room below bound away))]
  · have mine := (owns_iff shaped.gap isHead c).mp owns
    have outside := mt (owns_iff afterShaped.gap chain.1 c).mpr lost
    rw [chain.2] at outside
    omega
  · rw [IsHead, kinds] at other
    split at other
    · exact absurd other (by decide)
    · exact other

/-- The heap a run was taken from: as it was, or collected. -/
structure Base (h base : Heap) (kept : Nat → Prop) : Prop where
  wellFormed : WellFormed base.area
  pool : base.area.gcPoolStart = h.area.gcPoolStart
  len : base.area.gcAllocTableByteLen = h.area.gcAllocTableByteLen
  unlocked : base.gcLockDepth = h.gcLockDepth
  untouched : ∀ owner, IsHead h.area owner → kept owner → Untouched h base owner
  heads : ∀ owner, IsHead base.area owner → IsHead h.area owner

theorem base_same {h : Heap} (kept : Nat → Prop) (wellFormed : WellFormed h.area) : Base h h kept :=
  ⟨wellFormed, rfl, rfl, rfl, fun owner _ _ => untouched_refl h owner, fun _ isHead => isHead⟩

theorem base_collected {h : Heap} (r : Roots) (sp : UInt32) (wellFormed : WellFormed h.area) :
    Base h (gcCollect h r sp) (Live h r sp) := by
  have collected := collected h r sp wellFormed
  have frame := collected.frame
  refine ⟨collected.wellFormed, ?_, collected.released.len, ?_, fun owner isHead live =>
    collect_untouched collected wellFormed.toShaped isHead live, fun owner isHead => ?_⟩
  · rw [frame]
  · rw [frame]
  · have owns := released_owns collected.released wellFormed.toShaped owner owner
    exact (owns.mp (owns_self isHead)).1.isHead

/-- No run of `n` blocks, and a collection, where it may start one, makes none. -/
inductive Exhausted (h : Heap) (r : Roots) (sp : UInt32) (n : Nat) : Heap → Prop where
  | uncollected (disabled : h.gcAutoCollectEnabled = false)
      (noRun : NoRun (IsFree h.area) 0 n h.area.blocks) : Exhausted h r sp n h
  | collected (enabled : h.gcAutoCollectEnabled = true)
      (noRun : NoRun (IsFree h.area) 0 n h.area.blocks)
      (still : NoRun (IsFree (gcCollect h r sp).area) 0 n (gcCollect h r sp).area.blocks) :
      Exhausted h r sp n (gcCollect h r sp)

-- What a caller sees of `gc_alloc`: `NULL`, or a new object.
theorem alloc_cases {h : Heap} (r : Roots) (sp : UInt32) {nBytes : UInt32}
    (wellFormed : WellFormed h.area) (pos : 0 < blocksFor nBytes) (unlocked : h.gcLockDepth = 0) :
    (∃ base, Base h base (Live h r sp) ∧ Exhausted h r sp (blocksFor nBytes) base ∧
      gcAlloc h r sp nBytes = (base, 0)) ∨
      ∃ base after start, Base h base (Live h r sp) ∧
        Granted base (blocksFor nBytes) start after ∧
        gcAlloc h r sp nBytes = (after, ptrFromBlock base.area start) := by
  have same := base_same (Live h r sp) wellFormed
  have collection := base_collected r sp wellFormed
  have outcome := alloc_outcome r sp wellFormed pos unlocked
  generalize gcAlloc h r sp nBytes = result at outcome
  cases outcome with
  | direct start after granted => exact Or.inr ⟨h, after, start, same, granted, rfl⟩
  | collected start after _ _ granted => exact Or.inr ⟨_, after, start, collection, granted, rfl⟩
  | refused disabled noRun => exact Or.inl ⟨h, same, .uncollected disabled noRun, rfl⟩
  | exhausted enabled noRun still =>
      exact Or.inl ⟨_, collection, .collected enabled noRun still, rfl⟩

theorem granted_object {h after : Heap} {n start : Nat} (granted : Granted h n start after)
    (pos : 0 < n) (shaped : Shaped h.area) :
    after.area.kind start = .head ∧ chainBlocks after.area start = n := by
  have head : after.area.kind start = .head := by
    rw [granted.kinds, takenKind, if_pos rfl]
  have wellFormed := granted.wellFormed
  refine ⟨head, chain_exact wellFormed.gap (Or.inl head) pos (fun c above below => ?_) ?_⟩
  · rw [granted.kinds, takenKind, if_neg (by omega), if_pos ⟨above, below⟩]
  · intro tail
    have edge : start + n = start + n - 1 + 1 := by omega
    have free := granted.first.run (start + n - 1) (by omega) (by omega)
    rw [granted.kinds, takenKind, if_neg (by omega), if_neg (by omega), edge] at tail
    exact shaped.follows _ tail free

/-- `memcpy` of the old object into the new run. -/
def copyInto (h : Heap) (dest src : UInt32) (nBlocks : Nat) : Heap :=
  { h with memory := (memcpy h.memory dest src (UInt32.ofNat (nBlocks * 16))).memory }

theorem objects_apart {a : Area} {first second : Nat}
    (gap : ∀ block, a.blocks ≤ block → a.kind block = .free) (isHead : IsHead a first)
    (other : IsHead a second) (apart : first ≠ second) :
    first + chainBlocks a first ≤ second ∨ second + chainBlocks a second ≤ first := by
  by_contra meet
  rcases Nat.lt_or_gt_of_ne apart with before | after
  · have inside := (owns_iff gap isHead second).mpr (by omega)
    exact apart (owner_self inside other)
  · have inside := (owns_iff gap other first).mpr (by omega)
    exact apart (owner_self inside isHead).symm

section Moving

variable {h : Heap} {block start : Nat} (wellFormed : WellFormed h.area)
  (head : h.area.kind block = .head) (newHead : h.area.kind start = .head)
  (apart : block ≠ start) (fits : chainBlocks h.area block ≤ chainBlocks h.area start)
include wellFormed head newHead apart fits

theorem copy_memory (a : UInt32) : (copyInto h (ptrFromBlock h.area start)
    (ptrFromBlock h.area block) (chainBlocks h.area block)).memory a =
      copied h.memory (ptrFromBlock h.area start) (ptrFromBlock h.area block)
        (chainBlocks h.area block * 16) a := by
  have sized := h.area.sized
  have limit := h.area.gcPoolEnd.toNat_lt
  have here := chain_inside wellFormed.gap (owns_inside wellFormed.gap (owns_self (Or.inl head)))
  have there :=
    chain_inside wellFormed.gap (owns_inside wellFormed.gap (owns_self (Or.inl newHead)))
  have first := ptr_from_block_exact (show block ≤ h.area.blocks by omega)
  have second := ptr_from_block_exact (show start ≤ h.area.blocks by omega)
  rw [Area.blocks] at here there
  have size : (UInt32.ofNat (chainBlocks h.area block * 16)).toNat =
      chainBlocks h.area block * 16 := by
    rw [UInt32.toNat_ofNat', Nat.mod_eq_of_lt (by omega)]
  have disjoint := objects_apart wellFormed.gap (Or.inl head) (Or.inl newHead) apart
  have ahead : offset (ptrFromBlock h.area start) (ptrFromBlock h.area block) +
      chainBlocks h.area block * 16 ≤ 2 ^ 32 := by
    simp only [offset, UInt32.toNat_sub]
    omega
  change copyUp h.memory _ _ (UInt32.ofNat (chainBlocks h.area block * 16)).toNat a = _
  rw [size, copy_up_copies _ ahead]

theorem copy_untouched {owner : Nat} (isHead : IsHead h.area owner) (other : owner ≠ start) :
    Untouched h (copyInto h (ptrFromBlock h.area start) (ptrFromBlock h.area block)
      (chainBlocks h.area block)) owner := by
  refine ⟨rfl, rfl, rfl, fun _ => Iff.rfl, fun k inside => ?_⟩
  have mine := chain_inside wellFormed.gap (owns_inside wellFormed.gap (owns_self isHead))
  have there :=
    chain_inside wellFormed.gap (owns_inside wellFormed.gap (owns_self (Or.inl newHead)))
  have away := object_bytes there mine inside
    (objects_apart wellFormed.gap isHead (Or.inl newHead) other)
  rw [copy_memory wellFormed head newHead apart fits, copied_outside _ _ (by omega)]

end Moving

section Granting

variable {h base mid : Heap} {start newBlocks : Nat} {kept : Nat → Prop}
  (found : Base h base kept) (granted : Granted base newBlocks start mid)
include found granted

theorem granted_keeps (shaped : Shaped h.area) (pos : 0 < newBlocks) {owner : Nat}
    (isHead : IsHead h.area owner) (isKept : kept owner) :
    Untouched h mid owner ∧ owner ≠ start ∧ IsHead mid.area owner := by
  have baseShaped := found.wellFormed.toShaped
  have toBase := found.untouched owner isHead isKept
  have inBase : IsHead base.area owner := ((toBase.owns owner).mpr (owns_self isHead)).isHead
  have next := granted_untouched granted pos baseShaped inBase
  refine ⟨untouched_trans toBase next shaped baseShaped isHead, ?_,
    ((next.owns owner).mpr (owns_self inBase)).isHead⟩
  rintro rfl
  exact owned_used (owns_self inBase) (granted.first.run owner (Nat.le_refl _) (by omega))

-- The granted run was zero, and the copy covers its first blocks.
theorem copied_bytes {block k : Nat} (sameBlock : Untouched h mid block)
    (more : chainBlocks h.area block < newBlocks) (bound : k < newBlocks * 16) :
    copied mid.memory (ptrFromBlock h.area start) (ptrFromBlock h.area block)
        (chainBlocks h.area block * 16) (ptrFromBlock h.area start + UInt32.ofNat k) =
      if k < chainBlocks h.area block * 16 then
        h.memory (ptrFromBlock h.area block + UInt32.ofNat k)
      else 0 := by
  have sized := base.area.sized
  have limit := base.area.gcPoolEnd.toNat_lt
  have inside := granted.inside
  rw [Area.blocks] at inside
  by_cases old : k < chainBlocks h.area block * 16
  · rw [copied_inside _ _ _ (by omega) old, if_pos old]
    exact sameBlock.bytes k old
  · rw [copied_outside _ _ (by rw [offset_add _ _ (by omega)]; omega), if_neg old, granted.memory,
      same_ptr found.pool, offset_add _ _ (by omega), if_pos (by omega)]

end Granting

-- From the heap a run was granted in: the copy, and the old object freed.
theorem moved_resized {h base mid : Heap} {block start newBlocks : Nat} {kept : Nat → Prop}
    (shaped : Shaped h.area) (found : Base h base kept) (granted : Granted base newBlocks start mid)
    (head : h.area.kind block = .head) (isKept : kept block)
    (more : chainBlocks h.area block < newBlocks) :
    mid.area.kind block = .head ∧ Resized h block newBlocks kept
      (freeBlock (copyInto mid (ptrFromBlock h.area start) (ptrFromBlock h.area block)
        (chainBlocks h.area block)) block) start := by
  have pos : 0 < newBlocks := Nat.zero_lt_of_lt more
  have isHead : IsHead h.area block := Or.inl head
  have midFormed := granted.wellFormed
  rcases granted_keeps found granted shaped pos isHead isKept with ⟨sameBlock, apart, _⟩
  have midHead : mid.area.kind block = .head := sameBlock.kind.trans head
  rcases granted_object granted pos found.wellFormed.toShaped with ⟨newHead, newChain⟩
  have chain := untouched_chain sameBlock shaped midFormed.toShaped isHead
  have fits : chainBlocks mid.area block ≤ chainBlocks mid.area start := by omega
  have pool := sameBlock.pool
  have memory := copy_memory midFormed midHead newHead apart fits
  have others : ∀ owner, IsHead mid.area owner → owner ≠ start → Untouched mid _ owner :=
    fun owner inMid other => copy_untouched midFormed midHead newHead apart fits inMid other
  simp only [same_ptr pool, chain] at memory others
  have sameArea : (copyInto mid (ptrFromBlock h.area start) (ptrFromBlock h.area block)
    (chainBlocks h.area block)).area = mid.area := rfl
  have sameLock : (copyInto mid (ptrFromBlock h.area start) (ptrFromBlock h.area block)
    (chainBlocks h.area block)).gcLockDepth = mid.gcLockDepth := rfl
  generalize copyInto mid (ptrFromBlock h.area start) (ptrFromBlock h.area block)
    (chainBlocks h.area block) = now at memory others sameArea sameLock ⊢
  have nowFormed : WellFormed now.area := sameArea ▸ midFormed
  have nowHead : now.area.kind block = .head := sameArea ▸ midHead
  have startHead : now.area.kind start = .head := sameArea ▸ newHead
  have freed := free_well_formed nowFormed nowHead
  have atStart := free_untouched nowFormed.toShaped nowHead (Or.inl startHead) apart.symm
  have newLen : chainBlocks now.area start = newBlocks := sameArea ▸ newChain
  have released := free_releases nowFormed.toShaped nowHead
  refine ⟨midHead, freed, ?_, ?_, ?_, atStart.kind.trans startHead, ?_, fun k bound => ?_,
    fun owner other isHead isKept => ?_, fun c owns _ => ?_, fun owner away isHead => ?_⟩
  · change now.area.gcPoolStart = _
    rw [sameArea]
    exact pool
  · change now.area.gcAllocTableByteLen = _
    rw [sameArea]
    exact sameBlock.len
  · have frame := granted.frame
    change now.gcLockDepth = _
    rw [sameLock, frame]
    exact found.unlocked
  · rw [untouched_chain atStart nowFormed.toShaped freed.toShaped (Or.inl startHead), newLen]
  · change now.memory _ = _
    rw [memory]
    exact copied_bytes found granted sameBlock more bound
  · rcases granted_keeps found granted shaped pos isHead isKept with ⟨sameOwner, away, inMid⟩
    have toNow :=
      untouched_trans sameOwner (others owner inMid away) shaped midFormed.toShaped isHead
    have inNow : IsHead now.area owner := sameArea ▸ inMid
    exact untouched_trans toNow (free_untouched nowFormed.toShaped nowHead inNow other) shaped
      nowFormed.toShaped isHead
  · exact released.freed block c (sameArea ▸ (sameBlock.owns c).mpr owns) rfl
  · rcases (released_owns released nowFormed.toShaped owner owner).mp (owns_self isHead) with
      ⟨still, other⟩
    have inMid : IsHead mid.area owner := sameArea ▸ still.isHead
    rw [IsHead, granted.kinds, takenKind, if_neg away] at inMid
    split at inMid
    · exact absurd inMid (by decide)
    · exact ⟨other, found.heads owner inMid⟩

theorem relocate_cases {h : Heap} {block : Nat} (r : Roots) (sp : UInt32) {nBytes : UInt32}
    (wellFormed : WellFormed h.area) (unlocked : h.gcLockDepth = 0)
    (head : h.area.kind block = .head) (live : Live h r sp block)
    (more : chainBlocks h.area block < blocksFor nBytes) :
    ∃ after out, relocate h r sp (ptrFromBlock h.area block) nBytes (chainBlocks h.area block) =
        some (after, out) ∧
      (out = 0 ∧ Base h after (Live h r sp) ∧ Exhausted h r sp (blocksFor nBytes) after ∨
        ∃ target mid, out = ptrFromBlock h.area target ∧
          Allocation h r sp (blocksFor nBytes) (mid, out) ∧
          Resized h block (blocksFor nBytes) (Live h r sp) after target) := by
  have pos := Nat.zero_lt_of_lt more
  have allocation := alloc_outcome r sp wellFormed pos unlocked
  rcases alloc_cases r sp wellFormed pos unlocked with
    ⟨base, found, exhausted, result⟩ | ⟨base, mid, start, found, granted, result⟩
  · refine ⟨base, 0, ?_, Or.inl ⟨rfl, found, exhausted⟩⟩
    simp only [relocate, result, if_true]
  · rcases moved_resized wellFormed.toShaped found granted head live more with ⟨midHead, resized⟩
    have inside := granted.inside
    have frame := granted.frame
    have unlockedMid : mid.gcLockDepth = 0 := by
      rw [frame]
      exact found.unlocked.trans unlocked
    have pool : mid.area.gcPoolStart = h.area.gcPoolStart := by
      rw [frame]
      exact found.pool
    have nonnull := ptr_nonnull (show start ≤ base.area.blocks by omega)
    have freed : gcFree (copyInto mid (ptrFromBlock h.area start) (ptrFromBlock h.area block)
        (chainBlocks h.area block)) (ptrFromBlock mid.area block) = some (freeBlock (copyInto mid
          (ptrFromBlock h.area start) (ptrFromBlock h.area block) (chainBlocks h.area block))
          block) := free_object granted.wellFormed.toShaped unlockedMid midHead
    rw [result, same_ptr found.pool] at allocation
    refine ⟨_, _, ?_, Or.inr ⟨start, mid, rfl, allocation, resized⟩⟩
    rw [same_ptr found.pool] at result nonnull
    rw [same_ptr pool] at freed
    simp only [relocate, result, if_neg nonnull]
    change Option.map _ (gcFree (copyInto mid _ _ _) _) = _
    rw [freed]
    rfl

theorem same_resized {h : Heap} {block : Nat} (kept : Nat → Prop) (wellFormed : WellFormed h.area)
    (head : h.area.kind block = .head) :
    Resized h block (chainBlocks h.area block) kept h block :=
  ⟨wellFormed, rfl, rfl, rfl, head, rfl, fun _ bound => (if_pos bound).symm,
    fun owner _ _ _ => untouched_refl h owner, fun _ owns lost => absurd owns lost,
    fun _ apart isHead => ⟨apart, isHead⟩⟩

/-- The object of `block` can have `n` blocks where it is. -/
def FitsInPlace (a : Area) (block n : Nat) : Prop :=
  ∀ c, block + chainBlocks a block ≤ c → c < block + n → c < a.blocks ∧ a.kind c = .free

/-- What `gc_realloc` does with an object asked to have `n` blocks: it stays where it
is if it can; else it moves to the run that `gc_alloc` finds, if it may and there is
one; else nothing but the collection has happened. -/
inductive Reallocation (h : Heap) (r : Roots) (sp : UInt32) (block n : Nat) (allowMove : Bool) :
    Heap × UInt32 → Prop where
  | inPlace (after : Heap) (room : FitsInPlace h.area block n)
      (resized : Resized h block n (fun _ => True) after block) :
      Reallocation h r sp block n allowMove (after, ptrFromBlock h.area block)
  | fixed (short : ¬ FitsInPlace h.area block n) (stays : allowMove = false) :
      Reallocation h r sp block n allowMove (h, 0)
  | noRun (after : Heap) (short : ¬ FitsInPlace h.area block n) (moves : allowMove = true)
      (exhausted : Exhausted h r sp n after) : Reallocation h r sp block n allowMove (after, 0)
  | moved (after mid : Heap) (target : Nat) (short : ¬ FitsInPlace h.area block n)
      (moves : allowMove = true)
      (allocation : Allocation h r sp n (mid, ptrFromBlock h.area target))
      (resized : Resized h block n (Live h r sp) after target) :
      Reallocation h r sp block n allowMove (after, ptrFromBlock h.area target)

theorem fits_iff {a : Area} {block n nBlocks nFree : Nat}
    (counted : Counted a block n nBlocks nFree) :
    FitsInPlace a block n ↔ n ≤ nBlocks + nFree := by
  have chain := counted.chain
  have inside := counted.inside
  constructor
  · intro room
    by_contra short
    have next := room (block + nBlocks + nFree) (by omega) (by omega)
    rcases counted.most (by omega) with edge | used
    · omega
    · exact used next.2
  · intro enough c above below
    exact ⟨by omega, counted.free c (by omega) (by omega)⟩

theorem realloc_cases {h : Heap} {block : Nat} (r : Roots) (sp : UInt32) {nBytes : UInt32}
    (allowMove : Bool) (wellFormed : WellFormed h.area) (unlocked : h.gcLockDepth = 0)
    (head : h.area.kind block = .head) (live : Live h r sp block) (positive : 0 < nBytes.toNat)
    (fits : nBytes.toNat + 15 < 2 ^ 32) :
    ∃ after out, gcRealloc h r sp (ptrFromBlock h.area block) nBytes allowMove =
        some (after, out) ∧
      Reallocation h r sp block ((nBytes.toNat + 15) / 16) allowMove (after, out) ∧
      (out = 0 ∧ Base h after (Live h r sp) ∨ ∃ target, out = ptrFromBlock h.area target ∧
        Resized h block ((nBytes.toNat + 15) / 16) (Live h r sp) after target) := by
  have isHead : IsHead h.area block := Or.inl head
  have shaped := wellFormed.toShaped
  have inside := owns_inside shaped.gap (owns_self isHead)
  have nonnull := ptr_nonnull (Nat.le_of_lt inside)
  have nonzero : nBytes ≠ 0 := by
    rintro rfl
    exact absurd positive (by decide)
  rcases object_here shaped head with ⟨object, same⟩
  have rounded : ((nBytes + 15) / 16).toNat = (nBytes.toNat + 15) / 16 := by
    rw [UInt32.toNat_div, UInt32.toNat_add]
    change (nBytes.toNat + 15) % 2 ^ 32 / 16 = _
    rw [Nat.mod_eq_of_lt fits]
  have counted := count_blocks_exact ((nBytes.toNat + 15) / 16) (h.area.blocks - (block + 1)) 1 0
    shaped (by omega) isHead Nat.one_pos (fun c above below => by omega)
    (fun c above below => by omega)
  rw [Nat.add_zero] at counted
  simp only [gcRealloc, if_neg nonnull, if_neg nonzero, unlocked, Nat.lt_irrefl, if_false, object,
    if_true, same, rounded]
  generalize countBlocks h.area ((nBytes.toNat + 15) / 16) (h.area.blocks - (block + 1)) (block + 1)
    1 0 = result at counted ⊢
  rcases result with ⟨nBlocks, nFree⟩
  obtain rfl : nBlocks = chainBlocks h.area block := counted.chain
  have free := counted.free
  have room := counted.inside
  have place := fits_iff counted
  have staying {after : Heap}
      (here : FitsInPlace h.area block ((nBytes.toNat + 15) / 16)) (resized : ∀ kept,
        Resized h block ((nBytes.toNat + 15) / 16) kept after block) :
      Reallocation h r sp block ((nBytes.toNat + 15) / 16) allowMove
          (after, ptrFromBlock h.area block) ∧
        (ptrFromBlock h.area block = 0 ∧ Base h after (Live h r sp) ∨
          ∃ target, ptrFromBlock h.area block = ptrFromBlock h.area target ∧
            Resized h block ((nBytes.toNat + 15) / 16) (Live h r sp) after target) :=
    ⟨.inPlace after here (resized _), Or.inr ⟨block, rfl, resized _⟩⟩
  dsimp only at free room place ⊢
  split
  case isTrue equal =>
    refine ⟨h, _, rfl, staying (place.mpr (by omega)) fun kept => ?_⟩
    rw [equal]
    exact same_resized kept wellFormed head
  case isFalse unequal =>
    split
    case isTrue less =>
      exact ⟨_, _, rfl, staying (place.mpr (by omega)) fun kept =>
        shrink_resized kept wellFormed head (by omega) less⟩
    case isFalse notLess =>
      have more : chainBlocks h.area block < (nBytes.toNat + 15) / 16 := by omega
      split
      case isTrue enough =>
        exact ⟨_, _, rfl, staying (place.mpr enough) fun kept =>
          grow_resized kept wellFormed head more (by omega) fun c above below =>
            free c above (by omega)⟩
      case isFalse notEnough =>
        have short := mt place.mp notEnough
        cases allowMove with
        | false => exact ⟨h, 0, rfl, .fixed short rfl, Or.inl ⟨rfl, base_same _ wellFormed⟩⟩
        | true =>
            rcases relocate_cases r sp wellFormed unlocked head live (blocks_for_exact fits ▸ more)
              with ⟨after, out, moved,
                ⟨rfl, base, exhausted⟩ | ⟨target, mid, rfl, allocation, resized⟩⟩
            · rw [blocks_for_exact fits] at exhausted
              exact ⟨after, 0, moved, .noRun after short rfl exhausted, Or.inl ⟨rfl, base⟩⟩
            · rw [blocks_for_exact fits] at allocation resized
              exact ⟨after, _, moved, .moved after mid target short rfl allocation resized,
                Or.inr ⟨target, rfl, resized⟩⟩

/-- `gc_realloc` of an object the roots hold: it is resized where it is, or moved, or
refused, as `Reallocation` says. The object it returns has the size asked for, begins
with the old bytes and is zero after them; on `NULL` the old one is as it was. Every
other object the roots hold is as it was in any case. -/
theorem realloc_exact (h : Heap) (r : Roots) (sp nBytes : UInt32) (allowMove : Bool) (block : Nat)
    (wellFormed : WellFormed h.area) (unlocked : h.gcLockDepth = 0)
    (head : h.area.kind block = .head) (live : Live h r sp block) (positive : 0 < nBytes.toNat)
    (fits : nBytes.toNat + 15 < 2 ^ 32) :
    ∃ after out, gcRealloc h r sp (ptrFromBlock h.area block) nBytes allowMove =
        some (after, out) ∧
      Reallocation h r sp block ((nBytes.toNat + 15) / 16) allowMove (after, out) ∧
      WellFormed after.area ∧
      (∀ owner, owner ≠ block → IsHead h.area owner → Live h r sp owner →
        Untouched h after owner) ∧
      (out = 0 ∧ Untouched h after block ∨
        gcNbytes after out = (nBytes.toNat + 15) / 16 * 16 ∧
        ∀ k < gcNbytes after out, after.memory (out + UInt32.ofNat k) =
          if k < gcNbytes h (ptrFromBlock h.area block) then
            h.memory (ptrFromBlock h.area block + UInt32.ofNat k)
          else 0) := by
  rcases realloc_cases r sp allowMove wellFormed unlocked head live positive fits with
    ⟨after, out, result, outcome, ⟨null, base⟩ | ⟨target, rfl, resized⟩⟩
  · exact ⟨after, out, result, outcome, base.wellFormed, fun owner _ isHead live =>
      base.untouched owner isHead live, Or.inl ⟨null, base.untouched block (Or.inl head) live⟩⟩
  · have size := nbytes_exact resized.wellFormed.toShaped resized.head
    rw [same_ptr resized.pool, resized.chain] at size
    refine ⟨after, _, result, outcome, resized.wellFormed, resized.others, Or.inr ⟨size, ?_⟩⟩
    rw [size, nbytes_exact wellFormed.toShaped head]
    exact resized.bytes

/-- Eight blocks' room: an object of one block that a word on the stack points at, a
free block behind it, and another object. -/
def gappedHeap : Heap :=
  { twoObjects with
    area := { gcSetupArea 0x700000 0x700090 (by decide) (by decide) with
      gcAllocTable := fun i => if i = 0 then 0x11 else 0
      gcLastUsedBlock := 2 }
    memory := Function.update twoObjects.memory 0x700010 0x41 }

theorem gapped_heap_kinds (block : Nat) :
    gappedHeap.area.kind block = if block = 0 ∨ block = 2 then .head else .free := by
  rcases block with _ | _ | _ | _ | block
  · rfl
  · rfl
  · rfl
  · rfl
  · have byte : (block + 4) / 4 ≠ 0 := by omega
    have empty : gappedHeap.area.gcAllocTable ((block + 4) / 4) = 0 := if_neg byte
    rw [Area.kind, atbGetKind, PackedTable.field, empty, UInt8.zero_shiftRight, if_neg (by omega)]
    rfl

theorem gapped_heap_well_formed : WellFormed gappedHeap.area := by
  have tailless : ∀ block, gappedHeap.area.kind block ≠ .tail ∧
      gappedHeap.area.kind block ≠ .mark := by
    intro block
    rw [gapped_heap_kinds]
    split
    · decide
    · decide
  refine ⟨⟨fun block outside => ?_, by decide, fun block tail => ?_⟩, fun block =>
    (tailless block).2, fun block used => ?_, fun block below =>
      absurd below (Nat.not_lt_zero block)⟩
  · have far : 8 ≤ block := outside
    rw [gapped_heap_kinds, if_neg (by omega)]
  · exact absurd tail (tailless _).1
  · change block ≤ 2
    by_contra beyond
    apply used
    rw [gapped_heap_kinds, if_neg (by omega)]

theorem gapped_heap_live : Live gappedHeap oneRoot 0x90000 0 :=
  reachable_root (Or.inr ⟨⟨0, by decide, by decide, by decide⟩, Or.inl (by decide)⟩)

/-- Two blocks there is room for behind the object; for three it moves. -/
theorem grown_and_moved :
    (∃ after, gcRealloc gappedHeap oneRoot 0x90000 0x700010 32 true = some (after, 0x700010) ∧
      Reallocation gappedHeap oneRoot 0x90000 0 2 true (after, 0x700010) ∧
      gcNbytes after 0x700010 = 32) ∧
    ∃ after, gcRealloc gappedHeap oneRoot 0x90000 0x700010 48 true = some (after, 0x700040) ∧
      Reallocation gappedHeap oneRoot 0x90000 0 3 true (after, 0x700040) ∧
      gcNbytes after 0x700040 = 48 := by
  have inPlace : (gcRealloc gappedHeap oneRoot 0x90000 0x700010 32 true).map Prod.snd =
      some 0x700010 := by decide +kernel
  have elsewhere : (gcRealloc gappedHeap oneRoot 0x90000 0x700010 48 true).map Prod.snd =
      some 0x700040 := by decide +kernel
  constructor
  · rcases realloc_exact gappedHeap oneRoot 0x90000 32 true 0 gapped_heap_well_formed rfl
      (by decide) gapped_heap_live (by decide) (by decide) with
      ⟨after, out, result, outcome, _, _, held⟩
    obtain rfl : out = 0x700010 :=
      Option.some.inj ((congrArg (Option.map Prod.snd) result).symm.trans inPlace)
    exact ⟨after, result, outcome, (held.resolve_left fun null => absurd null.1 (by decide)).1⟩
  · rcases realloc_exact gappedHeap oneRoot 0x90000 48 true 0 gapped_heap_well_formed rfl
      (by decide) gapped_heap_live (by decide) (by decide) with
      ⟨after, out, result, outcome, _, _, held⟩
    obtain rfl : out = 0x700040 :=
      Option.some.inj ((congrArg (Option.map Prod.snd) result).symm.trans elsewhere)
    exact ⟨after, result, outcome, (held.resolve_left fun null => absurd null.1 (by decide)).1⟩

end NexusOS.GcRealloc
