import NexusOS.GcRuns

/-!
What stays reachable while the C stack grows: a caller's frame leads to the same
objects from every stack pointer below it, and goes on leading to them in a heap
that has left them, the frame and `mp_state_ctx` alone.
-/

namespace NexusOS.LiveFrames

open ByteMemory BlockCopy MemoryMove Marking GcHeap GcMark GcCollect GcFree GcRuns
open MemoryAreas (load_keeps)

/-- `sp` is a number of words below `frame`. -/
def Deeper (sp frame : UInt32) : Prop := ∃ words, sp.toNat + 4 * words = frame.toNat

section Stack
variable {h : Heap} {r : Roots} {sp frame : UInt32}

theorem stack_words (below : sp ≤ r.stackTop) :
    stackWords r sp = (r.stackTop.toNat - sp.toNat) / 4 := by
  rw [stackWords]
  split
  case isTrue less =>
    rw [UInt32.toNat_div, UInt32.toNat_sub_of_le _ _ below]
    rfl
  case isFalse more =>
    have same : r.stackTop.toNat ≤ sp.toNat := UInt32.le_iff_toNat_le.mp (UInt32.not_lt.mp more)
    rw [Nat.sub_eq_zero_of_le same]

theorem word_deeper (h : Heap) {words : Nat} (deeper : sp.toNat + 4 * words = frame.toNat)
    (i : Nat) : wordAt h sp (words + i) = wordAt h frame i := by
  have place : sp + UInt32.ofNat (4 * words) = frame := by
    have limit := frame.toNat_lt
    exact UInt32.toNat_inj.mp ((address_exact sp _ (by omega)).trans deeper)
  rw [wordAt, wordAt, Nat.mul_add, UInt32.ofNat_add, ← UInt32.add_assoc, place]

theorem live_deeper (deeper : Deeper sp frame) (top : frame ≤ r.stackTop) {owner : Nat}
    (live : Live h r frame owner) : Live h r sp owner := by
  rcases deeper with ⟨words, deeper⟩
  have high := UInt32.le_iff_toNat_le.mp top
  have low : sp ≤ r.stackTop := UInt32.le_iff_toNat_le.mpr (by omega)
  refine reachable_within (fun node root => ?_) (fun _ _ _ edge => edge) live
  rcases root with state | ⟨⟨i, within, refers⟩, isHead⟩
  · exact Or.inl state
  · refine Or.inr ⟨⟨words + i, ?_, ?_⟩, isHead⟩
    · rw [stack_words top] at within
      rw [stack_words low]
      omega
    · rwa [word_deeper h deeper]

end Stack

section Stays
variable {h next : Heap} {owner : Nat}

theorem object_byte (shaped : Shaped h.area) (isHead : IsHead h.area owner) {k : Nat}
    (inside : k < chainBlocks h.area owner * 16) :
    h.area.gcPoolStart.toNat ≤ (ptrFromBlock h.area owner + UInt32.ofNat k).toNat ∧
      (ptrFromBlock h.area owner + UInt32.ofNat k).toNat < h.area.gcPoolEnd.toNat := by
  have chain := chain_inside shaped.gap (owns_inside shaped.gap (owns_self isHead))
  have sized := h.area.sized
  have limit := h.area.gcPoolEnd.toNat_lt
  have place := ptr_from_block_exact (show owner ≤ h.area.blocks by omega)
  rw [Area.blocks] at chain
  rw [address_exact _ _ (by omega), place]
  omega

-- Writing outside the pool touches no object.
theorem outside_untouched (m : Memory) (shaped : Shaped h.area) (isHead : IsHead h.area owner)
    (same : ∀ a, h.area.gcPoolStart.toNat ≤ a.toNat → a.toNat < h.area.gcPoolEnd.toNat →
      m a = h.memory a) : Untouched h { h with memory := m } owner := by
  refine ⟨rfl, rfl, rfl, fun _ => Iff.rfl, fun k inside => ?_⟩
  rcases object_byte shaped isHead inside with ⟨above, below⟩
  exact same _ above below

theorem untouched_refers (untouched : Untouched h next owner) (ptr : UInt32) (block : Nat) :
    Refers next.area ptr block ↔ Refers h.area ptr block := by
  rw [refers_iff, refers_iff, same_ptr untouched.pool, Area.blocks, Area.blocks, untouched.len]

theorem untouched_head (untouched : Untouched h next owner) (isHead : IsHead h.area owner) :
    IsHead next.area owner := ((untouched.owns owner).mpr (owns_self isHead)).isHead

theorem untouched_edge (shaped : Shaped h.area) (nextShaped : Shaped next.area) {child : Nat}
    (isHead : IsHead h.area owner) (source : Untouched h next owner)
    (target : Untouched h next child) (edge : Edge h owner child) : Edge next owner child := by
  rcases edge with ⟨⟨i, within, refers⟩, childHead⟩
  refine ⟨⟨i, ?_, ?_⟩, untouched_head target childHead⟩
  · rwa [untouched_chain source shaped nextShaped isHead]
  · have word : wordAt next (ptrFromBlock next.area owner) i =
        wordAt h (ptrFromBlock h.area owner) i := by
      rw [wordAt, wordAt, same_ptr source.pool]
      refine load_keeps fun a inside => ?_
      have byte : a = ptrFromBlock h.area owner + UInt32.ofNat (4 * i +
          offset (ptrFromBlock h.area owner + UInt32.ofNat (4 * i)) a) := by
        rw [UInt32.ofNat_add, ← UInt32.add_assoc, add_offset]
      rw [byte]
      refine source.bytes _ ?_
      rw [MemoryAreas.Inside] at inside
      simp only at inside
      omega
    rw [word]
    exact (untouched_refers source _ child).mpr refers

/-- Objects a frame leads to are led to as long as they and the words are left alone. -/
theorem live_stays {r : Roots} {frame : UInt32} (shaped : Shaped h.area)
    (nextShaped : Shaped next.area)
    (state : ∀ i < r.stateLen, wordAt next r.stateStart i = wordAt h r.stateStart i)
    (stack : ∀ i < stackWords r frame, wordAt next frame i = wordAt h frame i)
    (untouched : ∀ owner, IsHead h.area owner → Live h r frame owner → Untouched h next owner)
    (live : Live h r frame owner) : Live next r frame owner := by
  have root {ptrs : UInt32} {len node : Nat}
      (same : ∀ i < len, wordAt next ptrs i = wordAt h ptrs i) (rooted : RootIn h ptrs len node)
      (kept : Untouched h next node) : RootIn next ptrs len node := by
    rcases rooted with ⟨⟨i, within, refers⟩, isHead⟩
    refine ⟨⟨i, within, ?_⟩, untouched_head kept isHead⟩
    rw [same i within]
    exact (untouched_refers kept _ node).mpr refers
  refine reachable_within (fun node rooted => ?_) (fun node child reached edge => ?_) live
  · have reached : Live h r frame node := reachable_root rooted
    have kept := untouched node (live_head reached) reached
    exact rooted.imp (fun here => root state here kept) fun here => root stack here kept
  · have head := live_head reached
    have onward : Live h r frame child := reachable_next reached edge
    exact untouched_edge shaped nextShaped head (untouched node head reached)
      (untouched child (live_head onward) onward) edge

end Stays

end NexusOS.LiveFrames
