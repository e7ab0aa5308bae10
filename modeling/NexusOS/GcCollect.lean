import NexusOS.GcMark

/-!
`gc_sweep`, and a whole collection as `kernel/python/nexus_hal.c` runs it:
`gc_collect_start` on the roots in `mp_state_ctx`, `gc_collect_root` on the C
stack, `gc_collect_end`. A collection frees exactly the chains whose heads no
root leads to.
-/

namespace NexusOS.GcCollect

open CountedLoop GcHeap GcMark Marking

structure Sweep where
  area : Area
  freeTail : Bool
  lastUsedBlock : Nat

def Area.setTable (a : Area) (t : AllocTable) : Area := { a with gcAllocTable := t }

def sweepBlock (s : Sweep) (block : Nat) : Sweep :=
  let freed := Area.setTable s.area (atbAnyToFree s.area.gcAllocTable block)
  match s.area.kind block with
  | .head => { s with area := freed, freeTail := true }
  | .tail =>
      if s.freeTail then { s with area := freed } else { s with lastUsedBlock := block }
  | .mark =>
      { area := Area.setTable s.area (atbMarkToHead s.area.gcAllocTable block)
        freeTail := false
        lastUsedBlock := block }
  | .free => s

def sweepEnd (a : Area) : Nat :=
  if a.gcLastUsedBlock < a.blocks then a.gcLastUsedBlock + 1 else a.blocks

def gcSweep (a : Area) : Area :=
  let s := countUp (sweepEnd a) (fun block s => sweepBlock s block) ⟨a, false, 0⟩
  { s.area with gcLastUsedBlock := s.lastUsedBlock }

/-- The words from `dict_locals` to `qstr_last_chunk` in `mp_state_ctx`, and the
bottom of the C stack. -/
structure Roots where
  stateStart : UInt32
  stateLen : Nat
  stackTop : UInt32

def gcCollectStart (h : Heap) (r : Roots) : Heap :=
  gcCollectRoot { h with gcLockDepth := h.gcLockDepth + 1, gcStackOverflow := false }
    r.stateStart r.stateLen

def gcCollectEnd (h : Heap) : Heap :=
  let dealt := gcDealWithStackOverflow h
  { dealt with
    area := { gcSweep dealt.area with gcLastFreeAtbIndex := 0 }
    gcLockDepth := dealt.gcLockDepth - 1 }

def stackWords (r : Roots) (sp : UInt32) : Nat :=
  if sp < r.stackTop then ((r.stackTop - sp) / 4).toNat else 0

/-- `gc_collect`, with `sp` the stack pointer once `regs` is on the stack. -/
def gcCollect (h : Heap) (r : Roots) (sp : UInt32) : Heap :=
  gcCollectEnd (gcCollectRoot (gcCollectStart h r) sp (stackWords r sp))

/-- What every operation leaves: no marks, nothing used above `gc_last_used_block`
and nothing free below `gc_last_free_atb_index`. -/
structure WellFormed (a : Area) : Prop extends Shaped a where
  unmarked : ∀ block, a.kind block ≠ .mark
  used : ∀ block, a.kind block ≠ .free → block ≤ a.gcLastUsedBlock
  full : ∀ block, block < a.gcLastFreeAtbIndex * 4 → a.kind block ≠ .free

def Root (h : Heap) (r : Roots) (sp : UInt32) (block : Nat) : Prop :=
  RootIn h r.stateStart r.stateLen block ∨ RootIn h sp (stackWords r sp) block

/-- A head some root leads to. -/
def Live (h : Heap) (r : Roots) (sp : UInt32) : Nat → Prop := Reachable (Edge h) (Root h r sp)

/-- The kinds a sweep leaves below `upto`. -/
structure Swept (before : Area) (upto : Nat) (after : Area) : Prop where
  frame : after = Area.setTable before after.gcAllocTable
  above : ∀ block, upto ≤ block → after.kind block = before.kind block
  free : ∀ block, before.kind block = .free → after.kind block = .free
  freed : ∀ owner block, block < upto → Owns before owner block → before.kind owner = .head →
    after.kind block = .free
  kept : ∀ owner block, block < upto → Owns before owner block → before.kind owner = .mark →
    after.kind block = if block = owner then .head else .tail

/-- `free_tail` after the blocks below `upto`, and `last_used_block`. -/
structure Sweeping (before : Area) (upto : Nat) (s : Sweep) : Prop where
  swept : Swept before upto s.area
  freeTail : ∀ owner block, Owns before owner block → upto = block + 1 →
    (s.freeTail = true ↔ before.kind owner = .head)
  lastUsed : ∀ block, block < upto → s.area.kind block ≠ .free → block ≤ s.lastUsedBlock

theorem sweeping_start (a : Area) : Sweeping a 0 ⟨a, false, 0⟩ := by
  refine ⟨⟨rfl, fun _ _ => rfl, fun _ free => free, ?_, ?_⟩, ?_, ?_⟩
  · exact fun _ block below => absurd below (Nat.not_lt_zero block)
  · exact fun _ block below => absurd below (Nat.not_lt_zero block)
  · exact fun _ block _ next => absurd next (Nat.zero_ne_add_one block)
  · exact fun block below => absurd below (Nat.not_lt_zero block)

theorem swept_next {before s after : Area} {i : Nat} {kind : Kind} (swept : Swept before i s)
    (frame : after = Area.setTable s after.gcAllocTable)
    (kinds : ∀ block, after.kind block = if block = i then kind else s.kind block)
    (free : before.kind i = .free → kind = .free)
    (freed : ∀ owner, Owns before owner i → before.kind owner = .head → kind = .free)
    (kept : ∀ owner, Owns before owner i → before.kind owner = .mark →
      kind = if i = owner then .head else .tail) : Swept before (i + 1) after := by
  constructor
  · rw [frame, swept.frame]
    rfl
  · intro block above
    rw [kinds, if_neg (Nat.ne_of_gt above)]
    exact swept.above block (Nat.le_of_succ_le above)
  · intro block was
    rw [kinds]
    split
    case isTrue same => exact free (same ▸ was)
    case isFalse => exact swept.free block was
  · intro owner block below owns head
    rw [kinds]
    split
    case isTrue same => exact freed owner (same ▸ owns) head
    case isFalse other =>
      exact swept.freed owner block (Nat.lt_of_le_of_ne (Nat.le_of_lt_succ below) other) owns head
  · intro owner block below owns mark
    rw [kinds]
    split
    case isTrue same =>
      subst same
      exact kept owner owns mark
    case isFalse other =>
      exact swept.kept owner block (Nat.lt_of_le_of_ne (Nat.le_of_lt_succ below) other) owns mark

theorem kind_unchanged (a : Area) (i block : Nat) :
    a.kind block = if block = i then a.kind i else a.kind block := by
  split
  case isTrue same => rw [same]
  case isFalse => rfl

theorem free_tail_iff {before : Area} {i owner : Nat} {s : Sweep} (sweeping : Sweeping before i s)
    (tail : before.kind i = .tail) (owns : Owns before owner i) :
    s.freeTail = true ↔ before.kind owner = .head := by
  cases i with
  | zero =>
      have same : owner = 0 := Nat.le_zero.mp owns.before
      exact absurd tail (head_not_tail (same ▸ owns.isHead))
  | succ i => exact sweeping.freeTail owner i (owns_back owns tail) rfl

theorem last_used_next {s after : Area} {i last : Nat}
    (kinds : ∀ block, after.kind block = if block = i then .free else s.kind block)
    (earlier : ∀ block, block < i → s.kind block ≠ .free → block ≤ last) :
    ∀ block, block < i + 1 → after.kind block ≠ .free → block ≤ last := by
  intro block below used
  rw [kinds] at used
  split at used
  case isTrue => exact absurd rfl used
  case isFalse other =>
    exact earlier block (Nat.lt_of_le_of_ne (Nat.le_of_lt_succ below) other) used

theorem sweeping_next {before : Area} {i : Nat} {s : Sweep} (sweeping : Sweeping before i s)
    (shaped : Shaped before) : Sweeping before (i + 1) (sweepBlock s i) := by
  have swept := sweeping.swept
  have here : s.area.kind i = before.kind i := swept.above i (Nat.le_refl i)
  have same := kind_unchanged s.area i
  have freed := kind_any_to_free s.area.gcAllocTable i
  rw [sweepBlock, here]
  cases kind : before.kind i with
  | free =>
      have unowned : ∀ owner, ¬ Owns before owner i := fun owner owns => owned_used owns kind
      rw [here, kind] at same
      refine ⟨swept_next swept rfl same (fun _ => rfl) ?_ ?_, ?_,
        last_used_next same sweeping.lastUsed⟩
      · exact fun owner owns => absurd owns (unowned owner)
      · exact fun owner owns => absurd owns (unowned owner)
      · rintro owner block owns next
        cases Nat.add_right_cancel next
        exact absurd owns (unowned owner)
  | head =>
      have alone : ∀ owner, Owns before owner i → owner = i :=
        fun owner owns => owner_self owns (Or.inl kind)
      refine ⟨swept_next swept rfl freed (fun _ => rfl) (fun _ _ _ => rfl) ?_, ?_,
        last_used_next freed sweeping.lastUsed⟩
      · intro owner owns mark
        rw [alone owner owns, kind] at mark
        exact absurd mark (by decide)
      · intro owner block owns next
        cases Nat.add_right_cancel next
        rw [alone owner owns]
        exact iff_of_true rfl kind
  | tail =>
      rcases owner_exists shaped i (by simp [kind]) with ⟨owner, owns⟩
      have only : ∀ other, Owns before other i → other = owner :=
        fun other found => owner_unique found owns
      have unmarked := free_tail_iff sweeping kind owns
      have apart : i ≠ owner := fun equal => head_not_tail owns.isHead (equal ▸ kind)
      dsimp only
      split
      case isTrue free =>
        have head := unmarked.mp free
        refine ⟨swept_next swept rfl freed (fun _ => rfl) (fun _ _ _ => rfl) ?_, ?_,
          last_used_next freed sweeping.lastUsed⟩
        · intro other found mark
          rw [only other found, head] at mark
          exact absurd mark (by decide)
        · intro other block found next
          cases Nat.add_right_cancel next
          rw [only other found]
          exact unmarked
      case isFalse keep =>
        rw [here, kind] at same
        refine ⟨swept_next swept rfl same ?_ ?_ ?_, ?_,
          fun block below _ => Nat.le_of_lt_succ below⟩
        · exact fun free => absurd (kind.symm.trans free) (by decide)
        · exact fun other found head => absurd (unmarked.mpr (only other found ▸ head)) keep
        · intro other found _
          rw [only other found, if_neg apart]
        · intro other block found next
          cases Nat.add_right_cancel next
          rw [only other found]
          exact unmarked
  | mark =>
      have alone : ∀ owner, Owns before owner i → owner = i :=
        fun owner owns => owner_self owns (Or.inr kind)
      have turned := kind_mark_to_head (here.trans kind)
      refine ⟨swept_next swept rfl turned ?_ ?_ ?_, ?_,
        fun block below _ => Nat.le_of_lt_succ below⟩
      · exact fun free => absurd (kind.symm.trans free) (by decide)
      · intro owner owns head
        rw [alone owner owns, kind] at head
        exact absurd head (by decide)
      · intro owner owns _
        rw [alone owner owns, if_pos rfl]
      · intro owner block owns next
        cases Nat.add_right_cancel next
        rw [alone owner owns, kind]
        exact iff_of_false Bool.false_ne_true (by decide)

structure SweptAll (before after : Area) : Prop where
  frame : after = { before with
    gcAllocTable := after.gcAllocTable, gcLastUsedBlock := after.gcLastUsedBlock }
  free : ∀ block, before.kind block = .free → after.kind block = .free
  freed : ∀ owner block, Owns before owner block → before.kind owner = .head →
    after.kind block = .free
  kept : ∀ owner block, Owns before owner block → before.kind owner = .mark →
    after.kind block = if block = owner then .head else .tail
  used : ∀ block, after.kind block ≠ .free → block ≤ after.gcLastUsedBlock

theorem sweep_all {a : Area} (shaped : Shaped a)
    (used : ∀ block, a.kind block ≠ .free → block ≤ a.gcLastUsedBlock) :
    SweptAll a (gcSweep a) := by
  have sweeping := count_up_invariant (fun i s => Sweeping a i s) (sweepEnd a)
    (fun block s => sweepBlock s block) ⟨a, false, 0⟩ (sweeping_start a)
    fun i s _ before => sweeping_next before shaped
  have below : ∀ block, a.kind block ≠ .free → block < sweepEnd a := by
    intro block isUsed
    have upto := used block isUsed
    have inside : block < a.blocks := by
      by_contra outside
      exact isUsed (shaped.gap block (Nat.le_of_not_lt outside))
    rw [sweepEnd]
    split
    · exact Nat.lt_succ_of_le upto
    · exact inside
  have swept := sweeping.swept
  refine ⟨?_, swept.free, fun owner block owns => ?_, fun owner block owns => ?_,
    fun block isUsed => ?_⟩
  · rw [gcSweep, swept.frame]
    rfl
  · exact swept.freed owner block (below block (owned_used owns)) owns
  · exact swept.kept owner block (below block (owned_used owns)) owns
  · have was : a.kind block ≠ .free := fun free => isUsed (swept.free block free)
    exact sweeping.lastUsed block (below block was) isUsed

/-- Everything up to `gc_deal_with_stack_overflow`. -/
def markPhase (h : Heap) (r : Roots) (sp : UInt32) : Heap :=
  gcDealWithStackOverflow (gcCollectRoot (gcCollectStart h r) sp (stackWords r sp))

/-- `gc_collect_start` before its scan. -/
def locked (h : Heap) : Heap :=
  { h with gcLockDepth := h.gcLockDepth + 1, gcStackOverflow := false }

theorem mark_phase_exact {h : Heap} (r : Roots) (sp : UInt32)
    (gap : ∀ block, h.area.blocks ≤ block → h.area.kind block = .free)
    (unmarked : ∀ block, h.area.kind block ≠ .mark) :
    Marked (locked h) (markPhase h r sp) ∧
      (markPhase h r sp).gcStackOverflow = false ∧
      ∀ block, IsMarked (markPhase h r sp) block ↔ Live h r sp block := by
  have start : Tracked (locked h) (Root h r sp) (fun _ => False) (locked h) [] :=
    ⟨marked_refl _, trace_none unmarked, fun block member => absurd member List.not_mem_nil⟩
  rcases tracked_root r.stateStart r.stateLen start
    fun block root => Or.inl root with ⟨afterState, stateMarked⟩
  rcases tracked_root sp (stackWords r sp) afterState
    fun block root => Or.inr root with ⟨afterStack, stackMarked⟩
  rcases tracked_overflow_dealt afterStack gap with ⟨done, clear, kept⟩
  refine ⟨done.marked, clear, fun block => trace_exact done.trace ?_ ?_ block⟩
  · rintro root (inState | inStack)
    · exact kept root (stackMarked root (Or.inr (stateMarked root (Or.inl inState))))
    · exact kept root (stackMarked root (Or.inl inStack))
  · rintro node _ (set | stacked | later)
    · exact absurd (clear.symm.trans set) Bool.false_ne_true
    · exact absurd stacked List.not_mem_nil
    · exact later

structure Collected (h : Heap) (live : Nat → Prop) (after : Heap) : Prop where
  frame : after = { h with
    area := { h.area with
      gcAllocTable := after.area.gcAllocTable
      gcLastUsedBlock := after.area.gcLastUsedBlock
      gcLastFreeAtbIndex := 0 }
    gcStackOverflow := false }
  released : Released h.area (fun owner => ¬ live owner) after.area
  wellFormed : WellFormed after.area

theorem collect_frame {h m : Heap} {a : Area} (marked : Marked (locked h) m)
    (clear : m.gcStackOverflow = false) (swept : SweptAll m.area a) :
    ({ m with
      area := { a with gcLastFreeAtbIndex := 0 }
      gcLockDepth := m.gcLockDepth - 1 } : Heap) = { h with
      area := { h.area with
        gcAllocTable := a.gcAllocTable
        gcLastUsedBlock := a.gcLastUsedBlock
        gcLastFreeAtbIndex := 0 }
      gcStackOverflow := false } := by
  obtain ⟨t, o, rfl⟩ : ∃ t o, m = { (locked h).setTable t with gcStackOverflow := o } :=
    ⟨_, _, marked.frame⟩
  obtain ⟨u, last, rfl⟩ : ∃ u last, a = { ((locked h).setTable t).area with
      gcAllocTable := u, gcLastUsedBlock := last } := ⟨_, _, swept.frame⟩
  cases clear
  rfl

theorem collect_releases {h m : Heap} {a : Area} {live : Nat → Prop} (marked : Marked (locked h) m)
    (unmarked : ∀ block, h.area.kind block ≠ .mark) (known : ∀ block, IsMarked m block ↔ live block)
    (swept : SweptAll m.area a) : Released h.area (fun owner => ¬ live owner) a := by
  have owned : ∀ owner block, Owns h.area owner block → Owns m.area owner block :=
    fun owner block owns => (marked_owns marked owner block).mpr owns
  refine ⟨?_, fun owner block owns stays => ?_, fun owner block owns dead => ?_,
    fun block free => ?_⟩
  · have sweepLen : a.gcAllocTableByteLen = m.area.gcAllocTableByteLen := by
      rw [swept.frame]
    have markLen := marked_len marked
    exact sweepLen.trans markLen
  · have mark := (known owner).mpr (Classical.not_not.mp stays)
    rw [swept.kept owner block (owned owner block owns) mark]
    split
    case isTrue same =>
      subst same
      rcases owns.isHead with head | mark
      · exact head.symm
      · exact absurd mark (unmarked block)
    case isFalse other =>
      exact (owns.tails block (Nat.lt_of_le_of_ne owns.before (Ne.symm other))
        (Nat.le_refl _)).symm
  · have moved := owned owner block owns
    rcases moved.isHead with head | mark
    · exact swept.freed owner block moved head
    · exact absurd ((known owner).mp mark) dead
  · exact swept.free block ((marked_free marked block).mpr free)

theorem collected (h : Heap) (r : Roots) (sp : UInt32) (wellFormed : WellFormed h.area) :
    Collected h (Live h r sp) (gcCollect h r sp) := by
  rcases mark_phase_exact r sp wellFormed.gap wellFormed.unmarked with ⟨marked, clear, live⟩
  have frame := marked.frame
  have shaped := marked_shaped marked wellFormed.toShaped
  have used : ∀ block, (markPhase h r sp).area.kind block ≠ .free →
      block ≤ (markPhase h r sp).area.gcLastUsedBlock := by
    intro block isUsed
    have bound := wellFormed.used block fun free => isUsed ((marked_free marked block).mpr free)
    rw [frame]
    exact bound
  have swept := sweep_all shaped used
  have sweep := collect_releases marked wellFormed.unmarked live swept
  have released : Released h.area (fun owner => ¬ Live h r sp owner) (gcCollect h r sp).area :=
    ⟨sweep.len, sweep.kept, sweep.freed, sweep.free⟩
  refine ⟨collect_frame marked clear swept, released, released_shaped released wellFormed.toShaped,
    fun block => ?_, swept.used, fun block below => absurd below (Nat.not_lt_zero block)⟩
  rcases released_cases released wellFormed.toShaped block with ⟨_, _, _, same⟩ | free
  · exact fun mark => wellFormed.unmarked block (same.symm.trans mark)
  · exact fun mark => absurd (free.symm.trans mark) (by decide)

theorem live_head {h : Heap} {r : Roots} {sp : UInt32} {block : Nat} (live : Live h r sp block) :
    IsHead h.area block := by
  rcases live with ⟨source, root, path⟩
  cases path with
  | refl =>
      rcases root with inState | inStack
      · exact inState.2
      · exact inStack.2
  | tail _ edge => exact edge.2

/-- Five blocks' room: an object of two blocks, one of one block, and a word on the
stack that points at the first. -/
def twoObjects : Heap where
  area := { gcSetupArea 0x700000 0x700050 (by decide) (by decide) with
    gcAllocTable := fun i => if i = 0 then 0x19 else 0
    gcLastUsedBlock := 2 }
  memory := fun a => if a = 0x90000 then 0x10 else if a = 0x90002 then 0x70 else 0
  gcStackOverflow := false
  gcLockDepth := 0
  gcAutoCollectEnabled := true

def oneRoot : Roots := ⟨0x80000, 0, 0x90004⟩

theorem two_objects_kinds (block : Nat) : twoObjects.area.kind block =
    if block = 0 ∨ block = 2 then .head else if block = 1 then .tail else .free := by
  rcases block with _ | _ | _ | _ | block
  · rfl
  · rfl
  · rfl
  · rfl
  · have byte : (block + 4) / 4 ≠ 0 := by omega
    have empty : twoObjects.area.gcAllocTable ((block + 4) / 4) = 0 := if_neg byte
    rw [Area.kind, atbGetKind, PackedTable.field, empty, UInt8.zero_shiftRight, if_neg (by omega),
      if_neg (by omega)]
    rfl

theorem two_objects_well_formed : WellFormed twoObjects.area := by
  refine ⟨⟨fun block outside => ?_, by decide, fun block tail => ?_⟩, fun block => ?_,
    fun block used => ?_, fun block below => absurd below (Nat.not_lt_zero block)⟩
  · have far : 4 ≤ block := outside
    rw [two_objects_kinds, if_neg (by omega), if_neg (by omega)]
  · rw [two_objects_kinds] at tail ⊢
    split at tail
    · exact absurd tail (by decide)
    · split at tail
      case isTrue second =>
        rw [if_pos (by omega)]
        decide
      case isFalse => exact absurd tail (by decide)
  · rw [two_objects_kinds]
    split
    · decide
    · split
      · decide
      · decide
  · change block ≤ 2
    by_contra beyond
    apply used
    rw [two_objects_kinds, if_neg (by omega), if_neg (by omega)]

theorem first_object_live : Live twoObjects oneRoot 0x90000 0 :=
  reachable_root (Or.inr ⟨⟨0, by decide, by decide, by decide⟩, Or.inl (by decide)⟩)

/-- Marking ends, however often the stack of 64 blocks overflows, and then the heads
some root leads to are marked and nothing else has changed. -/
theorem marking_exact (h : Heap) (r : Roots) (sp : UInt32) (wellFormed : WellFormed h.area) :
    (∀ block, Live h r sp block → (markPhase h r sp).area.kind block = .mark) ∧
      (∀ block, ¬ Live h r sp block →
        (markPhase h r sp).area.kind block = h.area.kind block) ∧
      (markPhase h r sp).memory = h.memory ∧ (markPhase h r sp).gcStackOverflow = false := by
  rcases mark_phase_exact r sp wellFormed.gap wellFormed.unmarked with ⟨marked, clear, live⟩
  refine ⟨fun block known => (live block).mpr known, fun block dead => ?_, ?_, clear⟩
  · rcases marked.kinds block with same | ⟨_, known⟩
    · exact same
    · exact absurd ((live block).mp known) dead
  · rw [marked.frame]
    rfl

theorem first_object_marked : (markPhase twoObjects oneRoot 0x90000).area.kind 0 = .mark :=
  (marking_exact twoObjects oneRoot 0x90000 two_objects_well_formed).1 0 first_object_live

/-- After a collection the heads are those some root leads to; their chains and the
whole memory are what they were, and every other block is free. -/
theorem collect_exact (h : Heap) (r : Roots) (sp : UInt32) (wellFormed : WellFormed h.area) :
    (∀ block, (gcCollect h r sp).area.kind block = .head ↔ Live h r sp block) ∧
      (∀ owner block, Owns h.area owner block → Live h r sp owner →
        (gcCollect h r sp).area.kind block = h.area.kind block) ∧
      (∀ block, (¬ ∃ owner, Owns h.area owner block ∧ Live h r sp owner) →
        (gcCollect h r sp).area.kind block = .free) ∧
      (gcCollect h r sp).memory = h.memory ∧ WellFormed (gcCollect h r sp).area := by
  have collected := collected h r sp wellFormed
  have released := collected.released
  have cases := released_cases released wellFormed.toShaped
  have kept : ∀ owner block, Owns h.area owner block → Live h r sp owner →
      (gcCollect h r sp).area.kind block = h.area.kind block := fun owner block owns live =>
    released.kept owner block owns (not_not_intro live)
  refine ⟨fun block => ?_, kept, fun block dead => ?_, ?_, collected.wellFormed⟩
  · constructor
    · intro head
      rcases cases block with ⟨owner, owns, stays, same⟩ | free
      · have self := owner_self owns (Or.inl (same.symm.trans head))
        exact self ▸ Classical.not_not.mp stays
      · exact absurd (free.symm.trans head) (by decide)
    · intro live
      rw [kept block block (owns_self (live_head live)) live]
      rcases live_head live with head | mark
      · exact head
      · exact absurd mark (wellFormed.unmarked block)
  · rcases cases block with ⟨owner, owns, stays, _⟩ | free
    · exact absurd ⟨owner, owns, Classical.not_not.mp stays⟩ dead
    · exact free
  · rw [collected.frame]

theorem first_object_kept : (gcCollect twoObjects oneRoot 0x90000).area.kind 0 = .head :=
  ((collect_exact twoObjects oneRoot 0x90000 two_objects_well_formed).1 0).mpr first_object_live

end NexusOS.GcCollect
