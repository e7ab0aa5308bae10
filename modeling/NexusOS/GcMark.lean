import Mathlib.Data.Finset.Card
import Mathlib.Data.Finset.Range
import Mathlib.Data.Fintype.Card
import NexusOS.CountedLoop
import NexusOS.GcHeap
import NexusOS.Marking

/-!
The mark phase of `gc.c`: `gc_collect_root`, `gc_mark_subtree` on its stack of 64
blocks, and `gc_deal_with_stack_overflow`, which looks for what a full stack
dropped. Words are taken for pointers when `VERIFY_PTR` allows it.
-/

namespace NexusOS.GcMark

open ByteMemory CountedLoop GcHeap Marking

/-- `MICROPY_ALLOC_GC_STACK_SIZE`. -/
def allocGcStackSize : Nat := 64

/-- The heap and `gc_block_stack` below `sp`, the top first. -/
structure Tracing where
  heap : Heap
  stack : List Nat

def onHeadToMark (h : Heap) (block : Nat) : Heap :=
  h.setTable (atbHeadToMark h.area.gcAllocTable block)

/-- One turn of the loop over the words of a block's chain. -/
def markChild (s : Tracing) (ptr : UInt32) : Tracing :=
  if verifyPtr s.heap.area ptr then
    let ptrBlock := blockFromPtr s.heap.area ptr
    if s.heap.area.kind ptrBlock = .head then
      let heap := onHeadToMark s.heap ptrBlock
      if s.stack.length < allocGcStackSize then ⟨heap, ptrBlock :: s.stack⟩
      else ⟨{ heap with gcStackOverflow := true }, s.stack⟩
    else s
  else s

def wordAt (h : Heap) (ptrs : UInt32) (i : Nat) : UInt32 :=
  load32 h.memory (ptrs + UInt32.ofNat (4 * i))

def markChildren (s : Tracing) (block : Nat) : Tracing :=
  countUp (chainBlocks s.heap.area block * 16 / 4)
    (fun i now => markChild now (wordAt now.heap (ptrFromBlock s.heap.area block) i)) s

def unmarked (a : Area) : Nat := ((Finset.range a.blocks).filter (a.kind · = .head)).card

theorem unmarked_mark {h : Heap} {block : Nat} (inside : block < h.area.blocks)
    (head : h.area.kind block = .head) :
    unmarked (onHeadToMark h block).area < unmarked h.area := by
  apply Finset.card_lt_card
  refine Finset.ssubset_iff_subset_ne.mpr ⟨fun other found => ?_, fun same => ?_⟩
  · rw [Finset.mem_filter] at found ⊢
    refine ⟨found.1, ?_⟩
    have kind := found.2
    rw [onHeadToMark, Heap.setTable, Area.kind, kind_head_to_mark] at kind
    split at kind
    · exact absurd kind (by decide)
    · exact kind
  · have member : block ∈ (Finset.range h.area.blocks).filter (h.area.kind · = .head) :=
      Finset.mem_filter.mpr ⟨Finset.mem_range.mpr inside, head⟩
    rw [← same] at member
    have kind := (Finset.mem_filter.mp member).2
    rw [onHeadToMark, Heap.setTable, Area.kind, kind_head_to_mark, if_pos rfl] at kind
    exact absurd kind (by decide)

/-- What one word does: nothing, or it marks the head it points at and stacks it,
or drops it when the stack is full. -/
inductive Child (s : Tracing) (ptr : UInt32) : Tracing → Prop where
  | none (other : ∀ block, Refers s.heap.area ptr block → s.heap.area.kind block ≠ .head) :
      Child s ptr s
  | push (block : Nat) (refers : Refers s.heap.area ptr block)
      (head : s.heap.area.kind block = .head) :
      Child s ptr ⟨onHeadToMark s.heap block, block :: s.stack⟩
  | full (block : Nat) (refers : Refers s.heap.area ptr block)
      (head : s.heap.area.kind block = .head) :
      Child s ptr ⟨{ onHeadToMark s.heap block with gcStackOverflow := true }, s.stack⟩

theorem mark_child_cases (s : Tracing) (ptr : UInt32) : Child s ptr (markChild s ptr) := by
  rw [markChild]
  split
  case isTrue valid =>
    have refers : Refers s.heap.area ptr (blockFromPtr s.heap.area ptr) := ⟨valid, rfl⟩
    dsimp only
    split
    case isTrue head =>
      split
      · exact .push _ refers head
      · exact .full _ refers head
    case isFalse other =>
      exact .none fun block found head => other (found.2.symm ▸ head)
  case isFalse invalid => exact .none fun block found => absurd found.1 invalid

/-- How far a trace is from its end. -/
structure Nearer (s after : Tracing) : Prop where
  work : unmarked after.heap.area + after.stack.length ≤ unmarked s.heap.area + s.stack.length
  heads : unmarked after.heap.area ≤ unmarked s.heap.area
  overflow : after.heap.gcStackOverflow = true →
    s.heap.gcStackOverflow = true ∨ unmarked after.heap.area < unmarked s.heap.area

theorem nearer_refl (s : Tracing) : Nearer s s := ⟨Nat.le_refl _, Nat.le_refl _, Or.inl⟩

theorem nearer_trans {s mid after : Tracing} (first : Nearer s mid) (second : Nearer mid after) :
    Nearer s after := by
  refine ⟨Nat.le_trans second.work first.work, Nat.le_trans second.heads first.heads, ?_⟩
  intro set
  rcases second.overflow set with earlier | fewer
  · rcases first.overflow earlier with before | fewer
    · exact Or.inl before
    · exact Or.inr (Nat.lt_of_le_of_lt second.heads fewer)
  · exact Or.inr (Nat.lt_of_lt_of_le fewer first.heads)

theorem child_nearer {s after : Tracing} {ptr : UInt32} (child : Child s ptr after) :
    Nearer s after := by
  cases child with
  | none => exact nearer_refl s
  | push block refers head =>
      have fewer := unmarked_mark ((refers_iff _ _ _).mp refers).1 head
      refine ⟨?_, Nat.le_of_lt fewer, fun _ => Or.inr fewer⟩
      change unmarked _ + (s.stack.length + 1) ≤ _
      exact Nat.succ_le_of_lt (Nat.add_lt_add_right fewer s.stack.length)
  | full block refers head =>
      have fewer := unmarked_mark ((refers_iff _ _ _).mp refers).1 head
      exact ⟨Nat.add_le_add_right (Nat.le_of_lt fewer) _, Nat.le_of_lt fewer, fun _ => Or.inr fewer⟩

-- What each word carries on holds after the last.
theorem children_invariant (s : Tracing) (block : Nat) (holds : Nat → Tracing → Prop)
    (start : holds 0 s)
    (next : ∀ i before after, i < chainBlocks s.heap.area block * 16 / 4 → holds i before →
      Child before (wordAt before.heap (ptrFromBlock s.heap.area block) i) after →
      holds (i + 1) after) :
    holds (chainBlocks s.heap.area block * 16 / 4) (markChildren s block) :=
  count_up_invariant holds _ _ s start
    fun i before bound kept => next i before _ bound kept (mark_child_cases before _)

theorem mark_children_nearer (s : Tracing) (block : Nat) : Nearer s (markChildren s block) := by
  apply children_invariant s block (fun _ now => Nearer s now) (nearer_refl s)
  intro i before after _ near child
  exact nearer_trans near (child_nearer child)

theorem popped_nearer {s : Tracing} {block next : Nat} {rest : List Nat}
    (found : (markChildren s block).stack = next :: rest) :
    unmarked (markChildren s block).heap.area + rest.length <
      unmarked s.heap.area + s.stack.length := by
  have work := (mark_children_nearer s block).work
  rwa [found, List.length_cons] at work

/-- `gc_mark_subtree`, entered with the blocks of `stack` on the stack. -/
def gcMarkSubtreeFrom (h : Heap) (block : Nat) (stack : List Nat) : Heap :=
  match found : (markChildren ⟨h, stack⟩ block).stack with
  | [] => (markChildren ⟨h, stack⟩ block).heap
  | next :: rest =>
      have _fewer := popped_nearer found
      gcMarkSubtreeFrom (markChildren ⟨h, stack⟩ block).heap next rest
termination_by unmarked h.area + stack.length

def gcMarkSubtree (h : Heap) (block : Nat) : Heap := gcMarkSubtreeFrom h block []

theorem subtree_last {h : Heap} {block : Nat} {stack : List Nat}
    (found : (markChildren ⟨h, stack⟩ block).stack = []) :
    gcMarkSubtreeFrom h block stack = (markChildren ⟨h, stack⟩ block).heap := by
  rw [gcMarkSubtreeFrom]
  split
  · rfl
  · simp_all

theorem subtree_pop {h : Heap} {block next : Nat} {stack rest : List Nat}
    (found : (markChildren ⟨h, stack⟩ block).stack = next :: rest) :
    gcMarkSubtreeFrom h block stack =
      gcMarkSubtreeFrom (markChildren ⟨h, stack⟩ block).heap next rest := by
  rw [gcMarkSubtreeFrom]
  split
  · simp_all
  · simp_all

theorem subtree_nearer (h : Heap) (block : Nat) (stack : List Nat) :
    Nearer ⟨h, stack⟩ ⟨gcMarkSubtreeFrom h block stack, []⟩ := by
  induction h, block, stack using gcMarkSubtreeFrom.induct with
  | case1 h block stack found =>
      have near := mark_children_nearer ⟨h, stack⟩ block
      have work := near.work
      rw [found] at work
      rw [subtree_last found]
      exact ⟨work, near.heads, near.overflow⟩
  | case2 h block stack next rest found _ ih =>
      have near := mark_children_nearer ⟨h, stack⟩ block
      rw [subtree_pop found]
      refine nearer_trans ?_ ih
      exact ⟨Nat.le_of_lt (popped_nearer found), near.heads, near.overflow⟩

/-- The scan of the whole table for marked blocks. -/
def rescan (h : Heap) : Heap :=
  countUp h.area.blocks
    (fun block h => if h.area.kind block = .mark then gcMarkSubtree h block else h) h

def clearOverflow (h : Heap) : Heap := { h with gcStackOverflow := false }

theorem rescan_nearer (h : Heap) : Nearer ⟨h, []⟩ ⟨rescan h, []⟩ := by
  apply count_up_invariant (fun _ now => Nearer ⟨h, []⟩ ⟨now, []⟩) _ _ h (nearer_refl _)
  intro block before _ near
  split
  · exact nearer_trans near (subtree_nearer before block [])
  · exact near

theorem rescan_fewer {h : Heap} (set : h.gcStackOverflow = true) :
    unmarked (rescan (clearOverflow h)).area + (rescan (clearOverflow h)).gcStackOverflow.toNat <
      unmarked h.area + h.gcStackOverflow.toNat := by
  have near := rescan_nearer (clearOverflow h)
  have heads : unmarked (rescan (clearOverflow h)).area ≤ unmarked h.area := near.heads
  rw [set]
  cases after : (rescan (clearOverflow h)).gcStackOverflow with
  | false => exact Nat.lt_succ_of_le heads
  | true =>
      rcases near.overflow after with earlier | fewer
      · exact absurd earlier Bool.false_ne_true
      · exact Nat.add_lt_add_right fewer 1

def gcDealWithStackOverflow (h : Heap) : Heap :=
  if set : h.gcStackOverflow = true then
    have _fewer := rescan_fewer set
    gcDealWithStackOverflow (rescan (clearOverflow h))
  else h
termination_by unmarked h.area + h.gcStackOverflow.toNat

/-- One turn of the loop of `gc_collect_root`. -/
def collectWord (h : Heap) (ptr : UInt32) : Heap :=
  if verifyPtr h.area ptr then
    let block := blockFromPtr h.area ptr
    if h.area.kind block = .head then gcMarkSubtree (onHeadToMark h block) block else h
  else h

/-- `gc_collect_root` on the `len` words from `ptrs` on. -/
def gcCollectRoot (h : Heap) (ptrs : UInt32) (len : Nat) : Heap :=
  countUp len (fun i now => collectWord now (wordAt now ptrs i)) h

theorem collect_word_cases (h : Heap) (ptr : UInt32) :
    (collectWord h ptr = h ∧ ∀ block, Refers h.area ptr block → h.area.kind block ≠ .head) ∨
      ∃ block, Refers h.area ptr block ∧ h.area.kind block = .head ∧
        collectWord h ptr = gcMarkSubtree (onHeadToMark h block) block := by
  by_cases valid : verifyPtr h.area ptr
  · by_cases head : h.area.kind (blockFromPtr h.area ptr) = .head
    · refine Or.inr ⟨_, ⟨valid, rfl⟩, head, ?_⟩
      simp only [collectWord, if_pos valid, if_pos head]
    · refine Or.inl ⟨?_, fun block refers isHead => head (refers.2.symm ▸ isHead)⟩
      simp only [collectWord, if_pos valid, if_neg head]
  · refine Or.inl ⟨?_, fun block refers => absurd refers.1 valid⟩
    simp only [collectWord, if_neg valid]

def IsMarked (h : Heap) (block : Nat) : Prop := h.area.kind block = .mark

/-- A word of `block`'s chain points at the head `next`. -/
def Edge (h : Heap) (block next : Nat) : Prop :=
  (∃ i < chainBlocks h.area block * 16 / 4,
    Refers h.area (wordAt h (ptrFromBlock h.area block) i) next) ∧ IsHead h.area next

/-- Between the two heaps some heads were marked, and the overflow flag may differ. -/
structure Marked (h after : Heap) : Prop where
  frame : after = { h.setTable after.area.gcAllocTable with
    gcStackOverflow := after.gcStackOverflow }
  kinds : ∀ block, after.area.kind block = h.area.kind block ∨
    h.area.kind block = .head ∧ after.area.kind block = .mark

theorem marked_refl (h : Heap) : Marked h h := ⟨rfl, fun _ => Or.inl rfl⟩

theorem marked_overflow {h after : Heap} (marked : Marked h after) (o : Bool) :
    Marked h { after with gcStackOverflow := o } := by
  refine ⟨?_, marked.kinds⟩
  exact congrArg (fun now : Heap => { now with gcStackOverflow := o }) marked.frame

theorem marked_mark {h after : Heap} {block : Nat} (marked : Marked h after)
    (head : after.area.kind block = .head) : Marked h (onHeadToMark after block) := by
  refine ⟨?_, fun other => ?_⟩
  · exact congrArg (fun now : Heap => now.setTable (atbHeadToMark after.area.gcAllocTable block))
      marked.frame
  · rw [onHeadToMark, Heap.setTable, Area.kind, kind_head_to_mark]
    split
    case isTrue same =>
      subst same
      rcases marked.kinds other with old | ⟨was, known⟩
      · exact Or.inr ⟨old ▸ head, rfl⟩
      · rw [known] at head
        exact absurd head (by decide)
    case isFalse => exact marked.kinds other

section Frames

variable {h after : Heap} (marked : Marked h after)
include marked

theorem marked_refers (ptr : UInt32) (block : Nat) :
    Refers after.area ptr block ↔ Refers h.area ptr block := by
  rw [marked.frame]
  exact Iff.rfl

theorem marked_word (ptrs : UInt32) (i : Nat) : wordAt after ptrs i = wordAt h ptrs i := by
  rw [marked.frame]
  rfl

theorem marked_ptr (block : Nat) : ptrFromBlock after.area block = ptrFromBlock h.area block := by
  rw [marked.frame]
  rfl

theorem marked_len : after.area.gcAllocTableByteLen = h.area.gcAllocTableByteLen := by
  rw [marked.frame]
  rfl

theorem marked_tail (block : Nat) : after.area.kind block = .tail ↔ h.area.kind block = .tail := by
  rcases marked.kinds block with same | ⟨was, known⟩
  · rw [same]
  · simp [was, known]

theorem marked_chain (block : Nat) :
    chainBlocks after.area block = chainBlocks h.area block :=
  chain_congr (marked_len marked) (marked_tail marked) block

theorem marked_head (block : Nat) : IsHead after.area block ↔ IsHead h.area block := by
  rw [IsHead, IsHead]
  rcases marked.kinds block with same | ⟨was, known⟩
  · rw [same]
  · simp [was, known]

theorem marked_free (block : Nat) : after.area.kind block = .free ↔ h.area.kind block = .free := by
  rcases marked.kinds block with same | ⟨was, known⟩
  · rw [same]
  · simp [was, known]

theorem marked_owns (owner block : Nat) :
    Owns after.area owner block ↔ Owns h.area owner block := by
  constructor
  · rintro ⟨isHead, before, tails⟩
    exact ⟨(marked_head marked owner).mp isHead, before,
      fun c above upto => (marked_tail marked c).mp (tails c above upto)⟩
  · rintro ⟨isHead, before, tails⟩
    exact ⟨(marked_head marked owner).mpr isHead, before,
      fun c above upto => (marked_tail marked c).mpr (tails c above upto)⟩

theorem marked_shaped (shaped : Shaped h.area) : Shaped after.area := by
  refine ⟨fun block outside => ?_, ?_, fun block tail => ?_⟩
  · rw [Area.blocks, marked_len marked] at outside
    exact (marked_free marked block).mpr (shaped.gap block outside)
  · exact fun tail => shaped.first ((marked_tail marked 0).mp tail)
  · have used := shaped.follows block ((marked_tail marked (block + 1)).mp tail)
    exact fun free => used ((marked_free marked block).mp free)

end Frames

/-- A trace of `h₀` under way: `h` has its marks, the blocks of `stack` wait on the
stack and those of `rest` wait to be found; an overflow may have dropped any. -/
structure Tracked (h₀ : Heap) (root rest : Nat → Prop) (h : Heap) (stack : List Nat) : Prop where
  marked : Marked h₀ h
  trace : Trace (Edge h₀) root (IsMarked h)
    (fun block => h.gcStackOverflow = true ∨ block ∈ stack ∨ rest block)
  stacked : ∀ block ∈ stack, IsMarked h block

theorem is_marked_mark (h : Heap) (block other : Nat) :
    IsMarked (onHeadToMark h block) other ↔ IsMarked h other ∨ other = block := by
  rw [IsMarked, onHeadToMark, Heap.setTable, Area.kind, kind_head_to_mark]
  by_cases same : other = block
  · simp [same]
  · simp [same, IsMarked, Area.kind]

theorem child_keeps {s after : Tracing} {ptr : UInt32} (child : Child s ptr after) {block : Nat}
    (known : IsMarked s.heap block) : IsMarked after.heap block := by
  cases child with
  | none => exact known
  | push fresh => exact (is_marked_mark s.heap fresh block).mpr (Or.inl known)
  | full fresh => exact (is_marked_mark s.heap fresh block).mpr (Or.inl known)

section Tracking

variable {h₀ h : Heap} {root rest : Nat → Prop} {stack : List Nat}

theorem tracked_mark {block : Nat} (tracked : Tracked h₀ root rest h stack)
    (head : h.area.kind block = .head)
    (source : root block ∨ ∃ node, IsMarked h node ∧ Edge h₀ node block) :
    Tracked h₀ root rest (onHeadToMark h block) (block :: stack) := by
  refine ⟨marked_mark tracked.marked head, ?_, fun other member => ?_⟩
  · apply trace_mark tracked.trace source (is_marked_mark h block)
    rintro node ((set | stacked | later) | rfl)
    · exact Or.inl set
    · exact Or.inr (Or.inl (List.mem_cons_of_mem _ stacked))
    · exact Or.inr (Or.inr later)
    · exact Or.inr (Or.inl List.mem_cons_self)
  · apply (is_marked_mark h block other).mpr
    rcases List.mem_cons.mp member with rfl | old
    · exact Or.inr rfl
    · exact Or.inl (tracked.stacked other old)

-- With the flag set every marked block may be pending, so any may leave the stack.
theorem tracked_overflow {fewer : List Nat} (tracked : Tracked h₀ root rest h stack)
    (sub : fewer ⊆ stack) :
    Tracked h₀ root rest { h with gcStackOverflow := true } fewer := by
  refine ⟨marked_overflow tracked.marked true, ?_, fun block member => ?_⟩
  · exact trace_drop tracked.trace fun node _ _ => Or.inl (Or.inl rfl)
  · exact tracked.stacked block (sub member)

theorem tracked_stack {other : List Nat} (tracked : Tracked h₀ root rest h stack)
    (same : ∀ block, block ∈ other ↔ block ∈ stack) : Tracked h₀ root rest h other := by
  refine ⟨tracked.marked, ?_, fun block member => tracked.stacked block ((same block).mp member)⟩
  simpa only [same] using tracked.trace

theorem tracked_pop {block : Nat} (tracked : Tracked h₀ root rest h (block :: stack))
    (done : Traced (Edge h₀) (IsMarked h) block) : Tracked h₀ root rest h stack := by
  refine ⟨tracked.marked, ?_, fun other member => tracked.stacked other
    (List.mem_cons_of_mem block member)⟩
  apply trace_drop tracked.trace
  rintro node _ (set | stacked | later)
  · exact Or.inl (Or.inl set)
  · rcases List.mem_cons.mp stacked with rfl | old
    · exact Or.inr done
    · exact Or.inl (Or.inr (Or.inl old))
  · exact Or.inl (Or.inr (Or.inr later))

end Tracking

section Words

variable {h₀ : Heap} {root rest : Nat → Prop} {s after : Tracing} {block : Nat} {ptr : UInt32}

theorem tracked_child (tracked : Tracked h₀ root rest s.heap (block :: s.stack))
    (edge : ∀ next, Refers h₀.area ptr next → IsHead h₀.area next → Edge h₀ block next)
    (child : Child s ptr after) : Tracked h₀ root rest after.heap (block :: after.stack) := by
  have source : ∀ next, Refers s.heap.area ptr next → s.heap.area.kind next = .head →
      root next ∨ ∃ node, IsMarked s.heap node ∧ Edge h₀ node next := by
    intro next refers head
    have pointed := (marked_refers tracked.marked ptr next).mp refers
    have isHead := (marked_head tracked.marked next).mp (Or.inl head)
    exact Or.inr ⟨block, tracked.stacked block List.mem_cons_self, edge next pointed isHead⟩
  cases child with
  | none => exact tracked
  | push next refers head =>
      apply tracked_stack (tracked_mark tracked head (source next refers head))
      intro other
      simp only [List.mem_cons]
      exact or_left_comm
  | full next refers head =>
      exact tracked_overflow (tracked_mark tracked head (source next refers head))
        (List.subset_cons_self next _)

theorem child_marks (marked : Marked h₀ s.heap) (child : Child s ptr after) {next : Nat}
    (refers : Refers h₀.area ptr next) (isHead : IsHead h₀.area next) :
    IsMarked after.heap next := by
  have pointed := (marked_refers marked ptr next).mpr refers
  rcases (marked_head marked next).mpr isHead with head | mark
  · cases child with
    | none other => exact absurd head (other next pointed)
    | push fresh found =>
        exact (is_marked_mark s.heap fresh next).mpr (Or.inr (pointed.2.symm.trans found.2))
    | full fresh found =>
        exact (is_marked_mark s.heap fresh next).mpr (Or.inr (pointed.2.symm.trans found.2))
  · exact child_keeps child mark

theorem tracked_children (tracked : Tracked h₀ root rest s.heap (block :: s.stack)) :
    Tracked h₀ root rest (markChildren s block).heap (markChildren s block).stack := by
  have sameChain := marked_chain tracked.marked block
  have scanned := children_invariant s block (fun i now =>
    Tracked h₀ root rest now.heap (block :: now.stack) ∧
    ∀ j < i, ∀ next, Refers h₀.area (wordAt h₀ (ptrFromBlock h₀.area block) j) next →
      IsHead h₀.area next → IsMarked now.heap next)
    ⟨tracked, fun j below => absurd below (Nat.not_lt_zero j)⟩ ?step
  case step =>
    rintro i now after bound ⟨still, earlier⟩ child
    rw [marked_word still.marked, marked_ptr tracked.marked] at child
    constructor
    · exact tracked_child still (fun next refers isHead =>
        ⟨⟨i, sameChain ▸ bound, refers⟩, isHead⟩) child
    · intro j below next refers isHead
      rcases Nat.lt_succ_iff_lt_or_eq.mp below with old | rfl
      · exact child_keeps child (earlier j old next refers isHead)
      · exact child_marks still.marked child refers isHead
  rcases scanned with ⟨still, all⟩
  apply tracked_pop still
  rintro next ⟨⟨i, bound, refers⟩, isHead⟩
  exact all i (sameChain ▸ bound) next refers isHead

end Words

theorem tracked_subtree {h₀ : Heap} {root rest : Nat → Prop} {h : Heap} {block : Nat}
    {stack : List Nat} (tracked : Tracked h₀ root rest h (block :: stack)) :
    Tracked h₀ root rest (gcMarkSubtreeFrom h block stack) [] := by
  induction h, block, stack using gcMarkSubtreeFrom.induct with
  | case1 h block stack found =>
      have scanned := tracked_children (s := ⟨h, stack⟩) tracked
      rw [subtree_last found]
      rwa [found] at scanned
  | case2 h block stack next rest found _ ih =>
      have scanned := tracked_children (s := ⟨h, stack⟩) tracked
      rw [subtree_pop found]
      rw [found] at scanned
      exact ih scanned

/-- One pass over the table finds every marked block that was dropped before the
pass; what is dropped during it sets the flag again. -/
theorem tracked_rescan {h₀ h : Heap} {root rest : Nat → Prop}
    (tracked : Tracked h₀ root rest h [])
    (gap : ∀ block, h₀.area.blocks ≤ block → h₀.area.kind block = .free) :
    Tracked h₀ root (fun _ => False) (rescan (clearOverflow h)) [] := by
  have start : Tracked h₀ root (fun block => 0 ≤ block) (clearOverflow h) [] := by
    refine ⟨marked_overflow tracked.marked false, ?_,
      fun block member => absurd member List.not_mem_nil⟩
    exact trace_drop tracked.trace fun node _ _ => Or.inl (Or.inr (Or.inr (Nat.zero_le node)))
  have scanned := count_up_invariant
    (fun i now => Tracked h₀ root (fun block => i ≤ block) now []) (clearOverflow h).area.blocks
    (fun block h => if h.area.kind block = .mark then gcMarkSubtree h block else h)
    (clearOverflow h) start ?step
  case step =>
    intro i now bound before
    split
    case isTrue mark =>
      apply tracked_subtree
      refine ⟨before.marked, ?_, fun block member => List.mem_singleton.mp member ▸ mark⟩
      apply trace_drop before.trace
      rintro node _ (set | stacked | later)
      · exact Or.inl (Or.inl set)
      · exact absurd stacked List.not_mem_nil
      · rcases Nat.eq_or_lt_of_le later with rfl | above
        · exact Or.inl (Or.inr (Or.inl List.mem_cons_self))
        · exact Or.inl (Or.inr (Or.inr above))
    case isFalse other =>
      refine ⟨before.marked, ?_, before.stacked⟩
      apply trace_drop before.trace
      rintro node known (set | stacked | later)
      · exact Or.inl (Or.inl set)
      · exact absurd stacked List.not_mem_nil
      · refine Or.inl (Or.inr (Or.inr (Nat.lt_of_le_of_ne later ?_)))
        rintro rfl
        exact other known
  refine ⟨scanned.marked, ?_, scanned.stacked⟩
  apply trace_drop scanned.trace
  rintro node known (set | stacked | later)
  · exact Or.inl (Or.inl set)
  · exact absurd stacked List.not_mem_nil
  · have outside : h₀.area.blocks ≤ node := by
      have same := marked_len tracked.marked
      rw [Area.blocks, ← same]
      exact later
    have free := gap node outside
    rcases scanned.marked.kinds node with kept | ⟨head, _⟩
    · rw [IsMarked, kept, free] at known
      exact absurd known (by decide)
    · rw [free] at head
      exact absurd head (by decide)

theorem children_keep {s : Tracing} {block other : Nat} (known : IsMarked s.heap other) :
    IsMarked (markChildren s block).heap other := by
  apply children_invariant s block (fun _ now => IsMarked now.heap other) known
  intro i before after _ kept child
  exact child_keeps child kept

theorem subtree_keeps {h : Heap} {block other : Nat} {stack : List Nat} (known : IsMarked h other) :
    IsMarked (gcMarkSubtreeFrom h block stack) other := by
  induction h, block, stack using gcMarkSubtreeFrom.induct with
  | case1 h block stack found =>
      rw [subtree_last found]
      exact children_keep (s := ⟨h, stack⟩) known
  | case2 h block stack next rest found _ ih =>
      rw [subtree_pop found]
      exact ih (children_keep (s := ⟨h, stack⟩) known)

theorem rescan_keeps {h : Heap} {other : Nat} (known : IsMarked h other) :
    IsMarked (rescan (clearOverflow h)) other := by
  apply count_up_invariant (fun _ now => IsMarked now other) _ _ (clearOverflow h) known
  intro block before _ kept
  split
  · exact subtree_keeps kept
  · exact kept

theorem tracked_overflow_dealt {h₀ h : Heap} {root : Nat → Prop}
    (tracked : Tracked h₀ root (fun _ => False) h [])
    (gap : ∀ block, h₀.area.blocks ≤ block → h₀.area.kind block = .free) :
    Tracked h₀ root (fun _ => False) (gcDealWithStackOverflow h) [] ∧
      (gcDealWithStackOverflow h).gcStackOverflow = false ∧
      ∀ block, IsMarked h block → IsMarked (gcDealWithStackOverflow h) block := by
  induction h using gcDealWithStackOverflow.induct with
  | case1 h set _ ih =>
      rw [gcDealWithStackOverflow, dif_pos set]
      rcases ih (tracked_rescan tracked gap) with ⟨still, clear, kept⟩
      exact ⟨still, clear, fun block known => kept block (rescan_keeps known)⟩
  | case2 h clear =>
      rw [gcDealWithStackOverflow, dif_neg clear]
      exact ⟨tracked, Bool.eq_false_iff.mpr clear, fun _ known => known⟩

/-- The words of `gc_collect_root`, as roots of the graph. -/
def RootIn (h : Heap) (ptrs : UInt32) (len block : Nat) : Prop :=
  (∃ i < len, Refers h.area (wordAt h ptrs i) block) ∧ IsHead h.area block

section Roots

variable {h₀ h : Heap} {root : Nat → Prop} {ptr : UInt32}

theorem word_keeps {other : Nat} (known : IsMarked h other) :
    IsMarked (collectWord h ptr) other := by
  rcases collect_word_cases h ptr with ⟨same, _⟩ | ⟨block, _, _, same⟩
  · rwa [same]
  · rw [same]
    exact subtree_keeps ((is_marked_mark h block other).mpr (Or.inl known))

theorem tracked_word (tracked : Tracked h₀ root (fun _ => False) h [])
    (roots : ∀ block, Refers h₀.area ptr block → IsHead h₀.area block → root block) :
    Tracked h₀ root (fun _ => False) (collectWord h ptr) [] := by
  rcases collect_word_cases h ptr with ⟨same, _⟩ | ⟨block, refers, head, same⟩
  · rwa [same]
  · have pointed := (marked_refers tracked.marked ptr block).mp refers
    have isRoot := roots block pointed ((marked_head tracked.marked block).mp (Or.inl head))
    rw [same]
    exact tracked_subtree (tracked_mark tracked head (Or.inl isRoot))

theorem word_marks (marked : Marked h₀ h) {block : Nat} (refers : Refers h₀.area ptr block)
    (isHead : IsHead h₀.area block) : IsMarked (collectWord h ptr) block := by
  have pointed := (marked_refers marked ptr block).mpr refers
  rcases (marked_head marked block).mpr isHead with head | mark
  · rcases collect_word_cases h ptr with ⟨_, other⟩ | ⟨found, here, _, same⟩
    · exact absurd head (other block pointed)
    · rw [same]
      exact subtree_keeps ((is_marked_mark h found block).mpr
        (Or.inr (pointed.2.symm.trans here.2)))
  · exact word_keeps mark

theorem tracked_root (ptrs : UInt32) (len : Nat) (tracked : Tracked h₀ root (fun _ => False) h [])
    (roots : ∀ block, RootIn h₀ ptrs len block → root block) :
    Tracked h₀ root (fun _ => False) (gcCollectRoot h ptrs len) [] ∧
      ∀ block, RootIn h₀ ptrs len block ∨ IsMarked h block →
        IsMarked (gcCollectRoot h ptrs len) block := by
  have scanned := count_up_invariant (fun i now =>
      Tracked h₀ root (fun _ => False) now [] ∧ ∀ block, RootIn h₀ ptrs i block ∨ IsMarked h block →
        IsMarked now block) len (fun i now => collectWord now (wordAt now ptrs i)) h
    ⟨tracked, ?_⟩ ?step
  · exact scanned
  · rintro block (⟨⟨j, below, _⟩, _⟩ | known)
    · exact absurd below (Nat.not_lt_zero j)
    · exact known
  case step =>
    rintro i now bound ⟨still, earlier⟩
    rw [marked_word still.marked]
    constructor
    · exact tracked_word still fun block refers isHead =>
        roots block ⟨⟨i, bound, refers⟩, isHead⟩
    · rintro block (⟨⟨j, below, refers⟩, isHead⟩ | known)
      · rcases Nat.lt_succ_iff_lt_or_eq.mp below with old | rfl
        · exact word_keeps (earlier block (Or.inl ⟨⟨j, old, refers⟩, isHead⟩))
        · exact word_marks still.marked refers isHead
      · exact word_keeps (earlier block (Or.inr known))

end Roots

end NexusOS.GcMark
