import NexusOS.GcRealloc
import NexusOS.MemoryAreas

/-!
Whole runs of the collector's heap: any sequence of `gc_alloc`, `gc_free`,
`gc_realloc`, collections and stores by the program, from `gc_init` on. The
allocation table lies in the memory the program writes, and so do the allocator's
own variables. An object the roots keep leading to is neither moved, nor freed,
nor written to by the allocator, whatever is allocated and collected around it.
-/

namespace NexusOS.GcRuns

open BlockCopy ByteMemory FirstFit Marking GcHeap GcMark GcCollect GcAlloc GcFree GcRealloc
open MemoryAreas (Inside)

inductive Call where
  | alloc (nBytes sp : UInt32)
  | free (ptr : UInt32)
  | realloc (ptr nBytes : UInt32) (allowMove : Bool) (sp : UInt32)
  | collect (sp : UInt32)
  | store (a : UInt32) (c : UInt8)

/-- The table and its gap byte. -/
def tableArea (a : Area) : MemoryAreas.Area := ⟨a.gcAllocTableStart, a.gcAllocTableByteLen + 1⟩

/-- A store by the program. One into the table changes the kinds of blocks; what one
into the allocator's own variables does is not said. -/
def storeByte (own : MemoryAreas.Area) (h : Heap) (a : UInt32) (c : UInt8) : Option Heap :=
  if Inside own a then none
  else if Inside (tableArea h.area) a then
    some { h with area := { h.area with
      gcAllocTable :=
        Function.update h.area.gcAllocTable (offset h.area.gcAllocTableStart a) c } }
  else some { h with memory := Function.update h.memory a c }

/-- `own` is where `mp_state_ctx` keeps the variables of `gc.c`. -/
def step (r : Roots) (own : MemoryAreas.Area) (h : Heap) : Call → Option Heap
  | .alloc nBytes sp => some (gcAlloc h r sp nBytes).1
  | .free ptr => gcFree h ptr
  | .realloc ptr nBytes allowMove sp => (gcRealloc h r sp ptr nBytes allowMove).map (·.1)
  | .collect sp => some (gcCollect h r sp)
  | .store a c => storeByte own h a c

def run (r : Roots) (own : MemoryAreas.Area) : List Call → Heap → Option Heap
  | [], h => some h
  | call :: rest, h => (step r own h call).bind (run r own rest)

/-- `holds` of every call of a run in the heap it is made in. -/
def Along (r : Roots) (own : MemoryAreas.Area) (holds : Heap → Call → Prop) :
    List Call → Heap → Prop
  | [], _ => True
  | call :: rest, h =>
      holds h call ∧ ∀ next, step r own h call = some next → Along r own holds rest next

/-- The program passes to `gc_realloc` only objects its roots lead to, and no size
within 15 bytes of the address space, and it stores nothing into what is the
allocator's. -/
def Proper (r : Roots) (own : MemoryAreas.Area) (h : Heap) : Call → Prop
  | .realloc ptr nBytes _ sp => nBytes.toNat + 15 < 2 ^ 32 ∧
      ∀ block, Refers h.area ptr block → Live h r sp block
  | .store a _ => ¬ Inside own a ∧ ¬ Inside (tableArea h.area) a
  | _ => True

/-- The call is not about the object of `owner`, and the roots lead to it whenever
the allocator may collect. -/
def Spares (r : Roots) (owner : Nat) (h : Heap) : Call → Prop
  | .alloc _ sp => Live h r sp owner
  | .free ptr => ¬ Refers h.area ptr owner
  | .realloc ptr _ _ sp => Live h r sp owner ∧ ¬ Refers h.area ptr owner
  | .collect sp => Live h r sp owner
  | .store _ _ => True

/-- What the program alone has written. -/
def written : List Call → Memory → Memory
  | [], m => m
  | .store a c :: rest, m => written rest (Function.update m a c)
  | _ :: rest, m => written rest m

structure Ready (h : Heap) : Prop where
  wellFormed : WellFormed h.area
  unlocked : h.gcLockDepth = 0

theorem init_ready (memory : Memory) (start finish : UInt32) (room : start < roundDown finish) :
    Ready (gcInit memory start finish room) := by
  have free : ∀ block, (gcInit memory start finish room).area.kind block = .free := by
    intro block
    change kindOf (((0 : UInt8) >>> PackedTable.shift block) &&& 3) = .free
    rw [UInt8.zero_shiftRight]
    rfl
  refine ⟨⟨⟨fun block _ => free block, by simp [free], fun block tail => ?_⟩, by simp [free],
    fun block used => absurd (free block) used, fun block below => ?_⟩, rfl⟩
  · rw [free] at tail
    exact absurd tail (by decide)
  · exact absurd below (by change ¬ block < 0 * 4; omega)

/-- The object of `owner` is where it was and holds what `m` has there. -/
structure Holding (m : Memory) (h next : Heap) (owner : Nat) : Prop where
  kind : next.area.kind owner = h.area.kind owner
  owns : ∀ block, Owns next.area owner block ↔ Owns h.area owner block
  bytes : ∀ k < chainBlocks h.area owner * 16,
    next.memory (ptrFromBlock h.area owner + UInt32.ofNat k) =
      m (ptrFromBlock h.area owner + UInt32.ofNat k)

/-- What a call leaves: a heap the next can be made in, in the same place, with the
objects of `spared` where they were. -/
structure Stepped (m : Memory) (h next : Heap) (spared : Nat → Prop) : Prop where
  ready : Ready next
  pool : next.area.gcPoolStart = h.area.gcPoolStart
  len : next.area.gcAllocTableByteLen = h.area.gcAllocTableByteLen
  holding : ∀ owner, IsHead h.area owner → spared owner → Holding m h next owner

theorem untouched_holding {h next : Heap} {owner : Nat} (untouched : Untouched h next owner) :
    Holding h.memory h next owner := ⟨untouched.kind, untouched.owns, untouched.bytes⟩

section Steps

variable {r : Roots} {own : MemoryAreas.Area} {h next : Heap}

theorem stepped_same (ready : Ready h) (spared : Nat → Prop) :
    Stepped h.memory h h spared :=
  ⟨ready, rfl, rfl, fun owner _ _ => untouched_holding (untouched_refl h owner)⟩

theorem stepped_fewer {m : Memory} {spared fewer : Nat → Prop} (stepped : Stepped m h next spared)
    (sub : ∀ owner, fewer owner → spared owner) : Stepped m h next fewer :=
  ⟨stepped.ready, stepped.pool, stepped.len,
    fun owner isHead living => stepped.holding owner isHead (sub owner living)⟩

theorem base_stepped {base : Heap} {kept : Nat → Prop} (ready : Ready h)
    (found : Base h base kept) :
    Stepped h.memory h base kept :=
  ⟨⟨found.wellFormed, found.unlocked.trans ready.unlocked⟩, found.pool, found.len,
    fun owner isHead living => untouched_holding (found.untouched owner isHead living)⟩

theorem alloc_stepped (ready : Ready h) (sp nBytes : UInt32) :
    Stepped h.memory h (gcAlloc h r sp nBytes).1 (Live h r sp) := by
  rcases Nat.eq_zero_or_pos (blocksFor nBytes) with zero | pos
  · have same : (gcAlloc h r sp nBytes).1 = h := by
      rw [gcAlloc, zero]
      rfl
    rw [same]
    exact stepped_same ready _
  · rcases alloc_cases r sp ready.wellFormed pos ready.unlocked with ⟨base, found, _, result⟩ |
      ⟨base, after, start, found, granted, result⟩
    · rw [result]
      exact base_stepped ready found
    · have frame := granted.frame
      rw [result]
      refine ⟨⟨granted.wellFormed, ?_⟩, ?_, ?_, fun owner isHead live => ?_⟩
      · rw [frame]
        exact found.unlocked.trans ready.unlocked
      · rw [frame]
        exact found.pool
      · rw [frame]
        exact found.len
      · have toBase := found.untouched owner isHead live
        have inBase := ((toBase.owns owner).mpr (owns_self isHead)).isHead
        exact untouched_holding (untouched_trans toBase
          (granted_untouched granted pos found.wellFormed.toShaped inBase)
          ready.wellFormed.toShaped found.wellFormed.toShaped isHead)

theorem collect_memory (r : Roots) (sp : UInt32) (ready : Ready h) :
    (gcCollect h r sp).memory = h.memory := by
  have frame := (collected h r sp ready.wellFormed).frame
  rw [frame]

-- A request is refused, or met from the heap as it was or as a collection leaves it.
theorem alloc_place (r : Roots) (sp nBytes : UInt32) (ready : Ready h)
    (pos : 0 < blocksFor nBytes) :
    ∃ base, Base h base (Live h r sp) ∧ base.memory = h.memory ∧
      (gcAlloc h r sp nBytes = (base, 0) ∧
          NoRun (IsFree base.area) 0 (blocksFor nBytes) base.area.blocks ∨
        ∃ after start, Granted base (blocksFor nBytes) start after ∧
          gcAlloc h r sp nBytes = (after, ptrFromBlock base.area start)) := by
  have same := base_same (Live h r sp) ready.wellFormed
  have collection := base_collected r sp ready.wellFormed
  have memory := collect_memory r sp ready
  have outcome := alloc_outcome r sp ready.wellFormed pos ready.unlocked
  generalize gcAlloc h r sp nBytes = result at outcome
  cases outcome with
  | direct start after granted => exact ⟨h, same, rfl, Or.inr ⟨after, start, granted, rfl⟩⟩
  | collected start after _ _ granted =>
      exact ⟨_, collection, memory, Or.inr ⟨after, start, granted, rfl⟩⟩
  | refused _ noRun => exact ⟨h, same, rfl, Or.inl ⟨rfl, noRun⟩⟩
  | exhausted _ _ still => exact ⟨_, collection, memory, Or.inl ⟨rfl, still⟩⟩

theorem free_stepped (ready : Ready h) {ptr : UInt32} (freed : gcFree h ptr = some next) :
    Stepped h.memory h next fun owner => ¬ Refers h.area ptr owner := by
  rw [gcFree, ready.unlocked, if_neg (Nat.lt_irrefl 0)] at freed
  split at freed
  · cases freed
    exact stepped_same ready _
  · split at freed
    case isTrue object =>
      cases freed
      rcases (is_object_iff h.area ptr).mp object with ⟨valid, head⟩
      refine ⟨⟨free_well_formed ready.wellFormed head, ready.unlocked⟩, rfl, rfl,
        fun owner isHead other => ?_⟩
      apply untouched_holding
      apply free_untouched ready.wellFormed.toShaped head isHead
      exact fun same => other ⟨valid, same.symm⟩
    case isFalse => exact absurd freed (by simp)

theorem realloc_stepped (ready : Ready h) {ptr nBytes sp : UInt32} {allowMove : Bool}
    {out : UInt32} (proper : Proper r own h (.realloc ptr nBytes allowMove sp))
    (done : gcRealloc h r sp ptr nBytes allowMove = some (next, out)) :
    Stepped h.memory h next fun owner => Live h r sp owner ∧ ¬ Refers h.area ptr owner := by
  by_cases null : ptr = 0
  · rw [gcRealloc, if_pos null] at done
    have allocated := alloc_stepped (r := r) ready sp nBytes
    rw [Option.some.inj done] at allocated
    exact stepped_fewer allocated fun owner living => living.1
  by_cases zero : nBytes = 0
  · rw [gcRealloc, if_neg null, if_pos zero] at done
    rcases Option.map_eq_some_iff.mp done with ⟨freed, found, same⟩
    cases same
    exact stepped_fewer (free_stepped ready found) fun owner living => living.2
  by_cases object : isObject h.area ptr
  · rcases (is_object_iff h.area ptr).mp object with ⟨valid, head⟩
    have pointer := ((refers_iff h.area ptr _).mp ⟨valid, rfl⟩).2
    have live := proper.2 _ ⟨valid, rfl⟩
    have positive : 0 < nBytes.toNat :=
      Nat.pos_of_ne_zero fun null => zero (UInt32.toNat_inj.mp null)
    rcases realloc_cases r sp allowMove ready.wellFormed ready.unlocked head live positive proper.1
      with ⟨after, result, found, _, cases⟩
    rw [← pointer, done] at found
    cases found
    rcases cases with ⟨_, base⟩ | ⟨target, _, resized⟩
    · exact stepped_fewer (base_stepped ready base) fun owner living => living.1
    · refine ⟨⟨resized.wellFormed, resized.lock.trans ready.unlocked⟩, resized.pool, resized.len,
        fun owner isHead living => untouched_holding (resized.others owner ?_ isHead living.1)⟩
      exact fun same => living.2 ⟨valid, same.symm⟩
  · rw [gcRealloc, if_neg null, if_neg zero, ready.unlocked, if_neg (Nat.lt_irrefl 0),
      if_neg object] at done
    exact absurd done (by simp)

theorem step_stepped {call : Call} (ready : Ready h) (proper : Proper r own h call)
    (stepped : step r own h call = some next) :
    Stepped (written [call] h.memory) h next fun owner => Spares r owner h call := by
  cases call with
  | alloc nBytes sp =>
      cases stepped
      exact alloc_stepped ready sp nBytes
  | free ptr => exact free_stepped ready stepped
  | realloc ptr nBytes allowMove sp =>
      rcases Option.map_eq_some_iff.mp stepped with ⟨⟨after, out⟩, done, same⟩
      cases same
      exact realloc_stepped ready proper done
  | collect sp =>
      cases stepped
      exact base_stepped ready (base_collected r sp ready.wellFormed)
  | store a c =>
      have stored : step r own h (.store a c) =
          some { h with memory := Function.update h.memory a c } :=
        (if_neg proper.1).trans (if_neg proper.2)
      obtain rfl := Option.some.inj (stored.symm.trans stepped)
      exact ⟨⟨ready.wellFormed, ready.unlocked⟩, rfl, rfl,
        fun owner isHead _ => ⟨rfl, fun _ => Iff.rfl, fun _ _ => rfl⟩⟩

end Steps

theorem written_congr (calls : List Call) {m other : Memory} {a : UInt32} (same : other a = m a) :
    written calls other a = written calls m a := by
  induction calls generalizing m other with
  | nil => exact same
  | cons call rest ih =>
      cases call with
      | store spot c =>
          apply ih
          by_cases here : a = spot
          · rw [here, Function.update_self, Function.update_self]
          · rw [Function.update_of_ne here, Function.update_of_ne here, same]
      | alloc => exact ih same
      | free => exact ih same
      | realloc => exact ih same
      | collect => exact ih same

theorem written_cons (call : Call) (rest : List Call) (m : Memory) :
    written (call :: rest) m = written rest (written [call] m) := by
  cases call <;> rfl

theorem along_mono {r : Roots} {own : MemoryAreas.Area} {holds weaker : Heap → Call → Prop}
    {calls : List Call} {h : Heap}
    (along : Along r own holds calls h) (weaken : ∀ h call, holds h call → weaker h call) :
    Along r own weaker calls h := by
  induction calls generalizing h with
  | nil => trivial
  | cons call rest ih =>
      exact ⟨weaken h call along.1, fun next stepped => ih (along.2 next stepped)⟩

theorem run_ready {r : Roots} {own : MemoryAreas.Area} {calls : List Call} {h last : Heap}
    (ready : Ready h)
    (proper : Along r own (Proper r own) calls h) (ran : run r own calls h = some last) :
    Ready last ∧ last.area.gcPoolStart = h.area.gcPoolStart ∧
      last.area.gcAllocTableByteLen = h.area.gcAllocTableByteLen := by
  induction calls generalizing h with
  | nil =>
      cases ran
      exact ⟨ready, rfl, rfl⟩
  | cons call rest ih =>
      rcases Option.bind_eq_some_iff.mp ran with ⟨next, stepped, later⟩
      have result := step_stepped ready proper.1 stepped
      rcases ih result.ready (proper.2 next stepped) later with ⟨isReady, pool, len⟩
      exact ⟨isReady, pool.trans result.pool, len.trans result.len⟩

theorem run_holding {r : Roots} {own : MemoryAreas.Area} {calls : List Call} {h last : Heap}
    {owner : Nat} (ready : Ready h)
    (isHead : IsHead h.area owner)
    (along : Along r own (fun h call => Proper r own h call ∧ Spares r owner h call) calls h)
    (ran : run r own calls h = some last) : Holding (written calls h.memory) h last owner := by
  induction calls generalizing h with
  | nil =>
      cases ran
      exact untouched_holding (untouched_refl _ owner)
  | cons call rest ih =>
      rcases Option.bind_eq_some_iff.mp ran with ⟨next, stepped, later⟩
      have result := step_stepped ready along.1.1 stepped
      have first := result.holding owner isHead along.1.2
      have nextHead := ((first.owns owner).mpr (owns_self isHead)).isHead
      have second := ih result.ready nextHead (along.2 next stepped) later
      have chain := chain_same ready.wellFormed.gap result.ready.wellFormed.gap isHead first.owns
      refine ⟨second.kind.trans first.kind,
        fun block => (second.owns block).trans (first.owns block), fun k inside => ?_⟩
      have bytes := second.bytes k (chain ▸ inside)
      rw [same_ptr result.pool] at bytes
      rw [bytes, written_cons]
      exact written_congr rest (first.bytes k inside)

section Busy

/-- Eight blocks' room at 7 MiB, with one word on the stack that points at the first. -/
def emptyHeap : Heap := gcInit twoObjects.memory 0x700000 0x70009F (by decide)

def stateVariables : MemoryAreas.Area := ⟨0x80100, 0x140⟩

/-- Beside the held object a second one is allocated and its address put on the
stack; a third one keeps it from growing, so it moves; the third one is freed, the
held one written, and a fourth forgotten and collected. -/
def busyCalls : List Call :=
  [.alloc 16 0x90000, .store 0x8FFFC 0x30, .store 0x8FFFE 0x70, .alloc 16 0x8FFFC,
    .realloc 0x700030 32 true 0x8FFFC, .store 0x8FFFC 0x50, .free 0x700040, .store 0x700010 7,
    .store 0x70002F 9, .alloc 16 0x8FFFC, .collect 0x8FFFC]

/-- The heap after `n` of these calls. -/
def busy : Nat → Heap
  | 0 => (gcAlloc emptyHeap oneRoot 0x90000 20).1
  | n + 1 => (busyCalls[n]?.bind (step oneRoot stateVariables (busy n))).getD (busy n)

theorem busy_step (n : Nat) {call : Call} (here : busyCalls[n]? = some call)
    (defined : (step oneRoot stateVariables (busy n) call).isSome = true) :
    step oneRoot stateVariables (busy n) call = some (busy (n + 1)) := by
  rcases Option.isSome_iff_exists.mp defined with ⟨next, stepped⟩
  rw [busy, here, Option.bind_some, stepped]
  rfl

theorem busy_along {holds : Heap → Call → Prop} {n : Nat} {call : Call} {rest : List Call}
    (here : busyCalls[n]? = some call)
    (defined : (step oneRoot stateVariables (busy n) call).isSome = true)
    (now : holds (busy n) call)
    (later : Along oneRoot stateVariables holds rest (busy (n + 1)) ∧
      run oneRoot stateVariables rest (busy (n + 1)) = some (busy 11)) :
    Along oneRoot stateVariables holds (call :: rest) (busy n) ∧
      run oneRoot stateVariables (call :: rest) (busy n) = some (busy 11) := by
  have stepped := busy_step n here defined
  refine ⟨⟨now, fun next found => ?_⟩, ?_⟩
  · cases stepped.symm.trans found
    exact later.1
  · rw [run, stepped, Option.bind_some]
    exact later.2

theorem busy_live {n k block : Nat} {sp : UInt32}
    (found : k < stackWords oneRoot sp ∧
      verifyPtr (busy n).area (wordAt (busy n) sp k) ∧
      blockFromPtr (busy n).area (wordAt (busy n) sp k) = block ∧
      (busy n).area.kind block = .head) : Live (busy n) oneRoot sp block :=
  reachable_root (Or.inr ⟨⟨k, found.1, found.2.1, found.2.2.1⟩, Or.inl found.2.2.2⟩)

theorem busy_held :
    Along oneRoot stateVariables (fun now call =>
        Proper oneRoot stateVariables now call ∧ Spares oneRoot 0 now call) busyCalls (busy 0) ∧
      run oneRoot stateVariables busyCalls (busy 0) = some (busy 11) := by
  have first : Live (busy 0) oneRoot 0x90000 0 := busy_live (k := 0) (by decide +kernel)
  have third : Live (busy 3) oneRoot 0x8FFFC 0 := busy_live (k := 1) (by decide +kernel)
  have moving : Live (busy 4) oneRoot 0x8FFFC 2 := busy_live (k := 0) (by decide +kernel)
  have fourth : Live (busy 4) oneRoot 0x8FFFC 0 := busy_live (k := 1) (by decide +kernel)
  have ninth : Live (busy 9) oneRoot 0x8FFFC 0 := busy_live (k := 1) (by decide +kernel)
  have last : Live (busy 10) oneRoot 0x8FFFC 0 := busy_live (k := 1) (by decide +kernel)
  refine busy_along rfl rfl ⟨trivial, first⟩ ?_
  refine busy_along rfl (by decide +kernel) ⟨⟨by decide +kernel, by decide +kernel⟩, trivial⟩ ?_
  refine busy_along rfl (by decide +kernel) ⟨⟨by decide +kernel, by decide +kernel⟩, trivial⟩ ?_
  refine busy_along rfl rfl ⟨trivial, third⟩ ?_
  refine busy_along rfl (by decide +kernel) ⟨⟨by decide, fun block refers => ?_⟩, fourth, ?_⟩ ?_
  · obtain rfl : 2 = block := Eq.trans (by decide +kernel) refers.2
    exact moving
  · exact fun refers => absurd refers.2 (by decide +kernel)
  refine busy_along rfl (by decide +kernel) ⟨⟨by decide +kernel, by decide +kernel⟩, trivial⟩ ?_
  refine busy_along rfl (by decide +kernel) ⟨trivial, fun refers => ?_⟩ ?_
  · exact absurd refers.2 (by decide +kernel)
  refine busy_along rfl (by decide +kernel) ⟨⟨by decide +kernel, by decide +kernel⟩, trivial⟩ ?_
  refine busy_along rfl (by decide +kernel) ⟨⟨by decide +kernel, by decide +kernel⟩, trivial⟩ ?_
  refine busy_along rfl rfl ⟨trivial, ninth⟩ ?_
  exact busy_along rfl rfl ⟨trivial, last⟩ ⟨trivial, rfl⟩

end Busy

/-- In every heap a run from `gc_init` leads to, the objects lie in the pool, which is
above the allocation table and its gap byte, and no two of them share a byte. -/
theorem reachable_heap_sound (memory : Memory) (start finish : UInt32)
    (room : start < roundDown finish) (r : Roots) (own : MemoryAreas.Area) (calls : List Call)
    (h : Heap)
    (proper : Along r own (Proper r own) calls (gcInit memory start finish room))
    (ran : run r own calls (gcInit memory start finish room) = some h) :
    WellFormed h.area ∧
      (∀ block, h.area.kind block = .head →
        start.toNat + h.area.gcAllocTableByteLen + 1 ≤ (ptrFromBlock h.area block).toNat ∧
        (ptrFromBlock h.area block).toNat + gcNbytes h (ptrFromBlock h.area block) ≤
          (roundDown finish).toNat) ∧
      ∀ first second, h.area.kind first = .head → h.area.kind second = .head → first ≠ second →
        (ptrFromBlock h.area first).toNat + gcNbytes h (ptrFromBlock h.area first) ≤
          (ptrFromBlock h.area second).toNat ∨
        (ptrFromBlock h.area second).toNat + gcNbytes h (ptrFromBlock h.area second) ≤
          (ptrFromBlock h.area first).toNat := by
  rcases run_ready (init_ready memory start finish room) proper ran with ⟨ready, pool, len⟩
  have shaped := ready.wellFormed.toShaped
  have table := table_below_pool start (roundDown finish) (round_down_aligned finish) room
  have whole := (gcInit memory start finish room).area.sized
  have place : ∀ block, h.area.kind block = .head →
      (ptrFromBlock h.area block).toNat = h.area.gcPoolStart.toNat + 16 * block ∧
      gcNbytes h (ptrFromBlock h.area block) = chainBlocks h.area block * 16 ∧
      block + chainBlocks h.area block ≤ h.area.gcAllocTableByteLen * 4 := by
    intro block head
    have inside := owns_inside shaped.gap (owns_self (Or.inl head))
    exact ⟨ptr_from_block_exact (Nat.le_of_lt inside), nbytes_exact shaped head,
      chain_inside shaped.gap inside⟩
  refine ⟨ready.wellFormed, fun block head => ?_, fun first second head other apart => ?_⟩
  · rcases place block head with ⟨address, size, inside⟩
    rw [address, size, pool, len]
    rw [len] at inside
    change _ + 64 * _ = (roundDown finish).toNat at whole
    constructor
    · exact Nat.le_trans table (Nat.le_add_right _ _)
    · omega
  · rcases place first head with ⟨address, size, _⟩
    rcases place second other with ⟨address', size', _⟩
    have disjoint := objects_apart shaped.gap (Or.inl head) (Or.inl other) apart
    omega

theorem busy_heap_sound : WellFormed (busy 11).area ∧
    ∀ block, (busy 11).area.kind block = .head →
      0x700000 + (busy 11).area.gcAllocTableByteLen + 1 ≤
        (ptrFromBlock (busy 11).area block).toNat := by
  have proper : Along oneRoot stateVariables (Proper oneRoot stateVariables)
      (.alloc 20 0x90000 :: busyCalls) emptyHeap := by
    refine ⟨trivial, fun next stepped => ?_⟩
    obtain rfl : busy 0 = next := Option.some.inj stepped
    exact along_mono busy_held.1 fun _ _ both => both.1
  have ran : run oneRoot stateVariables (.alloc 20 0x90000 :: busyCalls) emptyHeap =
      some (busy 11) := by
    rw [run, step, Option.bind_some]
    exact busy_held.2
  have sound := reachable_heap_sound twoObjects.memory 0x700000 0x70009F (by decide) oneRoot
    stateVariables (.alloc 20 0x90000 :: busyCalls) (busy 11) proper ran
  exact ⟨sound.1, fun block head => (sound.2.1 block head).1⟩

/-- An object that the roots lead to whenever the allocator may collect, and that is
not freed or reallocated, stays where it is, keeps its size, and holds what the
program stored in it. -/
theorem object_survives (memory : Memory) (start finish : UInt32)
    (room : start < roundDown finish) (r : Roots) (own : MemoryAreas.Area)
    (earlier calls : List Call) (h last : Heap)
    (owner : Nat) (proper : Along r own (Proper r own) earlier (gcInit memory start finish room))
    (reached : run r own earlier (gcInit memory start finish room) = some h)
    (head : h.area.kind owner = .head)
    (held : Along r own (fun now call => Proper r own now call ∧ Spares r owner now call) calls h)
    (ran : run r own calls h = some last) :
    last.area.kind owner = .head ∧
      ptrFromBlock last.area owner = ptrFromBlock h.area owner ∧
      gcNbytes last (ptrFromBlock h.area owner) = gcNbytes h (ptrFromBlock h.area owner) ∧
      ∀ k < gcNbytes h (ptrFromBlock h.area owner),
        last.memory (ptrFromBlock h.area owner + UInt32.ofNat k) =
          written calls h.memory (ptrFromBlock h.area owner + UInt32.ofNat k) := by
  have ready := (run_ready (init_ready memory start finish room) proper reached).1
  have shaped := ready.wellFormed.toShaped
  rcases run_ready ready (along_mono held fun _ _ both => both.1) ran with ⟨lastReady, pool, _⟩
  have holding := run_holding ready (Or.inl head) held ran
  have lastHead := holding.kind.trans head
  have lastShaped := lastReady.wellFormed.toShaped
  have chain := chain_same shaped.gap lastShaped.gap (Or.inl head) holding.owns
  have size := nbytes_exact shaped head
  have lastSize := nbytes_exact lastShaped lastHead
  rw [same_ptr pool, chain] at lastSize
  rw [size, lastSize]
  exact ⟨lastHead, same_ptr pool owner, rfl, holding.bytes⟩


theorem busy_object_survives :
    (busy 11).area.kind 0 = .head ∧ ptrFromBlock (busy 11).area 0 = 0x700010 ∧
      gcNbytes (busy 11) 0x700010 = 32 ∧ (busy 11).memory 0x700010 = 7 ∧
      (busy 11).memory 0x70002F = 9 ∧ (busy 11).memory 0x700011 = 0 := by
  have size : gcNbytes (busy 0) (ptrFromBlock (busy 0).area 0) = 32 := by decide +kernel
  rcases object_survives twoObjects.memory 0x700000 0x70009F (by decide) oneRoot stateVariables
    [.alloc 20 0x90000] busyCalls (busy 0) (busy 11) 0 ⟨trivial, fun _ _ => trivial⟩ rfl
    (by decide +kernel) busy_held.1 busy_held.2 with ⟨head, place, kept, bytes⟩
  rw [size] at kept bytes
  exact ⟨head, place, kept, (bytes 0 (by decide)).trans (by decide +kernel),
    (bytes 31 (by decide)).trans (by decide +kernel),
    (bytes 1 (by decide)).trans (by decide +kernel)⟩

end NexusOS.GcRuns
