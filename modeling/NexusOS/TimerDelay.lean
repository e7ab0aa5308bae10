import NexusOS.IrqDispatch
import NexusOS.MemoryAreas

/-!
`mp_hal_delay_ms` of `mphalport.h` against the timer of `kernel/drivers/idt.c`.
The tick counter is 32 bits wide and wraps; the loop compares the difference of
two of its values with `ms` and sleeps in `hlt` between its reads. Interrupts
come between any two steps of the processor, in any order and number: each
leaves its frame in memory and is served by `irq_handler`, which calls the
installed handler. The counter is a word of that memory.
-/

namespace NexusOS.TimerDelay

open ByteMemory IrqDispatch
open MemoryAreas (Area Apart store_keeps load_keeps)

inductive Handler where
  | timerHandler
  | keyboardHandler
  deriving DecidableEq

/-- The divisor 1193 is written in two halves, the low one first. -/
def timerInstall (w : World Handler) (table : Table Handler) : World Handler × Table Handler :=
  let divisor : UInt16 := 1193
  let programmed := ((w.emit (.outb 0x43 0x36)).emit (.outb 0x40 (divisor &&& 0xFF).toUInt8)).emit
    (.outb 0x40 ((divisor >>> 8) &&& 0xFF).toUInt8)
  (programmed, irqInstallHandler table 0 (some .timerHandler))

def keyboardInstall (table : Table Handler) : Table Handler :=
  irqInstallHandler table 1 (some .keyboardHandler)

def kernelTable : Table Handler := keyboardInstall (timerInstall ⟨fun _ => 0, []⟩ emptyTable).2

def timerHandler (timerTicks : UInt32) (m : Memory) : Memory :=
  store32 m timerTicks (load32 m timerTicks + 1)

def timerGetTicks (timerTicks : UInt32) (m : Memory) : UInt32 := load32 m timerTicks

/-- Where `timer_ticks` lies, and the keyboard's handler, which does not write it. -/
structure Kernel where
  timerTicks : UInt32
  keyboardHandler : UInt32 → Memory → Memory
  manners : ∀ r m,
    timerGetTicks timerTicks (keyboardHandler r m) = timerGetTicks timerTicks m

variable {kernel : Kernel}

def effect (kernel : Kernel) : Handler → UInt32 → Memory → Memory
  | .timerHandler, _, m => timerHandler kernel.timerTicks m
  | .keyboardHandler, r, m => kernel.keyboardHandler r m

/-- The processor and the stub leave the words from `ds` to `eflags` at `r`, on a
stack that does not reach into the counter. -/
structure Interrupt (kernel : Kernel) where
  line : Fin 16
  r : UInt32
  words : List UInt32
  nonNull : r ≠ 0
  size : words.length = frameWords
  number : words[9]? = some (UInt32.ofNat (32 + line.val))
  apart : Apart ⟨r, 4 * frameWords⟩ ⟨kernel.timerTicks, 4⟩

def Interrupt.entered (i : Interrupt kernel) (m : Memory) : Memory :=
  storeBytes m i.r (i.words.flatMap bytes32)

def Interrupt.served (i : Interrupt kernel) (m : Memory) : Memory :=
  (irqHandler (effect kernel) kernelTable i.r ⟨i.entered m, []⟩).memory

/-- Where the processor is in `mp_hal_delay_ms`. -/
inductive Phase where
  | entered
  | testing (start : UInt32)
  | halting (start : UInt32)
  | halted (start : UInt32)
  | returned
  deriving DecidableEq

structure Delay where
  memory : Memory
  phase : Phase

inductive Action (kernel : Kernel) where
  | interrupt (i : Interrupt kernel)
  | processor

def Phase.Reads : Phase → Prop
  | .entered | .testing _ => True
  | .halting _ | .halted _ | .returned => False

/-- Any interrupt ends `hlt`, and the loop goes back to its test. -/
def Phase.woken : Phase → Phase
  | .halted start => .testing start
  | phase => phase

/-- A step of the processor, with what `timer_get_ticks` returns at it. -/
def Phase.next (ms ticks : UInt32) : Phase → Phase
  | .entered => .testing ticks
  | .testing start => if ticks - start < ms then .halting start else .returned
  | .halting start => .halted start
  | .halted start => .halted start
  | .returned => .returned

def Delay.ticks (kernel : Kernel) (d : Delay) : UInt32 := timerGetTicks kernel.timerTicks d.memory

def step (ms : UInt32) (d : Delay) : Action kernel → Delay
  | .interrupt i => ⟨i.served d.memory, d.phase.woken⟩
  | .processor => ⟨d.memory, d.phase.next ms (d.ticks kernel)⟩

def after (ms : UInt32) (m : Memory) (actions : List (Action kernel)) : Delay :=
  actions.foldl (step ms) ⟨m, .entered⟩

def Action.isTick : Action kernel → Bool
  | .interrupt i => i.line = 0
  | .processor => false

def ticksIn (actions : List (Action kernel)) : Nat := actions.countP Action.isTick

/-- The ticks since the loop's `start` was read, which is the processor's first step. -/
def elapsed : List (Action kernel) → Nat
  | [] => 0
  | .processor :: rest => ticksIn rest
  | .interrupt _ :: rest => elapsed rest

/-- No step of the processor in `between` reads the counter, `earlier` and one
step of the processor having gone before. -/
def Quiet (ms : UInt32) (m : Memory) (earlier between : List (Action kernel)) : Prop :=
  ∀ first others, between = first ++ .processor :: others →
    ¬ (after ms m (earlier ++ .processor :: first)).phase.Reads

/-- Fewer than 2^32 - `ms` ticks between any two consecutive reads. -/
def Spaced (ms : UInt32) (m : Memory) (schedule : List (Action kernel)) : Prop :=
  ∀ earlier between later,
    schedule = earlier ++ .processor :: (between ++ .processor :: later) →
    (after ms m earlier).phase.Reads → Quiet ms m earlier between →
    (after ms m (earlier ++ .processor :: between)).phase.Reads →
    ticksIn between < 2 ^ 32 - ms.toNat

theorem kernel_table_line : ∀ line : Fin 16, kernelTable line =
    if line = 0 then some .timerHandler else if line = 1 then some .keyboardHandler else none := by
  decide

theorem timer_handler_counts (timerTicks : UInt32) (m : Memory) :
    timerGetTicks timerTicks (timerHandler timerTicks m) = timerGetTicks timerTicks m + 1 := by
  have nothing : Holds m (timerTicks + UInt32.ofNat 4) [] := trivial
  have size : 4 + 0 ≤ 2 ^ 32 := by omega
  exact load_holds (holds_store (bytes32 (load32 m timerTicks + 1)) nothing size)

theorem irq_serves {r : UInt32} (nonNull : r ≠ 0) (line : Fin 16) (w : World Handler)
    (intNo : (readRegs w.memory r).intNo = UInt32.ofNat (32 + line.val)) :
    timerGetTicks kernel.timerTicks (irqHandler (effect kernel) kernelTable r w).memory =
      timerGetTicks kernel.timerTicks w.memory + if line = 0 then 1 else 0 := by
  have high : 32 + line.val < 48 := by omega
  have owner := line_of_vector kernelTable (Nat.le_add_right 32 line.val) high
  simp only [Nat.add_sub_cancel_left, Fin.eta] at owner
  unfold irqHandler
  rw [if_neg nonNull, intNo, owner, kernel_table_line]
  by_cases timer : line = 0
  · rw [if_pos timer, if_pos timer]
    dsimp only
    split_ifs <;> exact timer_handler_counts kernel.timerTicks w.memory
  · rw [if_neg timer, if_neg timer, UInt32.add_zero]
    by_cases keyboard : line = 1
    · rw [if_pos keyboard]
      dsimp only
      split_ifs <;> exact kernel.manners r w.memory
    · rw [if_neg keyboard]
      dsimp only
      split_ifs <;> rfl

section Interrupt
variable (i : Interrupt kernel) (m : Memory)

theorem frame_bytes : (i.words.flatMap bytes32).length = 4 * frameWords := by
  rw [words_length, i.size]

theorem entered_ticks :
    timerGetTicks kernel.timerTicks (i.entered m) = timerGetTicks kernel.timerTicks m :=
  load_keeps (store_keeps m ((frame_bytes i).symm ▸ by decide) ((frame_bytes i).symm ▸ i.apart))

theorem entered_number : (readRegs (i.entered m) i.r).intNo = UInt32.ofNat (32 + i.line.val) := by
  have nothing : Holds m (i.r + UInt32.ofNat (i.words.flatMap bytes32).length) [] := trivial
  have stack := holds_store (i.words.flatMap bytes32) nothing ((frame_bytes i).symm ▸ by decide)
  rw [List.append_nil] at stack
  exact stack_word stack 9 i.number

theorem served_ticks : timerGetTicks kernel.timerTicks (i.served m) =
    timerGetTicks kernel.timerTicks m + UInt32.ofNat (ticksIn [.interrupt i]) := by
  have answered := @irq_serves kernel _ i.nonNull i.line ⟨i.entered m, []⟩ (entered_number i m)
  rw [Interrupt.served, answered, entered_ticks]
  by_cases timer : i.line = 0
  · simp [ticksIn, Action.isTick, timer]
  · simp [ticksIn, Action.isTick, timer]

end Interrupt

theorem after_append (ms : UInt32) (m : Memory) (past : List (Action kernel)) (a : Action kernel) :
    after ms m (past ++ [a]) = step ms (after ms m past) a := List.foldl_concat ..

theorem after_interrupt (ms : UInt32) (m : Memory) (past : List (Action kernel))
    (i : Interrupt kernel) :
    (after ms m (past ++ [.interrupt i])).phase = (after ms m past).phase.woken :=
  congrArg Delay.phase (after_append ms m past _)

theorem after_processor (ms : UInt32) (m : Memory) (past : List (Action kernel)) :
    (after ms m (past ++ [.processor])).phase =
      (after ms m past).phase.next ms ((after ms m past).ticks kernel) :=
  congrArg Delay.phase (after_append ms m past _)

theorem ticks_append (earlier more : List (Action kernel)) :
    ticksIn (earlier ++ more) = ticksIn earlier + ticksIn more := List.countP_append

theorem ticks_processor (more : List (Action kernel)) :
    ticksIn (.processor :: more) = ticksIn more := List.countP_cons_of_neg Bool.false_ne_true

theorem elapsed_append (earlier between : List (Action kernel)) :
    elapsed (earlier ++ .processor :: between) = elapsed earlier + ticksIn between := by
  induction earlier with
  | nil => exact (Nat.zero_add _).symm
  | cons a earlier ih =>
      cases a with
      | interrupt i => exact ih
      | processor => rw [List.cons_append, elapsed, elapsed, ticks_append, ticks_processor]

theorem elapsed_next {past : List (Action kernel)} (started : .processor ∈ past)
    (a : Action kernel) : elapsed (past ++ [a]) = elapsed past + ticksIn [a] := by
  obtain ⟨earlier, between, rfl⟩ := List.append_of_mem started
  rw [List.append_assoc, List.cons_append, elapsed_append, elapsed_append, ticks_append,
    Nat.add_assoc]

theorem elapsed_before {past : List (Action kernel)} (waiting : .processor ∉ past) :
    elapsed past = 0 := by
  induction past with
  | nil => rfl
  | cons a past ih =>
      cases a with
      | interrupt i => exact ih (fun member => waiting (List.mem_cons_of_mem _ member))
      | processor => exact absurd List.mem_cons_self waiting

def Phase.start : Phase → Option UInt32
  | .testing start | .halting start | .halted start => some start
  | .entered | .returned => none

/-- The last read is known, and at it the delay was not over; the first read,
which the delay is counted from, is not asked that. -/
def LastRead (ms : UInt32) (m : Memory) (past : List (Action kernel)) : Prop :=
  ∃ earlier between, past = earlier ++ .processor :: between ∧
    (after ms m earlier).phase.Reads ∧ Quiet ms m earlier between ∧
    (elapsed earlier = 0 ∨ elapsed earlier < ms.toNat)

structure Looping (ms : UInt32) (m : Memory) (past : List (Action kernel)) (start : UInt32) :
    Prop where
  counter : (after ms m past).ticks kernel = start + UInt32.ofNat (elapsed past)
  lastRead : LastRead ms m past

structure Invariant (ms : UInt32) (m : Memory) (past : List (Action kernel)) : Prop where
  waiting : (after ms m past).phase = .entered → .processor ∉ past
  looping : ∀ start, (after ms m past).phase.start = some start → Looping ms m past start

theorem woken_start (phase : Phase) : phase.woken.start = phase.start := by cases phase <;> rfl

theorem woken_entered (phase : Phase) : phase.woken = .entered ↔ phase = .entered := by
  cases phase <;> simp [Phase.woken]

theorem next_not_entered (ms ticks : UInt32) (phase : Phase) :
    phase.next ms ticks ≠ .entered := by
  cases phase with
  | testing start =>
      rw [Phase.next]
      split_ifs <;> nofun
  | _ => nofun

theorem next_start {ms ticks start : UInt32} {phase : Phase}
    (same : (phase.next ms ticks).start = some start) :
    (phase = .entered ∧ ticks = start) ∨ (phase = .testing start ∧ ticks - start < ms) ∨
      (¬ phase.Reads ∧ phase.start = some start) := by
  cases phase with
  | entered => exact .inl ⟨rfl, Option.some.inj same⟩
  | testing first =>
      rw [Phase.next] at same
      split_ifs at same with early
      · obtain rfl := Option.some.inj same
        exact .inr (.inl ⟨rfl, early⟩)
      · cases same
  | halting first => exact .inr (.inr ⟨id, same⟩)
  | halted first => exact .inr (.inr ⟨id, same⟩)
  | returned => cases same

section Run
variable {ms start : UInt32} {m : Memory} {past : List (Action kernel)}

theorem Spaced.shorter {more : List (Action kernel)} (spaced : Spaced ms m (past ++ more)) :
    Spaced ms m past := by
  rintro earlier between later rfl
  apply spaced earlier between (later ++ more)
  simp

theorem quiet_nil (earlier : List (Action kernel)) : Quiet ms m earlier [] := by
  intro first others split
  simp at split

theorem quiet_append {earlier between : List (Action kernel)} (quiet : Quiet ms m earlier between)
    {a : Action kernel}
    (silent : a = .processor → ¬ (after ms m (earlier ++ .processor :: between)).phase.Reads) :
    Quiet ms m earlier (between ++ [a]) := by
  intro first others split
  rcases List.eq_nil_or_concat others with rfl | ⟨others, last, rfl⟩
  · have same := List.append_inj_left' split rfl
    have read := List.append_inj_right' split rfl
    rw [← same]
    exact silent (List.cons.inj read).1
  · rw [List.concat_eq_append, ← List.cons_append, ← List.append_assoc] at split
    exact quiet first others (List.append_inj_left' split rfl)

theorem difference_exact (looping : Looping ms m past start)
    (reads : (after ms m past).phase.Reads) (spaced : Spaced ms m (past ++ [.processor])) :
    ((after ms m past).ticks kernel - start).toNat = elapsed past := by
  obtain ⟨earlier, between, rfl, first, quiet, early⟩ := looping.lastRead
  have few := spaced earlier between [] (by simp) first quiet reads
  have small : elapsed (earlier ++ .processor :: between) < 2 ^ 32 := by
    rw [elapsed_append]
    omega
  rw [looping.counter]
  exact distance_exact start _ small

theorem step_ticks (d : Delay) (a : Action kernel) :
    (step ms d a).ticks kernel = d.ticks kernel + UInt32.ofNat (ticksIn [a]) := by
  cases a with
  | interrupt i => exact served_ticks i d.memory
  | processor => exact (UInt32.add_zero _).symm

theorem looping_stays (looping : Looping ms m past start) (a : Action kernel)
    (silent : a = .processor → ¬ (after ms m past).phase.Reads) :
    Looping ms m (past ++ [a]) start := by
  obtain ⟨earlier, between, rfl, first, quiet, early⟩ := looping.lastRead
  constructor
  · rw [after_append, elapsed_next (by simp) a, UInt32.ofNat_add, ← UInt32.add_assoc,
      ← looping.counter, step_ticks]
  · exact ⟨earlier, between ++ [a], by simp, first, quiet_append quiet silent, early⟩

theorem looping_reads (reads : (after ms m past).phase.Reads)
    (early : elapsed past = 0 ∨ elapsed past < ms.toNat)
    (counter : (after ms m past).ticks kernel = start + UInt32.ofNat (elapsed past)) :
    Looping ms m (past ++ [.processor]) start := by
  have counted : elapsed (past ++ [.processor]) = elapsed past := elapsed_append past []
  constructor
  · rw [after_append, counted]
    exact counter
  · exact ⟨past, [], rfl, reads, quiet_nil past, early⟩

theorem invariant_interrupt (inv : Invariant ms m past) (i : Interrupt kernel) :
    Invariant ms m (past ++ [.interrupt i]) := by
  constructor
  · intro entered
    rw [after_interrupt, woken_entered] at entered
    simp [inv.waiting entered]
  · intro start same
    rw [after_interrupt, woken_start] at same
    exact looping_stays (inv.looping start same) (.interrupt i) (fun other => by cases other)

theorem invariant_processor (inv : Invariant ms m past)
    (spaced : Spaced ms m (past ++ [.processor])) : Invariant ms m (past ++ [.processor]) := by
  constructor
  · intro entered
    rw [after_processor] at entered
    exact absurd entered (next_not_entered ms _ _)
  · intro start same
    rw [after_processor] at same
    rcases next_start same with ⟨entered, rfl⟩ | ⟨testing, early⟩ | ⟨silent, same⟩
    · have idle := elapsed_before (inv.waiting entered)
      apply looping_reads (entered ▸ trivial) (.inl idle)
      rw [idle]
      exact (UInt32.add_zero _).symm
    · have looping := inv.looping start (testing ▸ rfl)
      have reads : (after ms m past).phase.Reads := testing ▸ trivial
      rw [UInt32.lt_iff_toNat_lt, difference_exact looping reads spaced] at early
      exact looping_reads reads (.inr early) looping.counter
    · exact looping_stays (inv.looping start same) .processor (fun _ => silent)

theorem invariant_run (spaced : Spaced ms m past) : Invariant ms m past := by
  induction past using List.reverseRecOn with
  | nil => exact ⟨fun _ => List.not_mem_nil, nofun⟩
  | append_singleton past a ih =>
      have inv := ih spaced.shorter
      cases a with
      | interrupt i => exact invariant_interrupt inv i
      | processor => exact invariant_processor inv spaced

theorem test_exact (spaced : Spaced ms m (past ++ [.processor]))
    (testing : (after ms m past).phase = .testing start) :
    (after ms m (past ++ [.processor])).phase = .returned ↔ ms.toNat ≤ elapsed past := by
  have looping := (invariant_run spaced.shorter).looping start (testing ▸ rfl)
  have difference := difference_exact looping (testing ▸ trivial) spaced
  rw [after_processor, testing, Phase.next, ← difference, ← UInt32.le_iff_toNat_le]
  split_ifs with early
  · exact iff_of_false nofun (UInt32.not_le.mpr early)
  · exact iff_of_true rfl (UInt32.not_lt.mp early)

theorem return_tests (a : Action kernel) {d : Delay} (running : d.phase ≠ .returned)
    (finished : (step ms d a).phase = .returned) :
    a = .processor ∧ ∃ start, d.phase = .testing start := by
  rcases d with ⟨memory, phase⟩
  cases a with
  | interrupt i => cases phase <;> first | exact absurd rfl running | cases finished
  | processor =>
      cases phase with
      | testing start => exact ⟨rfl, start, rfl⟩
      | returned => exact absurd rfl running
      | _ => cases finished

theorem returned_stays (a : Action kernel) {d : Delay} (finished : d.phase = .returned) :
    (step ms d a).phase = .returned := by
  rcases d with ⟨memory, phase⟩
  cases finished
  cases a <;> rfl

/-- The delay is over exactly when a test of the loop has found its ticks. -/
theorem returned_exact (spaced : Spaced ms m past) :
    (after ms m past).phase = .returned ↔
      ∃ earlier later start, past = earlier ++ .processor :: later ∧
        (after ms m earlier).phase = .testing start ∧ ms.toNat ≤ elapsed earlier := by
  induction past using List.reverseRecOn with
  | nil =>
      refine iff_of_false nofun ?_
      rintro ⟨earlier, later, start, split, _⟩
      simp at split
  | append_singleton past a ih =>
      have before := ih spaced.shorter
      constructor
      · intro finished
        by_cases sooner : (after ms m past).phase = .returned
        · rcases before.mp sooner with ⟨earlier, later, start, rfl, testing, enough⟩
          exact ⟨earlier, later ++ [a], start, by simp, testing, enough⟩
        · have stepped := finished
          rw [after_append] at stepped
          rcases return_tests a sooner stepped with ⟨rfl, start, testing⟩
          exact ⟨past, [], start, rfl, testing, (test_exact spaced testing).mp finished⟩
      · rintro ⟨earlier, later, start, split, testing, enough⟩
        rcases List.eq_nil_or_concat later with rfl | ⟨later, last, rfl⟩
        · rcases List.append_inj' split rfl with ⟨rfl, one⟩
          cases one
          exact (test_exact spaced testing).mpr enough
        · rw [List.concat_eq_append, ← List.cons_append, ← List.append_assoc] at split
          have same := List.append_inj_left' split rfl
          rw [after_append]
          exact returned_stays a (before.mpr ⟨earlier, later, start, same, testing, enough⟩)

theorem few_ticks_spaced (few : ticksIn past < 2 ^ 32 - ms.toNat) : Spaced ms m past := by
  rintro earlier between later rfl _ _ _
  rw [ticks_append, ticks_processor, ticks_append] at few
  omega

end Run

end NexusOS.TimerDelay
