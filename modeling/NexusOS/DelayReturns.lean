import NexusOS.TimerDelay

/-!
`mp_hal_delay_ms` returns, and on time: the processor goes on, the timer goes on,
and its interrupts are spaced as `TimerDelay` has it. An endless schedule gives
the action at each time, and what has happened by then is its beginning.
-/

namespace NexusOS.DelayReturns

open ByteMemory IrqDispatch TimerDelay
open MemoryAreas (apart_above apart_symm load_keeps store_keeps)

variable {kernel : Kernel}

def upTo (schedule : Nat → Action kernel) : Nat → List (Action kernel)
  | 0 => []
  | time + 1 => upTo schedule time ++ [schedule time]

def Runs (schedule : Nat → Action kernel) : Prop :=
  ∀ time, ∃ wait, schedule (time + wait) = .processor

def Ticks (schedule : Nat → Action kernel) : Prop :=
  ∀ time, ∃ wait, (schedule (time + wait)).isTick = true

section Schedule
variable {ms : UInt32} {m : Memory} {schedule : Nat → Action kernel}

def phaseAt (ms : UInt32) (m : Memory) (schedule : Nat → Action kernel) (time : Nat) : Phase :=
  (after ms m (upTo schedule time)).phase

theorem phase_interrupted {time : Nat} {i : Interrupt kernel}
    (next : schedule time = .interrupt i) :
    phaseAt ms m schedule (time + 1) = (phaseAt ms m schedule time).woken := by
  rw [phaseAt, upTo, next]
  exact after_interrupt ms m _ i

theorem phase_processed {time : Nat} (next : schedule time = .processor) :
    ∃ ticks, phaseAt ms m schedule (time + 1) = (phaseAt ms m schedule time).next ms ticks := by
  rw [phaseAt, upTo, next]
  exact ⟨_, after_processor ms m _⟩

theorem next_halts {ticks start : UInt32} {phase : Phase}
    (idle : phase = .halting start ∨ phase = .halted start) :
    phase.next ms ticks = .halted start := by
  rcases idle with rfl | rfl <;> rfl

theorem tick_interrupts {a : Action kernel} (tick : a.isTick = true) : ∃ i, a = .interrupt i := by
  cases a with
  | interrupt i => exact ⟨i, rfl⟩
  | processor => cases tick

theorem reads_woken {phase : Phase} (reads : phase.Reads) : phase.woken = phase := by
  cases phase <;> first | rfl | exact reads.elim

theorem due_read_happens {time : Nat} (wait : Nat) (runs : schedule (time + wait) = .processor)
    (due : (phaseAt ms m schedule time).Reads) :
    ∃ k, time ≤ k ∧ schedule k = .processor ∧ (phaseAt ms m schedule k).Reads := by
  induction wait generalizing time with
  | zero => exact ⟨time, Nat.le_refl time, runs, due⟩
  | succ wait ih =>
      cases next : schedule time with
      | processor => exact ⟨time, Nat.le_refl time, next, due⟩
      | interrupt i =>
          have kept : (phaseAt ms m schedule (time + 1)).Reads := by
            rw [phase_interrupted next, reads_woken due]
            exact due
          obtain ⟨k, later, processed, reads⟩ := ih (by rwa [Nat.add_right_comm]) kept
          exact ⟨k, Nat.le_of_succ_le later, processed, reads⟩

theorem halted_wakes {time : Nat} {start : UInt32} {i : Interrupt kernel} (wait : Nat)
    (comes : schedule (time + wait) = .interrupt i)
    (halted : phaseAt ms m schedule time = .halted start) :
    ∃ k, time ≤ k ∧ (phaseAt ms m schedule k).Reads := by
  induction wait generalizing time with
  | zero =>
      refine ⟨time + 1, Nat.le_succ time, ?_⟩
      rw [Nat.add_zero] at comes
      rw [phase_interrupted comes, halted]
      trivial
  | succ wait ih =>
      cases next : schedule time with
      | processor =>
          have still : phaseAt ms m schedule (time + 1) = .halted start := by
            obtain ⟨ticks, later⟩ := phase_processed next
            exact later.trans (next_halts (.inr halted))
          obtain ⟨k, later, reads⟩ := ih (by rwa [Nat.add_right_comm]) still
          exact ⟨k, Nat.le_of_succ_le later, reads⟩
      | interrupt i =>
          refine ⟨time + 1, Nat.le_succ time, ?_⟩
          rw [phase_interrupted next, halted]
          trivial

/-- Until it returns, the loop reads the counter again and again. -/
theorem reads_recur (runs : Runs schedule) (timer : Ticks schedule)
    (endless : ∀ time, phaseAt ms m schedule time ≠ .returned) (time : Nat) :
    ∃ k, time ≤ k ∧ schedule k = .processor ∧ (phaseAt ms m schedule k).Reads := by
  obtain ⟨wait, processed⟩ := runs time
  have halted {start : UInt32} (idle : phaseAt ms m schedule (time + wait) = .halting start ∨
      phaseAt ms m schedule (time + wait) = .halted start) :
      ∃ k, time ≤ k ∧ (phaseAt ms m schedule k).Reads := by
    obtain ⟨ticks, next⟩ := phase_processed processed
    have asleep := next.trans (next_halts idle)
    obtain ⟨longer, tick⟩ := timer (time + wait + 1)
    obtain ⟨i, comes⟩ := tick_interrupts tick
    obtain ⟨k, later, due⟩ := halted_wakes longer comes asleep
    exact ⟨k, by omega, due⟩
  have due : ∃ k, time ≤ k ∧ (phaseAt ms m schedule k).Reads := by
    cases phase : phaseAt ms m schedule (time + wait) with
    | entered => exact ⟨time + wait, Nat.le_add_right time wait, phase ▸ trivial⟩
    | testing start => exact ⟨time + wait, Nat.le_add_right time wait, phase ▸ trivial⟩
    | halting start => exact halted (.inl phase)
    | halted start => exact halted (.inr phase)
    | returned => exact absurd phase (endless _)
  obtain ⟨k, later, due⟩ := due
  obtain ⟨longer, processed⟩ := runs k
  obtain ⟨read, after, processed, reads⟩ := due_read_happens longer processed due
  exact ⟨read, Nat.le_trans later after, processed, reads⟩

theorem elapsed_grows (past : List (Action kernel)) (a : Action kernel) :
    elapsed past ≤ elapsed (past ++ [a]) := by
  induction past with
  | nil => exact Nat.zero_le _
  | cons b past ih =>
      cases b with
      | interrupt i => exact ih
      | processor => exact (List.sublist_append_left past [a]).countP_le

theorem elapsed_up_to {time later : Nat} (order : time ≤ later) :
    elapsed (upTo schedule time) ≤ elapsed (upTo schedule later) := by
  induction later, order using Nat.le_induction with
  | base => exact Nat.le_refl _
  | succ later _ ih => exact Nat.le_trans ih (elapsed_grows _ _)

theorem started_up_to {time later : Nat} (order : time ≤ later)
    (started : .processor ∈ upTo schedule time) : .processor ∈ upTo schedule later := by
  induction later, order using Nat.le_induction with
  | base => exact started
  | succ later _ ih => exact List.mem_append_left _ ih

theorem elapsed_unbounded (runs : Runs schedule) (timer : Ticks schedule) (count : Nat) :
    ∃ time, .processor ∈ upTo schedule time ∧ count ≤ elapsed (upTo schedule time) := by
  induction count with
  | zero =>
      obtain ⟨wait, processed⟩ := runs 0
      rw [Nat.zero_add] at processed
      exact ⟨wait + 1, by simp [upTo, processed], Nat.zero_le _⟩
  | succ count ih =>
      obtain ⟨time, started, enough⟩ := ih
      obtain ⟨wait, tick⟩ := timer time
      have order := Nat.le_add_right time wait
      have still := started_up_to order started
      have one : ticksIn [schedule (time + wait)] = 1 := List.countP_singleton.trans (if_pos tick)
      refine ⟨time + wait + 1, List.mem_append_left _ still, ?_⟩
      rw [upTo, elapsed_next still, one]
      exact Nat.succ_le_succ (Nat.le_trans enough (elapsed_up_to order))

/-- The delay ends, at a read that finds its ticks. -/
theorem delay_returns (runs : Runs schedule) (timer : Ticks schedule)
    (spaced : ∀ time, Spaced ms m (upTo schedule time)) :
    ∃ time, phaseAt ms m schedule time = .returned := by
  by_contra never
  have endless time : phaseAt ms m schedule time ≠ .returned := fun phase => never ⟨time, phase⟩
  obtain ⟨time, started, enough⟩ := elapsed_unbounded runs timer ms.toNat
  obtain ⟨read, later, processed, reads⟩ := reads_recur runs timer endless time
  have upToRead : upTo schedule (read + 1) = upTo schedule read ++ [.processor] := by
    rw [upTo, processed]
  have fits := upToRead ▸ spaced (read + 1)
  cases phase : phaseAt ms m schedule read with
  | entered => exact (invariant_run (spaced read)).waiting phase (started_up_to later started)
  | testing start =>
      have ended := (test_exact fits phase).mpr (Nat.le_trans enough (elapsed_up_to later))
      rw [← upToRead] at ended
      exact endless (read + 1) ended
  | halting start => exact (phase ▸ reads).elim
  | halted start => exact (phase ▸ reads).elim
  | returned => exact endless read phase

end Schedule

/-- What `mp_hal_delay_ms(ms)` does from the memory `m` on: a test of its loop ends
it if and only if `ms` ticks have come, nothing else ends it, and it does end. -/
structure OnTime (kernel : Kernel) (ms : UInt32) (m : Memory) : Prop where
  tested : ∀ (schedule earlier later : List (Action kernel)) (start : UInt32),
    Spaced ms m schedule → schedule = earlier ++ .processor :: later →
    (after ms m earlier).phase = .testing start →
    ((after ms m (earlier ++ [.processor])).phase = .returned ↔ ms.toNat ≤ elapsed earlier)
  returned : ∀ schedule : List (Action kernel), Spaced ms m schedule →
    ((after ms m schedule).phase = .returned ↔
      ∃ earlier later start, schedule = earlier ++ .processor :: later ∧
        (after ms m earlier).phase = .testing start ∧ ms.toNat ≤ elapsed earlier)
  ends : ∀ schedule : Nat → Action kernel, Runs schedule → Ticks schedule →
    (∀ time, Spaced ms m (upTo schedule time)) →
    ∃ time, phaseAt ms m schedule time = .returned

theorem delay_exact (kernel : Kernel) (ms : UInt32) (m : Memory) : OnTime kernel ms m := by
  constructor
  · intro schedule earlier later start spaced read testing
    have split : schedule = earlier ++ [.processor] ++ later := by simp [read]
    exact test_exact (split ▸ spaced).shorter testing
  · exact fun schedule spaced => returned_exact spaced
  · exact fun schedule runs timer spaced => delay_returns runs timer spaced

/-- A counter at 1 MiB, and a keyboard's handler that writes a word behind it. -/
def pcKernel : Kernel where
  timerTicks := 0x100000
  keyboardHandler _ m := store32 m 0x100004 1
  manners _ _ := load_keeps (store_keeps _ (by decide) (apart_above (by decide) (by decide)))

def pcInterrupt (line : Fin 16) : Interrupt pcKernel where
  line := line
  r := 0x9000
  words := [0x10, 0, 0, 0, 0x9020, 0, 0, 0, 0, UInt32.ofNat (32 + line.val), 0, 0x1000, 8, 0x202]
  nonNull := by decide
  size := rfl
  number := rfl
  apart := apart_symm (apart_above (by decide) (by decide))

/-- The counter wraps at the first tick; a key in between ends `hlt` but not the delay. -/
theorem delay_across_wrap :
    let m := store32 (fun _ => 0) 0x100000 0xFFFFFFFF
    let waiting : List (Action pcKernel) := [.processor, .processor, .processor,
      .interrupt (pcInterrupt 0), .processor, .processor, .interrupt (pcInterrupt 1), .processor,
      .processor, .interrupt (pcInterrupt 0)]
    (after 2 m (waiting ++ [.processor])).phase = .returned :=
  ((delay_exact pcKernel 2 _).tested _ _ [] 0xFFFFFFFF (few_ticks_spaced (by decide)) rfl
    (by decide +kernel)).mpr (by decide)

end NexusOS.DelayReturns
