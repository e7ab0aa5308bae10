import NexusOS.ByteMemory
import Mathlib.Data.List.Induction

/-!
The C half of `kernel/drivers/idt.c`: the table of IRQ handlers, `isr_handler`
and `irq_handler`. A handler is known by its name and by what it does to memory;
NULL is `none`. Port writes, printed text and the calls themselves are events.
-/

namespace NexusOS.IrqDispatch

open ByteMemory

variable {Handler : Type}

structure Regs where
  ds : UInt32
  edi : UInt32
  esi : UInt32
  ebp : UInt32
  esp : UInt32
  ebx : UInt32
  edx : UInt32
  ecx : UInt32
  eax : UInt32
  intNo : UInt32
  errCode : UInt32
  eip : UInt32
  cs : UInt32
  eflags : UInt32
  useresp : UInt32
  ss : UInt32

def readRegs (m : Memory) (r : UInt32) : Regs where
  ds := load32 m r
  edi := load32 m (r + 4)
  esi := load32 m (r + 8)
  ebp := load32 m (r + 12)
  esp := load32 m (r + 16)
  ebx := load32 m (r + 20)
  edx := load32 m (r + 24)
  ecx := load32 m (r + 28)
  eax := load32 m (r + 32)
  intNo := load32 m (r + 36)
  errCode := load32 m (r + 40)
  eip := load32 m (r + 44)
  cs := load32 m (r + 48)
  eflags := load32 m (r + 52)
  useresp := load32 m (r + 56)
  ss := load32 m (r + 60)

inductive CFunction where
  | isrHandler
  | irqHandler

inductive Event (Handler : Type) where
  | received (function : CFunction) (regs : Regs)
  | handled (handler : Handler) (r : UInt32)
  | outb (port : UInt16) (value : UInt8)
  | written (text : String)

structure World (Handler : Type) where
  memory : Memory
  events : List (Event Handler)

def World.emit (w : World Handler) (event : Event Handler) : World Handler :=
  { w with events := w.events ++ [event] }

abbrev Table (Handler : Type) := Fin 16 → Option Handler

def emptyTable : Table Handler := fun _ => none

inductive TableCall (Handler : Type) where
  | install (irq : Int) (handler : Option Handler)
  | uninstall (irq : Int)

def TableCall.irq : TableCall Handler → Int
  | .install irq _ => irq
  | .uninstall irq => irq

def store (table : Table Handler) (irq : Int) (handler : Option Handler) : Table Handler :=
  if inRange : 0 ≤ irq ∧ irq < 16 then
    Function.update table ⟨irq.toNat, by omega⟩ handler
  else table

def irqInstallHandler (table : Table Handler) (irq : Int) (handler : Option Handler) :
    Table Handler := store table irq handler

def irqUninstallHandler (table : Table Handler) (irq : Int) : Table Handler := store table irq none

def tableCall (table : Table Handler) : TableCall Handler → Table Handler
  | .install irq handler => irqInstallHandler table irq handler
  | .uninstall irq => irqUninstallHandler table irq

def tableAfter (calls : List (TableCall Handler)) : Table Handler :=
  calls.foldl tableCall emptyTable

def isrHandler (w : World Handler) : World Handler := w.emit (.written "Received Exception: ")

theorem line_in_table {intNo : UInt32} (inRange : 32 ≤ intNo ∧ intNo < 48) :
    (intNo - 32).toNat < 16 := by
  have low : 32 ≤ intNo.toNat := UInt32.le_iff_toNat_le.mp inRange.1
  have high : intNo.toNat < 48 := UInt32.lt_iff_toNat_lt.mp inRange.2
  rw [UInt32.toNat_sub_of_le _ _ inRange.1]
  change intNo.toNat - 32 < 16
  omega

/-- `irq_handlers[r->int_no - 32]`, where the number is one of an IRQ. -/
def lineHandler (table : Table Handler) (intNo : UInt32) : Option Handler :=
  if inRange : 32 ≤ intNo ∧ intNo < 48 then
    table ⟨(intNo - 32).toNat, line_in_table inRange⟩
  else none

/-- `effect` is what the installed handlers do to memory. -/
def irqHandler (effect : Handler → UInt32 → Memory → Memory) (table : Table Handler)
    (r : UInt32) (w : World Handler) : World Handler :=
  if r = 0 then w
  else
    let called := match lineHandler table (readRegs w.memory r).intNo with
      | some handler => { w.emit (.handled handler r) with memory := effect handler r w.memory }
      | none => w
    -- `int_no` is read again after the handler has run
    let slave :=
      if (readRegs called.memory r).intNo ≥ 40 then called.emit (.outb 0xA0 0x20) else called
    slave.emit (.outb 0x20 0x20)

/-- The last call for the line was an install, and of this handler. -/
def Installed (calls : List (TableCall Handler)) (irq : Int) (handler : Handler) : Prop :=
  ∃ before after, calls = before ++ .install irq (some handler) :: after ∧
    ∀ call ∈ after, call.irq ≠ irq

theorem installed_concat (calls : List (TableCall Handler)) (last : TableCall Handler) (irq : Int)
    (handler : Handler) : Installed (calls ++ [last]) irq handler ↔
      last = .install irq (some handler) ∨ (last.irq ≠ irq ∧ Installed calls irq handler) := by
  constructor
  · rintro ⟨before, after, split, later⟩
    rcases List.eq_nil_or_concat after with rfl | ⟨after, other, rfl⟩
    · have same := List.append_inj_right' split rfl
      exact .inl (List.cons.inj same).1
    · rw [List.concat_eq_append] at split later
      rw [← List.cons_append, ← List.append_assoc] at split
      have same := List.append_inj_right' split rfl
      have rest := List.append_inj_left' split rfl
      rw [(List.cons.inj same).1]
      refine .inr ⟨later other (by simp), before, after, rest, fun call member => ?_⟩
      exact later call (List.mem_append_left _ member)
  · rintro (rfl | ⟨other, before, after, rfl, later⟩)
    · exact ⟨calls, [], rfl, by simp⟩
    · refine ⟨before, after ++ [last], by simp, fun call member => ?_⟩
      rcases List.mem_append.mp member with old | new
      · exact later call old
      · exact List.mem_singleton.mp new ▸ other

theorem store_line (table : Table Handler) (irq : Int) (handler : Option Handler)
    (line : Fin 16) :
    store table irq handler line = if irq = line.val then handler else table line := by
  unfold store
  by_cases inRange : 0 ≤ irq ∧ irq < 16
  · rw [dif_pos inRange]
    by_cases same : irq = line.val
    · subst same
      rw [if_pos rfl]
      exact Function.update_self ..
    · rw [if_neg same]
      apply Function.update_of_ne
      rintro rfl
      exact same (Int.toNat_of_nonneg inRange.1).symm
  · rw [dif_neg inRange, if_neg]
    rintro rfl
    exact inRange ⟨Int.natCast_nonneg _, Int.ofNat_lt.mpr line.isLt⟩

/-- The table holds what was installed last and not uninstalled since. -/
theorem table_exact (calls : List (TableCall Handler)) (line : Fin 16) (handler : Handler) :
    tableAfter calls line = some handler ↔ Installed calls line.val handler := by
  -- by the last call: it decides its own line and leaves the others alone
  induction calls using List.reverseRecOn with
  | nil =>
      refine iff_of_false (by simp [tableAfter, emptyTable]) ?_
      rintro ⟨before, after, split, _⟩
      simp at split
  | append_singleton calls last ih =>
      have stepped : tableAfter (calls ++ [last]) = tableCall (tableAfter calls) last :=
        List.foldl_append
      rw [installed_concat, ← ih, stepped]
      cases last with
      | install irq installed =>
          simp only [tableCall, irqInstallHandler, store_line, TableCall.irq]
          by_cases same : irq = line.val <;> simp [same]
      | uninstall irq =>
          simp only [tableCall, irqUninstallHandler, store_line, TableCall.irq]
          by_cases same : irq = line.val <;> simp [same]

/-- The 14 words from `ds` to `eflags` that lie on the interrupted stack. -/
def frameWords : Nat := 14

def Keeps (r : UInt32) (before after : Memory) : Prop :=
  ∀ k < 4 * frameWords, after (r + UInt32.ofNat k) = before (r + UInt32.ofNat k)

theorem keeps_stack {r : UInt32} {before after : Memory} (keeps : Keeps r before after)
    {words : List UInt32} (stack : Stack before r words) (size : words.length = frameWords) :
    Stack after r words :=
  stack_congr stack (size ▸ keeps)

def eoi (vector : Nat) : List (Event Handler) :=
  (if 40 ≤ vector then [.outb 0xA0 0x20] else []) ++ [.outb 0x20 0x20]

/-- The installed handler once, or none, and then the end of interrupt. -/
def Dispatched (calls : List (TableCall Handler)) (vector : Nat) (r : UInt32)
    (events : List (Event Handler)) : Prop :=
  (∃ handler, Installed calls (vector - 32) handler ∧ events = .handled handler r :: eoi vector) ∨
    ((∀ handler, ¬ Installed calls (vector - 32) handler) ∧ events = eoi vector)

theorem vector_toNat {vector : Nat} (high : vector < 48) :
    (UInt32.ofNat vector).toNat = vector := by
  rw [UInt32.toNat_ofNat', Nat.mod_eq_of_lt (Nat.lt_trans high (by decide))]

theorem slave_iff {vector : Nat} (high : vector < 48) :
    UInt32.ofNat vector ≥ 40 ↔ 40 ≤ vector := by
  rw [ge_iff_le, UInt32.le_iff_toNat_le, vector_toNat high]
  rfl

theorem line_lt {vector : Nat} (low : 32 ≤ vector) (high : vector < 48) : vector - 32 < 16 := by
  omega

theorem line_of_vector (table : Table Handler) {vector : Nat} (low : 32 ≤ vector)
    (high : vector < 48) :
    lineHandler table (UInt32.ofNat vector) = table ⟨vector - 32, line_lt low high⟩ := by
  have least : 32 ≤ UInt32.ofNat vector := by
    rw [UInt32.le_iff_toNat_le, vector_toNat high]
    exact low
  have most : UInt32.ofNat vector < 48 := by
    rw [UInt32.lt_iff_toNat_lt, vector_toNat high]
    exact high
  rw [lineHandler, dif_pos ⟨least, most⟩]
  congr 1
  apply Fin.ext
  change (UInt32.ofNat vector - 32).toNat = vector - 32
  rw [UInt32.toNat_sub_of_le _ _ least, vector_toNat high]
  rfl

section Handler
variable {effect : Handler → UInt32 → Memory → Memory}
  (manners : ∀ handler r m, Keeps r m (effect handler r m))
include manners

theorem irq_handler_keeps (table : Table Handler) (r : UInt32) (w : World Handler) :
    Keeps r w.memory (irqHandler effect table r w).memory := by
  unfold irqHandler
  by_cases null : r = 0
  · rw [if_pos null]
    exact fun k _ => rfl
  · rw [if_neg null]
    cases lineHandler table (readRegs w.memory r).intNo with
    | none =>
        dsimp only
        split_ifs <;> exact fun k _ => rfl
    | some handler =>
        dsimp only
        split_ifs <;> exact manners handler r w.memory

theorem irq_handler_dispatches (calls : List (TableCall Handler)) {vector : Nat}
    (low : 32 ≤ vector) (high : vector < 48) {r : UInt32} (nonNull : r ≠ 0) {w : World Handler}
    {words : List UInt32} (stack : Stack w.memory r words) (size : words.length = frameWords)
    (intNo : words[9]? = some (UInt32.ofNat vector)) :
    ∃ events, (irqHandler effect (tableAfter calls) r w).events = w.events ++ events ∧
      Dispatched calls vector r events := by
  have number : (readRegs w.memory r).intNo = UInt32.ofNat vector := stack_word stack 9 intNo
  have line := line_of_vector (tableAfter calls) low high
  have owner := table_exact calls ⟨vector - 32, line_lt low high⟩
  have lineNumber : ((vector - 32 : Nat) : Int) = vector - 32 := Int.ofNat_sub low
  simp only [lineNumber] at owner
  unfold irqHandler
  rw [if_neg nonNull, number, line]
  cases installed : tableAfter calls ⟨vector - 32, line_lt low high⟩ with
  | none =>
      refine ⟨eoi vector, ?_, .inr ⟨fun handler found => ?_, rfl⟩⟩
      · simp only [number, slave_iff high, eoi, World.emit]
        split_ifs <;> simp
      · cases installed.symm.trans ((owner handler).mpr found)
  | some handler =>
      -- a handler that keeps the frame is followed by the same `int_no`
      have kept := keeps_stack (manners handler r w.memory) stack size
      have again : (readRegs (effect handler r w.memory) r).intNo = UInt32.ofNat vector :=
        stack_word kept 9 intNo
      refine ⟨.handled handler r :: eoi vector, ?_, .inl ⟨handler, ?_, rfl⟩⟩
      · simp only [again, slave_iff high, eoi, World.emit]
        split_ifs <;> simp
      · exact (owner handler).mp installed

end Handler

-- A NULL pointer ends the handler at once, the interrupt not even acknowledged.
theorem irq_handler_null (effect : Handler → UInt32 → Memory → Memory) (table : Table Handler)
    (w : World Handler) : irqHandler effect table 0 w = w := rfl

end NexusOS.IrqDispatch
