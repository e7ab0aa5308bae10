import NexusOS.IrqDispatch

/-!
The interrupt stubs of `kernel/boot.s` on the part of the processor they use:
the general and data segment registers and a byte-addressed memory. An interrupt
comes without a change of privilege, so the processor pushes EFLAGS, CS, EIP and,
for some exceptions, an error code. What compiled C does to scratch registers
and to memory outside `struct regs` is left open; static data and code are not
in this memory.
-/

namespace NexusOS.InterruptStubs

open ByteMemory IrqDispatch

variable {Handler : Type}

inductive Register where
  | eax
  | ecx
  | edx
  | ebx
  | ebp
  | esi
  | edi
  deriving DecidableEq

inductive Segment where
  | ds
  | es
  | fs
  | gs
  deriving DecidableEq

structure Cpu (Handler : Type) where
  general : Register → UInt32
  esp : UInt32
  segment : Segment → UInt16
  memory : Memory
  events : List (Event Handler)

/-- How compiled code behaves: what handlers and callees do beside their events. -/
structure Compiled (Handler : Type) where
  effect : Handler → UInt32 → Memory → Memory
  clobber : UInt32 → Cpu Handler → Cpu Handler
  returnAddress : UInt32

inductive Label where
  | isrCommonStub
  | irqCommonStub

inductive Instr where
  | pushByte (value : UInt8)
  | jmp (target : Label)
  | pusha
  | popa
  | movAxDs
  | movAx (value : UInt16)
  | movSegAx (segment : Segment)
  | pushEax
  | popEax
  | pushEsp
  | call (function : CFunction)
  | addEsp (bytes : UInt32)
  | iret

def commonStub (function : CFunction) : List Instr :=
  [.pusha, .movAxDs, .pushEax, .movAx 0x10, .movSegAx .ds, .movSegAx .es, .movSegAx .fs,
    .movSegAx .gs, .pushEsp, .call function, .addEsp 4, .popEax, .movSegAx .ds, .movSegAx .es,
    .movSegAx .fs, .movSegAx .gs, .popa, .addEsp 8, .iret]

def isrCommonStub : List Instr := commonStub .isrHandler
def irqCommonStub : List Instr := commonStub .irqHandler

def code : Label → List Instr
  | .isrCommonStub => isrCommonStub
  | .irqCommonStub => irqCommonStub

/-- The stub pushes a zero where the processor pushes no error code. -/
def dummyCodeStub (intNo : UInt8) (target : Label) : List Instr :=
  [.pushByte 0, .pushByte intNo, .jmp target]

def errorCodeStub (intNo : UInt8) (target : Label) : List Instr := [.pushByte intNo, .jmp target]

def isr0 := dummyCodeStub 0 .isrCommonStub
def isr1 := dummyCodeStub 1 .isrCommonStub
def isr2 := dummyCodeStub 2 .isrCommonStub
def isr3 := dummyCodeStub 3 .isrCommonStub
def isr4 := dummyCodeStub 4 .isrCommonStub
def isr5 := dummyCodeStub 5 .isrCommonStub
def isr6 := dummyCodeStub 6 .isrCommonStub
def isr7 := dummyCodeStub 7 .isrCommonStub
def isr8 := errorCodeStub 8 .isrCommonStub
def isr9 := dummyCodeStub 9 .isrCommonStub
def isr10 := errorCodeStub 10 .isrCommonStub
def isr11 := errorCodeStub 11 .isrCommonStub
def isr12 := errorCodeStub 12 .isrCommonStub
def isr13 := errorCodeStub 13 .isrCommonStub
def isr14 := errorCodeStub 14 .isrCommonStub
def isr15 := dummyCodeStub 15 .isrCommonStub
def isr16 := dummyCodeStub 16 .isrCommonStub
def isr17 := errorCodeStub 17 .isrCommonStub
def isr18 := dummyCodeStub 18 .isrCommonStub
def isr19 := dummyCodeStub 19 .isrCommonStub
def irq0 := dummyCodeStub 32 .irqCommonStub
def irq1 := dummyCodeStub 33 .irqCommonStub
def irq2 := dummyCodeStub 34 .irqCommonStub
def irq3 := dummyCodeStub 35 .irqCommonStub
def irq4 := dummyCodeStub 36 .irqCommonStub
def irq5 := dummyCodeStub 37 .irqCommonStub
def irq6 := dummyCodeStub 38 .irqCommonStub
def irq7 := dummyCodeStub 39 .irqCommonStub
def irq8 := dummyCodeStub 40 .irqCommonStub
def irq9 := dummyCodeStub 41 .irqCommonStub
def irq10 := dummyCodeStub 42 .irqCommonStub
def irq11 := dummyCodeStub 43 .irqCommonStub
def irq12 := dummyCodeStub 44 .irqCommonStub
def irq13 := dummyCodeStub 45 .irqCommonStub
def irq14 := dummyCodeStub 46 .irqCommonStub
def irq15 := dummyCodeStub 47 .irqCommonStub

/-- The gates `idt_install` sets. -/
def gate : Nat → Option (List Instr)
  | 0 => some isr0
  | 1 => some isr1
  | 2 => some isr2
  | 3 => some isr3
  | 4 => some isr4
  | 5 => some isr5
  | 6 => some isr6
  | 7 => some isr7
  | 8 => some isr8
  | 9 => some isr9
  | 10 => some isr10
  | 11 => some isr11
  | 12 => some isr12
  | 13 => some isr13
  | 14 => some isr14
  | 15 => some isr15
  | 16 => some isr16
  | 17 => some isr17
  | 18 => some isr18
  | 19 => some isr19
  | 32 => some irq0
  | 33 => some irq1
  | 34 => some irq2
  | 35 => some irq3
  | 36 => some irq4
  | 37 => some irq5
  | 38 => some irq6
  | 39 => some irq7
  | 40 => some irq8
  | 41 => some irq9
  | 42 => some irq10
  | 43 => some irq11
  | 44 => some irq12
  | 45 => some irq13
  | 46 => some irq14
  | 47 => some irq15
  | _ => none

def push (w : UInt32) (cpu : Cpu Handler) : Cpu Handler :=
  { cpu with esp := cpu.esp - 4, memory := store32 cpu.memory (cpu.esp - 4) w }

def setRegister (register : Register) (value : UInt32) (cpu : Cpu Handler) : Cpu Handler :=
  { cpu with general := Function.update cpu.general register value }

def setSegment (segment : Segment) (value : UInt16) (cpu : Cpu Handler) : Cpu Handler :=
  { cpu with segment := Function.update cpu.segment segment value }

def pusha (cpu : Cpu Handler) : Cpu Handler :=
  -- the ESP it pushes is the one before the first push
  push (cpu.general .edi) (push (cpu.general .esi) (push (cpu.general .ebp) (push cpu.esp
    (push (cpu.general .ebx) (push (cpu.general .edx) (push (cpu.general .ecx)
      (push (cpu.general .eax) cpu)))))))

def popa (cpu : Cpu Handler) : Cpu Handler :=
  { cpu with
    general := fun
      | .edi => load32 cpu.memory cpu.esp
      | .esi => load32 cpu.memory (cpu.esp + 4)
      | .ebp => load32 cpu.memory (cpu.esp + 8)
      -- the word at 12 is ESP, which `popa` skips
      | .ebx => load32 cpu.memory (cpu.esp + 16)
      | .edx => load32 cpu.memory (cpu.esp + 20)
      | .ecx => load32 cpu.memory (cpu.esp + 24)
      | .eax => load32 cpu.memory (cpu.esp + 28)
    esp := cpu.esp + 32 }

def setAx (eax : UInt32) (ax : UInt16) : UInt32 := (eax &&& 0xFFFF0000) ||| ax.toUInt32

def signExtend (value : UInt8) : UInt32 :=
  if value < 0x80 then value.toUInt32 else value.toUInt32 ||| 0xFFFFFF00

def body (compiled : Compiled Handler) (table : Table Handler) (r : UInt32) :
    CFunction → World Handler → World Handler
  | .isrHandler => isrHandler
  | .irqHandler => irqHandler compiled.effect table r

/-- A compiled function from its entry to its `ret`, given the pointer `r`. -/
def callee (compiled : Compiled Handler) (table : Table Handler) (function : CFunction)
    (r : UInt32) (cpu : Cpu Handler) : Cpu Handler :=
  let seen : World Handler := { memory := cpu.memory, events := cpu.events }
  let world := body compiled table r function
    (seen.emit (.received function (readRegs cpu.memory r)))
  compiled.clobber r { cpu with memory := world.memory, events := world.events }

def callFunction (compiled : Compiled Handler) (table : Table Handler) (function : CFunction)
    (cpu : Cpu Handler) : Cpu Handler :=
  let entered := push compiled.returnAddress cpu
  -- the argument lies above the return address
  let left := callee compiled table function (load32 entered.memory (entered.esp + 4)) entered
  { left with esp := left.esp + 4 }

def execute (compiled : Compiled Handler) (table : Table Handler) (cpu : Cpu Handler) :
    Instr → Cpu Handler
  | .pushByte value => push (signExtend value) cpu
  | .pusha => pusha cpu
  | .popa => popa cpu
  | .movAxDs => setRegister .eax (setAx (cpu.general .eax) (cpu.segment .ds)) cpu
  | .movAx value => setRegister .eax (setAx (cpu.general .eax) value) cpu
  | .movSegAx segment => setSegment segment (cpu.general .eax).toUInt16 cpu
  | .pushEax => push (cpu.general .eax) cpu
  | .popEax => { setRegister .eax (load32 cpu.memory cpu.esp) cpu with esp := cpu.esp + 4 }
  | .pushEsp => push cpu.esp cpu
  | .call function => callFunction compiled table function cpu
  | .addEsp bytes => { cpu with esp := cpu.esp + bytes }
  | .jmp _ | .iret => cpu

/-- The processor right before the `iret` that ends the code. -/
def run (compiled : Compiled Handler) (table : Table Handler) :
    Nat → List Instr → Cpu Handler → Option (Cpu Handler)
  | 0, _, _ => none
  | _ + 1, [], _ => none
  | _ + 1, .iret :: _, cpu => some cpu
  | fuel + 1, .jmp target :: _, cpu => run compiled table fuel (code target) cpu
  | fuel + 1, instr :: rest, cpu => run compiled table fuel rest (execute compiled table cpu instr)

structure Frame where
  eip : UInt32
  cs : UInt32
  eflags : UInt32

def pushesErrorCode (vector : Nat) : Prop :=
  vector = 8 ∨ (10 ≤ vector ∧ vector ≤ 14) ∨ vector = 17

instance (vector : Nat) : Decidable (pushesErrorCode vector) :=
  inferInstanceAs (Decidable (_ ∨ _))

def interrupt (vector : Nat) (frame : Frame) (errorCode : UInt32) (cpu : Cpu Handler) :
    Cpu Handler :=
  let saved := push frame.eip (push frame.cs (push frame.eflags cpu))
  if pushesErrorCode vector then push errorCode saved else saved

def server (vector : Nat) : CFunction := if vector < 32 then .isrHandler else .irqHandler

/-- The stack as the common stub finds it, whoever pushed the error code. -/
def vectored (vector : Nat) (frame : Frame) (errorCode : UInt32) (cpu : Cpu Handler) :
    Cpu Handler :=
  push (UInt32.ofNat vector) (push (if pushesErrorCode vector then errorCode else 0)
    (push frame.eip (push frame.cs (push frame.eflags cpu))))

def Instr.Straight : Instr → Prop
  | .jmp _ | .iret => False
  | _ => True

def executeAll (compiled : Compiled Handler) (table : Table Handler) (instrs : List Instr)
    (cpu : Cpu Handler) : Cpu Handler := instrs.foldl (execute compiled table) cpu

def loadSegments : List Instr := [.movSegAx .ds, .movSegAx .es, .movSegAx .fs, .movSegAx .gs]

def prologue : List Instr :=
  [.pusha, .movAxDs, .pushEax, .movAx 0x10] ++ (loadSegments ++ [.pushEsp])

def epilogue : List Instr := [.addEsp 4, .popEax] ++ (loadSegments ++ [.popa, .addEsp 8])

theorem run_straight (compiled : Compiled Handler) (table : Table Handler) (instrs : List Instr)
    (straight : ∀ instr ∈ instrs, instr.Straight) (fuel : Nat) (rest : List Instr)
    (cpu : Cpu Handler) :
    run compiled table (fuel + instrs.length) (instrs ++ rest) cpu =
      run compiled table fuel rest (executeAll compiled table instrs cpu) := by
  induction instrs generalizing cpu with
  | nil => rfl
  | cons instr instrs ih =>
      have here := straight instr List.mem_cons_self
      have later := ih (fun other member => straight other (List.mem_cons_of_mem _ member))
      rw [List.length_cons, ← Nat.add_assoc, List.cons_append, executeAll, List.foldl_cons]
      cases instr with
      | jmp target => exact here.elim
      | iret => exact here.elim
      | _ => exact later _

theorem common_run (compiled : Compiled Handler) (table : Table Handler) (function : CFunction)
    (fuel : Nat) (cpu : Cpu Handler) :
    run compiled table (fuel + 19) (commonStub function) cpu =
      some (executeAll compiled table epilogue (callFunction compiled table function
        (executeAll compiled table prologue cpu))) := by
  have ends := run_straight compiled table (prologue ++ .call function :: epilogue)
    (by simp [prologue, epilogue, loadSegments, Instr.Straight]) (fuel + 1) [.iret] cpu
  rw [executeAll, List.foldl_append, List.foldl_cons] at ends
  exact ends

theorem gate_shape {vector : Nat} {stub : List Instr} (wiring : gate vector = some stub) :
    ∃ target, code target = commonStub (server vector) ∧
      signExtend (UInt8.ofNat vector) = UInt32.ofNat vector ∧
      stub = if pushesErrorCode vector then errorCodeStub (UInt8.ofNat vector) target
        else dummyCodeStub (UInt8.ofNat vector) target := by
  unfold gate at wiring
  split at wiring
  all_goals cases wiring
  all_goals first
    | exact ⟨.isrCommonStub, rfl, rfl, rfl⟩
    | exact ⟨.irqCommonStub, rfl, rfl, rfl⟩

theorem stub_enters (compiled : Compiled Handler) (table : Table Handler) {vector : Nat}
    {stub : List Instr} (wiring : gate vector = some stub) (frame : Frame) (errorCode : UInt32)
    (cpu : Cpu Handler) :
    ∃ fuel, run compiled table 22 stub (interrupt vector frame errorCode cpu) =
      run compiled table (fuel + 19) (commonStub (server vector))
        (vectored vector frame errorCode cpu) := by
  rcases gate_shape wiring with ⟨target, common, number, rfl⟩
  -- with an error code from the processor the stub is one push shorter
  by_cases pushes : pushesErrorCode vector
  · refine ⟨1, ?_⟩
    simp only [interrupt, vectored, if_pos pushes]
    rw [← common, ← number]
    rfl
  · refine ⟨0, ?_⟩
    simp only [interrupt, vectored, if_neg pushes]
    rw [← common, ← number]
    rfl

structure Holding (cpu : Cpu Handler) (address : UInt32) (words : List UInt32)
    (events : List (Event Handler)) : Prop where
  top : cpu.esp = address
  stack : Stack cpu.memory address words
  events : cpu.events = events

theorem holding_push {cpu : Cpu Handler} {esp : UInt32} {words : List UInt32}
    {events : List (Event Handler)} (w : UInt32) (holding : Holding cpu esp words events)
    (room : words.length < 100) : Holding (push w cpu) (esp - 4) (w :: words) events := by
  rcases holding with ⟨rfl, stack, rfl⟩
  exact ⟨rfl, stack_push w stack (Nat.lt_trans room (by decide)), rfl⟩

def pushAll (words : List UInt32) (cpu : Cpu Handler) : Cpu Handler :=
  words.foldl (fun cpu w => push w cpu) cpu

theorem holding_push_all {cpu : Cpu Handler} {esp : UInt32} {words : List UInt32}
    {events : List (Event Handler)} (more : List UInt32) (holding : Holding cpu esp words events)
    (room : words.length + more.length ≤ 100) :
    Holding (pushAll more cpu) (esp - 4 * UInt32.ofNat more.length) (more.reverse ++ words)
      events := by
  induction more generalizing cpu esp words with
  | nil =>
      rcases holding with ⟨rfl, stack, rfl⟩
      exact ⟨(UInt32.sub_zero _).symm, (UInt32.sub_zero _).symm ▸ stack, rfl⟩
  | cons w rest ih =>
      rw [List.length_cons] at room
      have first := holding_push w holding (by omega)
      have others := ih first (by rw [List.length_cons]; omega)
      have lower : esp - 4 - 4 * UInt32.ofNat rest.length =
          esp - 4 * UInt32.ofNat (rest.length + 1) := by
        rw [UInt32.ofNat_add]
        grind
      rw [lower] at others
      rw [List.length_cons, List.reverse_cons, List.append_assoc]
      exact others

/-- The words of `struct regs` below the ones the stub and the processor push. -/
def savedWords (cpu : Cpu Handler) : List UInt32 :=
  [setAx (cpu.general .eax) (cpu.segment .ds), cpu.general .edi, cpu.general .esi,
    cpu.general .ebp, cpu.esp, cpu.general .ebx, cpu.general .edx, cpu.general .ecx,
    cpu.general .eax]

theorem pusha_holding {cpu : Cpu Handler} {esp : UInt32} {words : List UInt32}
    {events : List (Event Handler)} (holding : Holding cpu esp words events)
    (room : words.length < 50) :
    Holding (pusha cpu) (esp - 32) ((savedWords cpu).tail ++ words) events :=
  holding_push_all [cpu.general .eax, cpu.general .ecx, cpu.general .edx, cpu.general .ebx,
    cpu.esp, cpu.general .ebp, cpu.general .esi, cpu.general .edi] holding
    (by simp only [List.length_cons, List.length_nil]; omega)

theorem segments_loaded (compiled : Compiled Handler) (table : Table Handler)
    (cpu : Cpu Handler) : executeAll compiled table loadSegments cpu =
      { cpu with segment := fun _ => (cpu.general .eax).toUInt16 } := by
  have segments : Function.update (Function.update (Function.update (Function.update cpu.segment
      .ds (cpu.general .eax).toUInt16) .es (cpu.general .eax).toUInt16) .fs
      (cpu.general .eax).toUInt16) .gs (cpu.general .eax).toUInt16 =
      fun _ => (cpu.general .eax).toUInt16 := by
    funext segment
    cases segment <;> rfl
  rw [← segments]
  rfl

theorem execute_append (compiled : Compiled Handler) (table : Table Handler)
    (instrs more : List Instr) (cpu : Cpu Handler) :
    executeAll compiled table (instrs ++ more) cpu =
      executeAll compiled table more (executeAll compiled table instrs cpu) :=
  List.foldl_append

theorem prologue_holding (compiled : Compiled Handler) (table : Table Handler) {cpu : Cpu Handler}
    {esp : UInt32} {words : List UInt32} {events : List (Event Handler)}
    (holding : Holding cpu esp words events) (room : words.length < 50) :
    Holding (executeAll compiled table prologue cpu) (esp - 40)
      ((esp - 36) :: (savedWords cpu ++ words)) events := by
  have saved := pusha_holding holding room
  let marked := setAx (cpu.general .eax) (cpu.segment .ds)
  have s₁ : Holding (setRegister .eax marked (pusha cpu)) _ _ _ :=
    ⟨saved.top, saved.stack, saved.events⟩
  have s₂ := holding_push marked s₁ (by simp [savedWords]; omega)
  have top : esp - 32 - 4 = esp - 36 := by grind
  have next : esp - 36 - 4 = esp - 40 := by grind
  rw [top] at s₂
  have first : executeAll compiled table [.pusha, .movAxDs, .pushEax, .movAx 0x10] cpu =
      setRegister .eax (setAx marked 0x10)
        (push marked (setRegister .eax marked (pusha cpu))) := rfl
  rw [prologue, execute_append, first, execute_append, segments_loaded]
  generalize push marked (setRegister .eax marked (pusha cpu)) = inner at s₂ ⊢
  let loaded : Cpu Handler := { setRegister .eax (setAx marked 0x10) inner with
    segment := fun _ => (setAx marked 0x10).toUInt16 }
  have s₃ : Holding loaded _ _ _ := ⟨s₂.top, s₂.stack, s₂.events⟩
  have s₄ := holding_push inner.esp s₃ (by simp [savedWords]; omega)
  rw [next] at s₄
  rw [← s₂.top]
  exact s₄

/-- What the calling convention and the handlers' manners come to: a callee gives
the stack pointer back, and nobody writes through the pointer it was given. -/
structure WellBehaved (compiled : Compiled Handler) : Prop where
  effect : ∀ handler r m, Keeps r m (compiled.effect handler r m)
  frame : ∀ r cpu, Keeps r cpu.memory (compiled.clobber r cpu).memory
  esp : ∀ r cpu, (compiled.clobber r cpu).esp = cpu.esp
  events : ∀ r cpu, (compiled.clobber r cpu).events = cpu.events

theorem ax_low (eax : UInt32) (ax : UInt16) : (setAx eax ax).toUInt16 = ax := by
  apply UInt16.toBitVec_inj.mp
  apply BitVec.eq_of_getLsbD_eq
  intro i inside
  simp [setAx]

theorem popa_restores {cpu inner : Cpu Handler} {words : List UInt32}
    (stack : Stack inner.memory inner.esp ((savedWords cpu).tail ++ words)) :
    (popa inner).general = cpu.general := by
  funext register
  cases register with
  | edi => exact (stack_pop stack).1
  | esi => exact stack_word stack 1 rfl
  | ebp => exact stack_word stack 2 rfl
  -- word 3 is the stack pointer that `popa` skips
  | ebx => exact stack_word stack 4 rfl
  | edx => exact stack_word stack 5 rfl
  | ecx => exact stack_word stack 6 rfl
  | eax => exact stack_word stack 7 rfl

theorem epilogue_restores (compiled : Compiled Handler) (table : Table Handler)
    {cpu left : Cpu Handler} {address : UInt32} {words : List UInt32}
    (top : left.esp + 4 = address)
    (stack : Stack left.memory address (savedWords cpu ++ words)) :
    executeAll compiled table epilogue left =
      { general := cpu.general
        esp := address + 44
        segment := fun _ => cpu.segment .ds
        memory := left.memory
        events := left.events } := by
  subst top
  rcases stack_pop stack with ⟨marked, rest⟩
  have first : executeAll compiled table [.addEsp 4, .popEax] left =
      { setRegister .eax (load32 left.memory (left.esp + 4)) left with
        esp := left.esp + 4 + 4 } := rfl
  rw [epilogue, execute_append, first, execute_append, segments_loaded, marked]
  have low : (setAx (cpu.general .eax) (cpu.segment .ds)).toUInt16 = cpu.segment .ds := ax_low _ _
  let inner : Cpu Handler := { left with
    general := Function.update left.general .eax (setAx (cpu.general .eax) (cpu.segment .ds))
    esp := left.esp + 4 + 4
    segment := fun _ => (setAx (cpu.general .eax) (cpu.segment .ds)).toUInt16 }
  have last : left.esp + 4 + 4 + 32 + 8 = left.esp + 4 + 44 := by grind
  have general : (popa inner).general = cpu.general := popa_restores rest
  calc executeAll compiled table [.popa, .addEsp 8] inner
      = { general := (popa inner).general
          esp := left.esp + 4 + 4 + 32 + 8
          segment := fun _ => (setAx (cpu.general .eax) (cpu.segment .ds)).toUInt16
          memory := left.memory
          events := left.events } := rfl
    _ = { general := cpu.general
          esp := left.esp + 4 + 44
          segment := fun _ => cpu.segment .ds
          memory := left.memory
          events := left.events } := by rw [general, last, low]

theorem body_keeps {compiled : Compiled Handler} (behaved : WellBehaved compiled)
    (table : Table Handler) (r : UInt32) (function : CFunction) (w : World Handler) :
    Keeps r w.memory (body compiled table r function w).memory := by
  cases function with
  | isrHandler => exact fun k _ => rfl
  | irqHandler => exact irq_handler_keeps behaved.effect table r w

theorem callee_returns {compiled : Compiled Handler} (behaved : WellBehaved compiled)
    (table : Table Handler) (function : CFunction) (r : UInt32) (cpu : Cpu Handler) :
    (callee compiled table function r cpu).esp = cpu.esp ∧
    Keeps r cpu.memory (callee compiled table function r cpu).memory ∧
    (callee compiled table function r cpu).events = (body compiled table r function
      ⟨cpu.memory, cpu.events ++ [.received function (readRegs cpu.memory r)]⟩).events := by
  refine ⟨behaved.esp _ _, fun k below => ?_, behaved.events _ _⟩
  refine (behaved.frame r _ k below).trans ?_
  exact body_keeps behaved table r function
    ⟨cpu.memory, cpu.events ++ [.received function (readRegs cpu.memory r)]⟩ k below

theorem call_returns {compiled : Compiled Handler} (behaved : WellBehaved compiled)
    (table : Table Handler) (function : CFunction) {cpu : Cpu Handler} {words : List UInt32}
    (stack : Stack cpu.memory cpu.esp ((cpu.esp + 4) :: words)) (size : words.length = frameWords) :
    (callFunction compiled table function cpu).esp = cpu.esp ∧
    Stack (callFunction compiled table function cpu).memory (cpu.esp + 4) words ∧
    ∃ m, Stack m (cpu.esp + 4) words ∧ (callFunction compiled table function cpu).events =
      (body compiled table (cpu.esp + 4) function
        ⟨m, cpu.events ++ [.received function (readRegs m (cpu.esp + 4))]⟩).events := by
  have few : ((cpu.esp + 4) :: words).length < 2 ^ 30 := by
    rw [List.length_cons, size]
    decide
  have pushed := stack_push compiled.returnAddress stack few
  have back : cpu.esp - 4 + 4 = cpu.esp := UInt32.sub_add_cancel _ _
  have inner := (stack_pop pushed).2
  rw [back] at inner
  rcases stack_pop inner with ⟨argument, frame⟩
  have pointer : load32 (push compiled.returnAddress cpu).memory
      ((push compiled.returnAddress cpu).esp + 4) = cpu.esp + 4 := by
    rw [show (push compiled.returnAddress cpu).esp + 4 = cpu.esp from back]
    exact argument
  rcases callee_returns behaved table function (cpu.esp + 4) (push compiled.returnAddress cpu)
    with ⟨esp, kept, events⟩
  simp only [callFunction, pointer, esp]
  exact ⟨back, keeps_stack kept frame size, _, frame, events⟩

/-- The frame `iret` pops is on top, and all else is as it was interrupted. -/
structure Resumes (cpu final : Cpu Handler) (frame : Frame) : Prop where
  general : final.general = cpu.general
  segment : final.segment = cpu.segment
  esp : final.esp = cpu.esp - 12
  frame : Stack final.memory final.esp [frame.eip, frame.cs, frame.eflags]

structure Reports (vector : Nat) (frame : Frame) (errorCode : UInt32) (cpu : Cpu Handler)
    (regs : Regs) : Prop where
  intNo : regs.intNo = UInt32.ofNat vector
  errCode : regs.errCode = if pushesErrorCode vector then errorCode else 0
  eip : regs.eip = frame.eip
  cs : regs.cs = frame.cs
  eflags : regs.eflags = frame.eflags
  eax : regs.eax = cpu.general .eax
  ebx : regs.ebx = cpu.general .ebx
  ecx : regs.ecx = cpu.general .ecx
  edx : regs.edx = cpu.general .edx
  esi : regs.esi = cpu.general .esi
  edi : regs.edi = cpu.general .edi
  ebp : regs.ebp = cpu.general .ebp

def Answers (calls : List (TableCall Handler)) (vector : Nat) (r : UInt32)
    (events : List (Event Handler)) : Prop :=
  match server vector with
  | .isrHandler => events = [.written "Received Exception: "]
  | .irqHandler => Dispatched calls vector r events

def vectorWords (vector : Nat) (frame : Frame) (errorCode : UInt32) : List UInt32 :=
  [UInt32.ofNat vector, if pushesErrorCode vector then errorCode else 0, frame.eip, frame.cs,
    frame.eflags]

theorem words_report {vector : Nat} {frame : Frame} {errorCode : UInt32}
    {cpu inner : Cpu Handler} (same : inner.general = cpu.general) {m : Memory} {r : UInt32}
    (stack : Stack m r (savedWords inner ++ vectorWords vector frame errorCode)) :
    Reports vector frame errorCode cpu (readRegs m r) where
  edi := (stack_word stack 1 rfl).trans (congrFun same .edi)
  esi := (stack_word stack 2 rfl).trans (congrFun same .esi)
  ebp := (stack_word stack 3 rfl).trans (congrFun same .ebp)
  ebx := (stack_word stack 5 rfl).trans (congrFun same .ebx)
  edx := (stack_word stack 6 rfl).trans (congrFun same .edx)
  ecx := (stack_word stack 7 rfl).trans (congrFun same .ecx)
  eax := (stack_word stack 8 rfl).trans (congrFun same .eax)
  intNo := stack_word stack 9 rfl
  errCode := stack_word stack 10 rfl
  eip := stack_word stack 11 rfl
  cs := stack_word stack 12 rfl
  eflags := stack_word stack 13 rfl

theorem vectored_holding (vector : Nat) (frame : Frame) (errorCode : UInt32)
    (cpu : Cpu Handler) : Holding (vectored vector frame errorCode cpu) (cpu.esp - 20)
      (vectorWords vector frame errorCode) cpu.events := by
  have empty : Holding cpu cpu.esp [] cpu.events := ⟨rfl, trivial, rfl⟩
  exact holding_push_all [frame.eflags, frame.cs, frame.eip,
    if pushesErrorCode vector then errorCode else 0, UInt32.ofNat vector] empty (by simp)

/-- The common stub around its call, with the frame at `cpu.esp - 56`. -/
theorem common_serves {compiled : Compiled Handler} (behaved : WellBehaved compiled)
    (table : Table Handler) (vector : Nat) (frame : Frame) (errorCode : UInt32)
    (cpu : Cpu Handler) (flat : ∀ segment, cpu.segment segment = cpu.segment .ds) (fuel : Nat) :
    ∃ final m, run compiled table (fuel + 19) (commonStub (server vector))
        (vectored vector frame errorCode cpu) = some final ∧ Resumes cpu final frame ∧
      Stack m (cpu.esp - 56) (savedWords (vectored vector frame errorCode cpu) ++
        vectorWords vector frame errorCode) ∧
      final.events = (body compiled table (cpu.esp - 56) (server vector)
        ⟨m, cpu.events ++ [.received (server vector) (readRegs m (cpu.esp - 56))]⟩).events := by
  have saved := prologue_holding compiled table (vectored_holding vector frame errorCode cpu)
    (by simp [vectorWords])
  rw [common_run]
  generalize executeAll compiled table prologue (vectored vector frame errorCode cpu) = called
    at saved ⊢
  have pointer : cpu.esp - 56 = called.esp + 4 := by
    rw [saved.top]
    grind
  have slot : cpu.esp - 20 - 36 = called.esp + 4 := by
    rw [saved.top]
    grind
  have stack := saved.stack
  rw [← saved.top, slot] at stack
  rcases call_returns behaved table (server vector) stack rfl with ⟨esp, kept, m, seen, events⟩
  rw [pointer]
  rw [saved.events] at events
  -- the stub only needs the words it pushed itself back as they were
  have restored := epilogue_restores compiled table (congrArg (· + 4) esp) kept
  refine ⟨_, m, congrArg some restored, ?_, seen, events⟩
  have bottom : called.esp + 4 + 44 = cpu.esp - 12 := by
    rw [← pointer]
    grind
  constructor
  · rfl
  · exact funext fun segment => (flat segment).symm
  · exact bottom
  · exact stack_drop kept 11 (by simp [savedWords, vectorWords])

def Wired (vector : Nat) : Prop := vector ≤ 19 ∨ 32 ≤ vector ∧ vector ≤ 47

instance (vector : Nat) : Decidable (Wired vector) := inferInstanceAs (Decidable (_ ∨ _))

theorem gates_set {vector : Nat} (wired : Wired vector) : ∃ stub, gate vector = some stub := by
  have all : ∀ v < 48, Wired v → (gate v).isSome = true := by decide
  have below : vector < 48 := by
    rcases wired with exception | line <;> omega
  exact Option.isSome_iff_exists.mp (all vector below wired)

theorem body_answers {compiled : Compiled Handler} (behaved : WellBehaved compiled)
    (calls : List (TableCall Handler)) {vector : Nat} (wired : Wired vector) {r : UInt32}
    (nonNull : 32 ≤ vector → r ≠ 0) {w : World Handler} {words : List UInt32}
    (stack : Stack w.memory r words) (size : words.length = frameWords)
    (intNo : words[9]? = some (UInt32.ofNat vector)) :
    ∃ events, (body compiled (tableAfter calls) r (server vector) w).events = w.events ++ events ∧
      Answers calls vector r events := by
  unfold Answers
  by_cases exception : vector < 32
  · simp only [server, if_pos exception]
    exact ⟨_, rfl, rfl⟩
  · have low := Nat.le_of_not_lt exception
    have high : vector < 48 := by
      rcases wired with other | line <;> omega
    simp only [server, if_neg exception]
    exact irq_handler_dispatches behaved.effect calls low high (nonNull low) stack size intNo

/-- The interrupt is served: its gate's stub runs to `iret`, the C function is
given the interrupted state, and the right handler answers. -/
def Served (compiled : Compiled Handler) (calls : List (TableCall Handler)) (vector : Nat)
    (frame : Frame) (errorCode : UInt32) (cpu : Cpu Handler) : Prop :=
  ∃ stub final regs events, gate vector = some stub ∧
    run compiled (tableAfter calls) 22 stub (interrupt vector frame errorCode cpu) = some final ∧
    Resumes cpu final frame ∧ Reports vector frame errorCode cpu regs ∧
    final.events = cpu.events ++ .received (server vector) regs :: events ∧
    Answers calls vector (cpu.esp - 56) events

/-- Interrupts are transparent and reach the right handler, as long as the frame
of an IRQ does not start at address 0, where `irq_handler` takes it for NULL. -/
theorem interrupt_transparent {compiled : Compiled Handler} (behaved : WellBehaved compiled)
    (calls : List (TableCall Handler)) {vector : Nat} (wired : Wired vector) (frame : Frame)
    (errorCode : UInt32) (cpu : Cpu Handler)
    (flat : ∀ segment, cpu.segment segment = cpu.segment .ds)
    (nonNull : 32 ≤ vector → cpu.esp ≠ 56) :
    Served compiled calls vector frame errorCode cpu := by
  rcases gates_set wired with ⟨stub, wiring⟩
  rcases stub_enters compiled (tableAfter calls) wiring frame errorCode cpu with ⟨fuel, entered⟩
  rcases common_serves behaved (tableAfter calls) vector frame errorCode cpu flat fuel with
    ⟨final, m, ran, resumes, seen, events⟩
  have pointer : 32 ≤ vector → cpu.esp - 56 ≠ 0 := by
    intro irq zero
    exact nonNull irq (by grind)
  rcases body_answers behaved calls wired pointer (w := ⟨m, _⟩) seen rfl rfl with
    ⟨answer, same, answers⟩
  have report : Reports vector frame errorCode cpu (readRegs m (cpu.esp - 56)) :=
    @words_report _ _ _ _ cpu (vectored vector frame errorCode cpu) rfl _ _ seen
  refine ⟨stub, final, _, answer, wiring, entered.trans ran, resumes, report, ?_, answers⟩
  rw [events, same]
  simp

theorem irq_at_null {compiled : Compiled Handler} (behaved : WellBehaved compiled)
    (calls : List (TableCall Handler)) {vector : Nat} (irq : 32 ≤ vector) (wired : Wired vector)
    (frame : Frame) (errorCode : UInt32) (cpu : Cpu Handler)
    (flat : ∀ segment, cpu.segment segment = cpu.segment .ds) (null : cpu.esp = 56) :
    ∃ stub final regs, gate vector = some stub ∧
      run compiled (tableAfter calls) 22 stub (interrupt vector frame errorCode cpu) = some final ∧
      final.events = cpu.events ++ [.received .irqHandler regs] := by
  rcases gates_set wired with ⟨stub, wiring⟩
  rcases stub_enters compiled (tableAfter calls) wiring frame errorCode cpu with ⟨fuel, entered⟩
  rcases common_serves behaved (tableAfter calls) vector frame errorCode cpu flat fuel with
    ⟨final, m, ran, _, _, events⟩
  refine ⟨stub, final, readRegs m 0, wiring, entered.trans ran, events.trans ?_⟩
  have pointer : cpu.esp - 56 = 0 := by
    rw [null]
    rfl
  have function : server vector = .irqHandler := if_neg (Nat.not_lt.mpr irq)
  rw [pointer, function]
  exact congrArg World.events (irq_handler_null compiled.effect _ _)

theorem below_keeps (r distance : UInt32) (near : 0 < distance.toNat ∧ distance.toNat ≤ 2 ^ 30)
    (m : Memory) (b : UInt8) : Keeps r m (Function.update m (r - distance) b) := by
  intro k inside
  refine Function.update_of_ne (fun same => ?_) _ _
  have offset : UInt32.ofNat k + distance = 0 := by grind
  have sum := congrArg UInt32.toNat offset
  rw [UInt32.toNat_add, UInt32.toNat_ofNat'] at sum
  simp only [frameWords, UInt32.toNat_zero] at inside sum
  omega

/-- Handlers and callees write below the frame, and use the registers they may. -/
def busy : Compiled Nat where
  effect := fun handler r m => Function.update m (r - 100) (UInt8.ofNat handler)
  clobber := fun r cpu =>
    { cpu with
      general := fun
        | .eax => 0xDEADBEEF
        | .ecx => r
        | .edx => cpu.esp
        | register => cpu.general register
      memory := Function.update cpu.memory (r - 12) 0xAA }
  returnAddress := 0x100123

theorem busy_behaved : WellBehaved busy where
  effect handler r m := below_keeps r 100 (by decide) m _
  frame r cpu := below_keeps r 12 (by decide) cpu.memory _
  esp _ _ := rfl
  events _ _ := rfl

def busyCpu : Cpu Nat where
  general := fun
    | .eax => 0x11111111
    | .ecx => 0x22222222
    | .edx => 0x33333333
    | .ebx => 0x44444444
    | .ebp => 0x8FF8
    | .esi => 0x66666666
    | .edi => 0x77777777
  esp := 0x8FC0
  segment := fun _ => 0x10
  memory := fun a => UInt8.ofNat a.toNat
  events := []

/-- The timer's line, and the keyboard's with the handler put there last. -/
def linesInstalled : List (TableCall Nat) :=
  [.install 0 (some 3), .install 1 (some 7), .uninstall 1, .install 1 (some 5)]

theorem keyboard_line_served :
    WellBehaved busy ∧ Wired 33 ∧ (∀ segment, busyCpu.segment segment = busyCpu.segment .ds) ∧
    (32 ≤ 33 → busyCpu.esp ≠ 56) ∧
    Served busy linesInstalled 33 ⟨0x101234, 8, 0x202⟩ 0 busyCpu :=
  ⟨busy_behaved, by decide, fun _ => rfl, fun _ => by decide,
    interrupt_transparent busy_behaved _ (by decide) _ _ _ (fun _ => rfl) (fun _ => by decide)⟩

def idle : Compiled Unit := ⟨fun _ _ m => m, fun _ cpu => cpu, 0⟩

theorem idle_behaved : WellBehaved idle :=
  ⟨fun _ _ _ _ _ => rfl, fun _ _ _ _ => rfl, fun _ _ => rfl, fun _ _ => rfl⟩

def quietCpu (esp : UInt32) : Cpu Unit :=
  ⟨fun _ => 0, esp, fun _ => 0x10, fun _ => 0, []⟩

/-- An IRQ that interrupts with ESP = 56 is never acknowledged. -/
theorem irq_lost_at_null :
    ¬ ∀ (compiled : Compiled Unit) (calls : List (TableCall Unit)) (vector : Nat) (frame : Frame)
      (errorCode : UInt32) (cpu : Cpu Unit), WellBehaved compiled → Wired vector →
      (∀ segment, cpu.segment segment = cpu.segment .ds) →
      Served compiled calls vector frame errorCode cpu := by
  intro always
  rcases always idle [] 33 ⟨0x1000, 8, 0x202⟩ 0 (quietCpu 56) idle_behaved (by decide)
    (fun _ => rfl) with ⟨stub, final, regs, events, wiring, ran, _, _, seen, answers⟩
  rcases irq_at_null idle_behaved [] (by decide) (by decide : Wired 33) ⟨0x1000, 8, 0x202⟩ 0
    (quietCpu 56) (fun _ => rfl) rfl with ⟨stub', final', regs', set', ran', seen'⟩
  cases wiring.symm.trans set'
  cases ran.symm.trans ran'
  have lengths := congrArg List.length (seen.symm.trans seen')
  have unanswered : events = [] := by simpa using lengths
  subst unanswered
  rcases answers with ⟨handler, _, same⟩ | ⟨_, same⟩
  · cases same
  · cases same

end NexusOS.InterruptStubs
