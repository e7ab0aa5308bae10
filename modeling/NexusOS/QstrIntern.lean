import NexusOS.MemoryAreas
import NexusOS.QstrPool

/-!
Interning over whole runs: between calls the rest of the program may do what it
likes with the memory outside the strings, and the allocator may grant or refuse
anything that is not in use. The pools then are one table of strings, in which a
string keeps its number and its bytes.
-/

namespace NexusOS.QstrIntern

open ByteMemory BlockCopy MemoryMove MemoryAreas StringOrder QstrPool

/-- Where the strings are, each with its NUL. -/
def stringAreas (pools : List Pool) : List Area :=
  pools.flatMap fun pool => pool.entries.map fun e => ⟨e.qPtr, e.length.toNat + 1⟩

/-- What nobody else may write: the VM's fields at `own`, the pools and the strings. -/
def areas (own : Area) (pools : List Pool) : List Area :=
  own :: (pools.flatMap Pool.records ++ stringAreas pools)

/-- The unused end of the chunk. -/
def room (vm : Vm) : Area :=
  ⟨vm.qstrLastChunk + UInt32.ofNat vm.qstrLastUsed, vm.qstrLastAlloc - vm.qstrLastUsed⟩

structure Interned (own : Area) (m : Memory) (vm : Vm) (table : List Bytes) : Prop where
  chain : Chain m vm.lastPool table
  tabled : Tabled table
  used : vm.qstrLastChunk ≠ 0 → vm.qstrLastUsed ≤ vm.qstrLastAlloc ∧ vm.qstrLastAlloc ≤ 2 ^ 32
  apart : vm.qstrLastChunk ≠ 0 → ∀ x ∈ areas own vm.lastPool, Apart (room vm) x

/-- Where a call is going to put its string. -/
def target (g : Grants) (vm : Vm) (len : Nat) : Area :=
  ⟨(room (reserve g vm (len + 1)).1).start, len + 1⟩

/-- The memory once the string is copied behind the chunk's last one. -/
def stored (m : Memory) (qPtr str : UInt32) (len : Nat) : Memory :=
  Function.update (memcpy m qPtr str (UInt32.ofNat len)).memory (qPtr + UInt32.ofNat len) 0

/-- Where a call puts its pool when the last one is full. -/
def newRecord (g : Grants) : List Pool → Area
  | [] => ⟨g.pool, 0⟩
  | pool :: _ => ⟨g.pool, poolSize (pool.alloc * 2)⟩

/-- What the allocator must not do to a call, nor its caller: hand out or overwrite
what is in use, or pass a text that lies in the unused end of the chunk. -/
structure Respects (own : Area) (vm : Vm) (m : Memory) (str : UInt32) (len : Nat) (g : Grants) :
    Prop where
  source : vm.qstrLastChunk ≠ 0 → Apart (room vm) ⟨str, len⟩
  grown : g.grows = true → vm.qstrLastAlloc + (len + 1) ≤ 2 ^ 32 ∧
    ∀ x ∈ ⟨str, len⟩ :: areas own vm.lastPool,
      Apart ⟨vm.qstrLastChunk + UInt32.ofNat vm.qstrLastAlloc, len + 1⟩ x
  chunk : g.chunk ≠ 0 → ∀ x ∈ ⟨str, len⟩ :: areas own vm.lastPool,
    Apart ⟨g.chunk, max (len + 1) 128⟩ x
  exactChunk : g.exactChunk ≠ 0 → ∀ x ∈ ⟨str, len⟩ :: areas own vm.lastPool,
    Apart ⟨g.exactChunk, len + 1⟩ x
  pool : g.pool ≠ 0 → ∀ x ∈ room (reserve g vm (len + 1)).1 :: areas own vm.lastPool,
    Apart (newRecord g vm.lastPool) x
  afterChunk : ∀ x ∈ ⟨str, len⟩ :: areas own vm.lastPool, Keeps x m (g.afterChunk m)
  afterPool : let now := stored (g.afterChunk m) (target g vm len).start str len
    ∀ x ∈ target g vm len :: areas own vm.lastPool, Keeps x now (g.afterPool now)

/-- There is no chunk, or it is too short and does not grow. -/
def ChunkLost (g : Grants) (vm : Vm) (nBytes : Nat) : Prop :=
  vm.qstrLastChunk = 0 ∨ vm.qstrLastAlloc < vm.qstrLastUsed + nBytes ∧ g.grows = false

def NoChunk (g : Grants) (vm : Vm) (len : Nat) : Prop :=
  ChunkLost g vm (len + 1) ∧ g.chunk = 0 ∧ g.exactChunk = 0

def NoPool (g : Grants) : List Pool → Prop
  | [] => False
  | pool :: _ => pool.alloc ≤ pool.entries.length ∧ g.pool = 0

/-- The allocator refuses all that a new string could be kept in. -/
def Refused (g : Grants) (vm : Vm) (len : Nat) : Prop := NoChunk g vm len ∨ NoPool g vm.lastPool

/-- What interning means for a table of strings. -/
inductive Interns (refused : Prop) (table : List Bytes) (s : Bytes) :
    Result → List Bytes → Prop where
  | known {q : Nat} (real : q ≠ 0) (here : table[q]? = some s) :
      Interns refused table s (.value q) table
  | added (new : s ∉ table) (short : s.length < 256) (granted : ¬ refused) :
      Interns refused table s (.value table.length) (table ++ [s])
  | tooLong (new : s ∉ table) (long : 256 ≤ s.length) :
      Interns refused table s .nameTooLong table
  | noMemory (new : s ∉ table) (short : s.length < 256) (denied : refused) :
      Interns refused table s .memoryError table

section Keeping
variable {m other : Memory} {pools : List Pool} {table : List Bytes}

theorem entry_keeps {e : Entry} {s : Bytes} (entry : EntryHolds m e s)
    (keeps : Keeps ⟨e.qPtr, e.length.toNat + 1⟩ m other) : EntryHolds other e s := by
  have size : (s ++ [0]).length = e.length.toNat + 1 := by
    rw [List.length_append, List.length_singleton, entry.length]
  have small := e.length.toNat_lt
  refine ⟨entry.length, entry.hash, holds_keeps entry.holds (by omega) ?_⟩
  rwa [size]

theorem entries_keep {entries : List Entry} {strings : List Bytes}
    (all : List.Forall₂ (EntryHolds m) entries strings)
    (keeps : ∀ e ∈ entries, Keeps ⟨e.qPtr, e.length.toNat + 1⟩ m other) :
    List.Forall₂ (EntryHolds other) entries strings := by
  induction all with
  | nil => exact .nil
  | cons first rest ih =>
      exact .cons (entry_keeps first (keeps _ List.mem_cons_self))
        (ih fun e member => keeps e (List.mem_cons_of_mem _ member))

theorem strings_keep (chain : Chain m pools table)
    (keeps : ∀ x ∈ stringAreas pools, Keeps x m other) : Chain other pools table := by
  induction chain with
  | nil => exact .nil
  | cons earlier total entries filled sorted ih =>
      rw [stringAreas, List.flatMap_cons] at keeps
      refine .cons (ih fun x member => keeps x (List.mem_append_right _ member)) total
        (entries_keep entries fun e member => keeps _ (List.mem_append_left _ ?_)) filled sorted
      exact List.mem_map_of_mem member

theorem string_area {own x : Area} (member : x ∈ stringAreas pools) : x ∈ areas own pools :=
  List.mem_cons_of_mem _ (List.mem_append_right _ member)

theorem chain_keeps {own : Area} (chain : Chain m pools table)
    (keeps : ∀ x ∈ areas own pools, Keeps x m other) : Chain other pools table :=
  strings_keep chain fun x member => keeps x (string_area member)

theorem chain_length {pool : Pool} {prev : List Pool} (chain : Chain m (pool :: prev) table) :
    pool.totalPrevLen + pool.entries.length = table.length := by
  cases chain with
  | cons earlier total entries filled sorted =>
      rw [total, entries.length_eq, List.length_append]

end Keeping

section Adding
variable {g : Grants} {m : Memory} {vm : Vm} {table : List Bytes} {e : Entry} {s : Bytes}

theorem tabled_add (tabled : Tabled table) (new : s ∉ table) : Tabled (table ++ [s]) := by
  have second := (List.getElem?_eq_some_iff.mp tabled.empty).1
  refine ⟨?_, ?_, ?_⟩
  · rw [List.getElem?_append_left (by omega), tabled.null]
  · rw [List.getElem?_append_left second, tabled.empty]
  · rw [List.drop_append_of_le_length (by omega)]
    refine List.nodup_append.mpr ⟨tabled.distinct, List.nodup_singleton s, fun u old v one => ?_⟩
    rw [List.mem_singleton.mp one]
    rintro rfl
    exact new (List.mem_of_mem_drop old)

/-- The pools with one string more, in a pool they had or in a new one. -/
structure Longer (m : Memory) (g : Grants) (pools : List Pool) (table : List Bytes) (e : Entry)
    (s : Bytes) (after : List Pool) : Prop where
  chain : Chain m after (table ++ [s])
  strings : ∀ x ∈ stringAreas after, x = ⟨e.qPtr, e.length.toNat + 1⟩ ∨ x ∈ stringAreas pools
  records : ∀ x ∈ after.flatMap Pool.records,
    g.pool ≠ 0 ∧ x = newRecord g pools ∨ x ∈ pools.flatMap Pool.records

theorem Longer.areas {own : Area} {pools after : List Pool}
    (longer : Longer m g pools table e s after)
    {x : Area} (member : x ∈ areas own after) : x = ⟨e.qPtr, e.length.toNat + 1⟩ ∨
      g.pool ≠ 0 ∧ x = newRecord g pools ∨ x ∈ areas own pools := by
  rcases List.mem_cons.mp member with mine | member
  · exact Or.inr (Or.inr (List.mem_cons.mpr (Or.inl mine)))
  · rcases List.mem_append.mp member with record | string
    · exact Or.inr ((longer.records x record).imp_right fun old =>
        List.mem_cons_of_mem _ (List.mem_append_left _ old))
    · exact (longer.strings x string).imp_right fun old => Or.inr (string_area old)

theorem add_exact (vm : Vm) (chain : Chain m vm.lastPool table) (tabled : Tabled table)
    (entry : EntryHolds m e s) :
    (qstrAdd g vm e = some (.memoryError, { vm with qstrLastChunk := 0 }) ∧
        NoPool g vm.lastPool) ∨
      ∃ after, qstrAdd g vm e = some (.value table.length, { vm with lastPool := after }) ∧
        ¬ NoPool g vm.lastPool ∧ Longer m g vm.lastPool table e s after := by
  rw [qstrAdd]
  cases held : vm.lastPool with
  | nil =>
      rw [held] at chain
      cases chain
      cases tabled.null
  | cons pool prev =>
      rw [held] at chain
      have total := chain_length chain
      simp only
      by_cases full : pool.entries.length ≥ pool.alloc
      · rw [if_pos full]
        by_cases granted : g.pool ≠ 0
        · refine Or.inr ⟨_, by rw [if_pos granted, total], fun denied => granted denied.2, ?_,
            fun x member => ?_, fun x member => ?_⟩
          · exact .cons chain rfl (.cons entry .nil) (List.cons_ne_nil _ _) nofun
          · rw [stringAreas, List.flatMap_cons] at member
            exact (List.mem_append.mp member).imp_left fun one => List.mem_singleton.mp one
          · rw [List.flatMap_cons] at member
            exact (List.mem_append.mp member).imp_left fun one =>
              ⟨granted, List.mem_singleton.mp one⟩
        · exact Or.inl ⟨if_neg granted, full, not_not.mp granted⟩
      · rw [if_neg full]
        refine Or.inr ⟨_, by rw [total], fun denied => full denied.1, ?_, fun x member => ?_,
          fun x member => ?_⟩
        · cases chain with
          | cons earlier before entries filled sorted =>
              rw [List.append_assoc]
              refine .cons earlier before (List.rel_append entries (.cons entry .nil))
                (List.append_ne_nil_of_left_ne_nil filled _) fun kind => absurd (sorted kind).2 ?_
              rw [← entries.length_eq]
              exact full
        · rw [stringAreas, List.flatMap_cons, List.map_append] at member
          rcases List.mem_append.mp member with here | older
          · rcases List.mem_append.mp here with old | one
            · exact Or.inr (List.mem_append_left _ old)
            · exact Or.inl (List.mem_singleton.mp one)
          · exact Or.inr (List.mem_append_right _ older)
        · exact Or.inr member

end Adding

section Storing
variable {own : Area} {m : Memory} {vm : Vm} {table : List Bytes} {str : UInt32} {s : Bytes}
  {g : Grants}

/-- A chunk with room for the string, apart from all there is. -/
structure Reserved (own : Area) (vm after : Vm) (str : UInt32) (len : Nat) : Prop where
  chunk : after.qstrLastChunk ≠ 0
  fits : after.qstrLastUsed + (len + 1) ≤ after.qstrLastAlloc
  small : after.qstrLastAlloc ≤ 2 ^ 32
  apart : ∀ x ∈ ⟨str, len⟩ :: areas own vm.lastPool, Apart (room after) x

inductive Reserve (own : Area) (g : Grants) (vm : Vm) (str : UInt32) (len : Nat) :
    Vm × Bool → Prop where
  | granted {after : Vm} (pools : after.lastPool = vm.lastPool)
      (reserved : Reserved own vm after str len) (offered : ¬ NoChunk g vm len) :
      Reserve own g vm str len (after, true)
  | refused {after : Vm} (pools : after.lastPool = vm.lastPool) (null : after.qstrLastChunk = 0)
      (denied : NoChunk g vm len) : Reserve own g vm str len (after, false)

theorem new_chunk_exact {len : Nat} (short : len < 256) (respects : Respects own vm m str len g)
    {now : Vm} (pools : now.lastPool = vm.lastPool)
    (lost : now.qstrLastChunk = 0 ↔ ChunkLost g vm (len + 1))
    (kept : now.qstrLastChunk ≠ 0 → Reserved own vm now str len) :
    Reserve own g vm str len (newChunk g now (len + 1)) := by
  rw [newChunk]
  by_cases null : now.qstrLastChunk = 0
  · rw [if_pos null]
    by_cases large : g.chunk ≠ 0
    · rw [if_pos large]
      refine .granted pools ⟨large, ?_, ?_, fun x member => ?_⟩ fun denied => large denied.2.1
      · simp only [Nat.zero_add]
        exact Nat.le_max_left _ _
      · simp only
        omega
      · have apart := respects.chunk large x member
        rw [room]
        simp only [first_address]
        exact apart
    · rw [if_neg large]
      by_cases tight : g.exactChunk ≠ 0
      · rw [if_pos tight]
        refine .granted pools ⟨tight, by simp, ?_, fun x member => ?_⟩
          fun denied => tight denied.2.2
        · simp only
          omega
        · have apart := respects.exactChunk tight x member
          rw [room]
          simp only [first_address]
          exact apart
      · rw [if_neg tight]
        exact .refused pools null ⟨lost.mp null, not_not.mp large, not_not.mp tight⟩
  · rw [if_neg null]
    exact .granted pools (kept null) fun denied => null (lost.mpr denied.1)

theorem reserve_exact (interned : Interned own m vm table) {len : Nat} (short : len < 256)
    (respects : Respects own vm m str len g) :
    Reserve own g vm str len (reserve g vm (len + 1)) := by
  have apart : vm.qstrLastChunk ≠ 0 →
      ∀ x ∈ ⟨str, len⟩ :: areas own vm.lastPool, Apart (room vm) x := by
    intro chunk x member
    rcases List.mem_cons.mp member with rfl | old
    · exact respects.source chunk
    · exact interned.apart chunk x old
  rw [reserve, growChunk]
  split
  case isFalse fits =>
    have enough : vm.qstrLastChunk ≠ 0 → vm.qstrLastUsed + (len + 1) ≤ vm.qstrLastAlloc := by
      intro chunk
      by_contra more
      exact fits ⟨chunk, Nat.not_le.mp more⟩
    refine new_chunk_exact short respects rfl ⟨Or.inl, fun lost => ?_⟩ fun chunk =>
      ⟨chunk, enough chunk, (interned.used chunk).2, apart chunk⟩
    rcases lost with null | ⟨more, _⟩
    · exact null
    · by_contra chunk
      exact absurd (enough chunk) (Nat.not_le.mpr more)
  case isTrue more =>
    rcases more with ⟨chunk, short'⟩
    rcases interned.used chunk with ⟨used, small⟩
    split
    case isFalse stays =>
      exact new_chunk_exact short respects rfl
        ⟨fun _ => Or.inr ⟨short', Bool.not_eq_true _ ▸ stays⟩, fun _ => rfl⟩
        fun here => absurd rfl here
    case isTrue grows =>
      rcases respects.grown grows with ⟨fits, beyond⟩
      refine new_chunk_exact short respects rfl ⟨fun null => absurd null chunk, ?_⟩
        fun _ => ⟨chunk, ?_, fits, fun x member => ?_⟩
      · rintro (null | ⟨_, stays⟩)
        · exact absurd null chunk
        · rw [grows] at stays
          cases stays
      · simp only
        omega
      · have behind := beyond x member
        have start : vm.qstrLastChunk + UInt32.ofNat vm.qstrLastAlloc =
            vm.qstrLastChunk + UInt32.ofNat vm.qstrLastUsed +
              UInt32.ofNat (vm.qstrLastAlloc - vm.qstrLastUsed) := by
          rw [UInt32.add_assoc, ← UInt32.ofNat_add, Nat.add_sub_cancel' used]
        rw [start] at behind
        have joined := apart_join (apart chunk x member) behind (by omega)
        have size : vm.qstrLastAlloc + (len + 1) - vm.qstrLastUsed =
            vm.qstrLastAlloc - vm.qstrLastUsed + (len + 1) := by omega
        rw [room]
        simp only [size]
        exact joined

theorem stored_exact {qPtr : UInt32} (holds : Holds m str s) (short : s.length < 256)
    (apart : Apart ⟨qPtr, s.length + 1⟩ ⟨str, s.length⟩) :
    Holds (stored m qPtr str s.length) qPtr (s ++ [0]) ∧
      ∀ x, Apart ⟨qPtr, s.length + 1⟩ x → Keeps x m (stored m qPtr str s.length) := by
  have size : (UInt32.ofNat s.length).toNat = s.length := by
    rw [UInt32.toNat_ofNat', Nat.mod_eq_of_lt (by omega)]
  have memory : ∀ a, stored m qPtr str s.length a =
      if offset qPtr a = s.length then 0 else copied m qPtr str s.length a := by
    intro a
    rw [stored, update_offset _ _ _ (by omega), memcpy, size,
      copy_up_copies m (apart_ahead apart (Nat.succ_pos _))]
  constructor
  · refine holds_of_get fun k below => ?_
    rw [List.length_append, List.length_singleton] at below
    rw [memory, offset_add _ _ (by omega)]
    by_cases last : k = s.length
    · subst last
      simp
    · have inText : k < s.length := by omega
      rw [if_neg last, copied_inside m qPtr str (by omega) inText, holds_get holds k inText]
      exact (List.getElem_append_left inText).symm
  · intro x away a inside
    have outside : s.length + 1 ≤ offset qPtr a :=
      Nat.le_of_not_lt fun within => away a within inside
    rw [memory, if_neg (by omega), copied_outside m str (by omega)]

theorem entry_stored (source : Holds m str s) (short : s.length < 256) {qPtr : UInt32}
    (written : Holds (stored m qPtr str s.length) qPtr (s ++ [0])) :
    EntryHolds (stored m qPtr str s.length)
      ⟨(qstrComputeHash m str s.length).toUInt8, UInt8.ofNat s.length, qPtr⟩ s := by
  refine ⟨(UInt8.toNat_ofNat').trans (Nat.mod_eq_of_lt short), fun _ => ?_, written⟩
  rw [UInt32.toNat_toUInt8, compute_hash_text source]
  exact Nat.mod_eq_of_lt (compute_hash_small s)

theorem room_behind (pools : List Pool) (after : Vm) (nBytes : Nat) :
    room ⟨pools, after.qstrLastChunk, after.qstrLastAlloc, after.qstrLastUsed + nBytes⟩ =
      ⟨(room after).start + UInt32.ofNat nBytes,
        after.qstrLastAlloc - after.qstrLastUsed - nBytes⟩ := by
  rw [room, room, UInt32.add_assoc, ← UInt32.ofNat_add, Nat.sub_sub]

/-- What is left of the chunk stays apart from all that is in use, the new string and
the record of a pool made for it included. -/
theorem rest_apart {memory : Memory} {after : Vm} {more : List Pool} {hash length : UInt8}
    (chunk : Reserved own vm after str s.length) (pools : after.lastPool = vm.lastPool)
    (size : length.toNat = s.length)
    (fresh : g.pool ≠ 0 → Apart (newRecord g after.lastPool) (room after))
    (longer : Longer memory g after.lastPool table ⟨hash, length, (room after).start⟩ s more) :
    ∀ x ∈ areas own more, Apart (room ⟨more, after.qstrLastChunk, after.qstrLastAlloc,
      after.qstrLastUsed + (s.length + 1)⟩) x := by
  intro x member
  have fits := chunk.fits
  have small := chunk.small
  rw [room_behind]
  rcases longer.areas member with rfl | ⟨granted, rfl⟩ | old
  · rw [size]
    exact apart_symm (parts_apart (by omega))
  · exact apart_part (apart_symm (fresh granted)) (by omega) (by omega)
  · rw [pools] at old
    exact apart_part (chunk.apart x (List.mem_cons_of_mem _ old)) (by omega) (by omega)

/-- One call interns its string, or says why not and leaves the table alone. -/
theorem intern_step (interned : Interned own m vm table) (holds : Holds m str s)
    (respects : Respects own vm m str s.length g) :
    ∃ result vm' m' table', qstrFromStrn g vm m str s.length = some (result, vm', m') ∧
      Interns (Refused g vm s.length) table s result table' ∧ Interned own m' vm' table' := by
  rcases find_exact interned.chain interned.tabled holds with ⟨q, found, ⟨real, here⟩ | ⟨zero, new⟩⟩
  · exact ⟨_, _, _, _, by rw [qstrFromStrn, found]; exact if_pos real, .known real here, interned⟩
  rw [qstrFromStrn, found]
  simp only [zero, ne_eq, not_true_eq_false, ↓reduceIte]
  by_cases long : s.length ≥ 256
  · exact ⟨_, _, _, _, if_pos long, .tooLong new long, interned⟩
  have short : s.length < 256 := Nat.not_le.mp long
  rw [if_neg long]
  have kept := respects.afterChunk
  have later := respects.afterPool
  have fresh := respects.pool
  simp only [target] at later
  have outcome := reserve_exact interned short respects
  have chain : Chain (g.afterChunk m) vm.lastPool table :=
    chain_keeps interned.chain fun x member => kept x (List.mem_cons_of_mem _ member)
  generalize reserve g vm (s.length + 1) = reserved at outcome later fresh ⊢
  cases outcome with
  | refused pools null denied =>
      refine ⟨_, _, _, _, rfl, .noMemory new short (Or.inl denied), ?_, interned.tabled,
        fun here => absurd null here, fun here => absurd null here⟩
      rw [pools]
      exact chain
  | @granted after pools chunk offered =>
      have fits : s.length + 1 ≤ after.qstrLastAlloc - after.qstrLastUsed := by
        have enough := chunk.fits
        omega
      have source := holds_keeps holds (by omega) (kept _ List.mem_cons_self)
      have text : Apart ⟨(room after).start, s.length + 1⟩ ⟨str, s.length⟩ :=
        apart_start (chunk.apart _ List.mem_cons_self) fits
      have others : ∀ x ∈ areas own vm.lastPool, Apart ⟨(room after).start, s.length + 1⟩ x :=
        fun x member => apart_start (chunk.apart _ (List.mem_cons_of_mem _ member)) fits
      rcases stored_exact source short text with ⟨written, elsewhere⟩
      have entry := entry_stored source short written
      have chainStored := chain_keeps chain fun x member => elsewhere x (others x member)
      rw [← pools] at chainStored later fresh
      have size : (UInt8.ofNat s.length).toNat + 1 = s.length + 1 := congrArg (· + 1) entry.length
      let finish := fun added : Result × Vm => (added.1, added.2,
        g.afterPool (stored (g.afterChunk m) (room after).start str s.length))
      simp only [if_true]
      rcases add_exact { after with qstrLastUsed := after.qstrLastUsed + (s.length + 1) }
          chainStored interned.tabled entry with
        ⟨failed, denied⟩ | ⟨more, added, place, longer⟩
      · refine ⟨.memoryError, _, _, _, congrArg (Option.map finish) failed,
          .noMemory new short (Or.inr (pools ▸ denied)), ?_⟩
        refine ⟨strings_keep chainStored fun x member => ?_, interned.tabled,
          fun here => absurd rfl here, fun here => absurd rfl here⟩
        exact later x (List.mem_cons_of_mem _ (string_area member))
      · refine ⟨.value table.length, _, _, _, congrArg (Option.map finish) added,
          .added new short (not_or.mpr ⟨offered, pools ▸ place⟩), ?_⟩
        refine ⟨strings_keep longer.chain fun x member => ?_, tabled_add interned.tabled new,
          fun _ => ?_, fun _ x member => ?_⟩
        · rcases longer.strings x member with rfl | old
          · have here := later _ List.mem_cons_self
            simp only [size]
            exact here
          · exact later x (List.mem_cons_of_mem _ (string_area old))
        · simp only
          exact ⟨chunk.fits, chunk.small⟩
        · exact rest_apart chunk pools entry.length
            (fun granted => fresh granted _ List.mem_cons_self) longer x member

end Storing

/-- A call of `qstr_from_strn`, and the memory the program has come to by then. -/
structure Call where
  memory : Memory
  str : UInt32
  text : Bytes
  grants : Grants

def run : List Call → Vm → Memory → Option (List Result × Vm × Memory)
  | [], vm, m => some ([], vm, m)
  | call :: rest, vm, _ =>
      (qstrFromStrn call.grants vm call.memory call.str call.text.length).bind fun next =>
        (run rest next.2.1 next.2.2).map fun later => (next.1 :: later.1, later.2)

/-- The program has left alone what is not its own, and the text is where the call
says. -/
structure Proper (own : Area) (vm : Vm) (m : Memory) (call : Call) : Prop where
  keeps : ∀ x ∈ areas own vm.lastPool, Keeps x m call.memory
  holds : Holds call.memory call.str call.text
  respects : Respects own vm call.memory call.str call.text.length call.grants

def Along (own : Area) : List Call → Vm → Memory → Prop
  | [], _, _ => True
  | call :: rest, vm, m => Proper own vm m call ∧
      ∀ next, qstrFromStrn call.grants vm call.memory call.str call.text.length = some next →
        Along own rest next.2.1 next.2.2

inductive InternsAll : Vm → List Bytes → List Call → List Result → List Bytes → Prop where
  | nil {vm : Vm} {table : List Bytes} : InternsAll vm table [] [] table
  | cons {vm next : Vm} {m : Memory} {table between after : List Bytes} {call : Call}
      {calls : List Call} {result : Result} {results : List Result}
      (stepped : qstrFromStrn call.grants vm call.memory call.str call.text.length =
        some (result, next, m))
      (first : Interns (Refused call.grants vm call.text.length) table call.text result between)
      (rest : InternsAll next between calls results after) :
      InternsAll vm table (call :: calls) (result :: results) after

section Runs
variable {own : Area} {m : Memory} {vm : Vm} {table after : List Bytes} {s : Bytes}
  {result : Result} {refused : Prop}

theorem run_exact {calls : List Call} (interned : Interned own m vm table)
    (along : Along own calls vm m) :
    ∃ results vm' m' last, run calls vm m = some (results, vm', m') ∧
      InternsAll vm table calls results last ∧ Interned own m' vm' last := by
  induction calls generalizing vm m table with
  | nil => exact ⟨[], vm, m, table, rfl, .nil, interned⟩
  | cons call rest ih =>
      rcases along with ⟨proper, later⟩
      have now : Interned own call.memory vm table :=
        ⟨chain_keeps interned.chain proper.keeps, interned.tabled, interned.used, interned.apart⟩
      rcases intern_step now proper.holds proper.respects with
        ⟨result, vm', m', between, stepped, means, kept⟩
      rcases ih kept (later _ stepped) with ⟨results, vmLast, mLast, last, ran, all, final⟩
      exact ⟨result :: results, vmLast, mLast, last,
        by rw [run, stepped, Option.bind_some, ran, Option.map_some], .cons stepped means all,
        final⟩

/-- What the table says of a result, however long it has grown since. -/
def Named (table : List Bytes) (s : Bytes) : Result → Prop
  | .value q => q ≠ 0 ∧ table[q]? = some s
  | .nameTooLong => 256 ≤ s.length
  | .memoryError => s.length < 256

theorem interns_extends (interns : Interns refused table s result after) : table <+: after := by
  cases interns with
  | added => exact List.prefix_append _ _
  | known | tooLong | noMemory => exact List.prefix_refl _

theorem interns_named (tabled : Tabled table) (interns : Interns refused table s result after) :
    Named after s result := by
  cases interns with
  | known real here => exact ⟨real, here⟩
  | added =>
      have first := (List.getElem?_eq_some_iff.mp tabled.null).1
      exact ⟨Nat.ne_of_gt first, List.getElem?_concat_length⟩
  | tooLong _ long => exact long
  | noMemory _ short => exact short

theorem interns_tabled (tabled : Tabled table) (interns : Interns refused table s result after) :
    Tabled after := by
  cases interns with
  | added new => exact tabled_add tabled new
  | known | tooLong | noMemory => exact tabled

theorem named_extends {last : List Bytes} (named : Named table s result) (longer : table <+: last) :
    Named last s result := by
  cases result with
  | value q =>
      rcases longer with ⟨more, rfl⟩
      have inside := (List.getElem?_eq_some_iff.mp named.2).1
      exact ⟨named.1, by rw [List.getElem?_append_left inside, named.2]⟩
  | nameTooLong | memoryError => exact named

theorem all_named {calls : List Call} {results : List Result} (tabled : Tabled table)
    (all : InternsAll vm table calls results after) :
    table <+: after ∧ Tabled after ∧
      List.Forall₂ (Named after) (calls.map (·.text)) results := by
  induction all with
  | nil => exact ⟨List.prefix_refl _, tabled, .nil⟩
  | cons stepped first rest ih =>
      rcases ih (interns_tabled tabled first) with ⟨longer, last, named⟩
      exact ⟨(interns_extends first).trans longer, last,
        .cons (named_extends (interns_named tabled first) longer) named⟩

theorem tabled_injective (tabled : Tabled table) {p q : Nat} {t : Bytes} (real : p ≠ 0)
    (other : q ≠ 0) (first : table[p]? = some s) (second : table[q]? = some t) :
    p = q ↔ s = t := by
  constructor
  · rintro rfl
    exact Option.some.inj (first.symm.trans second)
  · rintro rfl
    have inside := (List.getElem?_eq_some_iff.mp first).1
    have place : ∀ k, k ≠ 0 → (table.drop 1)[k - 1]? = table[k]? := by
      intro k positive
      rw [List.getElem?_drop, Nat.add_sub_cancel' (Nat.pos_of_ne_zero positive)]
    have below : p - 1 < (table.drop 1).length := by
      rw [List.length_drop]
      omega
    have same := (List.getElem?_inj below tabled.distinct).mp
      ((place p real).trans (first.trans (second.symm.trans (place q other).symm)))
    omega

end Runs

end NexusOS.QstrIntern
