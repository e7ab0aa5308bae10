import NexusOS.QstrIntern

/-!
The strings of the firmware, from `genhdr/qstrdefs.generated.h`: the static pool
and the sorted one that `qstr_init` starts from. A row is the hash, the length
and the string, in the order of their numbers.
-/

namespace NexusOS.QstrFirmware

open ByteMemory MemoryAreas QstrPool QstrIntern

abbrev Row := Nat × Nat × String

def staticRows : List Row :=
  [(0, 0, ""), (5, 0, ""), (122, 7, "__dir__"), (175, 1, "\x0a"), (133, 1, " "), (143, 1, "*"),
  (138, 1, "/"), (189, 8, "<module>"), (250, 1, "_"), (167, 8, "__call__"), (43, 9, "__class__"),
  (253, 11, "__delitem__"), (109, 9, "__enter__"), (69, 8, "__exit__"), (64, 11, "__getattr__"),
  (38, 11, "__getitem__"), (247, 8, "__hash__"), (95, 8, "__init__"), (22, 7, "__int__"),
  (207, 8, "__iter__"), (226, 7, "__len__"), (142, 8, "__main__"), (255, 10, "__module__"),
  (226, 8, "__name__"), (121, 7, "__new__"), (2, 8, "__next__"), (107, 12, "__qualname__"),
  (16, 8, "__repr__"), (50, 11, "__setitem__"), (208, 7, "__str__"), (45, 15, "ArithmeticError"),
  (151, 14, "AssertionError"), (33, 14, "AttributeError"), (7, 13, "BaseException"),
  (145, 8, "EOFError"), (240, 8, "Ellipsis"), (242, 9, "Exception"), (22, 13, "GeneratorExit"),
  (32, 11, "ImportError"), (92, 16, "IndentationError"), (131, 10, "IndexError"),
  (234, 8, "KeyError"), (175, 17, "KeyboardInterrupt"), (255, 11, "LookupError"),
  (220, 11, "MemoryError"), (186, 9, "NameError"), (23, 8, "NoneType"),
  (198, 19, "NotImplementedError"), (161, 7, "OSError"), (129, 13, "OverflowError"),
  (97, 12, "RuntimeError"), (234, 13, "StopIteration"), (148, 11, "SyntaxError"),
  (32, 10, "SystemExit"), (37, 9, "TypeError"), (150, 10, "ValueError"),
  (182, 17, "ZeroDivisionError"), (149, 3, "abs"), (68, 3, "all"), (19, 3, "any"),
  (107, 6, "append"), (194, 4, "args"), (235, 4, "bool"), (247, 8, "builtins"),
  (118, 9, "bytearray"), (34, 8, "bytecode"), (92, 5, "bytes"), (13, 8, "callable"),
  (220, 3, "chr"), (180, 11, "classmethod"), (124, 5, "clear"), (51, 5, "close"),
  (192, 5, "const"), (224, 4, "copy"), (166, 5, "count"), (63, 4, "dict"), (250, 3, "dir"),
  (184, 6, "divmod"), (10, 3, "end"), (27, 8, "endswith"), (155, 4, "eval"), (30, 4, "exec"),
  (99, 6, "extend"), (1, 4, "find"), (38, 6, "format"), (53, 10, "from_bytes"), (51, 3, "get"),
  (192, 7, "getattr"), (157, 7, "globals"), (140, 7, "hasattr"), (183, 4, "hash"), (40, 2, "id"),
  (123, 5, "index"), (18, 6, "insert"), (22, 3, "int"), (235, 7, "isalpha"), (168, 7, "isdigit"),
  (182, 10, "isinstance"), (252, 7, "islower"), (91, 7, "isspace"), (181, 10, "issubclass"),
  (221, 7, "isupper"), (227, 5, "items"), (143, 4, "iter"), (167, 4, "join"), (50, 3, "key"),
  (1, 4, "keys"), (98, 3, "len"), (39, 4, "list"), (137, 6, "little"), (59, 6, "locals"),
  (198, 5, "lower"), (229, 6, "lstrip"), (206, 4, "main"), (185, 3, "map"),
  (11, 11, "micropython"), (66, 4, "next"), (144, 6, "object"), (209, 4, "open"), (28, 3, "ord"),
  (42, 3, "pop"), (191, 7, "popitem"), (45, 3, "pow"), (84, 5, "print"), (26, 5, "range"),
  (183, 4, "read"), (75, 8, "readinto"), (249, 8, "readline"), (99, 6, "remove"),
  (73, 7, "replace"), (208, 4, "repr"), (37, 7, "reverse"), (210, 5, "rfind"),
  (233, 6, "rindex"), (231, 5, "round"), (165, 6, "rsplit"), (59, 6, "rstrip"), (121, 4, "self"),
  (185, 4, "send"), (35, 3, "sep"), (39, 3, "set"), (212, 7, "setattr"), (108, 10, "setdefault"),
  (191, 4, "sort"), (94, 6, "sorted"), (183, 5, "split"), (133, 5, "start"),
  (116, 10, "startswith"), (98, 12, "staticmethod"), (87, 4, "step"), (157, 4, "stop"),
  (80, 3, "str"), (41, 5, "strip"), (46, 3, "sum"), (196, 5, "super"), (179, 5, "throw"),
  (216, 8, "to_bytes"), (253, 5, "tuple"), (157, 4, "type"), (180, 6, "update"),
  (39, 5, "upper"), (183, 5, "utf-8"), (78, 5, "value"), (125, 6, "values"), (152, 5, "write"),
  (230, 3, "zip"), (196, 7, "__add__"), (43, 8, "__bool__"), (198, 12, "__contains__"),
  (113, 6, "__eq__"), (167, 6, "__ge__"), (182, 6, "__gt__"), (109, 8, "__iadd__"),
  (8, 8, "__isub__"), (204, 6, "__le__"), (93, 6, "__lt__"), (14, 6, "__ne__"),
  (33, 7, "__sub__")]

def constRows : List Row :=
  [(129, 7, ".frozen"), (204, 10, "<dictcomp>"), (52, 9, "<genexpr>"), (128, 8, "<lambda>"),
  (212, 10, "<listcomp>"), (84, 9, "<setcomp>"), (227, 7, "<stdin>"), (82, 8, "<string>"),
  (66, 15, "__build_class__"), (56, 10, "__import__"), (200, 8, "__path__"),
  (1, 14, "__repl_print__"), (79, 13, "__traceback__"), (224, 3, "bin"),
  (151, 12, "bound_method"), (116, 7, "closure"), (45, 9, "dict_view"), (193, 5, "errno"),
  (39, 8, "function"), (150, 9, "generator"), (148, 4, "help"), (112, 3, "hex"),
  (115, 5, "input"), (71, 8, "iterator"), (203, 4, "line"),
  (115, 32, "maximum recursion depth exceeded"), (191, 6, "module"), (253, 3, "oct"),
  (181, 5, "slice"), (88, 5, "\x7b:#b\x7d"), (245, 5, "\x7b:#o\x7d"), (2, 5, "\x7b:#x\x7d")]

def rowText (row : Row) : Bytes := row.2.2.toList.map fun c => UInt8.ofNat c.toNat

def firmwareTable : List Bytes := (staticRows ++ constRows).map rowText

/-- A row says of its string what `qstr_add` would have stored. -/
def Checked (row : Row) : Prop :=
  row.2.1 = (rowText row).length ∧ row.1 < 256 ∧ row.2.1 < 256 ∧
    (rowText row ≠ [] → row.1 = MpDict.qstrComputeHash (rowText row))

instance (row : Row) : Decidable (Checked row) := inferInstanceAs (Decidable (_ ∧ _ ∧ _ ∧ _))

instance (strings : List Bytes) : Decidable (Sorted strings) :=
  -- by the bytes there are, and not by all values of a byte
  have (s : Bytes) : Decidable (∀ c ∈ s, c ≠ 0) := List.decidableBAll _ s
  have : Decidable (∀ s ∈ strings, ∀ c ∈ s, c ≠ 0) := List.decidableBAll _ strings
  inferInstanceAs (Decidable (_ ∧ _))

/-- Most rows differ in their hashes already. -/
def apart (a b : Row) : Bool := !a.1.beq b.1 || decide (rowText a ≠ rowText b)

def allApart : List Row → Bool
  | [] => true
  | row :: rest => rest.all (apart row) && allApart rest

-- The two tables are evaluated once, for all that is asked of them.
theorem rows_evaluated : (∀ row ∈ staticRows ++ constRows, Checked row ∧ row.2.1 < 63) ∧
    (staticRows ++ constRows).length = 210 ∧ Sorted (constRows.map rowText) ∧
    allApart ((staticRows ++ constRows).drop 1) = true ∧
    ∀ row ∈ (staticRows ++ constRows).drop 2, row.2.1 ≠ 0 := by
  decide +kernel

theorem rows_checked (row : Row) (member : row ∈ staticRows ++ constRows) : Checked row :=
  (rows_evaluated.1 row member).1

theorem rows_short (row : Row) (member : row ∈ staticRows ++ constRows) : row.2.1 < 63 :=
  (rows_evaluated.1 row member).2

theorem const_sorted : Sorted (constRows.map rowText) := rows_evaluated.2.2.1

theorem rows_filled : ∀ row ∈ (staticRows ++ constRows).drop 2, row.2.1 ≠ 0 :=
  rows_evaluated.2.2.2.2

theorem all_apart_differ {rows : List Row} (all : allApart rows = true)
    (checked : ∀ row ∈ rows, Checked row) (filled : ∀ row ∈ rows, row.2.1 ≠ 0) :
    (rows.map rowText).Nodup := by
  induction rows with
  | nil => exact List.nodup_nil
  | cons row rest ih =>
      rw [allApart, Bool.and_eq_true, List.all_eq_true] at all
      rw [List.map_cons, List.nodup_cons]
      refine ⟨fun member => ?_, ih all.2 (fun b inside => checked b (List.mem_cons_of_mem _ inside))
        fun b inside => filled b (List.mem_cons_of_mem _ inside)⟩
      rcases List.mem_map.mp member with ⟨other, inside, same⟩
      have differ := all.1 other inside
      have mine := checked row List.mem_cons_self
      have its := checked other (List.mem_cons_of_mem _ inside)
      have nonempty : rowText row ≠ [] := by
        intro empty
        have length := mine.1
        rw [empty] at length
        exact filled row List.mem_cons_self length
      have hash : row.1 = other.1 := by
        rw [mine.2.2.2 nonempty, its.2.2.2 (same ▸ nonempty), same]
      rw [apart, hash, Nat.beq_refl, same] at differ
      simp at differ

theorem firmware_distinct : (firmwareTable.drop 1).Nodup := by
  have second : (staticRows ++ constRows).drop 1 = (5, 0, "") :: (staticRows ++ constRows).drop 2 :=
    rfl
  have all := rows_evaluated.2.2.2.1
  rw [second, allApart, Bool.and_eq_true] at all
  have later :=
    all_apart_differ all.2 (fun row member => rows_checked row (List.mem_of_mem_drop member))
    rows_filled
  rw [firmwareTable, ← List.map_drop, second, List.map_cons, List.nodup_cons]
  refine ⟨fun member => ?_, later⟩
  rcases List.mem_map.mp member with ⟨row, inside, empty⟩
  have length := (rows_checked row (List.mem_of_mem_drop inside)).1
  rw [empty] at length
  exact rows_filled row inside length

theorem firmware_tabled : Tabled firmwareTable := ⟨rfl, rfl, firmware_distinct⟩

/-- The entries of a pool whose first string has number `n`, the strings where
the linker placed them. -/
def poolEntries (place : Nat → UInt32) : Nat → List Row → List Entry
  | _, [] => []
  | n, row :: rest =>
      ⟨UInt8.ofNat row.1, UInt8.ofNat row.2.1, place n⟩ :: poolEntries place (n + 1) rest

def mpQstrConstPoolStatic (place : Nat → UInt32) (records : List Area) : Pool :=
  ⟨0, false, 10, poolEntries place 0 staticRows, records⟩

def mpQstrConstPool (place : Nat → UInt32) (records : List Area) : Pool :=
  ⟨staticRows.length, true, 10, poolEntries place staticRows.length constRows, records⟩

def qstrInit (place : Nat → UInt32) (staticAt constAt : List Area) : Vm :=
  ⟨[mpQstrConstPool place constAt, mpQstrConstPoolStatic place staticAt], 0, 0, 0⟩

/-- The strings of the firmware, where the pools say. -/
def Placed (m : Memory) (place : Nat → UInt32) : Prop :=
  ∀ q s, firmwareTable[q]? = some s → Holds m (place q) (s ++ [0])

theorem entries_hold {m : Memory} {place : Nat → UInt32} {rows : List Row} {n : Nat}
    (checked : ∀ row ∈ rows, Checked row)
    (placed : ∀ k row, rows[k]? = some row → Holds m (place (n + k)) (rowText row ++ [0])) :
    List.Forall₂ (EntryHolds m) (poolEntries place n rows) (rows.map rowText) := by
  induction rows generalizing n with
  | nil => exact .nil
  | cons row rest ih =>
      rcases checked row List.mem_cons_self with ⟨length, hash, small, right⟩
      refine .cons ⟨?_, fun nonempty => ?_, placed 0 row rfl⟩
        (ih (fun b inside => checked b (List.mem_cons_of_mem _ inside)) fun k b here => ?_)
      · rw [← length]
        exact (UInt8.toNat_ofNat').trans (Nat.mod_eq_of_lt small)
      · rw [← right nonempty]
        exact (UInt8.toNat_ofNat').trans (Nat.mod_eq_of_lt hash)
      · have later := placed (k + 1) b here
        rwa [← Nat.add_assoc, Nat.add_right_comm] at later

theorem init_interned (own : Area) {m : Memory} {place : Nat → UInt32} (placed : Placed m place)
    (staticAt constAt : List Area) :
    Interned own m (qstrInit place staticAt constAt) firmwareTable := by
  refine ⟨?_, firmware_tabled, fun chunk => absurd rfl chunk, fun chunk => absurd rfl chunk⟩
  have split : firmwareTable = ([] ++ staticRows.map rowText) ++ constRows.map rowText :=
    List.map_append
  rw [split]
  refine .cons (.cons .nil rfl (entries_hold (fun row member => ?_) fun k row here => ?_) ?_ nofun)
    ?_ (entries_hold (fun row member => ?_) fun k row here => ?_) ?_ fun _ => ⟨const_sorted, ?_⟩
  · exact rows_checked row (List.mem_append_left _ member)
  · apply placed
    rw [split, List.getElem?_append_left, List.nil_append, List.getElem?_map, Nat.zero_add, here]
    · rfl
    · have inside := (List.getElem?_eq_some_iff.mp here).1
      simpa using inside
  · exact List.cons_ne_nil _ _
  · rw [mpQstrConstPool, List.nil_append, List.length_map]
  · exact rows_checked row (List.mem_append_right _ member)
  · apply placed
    rw [split, List.nil_append, List.getElem?_append_right, List.length_map,
      Nat.add_sub_cancel_left, List.getElem?_map, here]
    · rfl
    · rw [List.length_map]
      exact Nat.le_add_right _ _
  · exact List.cons_ne_nil _ _
  · rw [List.length_map]
    exact (by decide : 10 ≤ constRows.length)

/-- From the firmware's strings on, in any run of `qstr_from_strn`: two results are
equal exactly when their strings are, every string is read back with its length and
its hash wherever memory has moved on, and a string is refused exactly when it is
new and overlong or the allocator refuses all that it could be kept in. -/
theorem qstrs_exact {own : Area} {m : Memory} {place : Nat → UInt32} (placed : Placed m place)
    {staticAt constAt : List Area} {calls : List Call}
    (along : Along own calls (qstrInit place staticAt constAt) m) :
    ∃ results vm last table,
      run calls (qstrInit place staticAt constAt) m = some (results, vm, last) ∧
      InternsAll (qstrInit place staticAt constAt) firmwareTable calls results table ∧
      firmwareTable <+: table ∧ List.Forall₂ (Named table) (calls.map (·.text)) results ∧
      (∀ q s, table[q]? = some s → ReadsAs last vm q s) ∧
      ∀ p q s t, p ≠ 0 → q ≠ 0 → table[p]? = some s → table[q]? = some t → (p = q ↔ s = t) := by
  have interned := init_interned own placed staticAt constAt
  rcases run_exact interned along with ⟨results, vm, last, table, ran, all, final⟩
  rcases all_named interned.tabled all with ⟨longer, tabled, named⟩
  exact ⟨results, vm, last, table, ran, all, longer, named,
    fun q s here => reads_exact final.chain here, fun p q s t => tabled_injective tabled⟩

section Layout

/-- A layout with 64 bytes for each string, and a text above them. -/
def layout (q : Nat) : UInt32 := 0x1000 + UInt32.ofNat (64 * q)

def layoutMemory (text : Bytes) : Memory := fun a =>
  if 0x8000 ≤ a.toNat then text.getD (a.toNat - 0x8000) 0
  else ((firmwareTable[(a.toNat - 0x1000) / 64]?).getD []).getD ((a.toNat - 0x1000) % 64) 0

theorem firmware_length : firmwareTable.length = 210 := by
  rw [firmwareTable, List.length_map]
  exact rows_evaluated.2.1

theorem layout_address {q k : Nat} (inside : q < 210) (below : k < 64) :
    (layout q + UInt32.ofNat k).toNat = 0x1000 + (64 * q + k) := by
  have base : (0x1000 : UInt32).toNat = 0x1000 := rfl
  rw [layout, UInt32.add_assoc, ← UInt32.ofNat_add, address_exact _ _ (by omega), base]

theorem layout_placed (text : Bytes) : Placed (layoutMemory text) layout := by
  intro q s here
  have inside := (List.getElem?_eq_some_iff.mp here).1
  rw [firmware_length] at inside
  have short : s.length < 63 := by
    rw [firmwareTable, List.getElem?_map, Option.map_eq_some_iff] at here
    rcases here with ⟨row, member, rfl⟩
    have among := List.mem_of_getElem? member
    rw [← (rows_checked row among).1]
    exact rows_short row among
  refine holds_of_get fun k below => ?_
  rw [List.length_append, List.length_singleton] at below
  have address := layout_address inside (show k < 64 by omega)
  have number : (0x1000 + (64 * q + k) - 0x1000) / 64 = q := by omega
  have rest : (0x1000 + (64 * q + k) - 0x1000) % 64 = k := by omega
  rw [layoutMemory, address, if_neg (by omega), number, rest, here, Option.getD_some]
  by_cases last : k = s.length
  · subst last
    simp
  · have inText : k < s.length := by omega
    simp [List.getD_eq_getElem?_getD, inText]

theorem layout_text {text : Bytes} (fits : text.length ≤ 0x8000) :
    Holds (layoutMemory text) 0x8000 text := by
  refine holds_of_get fun k below => ?_
  have base : (0x8000 : UInt32).toNat = 0x8000 := rfl
  rw [layoutMemory, address_exact 0x8000 k (by omega), base, if_pos (Nat.le_add_right _ _),
    Nat.add_sub_cancel_left]
  simp [List.getD_eq_getElem?_getD, below]

theorem pool_areas {place : Nat → UInt32} {rows : List Row} {n : Nat} {e : Entry}
    (member : e ∈ poolEntries place n rows) (short : ∀ row ∈ rows, row.2.1 < 63) :
    ∃ k < rows.length, e.qPtr = place (n + k) ∧ e.length.toNat < 63 := by
  induction rows generalizing n with
  | nil => cases member
  | cons row rest ih =>
      rcases List.mem_cons.mp member with rfl | later
      · refine ⟨0, Nat.zero_lt_succ _, rfl, ?_⟩
        have small := short row List.mem_cons_self
        exact (UInt8.toNat_ofNat').trans_lt (Nat.lt_of_le_of_lt (Nat.mod_le _ _) small)
      · rcases ih later fun b inside => short b (List.mem_cons_of_mem _ inside) with
          ⟨k, below, there, size⟩
        refine ⟨k + 1, Nat.succ_lt_succ below, ?_, size⟩
        rw [there, Nat.add_right_comm, Nat.add_assoc]

def staticAt : List Area := [⟨0x200, 0x300⟩]
def constAt : List Area := [⟨0x500, 0x100⟩]
def vmFields : Area := ⟨0x600, 16⟩
def booted : Vm := qstrInit layout staticAt constAt

-- All that is in use after the boot lies below `0x8000`.
theorem booted_below (x : Area) (member : x ∈ areas vmFields booted.lastPool) :
    x.start.toNat + x.size ≤ 0x8000 := by
  have string : ∀ (n : Nat) (rows : List Row) (e : Entry), e ∈ poolEntries layout n rows →
      (∀ row ∈ rows, row.2.1 < 63) → n + rows.length ≤ 210 →
      e.qPtr.toNat + (e.length.toNat + 1) ≤ 0x8000 := by
    intro n rows e inPool short few
    rcases pool_areas inPool short with ⟨k, below, there, size⟩
    have place := layout_address (show n + k < 210 by omega) (Nat.zero_lt_succ 63)
    rw [first_address] at place
    rw [there, place]
    omega
  have shorter := rows_short
  have total : staticRows.length + constRows.length = 210 :=
    List.length_append.symm.trans rows_evaluated.2.1
  rcases List.mem_cons.mp member with rfl | member
  · decide
  rcases List.mem_append.mp member with record | member
  · have records : booted.lastPool.flatMap Pool.records = [⟨0x500, 0x100⟩, ⟨0x200, 0x300⟩] := rfl
    rw [records, List.mem_cons, List.mem_singleton] at record
    rcases record with rfl | rfl <;> decide
  rw [booted, qstrInit, stringAreas, List.flatMap_cons, List.flatMap_cons, List.flatMap_nil,
    List.append_nil] at member
  rcases List.mem_append.mp member with sorted | static
  · rcases List.mem_map.mp sorted with ⟨e, inPool, rfl⟩
    exact string _ _ _ inPool (fun row inside => shorter row (List.mem_append_right _ inside))
      (Nat.le_of_eq total)
  · rcases List.mem_map.mp static with ⟨e, inPool, rfl⟩
    exact string _ _ _ inPool (fun row inside => shorter row (List.mem_append_left _ inside))
      (by omega)

/-- `xyxyz`, the text the calls below take their strings from. -/
def letterBytes : Bytes := [0x78, 0x79, 0x78, 0x79, 0x7A]

def loaded : Memory := layoutMemory letterBytes
def interned : Memory := stored loaded 0x9000 0x8000 2

def afterFirst : Vm where
  lastPool := ⟨210, false, 20, [⟨(qstrComputeHash loaded 0x8000 2).toUInt8, 2, 0x9000⟩],
    [⟨0xA000, poolSize 20⟩]⟩ :: booted.lastPool
  qstrLastChunk := 0x9000
  qstrLastAlloc := 128
  qstrLastUsed := 3

def refusing : Grants := ⟨false, 0, 0, 0, id, id⟩
def granting : Grants := ⟨false, 0x9000, 0, 0xA000, id, id⟩

-- A new string that finds no memory, the same one with memory, the same one again
-- from elsewhere, and a longer one that fits behind it.
def letters : List Call :=
  [⟨loaded, 0x8000, [0x78, 0x79], refusing⟩, ⟨loaded, 0x8000, [0x78, 0x79], granting⟩,
    ⟨interned, 0x8002, [0x78, 0x79], refusing⟩, ⟨interned, 0x8002, [0x78, 0x79, 0x7A], refusing⟩]

-- Not there before the string is added, and there afterwards.
theorem letters_found : qstrFindStrn loaded 0x8000 2 booted = some 0 ∧
    qstrFindStrn interned 0x8002 2 afterFirst = some 210 := by
  decide +kernel

theorem letters_refused : qstrFromStrn refusing booted loaded 0x8000 2 =
    some (.memoryError, booted, loaded) := by
  rw [qstrFromStrn, letters_found.1]
  rfl

theorem letters_added : qstrFromStrn granting booted loaded 0x8000 2 =
    some (.value 210, afterFirst, interned) := by
  rw [qstrFromStrn, letters_found.1]
  set_option maxRecDepth 8000 in
  rfl

theorem letters_again : qstrFromStrn refusing afterFirst interned 0x8002 2 =
    some (.value 210, afterFirst, interned) := by
  rw [qstrFromStrn, letters_found.2]
  rfl

theorem refusing_respects {vm : Vm} {m : Memory} {str : UInt32} {len : Nat}
    (source : vm.qstrLastChunk ≠ 0 → Apart (room vm) ⟨str, len⟩) :
    Respects vmFields vm m str len refusing :=
  ⟨source, nofun, fun chunk => absurd rfl chunk, fun chunk => absurd rfl chunk,
    fun pool => absurd rfl pool, fun _ _ _ _ => rfl, fun _ _ _ _ => rfl⟩

theorem granting_respects : Respects vmFields booted loaded 0x8000 2 granting := by
  refine ⟨fun chunk => absurd rfl chunk, nofun, fun _ x member => ?_, fun chunk => absurd rfl chunk,
    fun _ x member => ?_, fun _ _ _ _ => rfl, fun _ _ _ _ => rfl⟩
  · rcases List.mem_cons.mp member with rfl | old
    · exact apart_above (by decide) (by decide)
    · exact apart_above (Nat.le_trans (booted_below x old) (by decide)) (by decide)
  · rcases List.mem_cons.mp member with rfl | old
    · exact apart_above (by decide) (by decide)
    · exact apart_above (Nat.le_trans (booted_below x old) (by decide)) (by decide)

theorem letters_text : Holds loaded 0x8000 letterBytes := layout_text (by decide)

theorem letters_loaded : Holds loaded 0x8000 [0x78, 0x79] :=
  ((holds_append loaded 0x8000 [0x78, 0x79] [0x78, 0x79, 0x7A]).mp letters_text).1

theorem letters_stay : Holds interned 0x8002 [0x78, 0x79, 0x7A] := by
  have there : Holds loaded 0x8002 [0x78, 0x79, 0x7A] :=
    ((holds_append loaded 0x8000 [0x78, 0x79] [0x78, 0x79, 0x7A]).mp letters_text).2
  have source : Apart ⟨0x9000, 3⟩ ⟨0x8000, 2⟩ := apart_above (by decide) (by decide)
  have behind : Apart ⟨0x9000, 3⟩ ⟨0x8002, 3⟩ := apart_above (by decide) (by decide)
  exact holds_keeps there (by decide) ((stored_exact letters_loaded (by decide) source).2 _ behind)

theorem letters_along : Along vmFields letters booted loaded := by
  have behind : Apart (room afterFirst) ⟨0x8002, 3⟩ := apart_above (by decide) (by decide)
  refine ⟨⟨fun _ _ _ _ => rfl, letters_loaded,
    refusing_respects fun chunk => absurd rfl chunk⟩, ?_⟩
  intro next called
  cases letters_refused.symm.trans called
  refine ⟨⟨fun _ _ _ _ => rfl, letters_loaded, granting_respects⟩, ?_⟩
  intro next called
  cases letters_added.symm.trans called
  refine ⟨⟨fun _ _ _ _ => rfl, ((holds_append _ _ _ [0x7A]).mp letters_stay).1,
    refusing_respects fun _ => ?_⟩, ?_⟩
  · exact apart_symm (apart_start (apart_symm behind) (by decide))
  intro next called
  cases letters_again.symm.trans called
  exact ⟨⟨fun _ _ _ _ => rfl, letters_stay, refusing_respects fun _ => behind⟩,
    fun _ _ => trivial⟩

theorem letters_exact : ∃ results vm last table,
    run letters booted loaded = some (results, vm, last) ∧
      InternsAll booted firmwareTable letters results table ∧
      firmwareTable <+: table ∧ List.Forall₂ (Named table) (letters.map (·.text)) results ∧
      (∀ q s, table[q]? = some s → ReadsAs last vm q s) ∧
      ∀ p q s t, p ≠ 0 → q ≠ 0 → table[p]? = some s → table[q]? = some t → (p = q ↔ s = t) :=
  qstrs_exact (layout_placed letterBytes) letters_along

example : (run letters booted loaded).map Prod.fst =
    some [.memoryError, .value 210, .value 210, .value 211] := by decide +kernel

end Layout

end NexusOS.QstrFirmware
