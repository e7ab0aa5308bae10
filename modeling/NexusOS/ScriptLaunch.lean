import NexusOS.DiskImage
import NexusOS.LiveFrames

/-!
The script part of `start_nexus_python`: the file found in the image, a buffer
from the collector's heap, the copy with its newline and NUL, and the reader, an
object of the same heap, that `mp_lexer_new` takes its bytes from. Together with
the packer: the interpreter starts on the file as it was packed, or there is no
room for the buffer or for the reader.
-/

namespace NexusOS.ScriptLaunch

open ByteMemory BlockCopy MemoryMove ImagePacker DiskImage FirstFit Marking GcHeap GcMark
open GcCollect GcAlloc GcFree GcRealloc GcRuns LiveFrames
open MemoryAreas (Inside Apart Keeps holds_of_get holds_keeps parts_apart apart_start apart_part)
open MemoryAreas (apart_symm word_outside word_keeps load_keeps load_store update_offset)

/-- How compiled code uses the C stack here: the stack pointer of
`start_nexus_python`, those of the two collections below it, the lowest address in
use, and what the calls with the buffer as an argument have written there by the time
`mp_reader_new_mem` allocates. -/
structure Calls where
  frame : UInt32
  newBuf : UInt32
  newReader : UInt32
  bottom : UInt32
  pushed : UInt32 → Memory → Memory

/-- The fields `free_len`, `beg`, `cur` and `end` of a `mp_reader_mem_t`. -/
def readerFields (m : Memory) (rm freeLen buf len : UInt32) : Memory :=
  let m := store32 m rm freeLen
  let m := store32 m (rm + 4) buf
  let m := store32 m (rm + 8) buf
  store32 m (rm + 12) (buf + len)

/-- `none`: `m_new_obj` raises `MemoryError`. -/
def mpReaderNewMem (h : Heap) (r : Roots) (sp buf len freeLen : UInt32) : Heap × Option UInt32 :=
  let allocated := gcAlloc h r sp 16
  let rm := allocated.2
  if rm = 0 then (allocated.1, none)
  else ({ allocated.1 with
    memory := readerFields allocated.1.memory rm freeLen buf len }, some rm)

/-- `none` is `MP_READER_EOF`. -/
def mpReaderMemReadbyte (m : Memory) (rm : UInt32) : Option UInt8 × Memory :=
  let cur := load32 m (rm + 8)
  if cur < load32 m (rm + 12) then (some (m cur), store32 m (rm + 8) (cur + 1)) else (none, m)

/-- All a lexer gets before the end, if there is fuel to get there. -/
def readAll : Nat → Memory → UInt32 → Option Bytes
  | 0, _, _ => none
  | fuel + 1, m, rm =>
      match mpReaderMemReadbyte m rm with
      | (none, _) => some []
      | (some b, next) => (readAll fuel next rm).map (b :: ·)

inductive Launch where
  | noScript
  | scriptError (heap : Heap)
  | lexed (heap : Heap) (reader : UInt32)

/-- `m_new(char, size + 2)` raises when `gc_alloc` gives NULL for a size other than 0. -/
def launch (d : Initrd) (h : Heap) (r : Roots) (c : Calls) (name : UInt32) : Launch :=
  let script := initrdGetFile d h.memory name 0
  if script.pointer = 0 then .noScript
  else
    let allocated := gcAlloc h r c.newBuf (script.size + 2)
    let scriptBuf := allocated.2
    if scriptBuf = 0 ∧ script.size + 2 ≠ 0 then .scriptError allocated.1
    else
      let filled := (memcpy allocated.1.memory scriptBuf script.pointer script.size).memory
      let ended := Function.update (Function.update filled (scriptBuf + script.size) 0x0A)
        (scriptBuf + (script.size + 1)) 0
      let h := { allocated.1 with memory := c.pushed scriptBuf ended }
      match mpReaderNewMem h r c.newReader scriptBuf (script.size + 1) 0 with
      | (h, none) => .scriptError h
      | (h, some reader) => .lexed h reader

section Reading
variable {m : Memory} {rm : UInt32}

theorem reader_fields_outside (m : Memory) (rm freeLen buf len : UInt32) {a : UInt32}
    (outside : 16 ≤ offset rm a) : readerFields m rm freeLen buf len a = m a := by
  have away : ∀ k : Nat, k + 4 ≤ 16 → ¬ Inside ⟨rm + UInt32.ofNat k, 4⟩ a := fun k fits inside =>
    absurd (MemoryAreas.inside_part fits (by decide) inside) (Nat.not_lt.mpr outside)
  have first := away 0 (by decide)
  rw [first_address] at first
  rw [readerFields]
  exact (word_outside _ _ (away 12 (by decide))).trans
    ((word_outside _ _ (away 8 (by decide))).trans
      ((word_outside _ _ (away 4 (by decide))).trans (word_outside m freeLen first)))

theorem next_field (rm : UInt32) : Apart ⟨rm + 8, 4⟩ ⟨rm + 12, 4⟩ := by
  have place : rm + 12 = rm + 8 + UInt32.ofNat 4 := (UInt32.add_assoc rm 8 4).symm
  rw [place]
  exact parts_apart (by decide)

theorem reader_fields_cur (m : Memory) (rm freeLen buf len : UInt32) :
    load32 (readerFields m rm freeLen buf len) (rm + 8) = buf := by
  rw [readerFields, load_keeps (word_keeps _ _ (apart_symm (next_field rm)))]
  exact load_store _ _

theorem reader_fields_end (m : Memory) (rm freeLen buf len : UInt32) :
    load32 (readerFields m rm freeLen buf len) (rm + 12) = buf + len := load_store _ _

-- By induction on the text: a byte read moves `cur` on and leaves the rest to be read.
theorem read_all {cur : UInt32} {text : Bytes} (here : load32 m (rm + 8) = cur)
    (ends : load32 m (rm + 12) = cur + UInt32.ofNat text.length) (holds : Holds m cur text)
    (apart : Apart ⟨rm + 8, 4⟩ ⟨cur, text.length⟩) (fits : cur.toNat + text.length < 2 ^ 32)
    (extra : Nat) : readAll (text.length + 1 + extra) m rm = some text := by
  induction text generalizing m cur with
  | nil =>
      have done : ¬ cur < cur + UInt32.ofNat 0 := by
        rw [first_address]
        exact UInt32.lt_irrefl cur
      rw [List.length_nil] at ends
      rw [List.length_nil, Nat.add_comm (0 + 1) extra, readAll, mpReaderMemReadbyte, here, ends]
      simp only [done, ↓reduceIte]
  | cons b rest ih =>
      rw [List.length_cons] at fits ends apart
      have more : cur < cur + UInt32.ofNat (rest.length + 1) := by
        rw [UInt32.lt_iff_toNat_lt, address_exact cur _ fits]
        omega
      have next : (cur + 1).toNat = cur.toNat + 1 := address_exact cur 1 (by omega)
      have behind : Apart ⟨rm + 8, 4⟩ ⟨cur + UInt32.ofNat 1, rest.length⟩ :=
        apart_symm (apart_part (apart_symm apart) (by omega) (by omega))
      have moved := load_keeps (word_keeps m (cur + 1) (next_field rm))
      have kept := holds_keeps holds.2 (by omega) (word_keeps m (cur + 1) behind)
      have later := ih (load_store m (cur + 1)) (by rw [moved, ends, next_address]) kept behind
        (by omega)
      have fuel : (b :: rest).length + 1 + extra = rest.length + 1 + extra + 1 := by
        rw [List.length_cons]
        omega
      rw [fuel, readAll, mpReaderMemReadbyte, here, ends]
      simp only [more, ↓reduceIte, later, holds.1, Option.map_some]

end Reading

section Finding
variable {m : Memory} {base name : UInt32}

-- Where in the image the data of an entry are.
theorem entry_inside {before : List Entry} {e : Entry} {after : List Entry}
    (loaded : Loaded m base (image (before ++ e :: after))) (nameAt : NameAt m name e.name)
    (others : ∀ b ∈ before, b.name ≠ e.name) (size : UInt32) :
    ∃ k, 40 ≤ k ∧ k + e.data.length ≤ (image (before ++ e :: after)).length ∧
      initrdGetFile (initrdInit m base) m name size =
        ⟨base + UInt32.ofNat k, UInt32.ofNat e.data.length⟩ := by
  rcases image_parts loaded with ⟨_, _, headers, _, _⟩
  have searched := search_finds nameAt before e after headers others rfl size
    (base + UInt32.ofNat (4 + 36 * (before ++ e :: after).length))
  rw [UInt32.add_assoc, ← UInt32.ofNat_add] at searched
  refine ⟨4 + 36 * (before ++ e :: after).length + (before.flatMap Entry.data).length, ?_, ?_,
    (get_file_searches loaded nameAt size).trans searched⟩
  · rw [List.length_append, List.length_cons]
    omega
  · simp only [image_length, List.flatMap_append, List.flatMap_cons, List.length_append]
    omega

variable {fs written : FileSystem} {files : List Path} {output : Path} {bytes : Bytes}

theorem input_inside (packed : makeInitrd fs files output = (written, .ok ()))
    (there : written.contents output = some bytes) (distinct : (files.map entryName).Nodup)
    (loaded : Loaded m base bytes) {path : Path} (nameAt : NameAt m name (entryName path))
    (member : path ∈ files) (size : UInt32) :
    ∃ raw k, contentsDuring fs output path = some raw ∧ 40 ≤ k ∧
      k + (normalise raw).length ≤ bytes.length ∧
      Holds m (base + UInt32.ofNat k) (normalise raw) ∧
      initrdGetFile (initrdInit m base) m name size =
        ⟨base + UInt32.ofNat k, UInt32.ofNat (normalise raw).length⟩ := by
  have found := stored_found packed there distinct loaded nameAt size member rfl
  rcases written_image packed there with ⟨entries, packs, rfl⟩
  rcases entry_of_input packs distinct member with ⟨before, e, after, rfl, own, others⟩
  rcases own.data with ⟨raw, read, data⟩
  rw [← own.name] at nameAt
  rcases entry_inside loaded nameAt others size with ⟨k, low, high, lookup⟩
  rcases found with ⟨same, again, delimits⟩
  rw [read, Option.some.injEq] at again
  subst again
  rw [lookup] at delimits
  rw [data] at high lookup
  exact ⟨raw, k, read, low, high, delimits.2.2, lookup⟩

end Finding

section Filling
variable {h base after : Heap} {n start : Nat}

theorem filled_untouched {owner : Nat} {m : Memory} (granted : Granted base n start after)
    (pos : 0 < n) (shaped : Shaped base.area) (isHead : IsHead base.area owner)
    (kept : ∀ a, 16 * n ≤ offset (ptrFromBlock base.area start) a → m a = base.memory a) :
    Untouched base { after with memory := m } owner := by
  have untouched := granted_untouched granted pos shaped isHead
  have chain := chain_inside shaped.gap (owns_inside shaped.gap (owns_self isHead))
  refine ⟨untouched.len, untouched.pool, untouched.kind, untouched.owns, fun k inside => kept _ ?_⟩
  exact object_bytes granted.inside chain inside
    (apart_from_free pos granted.first.run shaped.gap isHead)

theorem granted_apart {owner block : Nat} (granted : Granted base n start after)
    (owns : Owns base.area owner block) : ¬ (start ≤ block ∧ block < start + n) :=
  fun inRun => owned_used owns (granted.first.run block inRun.1 inRun.2)

/-- The buffer of the script: an object of its own, in blocks that no live object had,
that holds the text and ends in a NUL. -/
structure Buffer (h : Heap) (kept : Nat → Prop) (text : Bytes) (buf : UInt32) (after : Heap)
    (start n : Nat) : Prop where
  at_start : buf = ptrFromBlock h.area start
  room : text.length + 1 ≤ 16 * n
  holds : Holds after.memory buf (text ++ [0])
  head : after.area.kind start = .head
  size : chainBlocks after.area start = n
  fresh : ∀ owner block, kept owner → Owns h.area owner block →
    ¬ (start ≤ block ∧ block < start + n)

/-- What the launch leaves as it was: the objects in `kept`, and all but `changed`. -/
structure Kept (h : Heap) (kept : Nat → Prop) (changed : UInt32 → Prop) (after : Heap) : Prop where
  ready : Ready after
  pool : after.area.gcPoolStart = h.area.gcPoolStart
  len : after.area.gcAllocTableByteLen = h.area.gcAllocTableByteLen
  objects : ∀ owner, IsHead h.area owner → kept owner → Untouched h after owner
  outside : ∀ a, ¬ changed a → after.memory a = h.memory a

/-- The copy and the two bytes behind it. -/
def filledMemory (m : Memory) (buf src : UInt32) (len : Nat) : Memory :=
  Function.update
    (Function.update (memcpy m buf src (UInt32.ofNat len)).memory (buf + UInt32.ofNat len) 0x0A)
    (buf + UInt32.ofNat (len + 1)) 0

theorem filled_memory (m : Memory) {buf src : UInt32} {len : Nat}
    (destFits : buf.toNat + (len + 1) < 2 ^ 32) (srcFits : src.toNat + len ≤ 2 ^ 32)
    (start : buf ≤ src ∨ src.toNat + len ≤ buf.toNat) (a : UInt32) :
    filledMemory m buf src len a =
      if offset buf a = len + 1 then 0 else if offset buf a = len then 0x0A
      else if offset buf a < len then m (src + UInt32.ofNat (offset buf a)) else m a := by
  have size : (UInt32.ofNat len).toNat = len := by
    rw [UInt32.toNat_ofNat', Nat.mod_eq_of_lt (by omega)]
  have low : buf ≤ src ∨ src.toNat + (UInt32.ofNat len).toNat ≤ buf.toNat := by rwa [size]
  rw [filledMemory, update_offset _ _ _ (by omega), update_offset _ _ _ (by omega),
    memcpy_move m (by omega) (by omega) low, memmove_copies m (by omega) (by omega), size]
  rfl

variable {r : Roots} {sp src : UInt32} {data : Bytes}

theorem base_kept {kept : Nat → Prop} (ready : Ready h) (found : Base h base kept)
    (same : base.memory = h.memory) : Kept h kept (fun _ => False) base :=
  ⟨⟨found.wellFormed, found.unlocked.trans ready.unlocked⟩, found.pool, found.len,
    found.untouched, fun a _ => congrFun same a⟩

-- A run granted and written to, in the heap as it was or as a collection left it.
theorem granted_kept {kept : Nat → Prop} {m : Memory} (ready : Ready h)
    (found : Base h base kept) (same : base.memory = h.memory)
    (granted : Granted base n start after) (pos : 0 < n)
    (others : ∀ a, 16 * n ≤ offset (ptrFromBlock base.area start) a → m a = base.memory a) :
    Kept h kept (fun a => offset (ptrFromBlock base.area start) a < 16 * n)
      { after with memory := m } := by
  have frame := granted.frame
  refine ⟨⟨granted.wellFormed, ?_⟩, ?_, ?_, fun owner isHead live => ?_, fun a far => ?_⟩
  · change after.gcLockDepth = 0
    rw [frame]
    exact found.unlocked.trans ready.unlocked
  · rw [frame]
    exact found.pool
  · rw [frame]
    exact found.len
  · have toBase := found.untouched owner isHead live
    exact untouched_trans toBase (filled_untouched granted pos found.wellFormed.toShaped
      (untouched_head toBase isHead) others) ready.wellFormed.toShaped
      found.wellFormed.toShaped isHead
  · rw [← same]
    exact others a (Nat.not_lt.mp far)

theorem kept_trans {mid : Heap} {kept first second : Nat → Prop} {c d : UInt32 → Prop}
    (ready : Ready h) (one : Kept h first c mid) (two : Kept mid second d after)
    (both : ∀ owner, IsHead h.area owner → kept owner → first owner ∧ second owner) :
    Kept h kept (fun a => c a ∨ d a) after := by
  refine ⟨two.ready, two.pool.trans one.pool, two.len.trans one.len, fun owner isHead wanted => ?_,
    fun a unchanged => ?_⟩
  · rcases both owner isHead wanted with ⟨inFirst, inSecond⟩
    have early := one.objects owner isHead inFirst
    exact untouched_trans early (two.objects owner (untouched_head early isHead) inSecond)
      ready.wellFormed.toShaped one.ready.wellFormed.toShaped isHead
  · exact (two.outside a fun late => unchanged (Or.inr late)).trans
      (one.outside a fun soon => unchanged (Or.inl soon))

theorem Buffer.stays {mid : Heap} {kept : Nat → Prop} {text : Bytes} {buf : UInt32}
    (buffer : Buffer h kept text buf mid start n) (pool : mid.area.gcPoolStart = h.area.gcPoolStart)
    (ready : Ready mid) (afterReady : Ready after) (untouched : Untouched mid after start) :
    Buffer h kept text buf after start n := by
  have isHead : IsHead mid.area start := Or.inl buffer.head
  have small : (text ++ [0]).length ≤ 16 * n := by
    rw [List.length_append, List.length_singleton]
    exact buffer.room
  have chain :=
    chain_inside ready.wellFormed.gap (owns_inside ready.wellFormed.gap (owns_self isHead))
  have sized := mid.area.sized
  have limit := mid.area.gcPoolEnd.toNat_lt
  have size := buffer.size
  rw [Area.blocks] at chain
  refine ⟨buffer.at_start, buffer.room, holds_keeps buffer.holds (by omega) fun a inside => ?_,
    untouched.kind.trans buffer.head, ?_, buffer.fresh⟩
  · have bytes := untouched.bytes (offset buf a) (by
      rw [Inside] at inside
      simp only at inside
      omega)
    rwa [same_ptr pool, ← buffer.at_start, add_offset] at bytes
  · rw [untouched_chain untouched ready.wellFormed.toShaped afterReady.wellFormed.toShaped isHead]
    exact size

theorem run_filled (found : Base h base (Live h r sp)) (same : base.memory = h.memory)
    (granted : Granted base n start after)
    (room : data.length + 2 ≤ 16 * n) (holds : Holds h.memory src data)
    (fits : src.toNat + data.length ≤ 2 ^ 32)
    (outside : src.toNat + data.length ≤ h.area.gcPoolStart.toNat ∨
      h.area.gcPoolEnd.toNat ≤ src.toNat) :
    let m := filledMemory after.memory (ptrFromBlock base.area start) src data.length
    Buffer h (Live h r sp) (data ++ [0x0A]) (ptrFromBlock base.area start)
        { after with memory := m } start n ∧
      ∀ a, 16 * n ≤ offset (ptrFromBlock base.area start) a → m a = base.memory a := by
  have pos : 0 < n := by omega
  have inside := granted.inside
  have sized := base.area.sized
  have limit := base.area.gcPoolEnd.toNat_lt
  have pool := congrArg UInt32.toNat found.pool
  have len := found.len
  have size := h.area.sized
  have place := ptr_from_block_exact (show start ≤ base.area.blocks by omega)
  rw [Area.blocks] at inside
  have apart : ptrFromBlock base.area start ≤ src ∨
      src.toNat + data.length ≤ (ptrFromBlock base.area start).toNat := by
    rw [UInt32.le_iff_toNat_le]
    omega
  have memory := filled_memory after.memory (by omega) fits apart
  have source : ∀ k (below : k < data.length), after.memory (src + UInt32.ofNat k) = data[k] := by
    intro k below
    have address := address_exact src k (by omega)
    have away : 16 * n ≤ offset (ptrFromBlock base.area start) (src + UInt32.ofNat k) :=
      outside_offset (by omega) (by omega)
    rw [granted.memory, if_neg (Nat.not_lt.mpr away), same]
    exact holds_get holds k below
  intro m
  change ∀ a, m a = _ at memory
  generalize m = m at memory ⊢
  rcases granted_object granted pos found.wellFormed.toShaped with ⟨head, chain⟩
  refine ⟨⟨same_ptr found.pool start, by rw [List.length_append, List.length_singleton]; omega, ?_,
    head, chain, fun owner block live owns => ?_⟩, fun a far => ?_⟩
  · refine holds_of_get fun k below => ?_
    simp only [List.length_append, List.length_singleton] at below
    change m _ = _
    rw [memory, offset_add _ _ (by omega)]
    by_cases last : k = data.length + 1
    · subst last
      simp
    · by_cases newline : k = data.length
      · subst newline
        simp
      · have inData : k < data.length := by omega
        rw [if_neg last, if_neg newline, if_pos inData, source k inData]
        grind
  · have toBase := found.untouched owner owns.isHead live
    exact granted_apart granted ((toBase.owns block).mpr owns)
  · rw [memory, if_neg (by omega), if_neg (by omega), if_neg (by omega), granted.memory,
      if_neg (Nat.not_lt.mpr far)]

end Filling

section Calling
variable {h mid : Heap} {r : Roots} {c : Calls} {text : Bytes} {buf : UInt32} {start n : Nat}

def OnStack (c : Calls) (a : UInt32) : Prop := c.bottom.toNat ≤ a.toNat ∧ a.toNat < c.frame.toNat

/-- Compiled code keeps to its stack, which lies apart from the pool and from
`mp_state_ctx`, and passes the buffer in a word of it. -/
structure Conventional (h : Heap) (r : Roots) (c : Calls) : Prop where
  bufDeeper : Deeper c.newBuf c.frame
  readerDeeper : Deeper c.newReader c.frame
  top : c.frame ≤ r.stackTop
  stackOut : r.stackTop.toNat ≤ h.area.gcPoolStart.toNat ∨ h.area.gcPoolEnd.toNat ≤ c.bottom.toNat
  low : c.bottom ≤ c.frame
  stateOut : r.stateStart.toNat + 4 * r.stateLen ≤ h.area.gcPoolStart.toNat ∨
    h.area.gcPoolEnd.toNat ≤ r.stateStart.toNat ∧
      r.stateStart.toNat + 4 * r.stateLen ≤ 2 ^ 32
  stateAway : r.stateStart.toNat + 4 * r.stateLen ≤ c.bottom.toNat ∨
    c.frame.toNat ≤ r.stateStart.toNat
  passes : ∀ buf m, ∃ i, c.newReader.toNat + 4 * (i + 1) ≤ c.frame.toNat ∧
    load32 (c.pushed buf m) (c.newReader + UInt32.ofNat (4 * i)) = buf
  stays : ∀ buf m a, ¬ OnStack c a → c.pushed buf m a = m a

theorem words_same {other : Heap} {ptrs : UInt32} {len : Nat}
    (fits : ptrs.toNat + 4 * len ≤ 2 ^ 32)
    (same : ∀ a : UInt32, ptrs.toNat ≤ a.toNat → a.toNat < ptrs.toNat + 4 * len →
      other.memory a = h.memory a) (i : Nat) (within : i < len) :
    wordAt other ptrs i = wordAt h ptrs i := by
  refine load_keeps fun a inside => ?_
  rw [Inside] at inside
  simp only at inside
  have place : ptrs + UInt32.ofNat (4 * i + offset (ptrs + UInt32.ofNat (4 * i)) a) = a := by
    rw [UInt32.ofNat_add, ← UInt32.add_assoc, add_offset]
  have address := address_exact ptrs (4 * i + offset (ptrs + UInt32.ofNat (4 * i)) a) (by omega)
  rw [place] at address
  exact same a (by omega) (by omega)

/-- The heap in which `mp_reader_new_mem` allocates. -/
def called (c : Calls) (buf : UInt32) (mid : Heap) : Heap :=
  { mid with memory := c.pushed buf mid.memory }

theorem pool_end {other : Heap} (pool : other.area.gcPoolStart = h.area.gcPoolStart)
    (len : other.area.gcAllocTableByteLen = h.area.gcAllocTableByteLen) :
    other.area.gcPoolEnd = h.area.gcPoolEnd := by
  have sized := h.area.sized
  have otherSized := other.area.sized
  rw [pool, len, sized] at otherSized
  exact UInt32.toNat_inj.mp otherSized.symm

theorem pushed_untouched {owner : Nat} (conventional : Conventional h r c)
    (kept : Kept h (Live h r c.newBuf) (fun a => offset buf a < 16 * n) mid)
    (isHead : IsHead mid.area owner) : Untouched mid (called c buf mid) owner := by
  refine outside_untouched _ kept.ready.wellFormed.toShaped isHead fun a above below => ?_
  rw [kept.pool] at above
  rw [pool_end kept.pool kept.len] at below
  have high := UInt32.le_iff_toNat_le.mp conventional.top
  refine conventional.stays buf mid.memory a fun here => ?_
  have low := conventional.stackOut
  rw [OnStack] at here
  omega

theorem called_kept (ready : Ready h) (conventional : Conventional h r c)
    (kept : Kept h (Live h r c.newBuf) (fun a => offset buf a < 16 * n) mid) :
    Kept h (Live h r c.frame) (fun a => offset buf a < 16 * n ∨ OnStack c a)
      (called c buf mid) := by
  refine ⟨⟨kept.ready.wellFormed, kept.ready.unlocked⟩, kept.pool, kept.len,
    fun owner isHead live => ?_, fun a unchanged => ?_⟩
  · have early := kept.objects owner isHead
      (live_deeper conventional.bufDeeper conventional.top live)
    exact untouched_trans early (pushed_untouched conventional kept (untouched_head early isHead))
      ready.wellFormed.toShaped kept.ready.wellFormed.toShaped isHead
  · exact (conventional.stays buf mid.memory a fun here => unchanged (Or.inr here)).trans
      (kept.outside a fun here => unchanged (Or.inl here))

-- What the frame led to before the first allocation it leads to at the second.
theorem called_live (ready : Ready h) (conventional : Conventional h r c)
    (inside : start + n ≤ h.area.blocks) (at_start : buf = ptrFromBlock h.area start)
    (kept : Kept h (Live h r c.newBuf) (fun a => offset buf a < 16 * n) mid) {owner : Nat}
    (live : Live h r c.frame owner) : Live (called c buf mid) r c.newReader owner := by
  have now := called_kept ready conventional kept
  have sized := h.area.sized
  have limit := h.area.gcPoolEnd.toNat_lt
  have stackLimit := r.stackTop.toNat_lt
  have high := UInt32.le_iff_toNat_le.mp conventional.top
  have low := UInt32.le_iff_toNat_le.mp conventional.low
  have place := ptr_from_block_exact (show start ≤ h.area.blocks by omega)
  rw [Area.blocks] at inside
  have outOf (a : UInt32) (out : a.toNat < h.area.gcPoolStart.toNat ∨
      h.area.gcPoolEnd.toNat ≤ a.toNat) (away : ¬ OnStack c a) :
      (called c buf mid).memory a = h.memory a := by
    refine now.outside a fun changed => changed.elim (fun near => ?_) away
    have far : 16 * n ≤ offset buf a := by
      rw [at_start]
      exact outside_offset (by omega) (by omega)
    omega
  have stateOut := conventional.stateOut
  have stateAway := conventional.stateAway
  have stackOut := conventional.stackOut
  refine live_deeper conventional.readerDeeper conventional.top
    (live_stays ready.wellFormed.toShaped now.ready.wellFormed.toShaped
      (words_same (by omega) fun a above below => outOf a (by omega) ?_)
      (words_same ?_ fun a above below => outOf a ?_ ?_) now.objects live)
  · rw [OnStack]
    omega
  · rw [stack_words conventional.top]
    omega
  · rw [stack_words conventional.top] at below
    omega
  · rw [OnStack]
    omega

theorem buffer_live (conventional : Conventional h r c)
    (kept : Kept h (Live h r c.newBuf) (fun a => offset buf a < 16 * n) mid)
    (buffer : Buffer h (Live h r c.newBuf) text buf mid start n) :
    Live (called c buf mid) r c.newReader start := by
  rcases conventional.passes buf mid.memory with ⟨i, within, word⟩
  have high := UInt32.le_iff_toNat_le.mp conventional.top
  have isHead : IsHead (called c buf mid).area start := Or.inl buffer.head
  have gap := kept.ready.wellFormed.gap
  refine reachable_root (Or.inr ⟨⟨i, ?_, ?_⟩, isHead⟩)
  · rw [stack_words (UInt32.le_iff_toNat_le.mpr (by omega))]
    omega
  · have block := owns_inside gap (owns_self isHead)
    have refers := refers_here (a := mid.area) block
    rw [wordAt]
    rw [same_ptr kept.pool, ← buffer.at_start] at refers
    exact word.symm ▸ refers

end Calling

section Readers
variable {h after : Heap} {r : Roots} {sp buf : UInt32} {start n q : Nat}

/-- The reader: an object of one block that no live object had. -/
structure Reader (h : Heap) (kept : Nat → Prop) (rm : UInt32) (after : Heap) (q : Nat) : Prop where
  at_start : rm = ptrFromBlock h.area q
  head : after.area.kind q = .head
  size : chainBlocks after.area q = 1
  fresh : ∀ owner block, kept owner → Owns h.area owner block → block ≠ q

theorem reader_cases (ready : Ready h) (r : Roots) (sp buf len : UInt32) :
    (∃ base, mpReaderNewMem h r sp buf len 0 = (base, none) ∧
      Kept h (Live h r sp) (fun _ => False) base ∧
      NoRun (IsFree base.area) 0 1 base.area.blocks) ∨
    ∃ after rm q, mpReaderNewMem h r sp buf len 0 = (after, some rm) ∧
      Kept h (Live h r sp) (fun a => offset rm a < 16) after ∧
      Reader h (Live h r sp) rm after q ∧
      load32 after.memory (rm + 8) = buf ∧ load32 after.memory (rm + 12) = buf + len := by
  have one : blocksFor 16 = 1 := by decide
  rcases alloc_place r sp 16 ready (by decide) with
    ⟨base, found, same, ⟨refused, noRun⟩ | ⟨after, q, granted, allocated⟩⟩
  · exact Or.inl ⟨base, by rw [mpReaderNewMem, refused]; rfl, base_kept ready found same,
      one ▸ noRun⟩
  · rw [one] at granted
    have inside := granted.inside
    have nonnull := base.area.nonnull
    have place := ptr_from_block_exact (show q ≤ base.area.blocks by omega)
    have somewhere : ptrFromBlock base.area q ≠ 0 := fun zero => by
      have low := congrArg UInt32.toNat zero
      rw [place] at low
      change _ = 0 at low
      omega
    have fields : ∀ a, 16 * 1 ≤ offset (ptrFromBlock base.area q) a →
        readerFields after.memory (ptrFromBlock base.area q) 0 buf len a = base.memory a := by
      intro a far
      rw [reader_fields_outside _ _ _ _ _ far, granted.memory, if_neg (Nat.not_lt.mpr far)]
    rcases granted_object granted Nat.one_pos found.wellFormed.toShaped with ⟨head, size⟩
    refine Or.inr ⟨_, ptrFromBlock base.area q, q, by
      rw [mpReaderNewMem, allocated]
      exact if_neg somewhere, granted_kept ready found same granted Nat.one_pos fields,
      ⟨same_ptr found.pool q, head, size, fun owner block live owns here => ?_⟩,
      reader_fields_cur _ _ _ _ _, reader_fields_end _ _ _ _ _⟩
    have toBase := found.untouched owner owns.isHead live
    exact granted_apart granted ((toBase.owns block).mpr owns) (by omega)

theorem reader_apart {kept : Nat → Prop} {text : Bytes} {rm : UInt32} (ready : Ready after)
    (pool : after.area.gcPoolStart = h.area.gcPoolStart)
    (buffer : Buffer h kept text buf after start n) (reader_at : rm = ptrFromBlock h.area q)
    (reader : after.area.kind q = .head) (away : ¬ (start ≤ q ∧ q < start + n)) :
    Apart ⟨rm + 8, 4⟩ ⟨buf, text.length⟩ := by
  have gap := ready.wellFormed.gap
  have chain := chain_inside gap (owns_inside gap (owns_self (Or.inl buffer.head)))
  have block := owns_inside gap (owns_self (Or.inl reader))
  have room := buffer.room
  have size := buffer.size
  intro a field inText
  rw [Inside] at inText
  simp only at inText
  have far := object_bytes (a := after.area) (show q + 1 ≤ after.area.blocks from block) chain
    (k := offset buf a) (by omega) (by omega)
  rw [same_ptr pool, same_ptr pool, ← reader_at, ← buffer.at_start, add_offset] at far
  exact absurd (MemoryAreas.inside_part (k := 8) (n := 4) (by decide) (by decide) field)
    (Nat.not_lt.mpr far)

end Readers

section Launching
variable {fs written : FileSystem} {files : List Path} {output : Path} {bytes : Bytes}
  {h : Heap} {r : Roots} {c : Calls} {base name : UInt32}

def scriptName : Bytes := asciiBytes "nexus_ai.py".toList

/-- How the launch of a file may end. -/
inductive Launched (h : Heap) (r : Roots) (c : Calls) (data : Bytes) : Launch → Prop where
  | lexed {after : Heap} {buf rm : UInt32} {start n q : Nat}
      (buffer : Buffer h (Live h r c.newBuf) (data ++ [0x0A]) buf after start n)
      (reader : Reader h (Live h r c.frame) rm after q) (away : ¬ (start ≤ q ∧ q < start + n))
      (kept : Kept h (Live h r c.frame)
        (fun a => (offset buf a < 16 * n ∨ OnStack c a) ∨ offset rm a < 16) after)
      (reads : ∀ extra, readAll (data.length + 2 + extra) after.memory rm =
        some (data ++ [0x0A])) : Launched h r c data (.lexed after rm)
  | noBuffer {after : Heap} (kept : Kept h (Live h r c.newBuf) (fun _ => False) after)
      (noRun : NoRun (IsFree after.area) 0 ((data.length + 17) / 16) after.area.blocks) :
      Launched h r c data (.scriptError after)
  -- The buffer stays behind when the reader finds no block.
  | noReader {after : Heap} {buf : UInt32} {start n : Nat}
      (buffer : Buffer h (Live h r c.newBuf) (data ++ [0x0A]) buf after start n)
      (kept : Kept h (Live h r c.frame) (fun a => offset buf a < 16 * n ∨ OnStack c a) after)
      (noRun : NoRun (IsFree after.area) 0 1 after.area.blocks) :
      Launched h r c data (.scriptError after)

-- From the filled buffer on: the reader is made and reads it, or finds no room.
theorem reader_launched {mid : Heap} {data : Bytes} {buf : UInt32} {start n : Nat}
    (ready : Ready h) (conventional : Conventional h r c)
    (kept : Kept h (Live h r c.newBuf) (fun a => offset buf a < 16 * n) mid)
    (buffer : Buffer h (Live h r c.newBuf) (data ++ [0x0A]) buf mid start n) :
    Launched h r c data
      (match mpReaderNewMem (called c buf mid) r c.newReader buf
          (UInt32.ofNat (data.length + 1)) 0 with
        | (h, none) => .scriptError h
        | (h, some reader) => .lexed h reader) := by
  have now := called_kept ready conventional kept
  have gap := kept.ready.wellFormed.gap
  have isHead : IsHead mid.area start := Or.inl buffer.head
  have chain := chain_inside gap (owns_inside gap (owns_self isHead))
  have size := buffer.size
  have inside : start + n ≤ h.area.blocks := by
    rw [Area.blocks, ← kept.len]
    rw [Area.blocks] at chain
    omega
  have live := buffer_live conventional kept buffer
  have passed := buffer.stays kept.pool kept.ready now.ready
    (pushed_untouched conventional kept isHead)
  have onward := fun owner (_ : IsHead h.area owner) (led : Live h r c.frame owner) =>
    And.intro led (called_live ready conventional inside buffer.at_start kept led)
  rcases reader_cases now.ready r c.newReader buf (UInt32.ofNat (data.length + 1)) with
    ⟨after, refused, last, noRun⟩ | ⟨after, rm, q, made, last, reader, cur, finish⟩
  · rw [refused]
    have untouched := last.objects start isHead live
    have whole := kept_trans ready now last onward
    refine .noReader (passed.stays now.pool now.ready last.ready untouched)
      ⟨whole.ready, whole.pool, whole.len, whole.objects, fun a unchanged => ?_⟩ noRun
    exact whole.outside a fun changed => changed.elim unchanged False.elim
  · rw [made]
    have untouched := last.objects start isHead live
    have whole := kept_trans ready now last onward
    have final := passed.stays now.pool now.ready last.ready untouched
    have at_start : rm = ptrFromBlock h.area q := reader.at_start.trans (same_ptr now.pool q)
    have away : ¬ (start ≤ q ∧ q < start + n) := fun here =>
      reader.fresh start q live
        ((owns_iff now.ready.wellFormed.gap isHead q).mpr (by rw [passed.size]; exact here)) rfl
    have text := ((holds_append _ _ _ _).mp final.holds).1
    have limit := (called c buf mid).area.gcPoolEnd.toNat_lt
    have sized := h.area.sized
    have place := ptr_from_block_exact (show start ≤ h.area.blocks by omega)
    have pool := congrArg UInt32.toNat (pool_end now.pool now.len)
    have room := final.room
    have length : (data ++ [0x0A]).length = data.length + 1 := by
      rw [List.length_append, List.length_singleton]
    rw [Area.blocks] at inside
    rw [← buffer.at_start] at place
    have reads := read_all cur (by rw [finish, length]) text
      (reader_apart last.ready whole.pool final at_start reader.head away) (by omega)
    rw [length] at reads
    refine .lexed final ⟨at_start, reader.head, reader.size, fun owner block led owns => ?_⟩ away
      whole reads
    have unmoved := now.objects owner owns.isHead led
    exact reader.fresh owner block (onward owner owns.isHead led).2 ((unmoved.owns block).mpr owns)

theorem launch_found {d : Initrd} {data : Bytes} {pointer : UInt32} (ready : Ready h)
    (conventional : Conventional h r c)
    (found : initrdGetFile d h.memory name 0 = ⟨pointer, UInt32.ofNat data.length⟩)
    (nonNull : pointer ≠ 0) (holds : Holds h.memory pointer data)
    (fits : pointer.toNat + data.length ≤ 2 ^ 32) (small : data.length + 17 < 2 ^ 32)
    (outside : pointer.toNat + data.length ≤ h.area.gcPoolStart.toNat ∨
      h.area.gcPoolEnd.toNat ≤ pointer.toNat) : Launched h r c data (launch d h r c name) := by
  have asked : UInt32.ofNat data.length + 2 = UInt32.ofNat (data.length + 2) := by
    rw [UInt32.ofNat_add]
    rfl
  have value : (UInt32.ofNat (data.length + 2)).toNat = data.length + 2 := by
    rw [UInt32.toNat_ofNat', Nat.mod_eq_of_lt (by omega)]
  have blocks : blocksFor (UInt32.ofNat (data.length + 2)) = (data.length + 17) / 16 := by
    rw [blocks_for_exact (by omega), value]
  have next : UInt32.ofNat data.length + 1 = UInt32.ofNat (data.length + 1) := by
    rw [UInt32.ofNat_add]
    rfl
  simp only [launch, found, if_neg nonNull, asked, next]
  rcases alloc_place r c.newBuf (UInt32.ofNat (data.length + 2)) ready (by omega) with
    ⟨base, kept, same, ⟨refused, noRun⟩ | ⟨after, start, granted, allocated⟩⟩
  · have positive : UInt32.ofNat (data.length + 2) ≠ 0 := fun zero => by
      have size := congrArg UInt32.toNat zero
      rw [value] at size
      cases size
    simp only [refused]
    rw [if_pos ⟨trivial, positive⟩]
    exact .noBuffer (base_kept ready kept same) (blocks ▸ noRun)
  · have inside := granted.inside
    have nonnull := base.area.nonnull
    have place := ptr_from_block_exact (show start ≤ base.area.blocks by omega)
    have somewhere : ptrFromBlock base.area start ≠ 0 := fun zero => by
      have low := congrArg UInt32.toNat zero
      rw [place] at low
      change _ = 0 at low
      omega
    rcases run_filled kept same granted (by omega) holds fits outside with ⟨buffer, others⟩
    simp only [allocated]
    rw [if_neg fun both => somewhere both.1]
    exact reader_launched ready conventional
      (granted_kept ready kept same granted (by omega) others) buffer

end Launching

theorem placed_low (bytes query : Bytes) (nonzero : ∀ c ∈ query, c ≠ 0)
    (small : bytes.length + query.length < 2 ^ 31) :
    ∃ m name, Loaded m 1 bytes ∧ NameAt m name query := by
  have room : (bytes ++ (query ++ [0])).length + ([] : Bytes).length ≤ 2 ^ 32 := by
    simp only [List.length_append, List.length_singleton, List.length_nil]
    omega
  have stored := @holds_store (fun _ => 0) 1 [] (bytes ++ (query ++ [0])) trivial room
  rw [List.append_nil, holds_append] at stored
  have one : (1 : UInt32).toNat = 1 := rfl
  refine ⟨_, 1 + UInt32.ofNat bytes.length, ⟨by decide, stored.1, by omega⟩, fun zero => ?_,
    nonzero, stored.2⟩
  have value := congrArg UInt32.toNat zero
  rw [address_exact 1 _ (by omega)] at value
  change 1 + bytes.length = 0 at value
  omega

/-- The interpreter's stack below `0x90000`, with the buffer passed at `0x8F100`. -/
def kernelCalls : Calls where
  frame := 0x8F800
  newBuf := 0x8F000
  newReader := 0x8EF00
  bottom := 0x8E000
  pushed buf m := store32 m 0x8F100 buf

def kernelRoots : Roots := ⟨0x80000, 16, 0x90000⟩

theorem kernel_conventional {h : Heap} (high : 0x90000 ≤ h.area.gcPoolStart.toNat) :
    Conventional h kernelRoots kernelCalls where
  bufDeeper := ⟨0x200, by decide⟩
  readerDeeper := ⟨0x240, by decide⟩
  top := by decide
  stackOut := Or.inl high
  low := by decide
  stateOut := Or.inl (Nat.le_trans (by decide) high)
  stateAway := Or.inl (by decide)
  passes buf m := ⟨0x80, by decide, load_store m buf⟩
  stays buf m a away := by
    refine word_outside m buf fun inside => away ?_
    have address := address_exact 0x8F100 (offset 0x8F100 a) (by
      rw [Inside] at inside
      exact Nat.lt_trans (Nat.add_lt_add_left inside _) (by decide))
    rw [add_offset] at address
    rw [Inside] at inside
    have place : (0x8F100 : UInt32).toNat = 0x8F100 := rfl
    have bottom : kernelCalls.bottom.toNat = 0x8E000 := rfl
    have frame : kernelCalls.frame.toNat = 0x8F800 := rfl
    simp only at inside
    rw [OnStack]
    omega

end NexusOS.ScriptLaunch
