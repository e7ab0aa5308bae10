import NexusOS.ImagePacker

/-!
`initrd_init` and `initrd_get_file` of `kernel/initrd.c`, with the `strncmp` of
`kernel/libc.c`, over byte memory: pointers are 32-bit addresses, NULL is 0. On
an image that `make_initrd` wrote, a look-up by name finds the data packed under
that name and nothing else.
-/

namespace NexusOS.DiskImage

open ByteMemory ImagePacker

/-- The loop of `strncmp`, and the difference it returns. -/
def strncmp (m : Memory) (s₁ s₂ : UInt32) : Nat → Int
  | 0 => 0
  | n + 1 =>
      if m s₁ ≠ 0 ∧ m s₁ = m s₂ then strncmp m (s₁ + 1) (s₂ + 1) n
      else (m s₁).toNat - (m s₂).toNat

structure Initrd where
  nFiles : UInt32
  initrdBase : UInt32

def initrdInit (m : Memory) (location : UInt32) : Initrd := ⟨load32 m location, location⟩

/-- A pointer and what was stored through `size`. -/
structure Lookup where
  pointer : UInt32
  size : UInt32

/-- The loop over the headers, with `left` of them to go. -/
def searchFrom (m : Memory) (name size : UInt32) : Nat → UInt32 → UInt32 → Lookup
  | 0, _, _ => ⟨0, size⟩
  | left + 1, headerPtr, dataPtr =>
      let fsize := load32 m (headerPtr + 32)
      if strncmp m headerPtr name 32 = 0 then ⟨dataPtr, fsize⟩
      else searchFrom m name size left (headerPtr + 36) (dataPtr + fsize)

/-- `size` is what the caller's variable held before. -/
def initrdGetFile (d : Initrd) (m : Memory) (name size : UInt32) : Lookup :=
  if d.initrdBase = 0 ∨ d.nFiles = 0 ∨ name = 0 then ⟨0, size⟩
  else
    searchFrom m name size d.nFiles.toNat (d.initrdBase + 4)
      (d.initrdBase + 4 + d.nFiles * 36)

structure Loaded (m : Memory) (base : UInt32) (bytes : Bytes) : Prop where
  nonzero : base ≠ 0
  holds : Holds m base bytes
  fits : base.toNat + bytes.length ≤ 2 ^ 32

structure NameAt (m : Memory) (name : UInt32) (query : Bytes) : Prop where
  nonNull : name ≠ 0
  nonzero : ∀ c ∈ query, c ≠ 0
  holds : Holds m name (query ++ [0])

-- Comparing two strings over a whole field: they agree up to the field's first
-- NUL, or in all of it.
theorem strncmp_agrees (m : Memory) (s₁ s₂ : UInt32) (field query : Bytes)
    (nonzero : ∀ c ∈ query, c ≠ 0) (left : Holds m s₁ field) (right : Holds m s₂ (query ++ [0])) :
    strncmp m s₁ s₂ field.length = 0 ↔
      field.takeWhile (· ≠ 0) = query.take field.length := by
  induction field generalizing s₁ s₂ query with
  | nil => exact iff_of_true rfl rfl
  | cons c field ih =>
      have here : m s₁ = c := left.1
      cases query with
      | nil =>
          have there : m s₂ = 0 := right.1
          by_cases ended : c = 0
          · simp [strncmp, here, there, ended]
          · have positive : c.toNat ≠ 0 := fun zero => ended (UInt8.toNat_inj.mp zero)
            simp [strncmp, here, there, ended, positive]
      | cons b query =>
          have there : m s₂ = b := right.1
          have visible := nonzero b List.mem_cons_self
          by_cases same : c = b
          · subst same
            have rest := ih (s₁ + 1) (s₂ + 1) query
              (fun b member => nonzero b (List.mem_cons_of_mem c member)) left.2 right.2
            simp [strncmp, here, there, visible, rest]
          · have differ : (c.toNat : Int) - b.toNat ≠ 0 := by
              intro zero
              exact same (UInt8.toNat_inj.mp (by omega))
            by_cases ended : c = 0
            · simpa [strncmp, here, there, ended] using differ
            · simp [strncmp, here, there, ended, same, differ]

theorem pad_text (e : Entry) : (pad e.name).takeWhile (· ≠ 0) = e.name := by
  have short := e.short
  have kept : ∀ c ∈ e.name, decide (c ≠ 0) = true := by simpa using e.nonzero
  have behind : 32 - e.name.length = (31 - e.name.length) + 1 := by omega
  rw [pad, List.takeWhile_append_of_pos kept, behind, List.replicate_succ]
  simp

section Search
variable {m : Memory} {name : UInt32} {query : Bytes} (nameAt : NameAt m name query)
include nameAt

theorem header_read (e : Entry) {headerPtr : UInt32} (holds : Holds m headerPtr e.header) :
    load32 m (headerPtr + 32) = UInt32.ofNat e.data.length ∧
      (strncmp m headerPtr name 32 = 0 ↔ e.name = query) := by
  have short := e.short
  have parts := (holds_append m headerPtr (pad e.name) _).mp holds
  rw [pad_length] at parts
  refine ⟨load_holds parts.2, ?_⟩
  have compared := strncmp_agrees m headerPtr name (pad e.name) query nameAt.nonzero parts.1
    nameAt.holds
  rw [pad_length, pad_text e] at compared
  rw [compared]
  -- a name of at most 31 bytes is cut nowhere, and no longer one agrees with it
  constructor
  · intro cut
    have size := congrArg List.length cut
    rw [List.length_take] at size
    have whole : query.take 32 = query := List.take_of_length_le (by omega)
    exact cut.trans whole
  · rintro rfl
    exact (List.take_of_length_le (by omega)).symm

theorem search_step (e : Entry) (entries : List Entry) {headerPtr : UInt32}
    (holds : Holds m headerPtr ((e :: entries).flatMap Entry.header)) (size dataPtr : UInt32) :
    Holds m (headerPtr + 36) (entries.flatMap Entry.header) ∧
    searchFrom m name size (e :: entries).length headerPtr dataPtr =
      if e.name = query then ⟨dataPtr, UInt32.ofNat e.data.length⟩
      else searchFrom m name size entries.length (headerPtr + 36)
        (dataPtr + UInt32.ofNat e.data.length) := by
  rw [List.flatMap_cons] at holds
  have parts := (holds_append m headerPtr e.header _).mp holds
  rw [header_length] at parts
  rcases header_read nameAt e parts.1 with ⟨fsize, compared⟩
  refine ⟨parts.2, ?_⟩
  simp only [List.length_cons, searchFrom, fsize, compared]

theorem search_finds (before : List Entry) (e : Entry) (after : List Entry)
    {headerPtr : UInt32}
    (holds : Holds m headerPtr ((before ++ e :: after).flatMap Entry.header))
    (others : ∀ b ∈ before, b.name ≠ query) (named : e.name = query) (size dataPtr : UInt32) :
    searchFrom m name size (before ++ e :: after).length headerPtr dataPtr =
      ⟨dataPtr + UInt32.ofNat (before.flatMap Entry.data).length,
        UInt32.ofNat e.data.length⟩ := by
  induction before generalizing headerPtr dataPtr with
  | nil =>
      rw [List.nil_append] at holds ⊢
      rw [(search_step nameAt e after holds size dataPtr).2, if_pos named]
      simp
  | cons b before ih =>
      rw [List.cons_append] at holds ⊢
      rcases search_step nameAt b (before ++ e :: after) holds size dataPtr with ⟨rest, stepped⟩
      have passed := others b List.mem_cons_self
      have later := ih rest (fun c member => others c (List.mem_cons_of_mem b member))
        (dataPtr + UInt32.ofNat b.data.length)
      rw [stepped, if_neg passed, later, List.flatMap_cons, List.length_append,
        UInt32.ofNat_add, UInt32.add_assoc]

theorem search_misses (entries : List Entry) {headerPtr : UInt32}
    (holds : Holds m headerPtr (entries.flatMap Entry.header))
    (others : ∀ e ∈ entries, e.name ≠ query) (size dataPtr : UInt32) :
    searchFrom m name size entries.length headerPtr dataPtr = ⟨0, size⟩ := by
  induction entries generalizing headerPtr dataPtr with
  | nil => rfl
  | cons e entries ih =>
      rcases search_step nameAt e entries holds size dataPtr with ⟨rest, stepped⟩
      rw [stepped, if_neg (others e List.mem_cons_self)]
      exact ih rest (fun c member => others c (List.mem_cons_of_mem e member)) _

end Search

theorem headers_length (entries : List Entry) :
    (entries.flatMap Entry.header).length = 36 * entries.length := by
  induction entries with
  | nil => rfl
  | cons e rest ih =>
      rw [List.flatMap_cons, List.length_append, ih, header_length, List.length_cons]
      omega

theorem image_length (entries : List Entry) : (image entries).length =
    4 + 36 * entries.length + (entries.flatMap Entry.data).length := by
  rw [image, List.length_append, List.length_append, headers_length, bytes_length]

theorem image_parts {m : Memory} {base : UInt32} {entries : List Entry}
    (loaded : Loaded m base (image entries)) :
    load32 m base = UInt32.ofNat entries.length ∧
    (UInt32.ofNat entries.length).toNat = entries.length ∧
    Holds m (base + 4) (entries.flatMap Entry.header) ∧
    base + 4 + UInt32.ofNat entries.length * 36 = base + UInt32.ofNat (4 + 36 * entries.length) ∧
    Holds m (base + UInt32.ofNat (4 + 36 * entries.length)) (entries.flatMap Entry.data) := by
  have fits := loaded.fits
  have size := image_length entries
  have holds := loaded.holds
  rw [image, holds_append, holds_append, List.length_append, headers_length, bytes_length] at holds
  rcases holds with ⟨⟨count, headers⟩, data⟩
  refine ⟨load_holds count, ?_, headers, ?_, data⟩
  · rw [UInt32.toNat_ofNat', Nat.mod_eq_of_lt]
    omega
  · rw [UInt32.ofNat_add, UInt32.ofNat_mul, UInt32.mul_comm, UInt32.add_assoc]
    rfl

theorem get_file_searches {m : Memory} {base name : UInt32} {entries : List Entry} {query : Bytes}
    (loaded : Loaded m base (image entries)) (nameAt : NameAt m name query) (size : UInt32) :
    initrdGetFile (initrdInit m base) m name size =
      searchFrom m name size entries.length (base + 4)
        (base + UInt32.ofNat (4 + 36 * entries.length)) := by
  rcases image_parts loaded with ⟨count, agrees, _, data, _⟩
  unfold initrdGetFile initrdInit
  simp only [count, agrees, data]
  -- the test for no files returns what the search over none would
  by_cases empty : UInt32.ofNat entries.length = 0
  · have noEntries : entries.length = 0 := by
      rw [← agrees, empty]
      rfl
    rw [if_pos (.inr (.inl empty)), noEntries]
    rfl
  · rw [if_neg]
    rintro (noBase | noFiles | noName)
    · exact loaded.nonzero noBase
    · exact empty noFiles
    · exact nameAt.nonNull noName

def Delimits (m : Memory) (found : Lookup) (data : Bytes) : Prop :=
  found.pointer ≠ 0 ∧ found.size.toNat = data.length ∧ Holds m found.pointer data

theorem entry_found {m : Memory} {base name : UInt32} {before : List Entry} {e : Entry}
    {after : List Entry} (loaded : Loaded m base (image (before ++ e :: after)))
    (nameAt : NameAt m name e.name) (others : ∀ b ∈ before, b.name ≠ e.name)
    (nonempty : e.data ≠ [])
    (size : UInt32) :
    Delimits m (initrdGetFile (initrdInit m base) m name size) e.data := by
  rcases image_parts loaded with ⟨_, _, headers, _, data⟩
  rw [get_file_searches loaded nameAt,
    search_finds nameAt before e after headers others rfl]
  have fits := loaded.fits
  have split : (before ++ e :: after).flatMap Entry.data =
      before.flatMap Entry.data ++ (e.data ++ after.flatMap Entry.data) := by
    rw [List.flatMap_append, List.flatMap_cons]
  have blobs := congrArg List.length split
  rw [List.length_append, List.length_append] at blobs
  rw [image_length, blobs] at fits
  rw [split, holds_append, holds_append] at data
  refine ⟨?_, ?_, data.2.1⟩
  · intro zero
    -- a block that holds a byte lies below 2^32, so its pointer is not NULL
    have positive := List.length_pos_iff.mpr nonempty
    have value := congrArg UInt32.toNat zero
    simp only [UInt32.add_assoc, ← UInt32.ofNat_add] at value
    rw [address_exact _ _ (by omega)] at value
    change _ = 0 at value
    omega
  · exact (UInt32.toNat_ofNat').trans (Nat.mod_eq_of_lt e.small)

theorem entry_of_input {fs : FileSystem} {output : Path} {files : List Path}
    {entries : List Entry} (packs : List.Forall₂ (Packs fs output) files entries)
    (distinct : (files.map entryName).Nodup) {path : Path} (member : path ∈ files) :
    ∃ before e after, entries = before ++ e :: after ∧ Packs fs output path e ∧
      ∀ b ∈ before, b.name ≠ e.name := by
  induction packs with
  | nil => exact absurd member List.not_mem_nil
  | cons first rest ih =>
      rename_i file e files entries
      rw [List.map_cons, List.nodup_cons] at distinct
      rcases List.mem_cons.mp member with rfl | later
      · exact ⟨[], e, entries, rfl, first, by simp⟩
      · rcases ih distinct.2 later with ⟨before, found, after, rfl, packs, others⟩
        refine ⟨e :: before, found, after, rfl, packs, fun b among => ?_⟩
        rcases List.mem_cons.mp among with rfl | inside
        · rw [first.name, packs.name]
          exact fun same => distinct.1 (same ▸ List.mem_map_of_mem later)
        · exact others b inside

theorem input_of_entry {fs : FileSystem} {output : Path} {files : List Path}
    {entries : List Entry} (packs : List.Forall₂ (Packs fs output) files entries) {e : Entry}
    (inside : e ∈ entries) : ∃ path ∈ files, Packs fs output path e := by
  induction packs with
  | nil => exact absurd inside List.not_mem_nil
  | cons first rest ih =>
      rcases List.mem_cons.mp inside with rfl | later
      · exact ⟨_, List.mem_cons_self, first⟩
      · rcases ih later with ⟨path, member, own⟩
        exact ⟨path, List.mem_cons_of_mem _ member, own⟩

theorem written_image {fs written : FileSystem} {files : List Path} {output : Path}
    (packed : makeInitrd fs files output = (written, .ok ())) {bytes : Bytes}
    (there : written.contents output = some bytes) :
    ∃ entries, List.Forall₂ (Packs fs output) files entries ∧ bytes = image entries := by
  rcases finished_run packed with ⟨_, _, entries, packs, rfl⟩
  rw [put_self] at there
  cases there
  exact ⟨entries, packs, rfl⟩

theorem normalise_nonempty (raw : Bytes) : normalise raw ≠ [] := by
  unfold normalise endLine
  split_ifs with ended
  · intro empty
    rw [empty] at ended
    cases ended
  · exact List.append_ne_nil_of_right_ne_nil _ (List.cons_ne_nil _ _)

/-- Under `nameOf` each input is found, with its contents as they were packed,
and under any other name nothing is. -/
def LookupExact (nameOf : Path → Bytes) (fs : FileSystem) (files : List Path) (output : Path)
    (m : Memory) (base name : UInt32) (query : Bytes) : Prop :=
  ∀ size,
    (∀ path ∈ files, query = nameOf path →
      ∃ raw, contentsDuring fs output path = some raw ∧
        Delimits m (initrdGetFile (initrdInit m base) m name size) (normalise raw)) ∧
    ((∀ path ∈ files, query ≠ nameOf path) →
      (initrdGetFile (initrdInit m base) m name size).pointer = 0)

section Written
variable {fs written : FileSystem} {files : List Path} {output : Path} {bytes : Bytes}
  {m : Memory} {base name : UInt32} {query : Bytes}

theorem stored_found (packed : makeInitrd fs files output = (written, .ok ()))
    (there : written.contents output = some bytes) (distinct : (files.map entryName).Nodup)
    (loaded : Loaded m base bytes) (nameAt : NameAt m name query) (size : UInt32) {path : Path}
    (member : path ∈ files) (named : query = entryName path) :
    ∃ raw, contentsDuring fs output path = some raw ∧
      Delimits m (initrdGetFile (initrdInit m base) m name size) (normalise raw) := by
  rcases written_image packed there with ⟨entries, packs, rfl⟩
  rcases entry_of_input packs distinct member with ⟨before, e, after, rfl, own, others⟩
  rcases own.data with ⟨raw, read, data⟩
  rw [named, ← own.name] at nameAt
  have found := entry_found loaded nameAt others (data ▸ normalise_nonempty raw) size
  exact ⟨raw, read, data ▸ found⟩

theorem stored_missed (packed : makeInitrd fs files output = (written, .ok ()))
    (there : written.contents output = some bytes) (loaded : Loaded m base bytes)
    (nameAt : NameAt m name query) (size : UInt32)
    (absent : ∀ path ∈ files, query ≠ entryName path) :
    (initrdGetFile (initrdInit m base) m name size).pointer = 0 := by
  rcases written_image packed there with ⟨entries, packs, rfl⟩
  rcases image_parts loaded with ⟨_, _, headers, _, _⟩
  rw [get_file_searches loaded nameAt, search_misses nameAt entries headers]
  intro e inside same
  rcases input_of_entry packs inside with ⟨path, member, own⟩
  exact absent path member (same.symm.trans own.name)

/-- The packer and the kernel agree on the image, up to the 31 bytes a name keeps. -/
theorem image_lookup (packed : makeInitrd fs files output = (written, .ok ()))
    (there : written.contents output = some bytes) (distinct : (files.map entryName).Nodup)
    (loaded : Loaded m base bytes) (nameAt : NameAt m name query) :
    LookupExact entryName fs files output m base name query :=
  fun size => ⟨fun _ member named =>
      stored_found packed there distinct loaded nameAt size member named,
    fun absent => stored_missed packed there loaded nameAt size absent⟩

end Written

theorem placed (bytes query : Bytes) (nonzero : ∀ c ∈ query, c ≠ 0)
    (small : bytes.length + query.length < 2 ^ 31) :
    ∃ m base name, Loaded m base bytes ∧ NameAt m name query := by
  have room : (bytes ++ (query ++ [0])).length + ([] : Bytes).length ≤ 2 ^ 32 := by
    simp only [List.length_append, List.length_singleton, List.length_nil]
    omega
  have stored := @holds_store (fun _ => 0) 1 [] (bytes ++ (query ++ [0])) trivial room
  rw [List.append_nil, holds_append] at stored
  refine ⟨_, 1, 1 + UInt32.ofNat bytes.length, ⟨by decide, stored.1, ?_⟩, ?_, nonzero, stored.2⟩
  · change 1 + bytes.length ≤ 2 ^ 32
    omega
  · intro zero
    have value := congrArg UInt32.toNat zero
    rw [address_exact 1 _ (by change 1 + _ < _; omega)] at value
    change 1 + bytes.length = 0 at value
    omega

def oneFile (path : Path) : FileSystem where
  contents := fun other => if other = path then some [0x61] else none
  readable := fun _ => true
  writable := fun _ => true

theorem one_file_packed {path : Path} (ascii : ∀ c ∈ path, c.toNat < 128)
    (noNul : Char.ofNat 0 ∉ path) (other : path ≠ ['o']) :
    ∃ written bytes, makeInitrd (oneFile path) [path] ['o'] = (written, .ok ()) ∧
      written.contents ['o'] = some bytes ∧ bytes.length = 42 := by
  have contents : contentsDuring (oneFile path) ['o'] path = some [0x61] := by
    simp [contentsDuring, oneFile, other]
  have packable : Packable (oneFile path) ['o'] path :=
    ⟨fun c member => ascii c (basename_subset path c member), rfl, noNul, _, contents, by decide⟩
  have opens : Opens (oneFile path) ['o'] := ⟨rfl, by simp⟩
  rcases single_run opens packable contents with ⟨e, data, packed⟩
  refine ⟨_, _, packed, put_self _ _ _, ?_⟩
  simp [image_length, data, normalise, replaceCrLf, endLine]

theorem letters_nonzero {name : Path} (letters : ∀ c ∈ name, c = 'f') :
    (∀ c ∈ name, c.toNat < 128) ∧ Char.ofNat 0 ∉ name := by
  constructor
  · intro c member
    rw [letters c member]
    decide
  · intro member
    exact absurd (letters _ member) (by decide)

def longName : Path := List.replicate 32 'f'

/-- A file in a directory, one whose name is cut, and an empty one. -/
def threeFiles : FileSystem where
  contents := fun path =>
    if path = "d/a".toList then some [0x61, 0x0D, 0x0A]
    else if path = 'd' :: '/' :: longName then some [0x62, 0x63]
    else if path = ['e'] then some [] else none
  readable := fun _ => true
  writable := fun _ => true

def threePaths : List Path := ["d/a".toList, 'd' :: '/' :: longName, ['e']]

def cutName : Bytes := List.replicate 31 0x66

theorem cut_name_found : ∃ written bytes m base name,
    makeInitrd threeFiles threePaths ['o'] = (written, .ok ()) ∧
    written.contents ['o'] = some bytes ∧ (threePaths.map entryName).Nodup ∧
    Loaded m base bytes ∧ NameAt m name cutName ∧
    entryName ('d' :: '/' :: longName) = cutName ∧
    LookupExact entryName threeFiles threePaths ['o'] m base name cutName := by
  obtain ⟨written, bytes, packed, there, size⟩ : ∃ written bytes,
      makeInitrd threeFiles threePaths ['o'] = (written, .ok ()) ∧
      written.contents ['o'] = some bytes ∧ bytes.length = 118 := ⟨_, _, rfl, rfl, rfl⟩
  have distinct : (threePaths.map entryName).Nodup := by decide +kernel
  rcases placed bytes cutName (by decide +kernel) (by rw [size]; decide) with
    ⟨m, base, name, loaded, nameAt⟩
  exact ⟨written, bytes, m, base, name, packed, there, distinct, loaded, nameAt,
    by decide +kernel, image_lookup packed there distinct loaded nameAt⟩

theorem long_basename : basename longName = longName := by
  rw [basename, longName, List.reverse_replicate, List.takeWhile_replicate]
  simp

/-- A name that does not fit its field is stored cut, and its file is not found
under the whole name. -/
theorem long_name_lost :
    ¬ ∀ (fs written : FileSystem) (files : List Path) (output : Path) (bytes : Bytes)
      (m : Memory) (base name : UInt32) (query : Bytes),
      makeInitrd fs files output = (written, .ok ()) → written.contents output = some bytes →
      (files.map basename).Nodup → (∀ path ∈ files, basename path ≠ []) →
      Loaded m base bytes → NameAt m name query →
      LookupExact (fun path => asciiBytes (basename path)) fs files output m base name query := by
  intro always
  have length : longName.length = 32 := List.length_replicate
  have filled : longName ≠ [] := List.ne_nil_of_length_pos (length ▸ by decide)
  have other : longName ≠ ['o'] := fun same => by simp [same] at length
  rcases @letters_nonzero longName (fun c member => List.eq_of_mem_replicate member)
    with ⟨ascii, noNul⟩
  rcases one_file_packed ascii noNul other with ⟨written, bytes, packed, there, size⟩
  have sizes : (asciiBytes longName).length = 32 := by rw [asciiBytes, List.length_map, length]
  rcases placed bytes (asciiBytes longName) (ascii_nonzero ascii noNul)
    (by rw [size, sizes]; decide)
    with ⟨m, base, name, loaded, nameAt⟩
  have agrees := always _ _ _ _ _ m base name _ packed there (by simp)
    (by simpa [long_basename] using filled) loaded nameAt 0
  rcases agrees.1 longName List.mem_cons_self (congrArg asciiBytes long_basename.symm)
    with ⟨raw, _, found⟩
  apply found.1
  apply stored_missed packed there loaded nameAt 0
  intro path member same
  have lengths := congrArg List.length same
  rw [sizes, entryName, List.length_take] at lengths
  omega

end NexusOS.DiskImage
