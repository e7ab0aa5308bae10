import NexusOS.ByteMemory

/-!
`make_initrd` of `tools/mkinitrd.py`. A path names a file of its own, and a run
gives the file system it leaves beside its result. The output is opened, and so
emptied, before anything is read; the four bytes of the count wait in the
writer's buffer and reach the file when it is closed, by an exception or not.
-/

namespace NexusOS.ImagePacker

open ByteMemory

abbrev Path := List Char
abbrev Bytes := List UInt8

inductive PackError where
  | cannotOpen (path : Path)
  | notAscii (name : Path)
  | structError (value : Nat)

structure FileSystem where
  contents : Path → Option Bytes
  readable : Path → Bool
  writable : Path → Bool

def FileSystem.put (fs : FileSystem) (path : Path) (bytes : Bytes) : FileSystem :=
  { fs with contents := Function.update fs.contents path (some bytes) }

/-- `open(path, 'rb').read()`. -/
def readFile (fs : FileSystem) (path : Path) : Except PackError Bytes :=
  match fs.contents path with
  | some bytes =>
      if fs.readable path ∧ Char.ofNat 0 ∉ path then .ok bytes else .error (.cannotOpen path)
  | none => .error (.cannotOpen path)

/-- What `open(path, 'wb')` needs. -/
def Opens (fs : FileSystem) (path : Path) : Prop := fs.writable path = true ∧ Char.ofNat 0 ∉ path

instance (fs : FileSystem) (path : Path) : Decidable (Opens fs path) :=
  inferInstanceAs (Decidable (_ ∧ _))

/-- `struct.pack('<I', value)`. -/
def packWord (value : Nat) : Except PackError Bytes :=
  if value < 2 ^ 32 then .ok (bytes32 (UInt32.ofNat value)) else .error (.structError value)

/-- `os.path.basename`. -/
def basename (path : Path) : Path := (path.reverse.takeWhile (· ≠ '/')).reverse

def asciiBytes (name : Path) : Bytes := name.map fun c => UInt8.ofNat c.toNat

-- decided along the name, not over all characters there are
instance (name : Path) : Decidable (∀ c ∈ name, c.toNat < 128) := List.decidableBAll _ name

/-- `name.encode('ascii')`. -/
def encodeAscii (name : Path) : Except PackError Bytes :=
  if ∀ c ∈ name, c.toNat < 128 then .ok (asciiBytes name) else .error (.notAscii name)

/-- `replace(b'\r\n', b'\n')`. -/
def replaceCrLf : Bytes → Bytes
  | 0x0D :: 0x0A :: rest => 0x0A :: replaceCrLf rest
  | b :: rest => b :: replaceCrLf rest
  | [] => []

def endLine (data : Bytes) : Bytes :=
  if data.getLast? = some 0x0A then data else data ++ [0x0A]

def normalise (data : Bytes) : Bytes := endLine (replaceCrLf data)

def pad (name : Bytes) : Bytes := name ++ List.replicate (32 - name.length) 0

def packFile (fs : FileSystem) (path : Path) : Except PackError (Bytes × Bytes) := do
  let nameBytes ← encodeAscii (basename path)
  let raw ← readFile fs path
  let data := normalise raw
  let size ← packWord data.length
  .ok (pad (nameBytes.take 31) ++ size, data)

def packLoop (fs : FileSystem) :
    List Path → List Bytes → List Bytes → Except PackError (List Bytes × List Bytes)
  | [], headers, blobs => .ok (headers, blobs)
  | path :: rest, headers, blobs => do
      let (header, blob) ← packFile fs path
      packLoop fs rest (headers ++ [header]) (blobs ++ [blob])

def makeInitrd (fs : FileSystem) (files : List Path) (output : Path) :
    FileSystem × Except PackError Unit :=
  if Opens fs output then
    -- opening for writing empties the file before any input is read
    let opened := fs.put output []
    match packWord files.length with
    | .error e => (opened, .error e)
    | .ok count =>
        match packLoop opened files [] [] with
        -- the count is written ahead of the loop
        | .error e => (opened.put output count, .error e)
        | .ok (headers, blobs) =>
            (opened.put output (count ++ headers.flatten ++ blobs.flatten), .ok ())
  else (fs, .error (.cannotOpen output))

/-- An entry of an image: a name that fits its field with a NUL behind it, and
data whose size fits a word. -/
structure Entry where
  name : Bytes
  data : Bytes
  short : name.length ≤ 31
  nonzero : ∀ c ∈ name, c ≠ 0
  small : data.length < 2 ^ 32

def Entry.header (e : Entry) : Bytes := pad e.name ++ bytes32 (UInt32.ofNat e.data.length)

/-- The image format: the count, a header for each entry, then their data. -/
def image (entries : List Entry) : Bytes :=
  bytes32 (UInt32.ofNat entries.length) ++ entries.flatMap Entry.header ++
    entries.flatMap Entry.data

def entryName (path : Path) : Bytes := (asciiBytes (basename path)).take 31

/-- What reading an input gives once the output has been emptied. -/
def contentsDuring (fs : FileSystem) (output path : Path) : Option Bytes :=
  if path = output then some [] else fs.contents path

structure Packs (fs : FileSystem) (output path : Path) (e : Entry) : Prop where
  name : e.name = entryName path
  data : ∃ raw, contentsDuring fs output path = some raw ∧ e.data = normalise raw

theorem pad_length (e : Entry) : (pad e.name).length = 32 := by
  have short := e.short
  rw [pad, List.length_append, List.length_replicate]
  omega

theorem header_length (e : Entry) : e.header.length = 36 := by
  rw [Entry.header, List.length_append, bytes_length, pad_length]

theorem put_put (fs : FileSystem) (path : Path) (bytes more : Bytes) :
    (fs.put path bytes).put path more = fs.put path more := by
  simp [FileSystem.put]

theorem put_self (fs : FileSystem) (path : Path) (bytes : Bytes) :
    (fs.put path bytes).contents path = some bytes := Function.update_self ..

theorem read_ok {fs : FileSystem} {path : Path} {raw : Bytes} (read : readFile fs path = .ok raw) :
    fs.contents path = some raw ∧ Char.ofNat 0 ∉ path := by
  unfold readFile at read
  cases found : fs.contents path with
  | none => simp [found] at read
  | some bytes =>
      simp only [found] at read
      split_ifs at read with opens
      cases read
      exact ⟨rfl, opens.2⟩

theorem put_contents (fs : FileSystem) (output path : Path) :
    (fs.put output []).contents path = contentsDuring fs output path := by
  simp [FileSystem.put, contentsDuring, Function.update_apply]

theorem basename_subset (path : Path) : ∀ c ∈ basename path, c ∈ path := by
  intro c member
  have inside := List.mem_reverse.mp member
  exact List.mem_reverse.mp (List.takeWhile_subset _ inside)

theorem ascii_nonzero {name : Path} (ascii : ∀ c ∈ name, c.toNat < 128)
    (noNul : Char.ofNat 0 ∉ name) : ∀ b ∈ asciiBytes name, b ≠ 0 := by
  intro b member zero
  rcases List.mem_map.mp member with ⟨c, inName, rfl⟩
  have small := ascii c inName
  have value := congrArg UInt8.toNat zero
  rw [UInt8.toNat_ofNat', Nat.mod_eq_of_lt (Nat.lt_trans small (by decide))] at value
  apply noNul
  have same : Char.ofNat c.toNat = Char.ofNat 0 := congrArg Char.ofNat value
  rw [Char.ofNat_toNat] at same
  exact same ▸ inName

theorem bind_ok {Result Next : Type} {first : Except PackError Result}
    {next : Result → Except PackError Next} {last : Next} (through : first >>= next = .ok last) :
    ∃ middle, first = .ok middle ∧ next middle = .ok last := by
  cases first with
  | error e => cases through
  | ok middle => exact ⟨middle, rfl, through⟩

theorem bind_goes {Result Next : Type} {first : Except PackError Result} {middle : Result}
    {next : Result → Except PackError Next} (through : first = .ok middle) :
    first >>= next = next middle := by
  rw [through]
  rfl

theorem pack_word_ok {value : Nat} {bytes : Bytes} (packed : packWord value = .ok bytes) :
    value < 2 ^ 32 ∧ bytes = bytes32 (UInt32.ofNat value) := by
  unfold packWord at packed
  split_ifs at packed with small
  cases packed
  exact ⟨small, rfl⟩

theorem pack_file_ok {fs : FileSystem} {output path : Path} {header blob : Bytes}
    (packed : packFile (fs.put output []) path = .ok (header, blob)) :
    ∃ e, Packs fs output path e ∧ header = e.header ∧ blob = e.data := by
  rcases bind_ok packed with ⟨nameBytes, encoded, packed⟩
  rcases bind_ok packed with ⟨raw, read, packed⟩
  rcases bind_ok packed with ⟨size, sized, packed⟩
  cases packed
  rcases read_ok read with ⟨found, noNul⟩
  rcases pack_word_ok sized with ⟨small, rfl⟩
  unfold encodeAscii at encoded
  split_ifs at encoded with ascii
  cases encoded
  -- a path that could be opened holds no NUL, and then neither does its last part
  have inBasename : Char.ofNat 0 ∉ basename path := fun member =>
    noNul (basename_subset path _ member)
  let e : Entry :=
    { name := entryName path
      data := normalise raw
      short := List.length_take_le _ _
      nonzero := fun b member => ascii_nonzero ascii inBasename b (List.take_subset _ _ member)
      small }
  exact ⟨e, ⟨rfl, raw, put_contents fs output path ▸ found, rfl⟩, rfl, rfl⟩

theorem pack_loop_ok {fs : FileSystem} {output : Path} (files : List Path)
    (headers blobs : List Bytes) {result : List Bytes × List Bytes}
    (packed : packLoop (fs.put output []) files headers blobs = .ok result) :
    ∃ entries, List.Forall₂ (Packs fs output) files entries ∧
      result = (headers ++ entries.map Entry.header, blobs ++ entries.map Entry.data) := by
  induction files generalizing headers blobs with
  | nil =>
      cases packed
      exact ⟨[], .nil, by simp⟩
  | cons path rest ih =>
      rcases bind_ok packed with ⟨⟨header, blob⟩, first, packed⟩
      rcases pack_file_ok first with ⟨e, packs, rfl, rfl⟩
      rcases ih _ _ packed with ⟨entries, others, rfl⟩
      exact ⟨e :: entries, .cons packs others, by simp⟩

/-- What an input must be for its pass through the loop not to raise. -/
structure Packable (fs : FileSystem) (output path : Path) : Prop where
  ascii : ∀ c ∈ basename path, c.toNat < 128
  readable : fs.readable path = true
  noNul : Char.ofNat 0 ∉ path
  contents : ∃ raw, contentsDuring fs output path = some raw ∧ (normalise raw).length < 2 ^ 32

theorem pack_file_goes {fs : FileSystem} {output path : Path} (packable : Packable fs output path) :
    ∃ result, packFile (fs.put output []) path = .ok result := by
  rcases packable.contents with ⟨raw, found, small⟩
  have encoded : encodeAscii (basename path) = .ok (asciiBytes (basename path)) :=
    if_pos packable.ascii
  have opens : (fs.put output []).readable path = true ∧ Char.ofNat 0 ∉ path :=
    ⟨packable.readable, packable.noNul⟩
  have read : readFile (fs.put output []) path = .ok raw := by
    simp only [readFile, put_contents, found, opens, if_true, and_self, not_false_eq_true]
  have sized : packWord (normalise raw).length =
      .ok (bytes32 (UInt32.ofNat (normalise raw).length)) := if_pos small
  exact ⟨_, (bind_goes encoded).trans ((bind_goes read).trans (bind_goes sized))⟩

theorem pack_loop_goes {fs : FileSystem} {output : Path} (files : List Path)
    (packable : ∀ path ∈ files, Packable fs output path) (headers blobs : List Bytes) :
    ∃ result, packLoop (fs.put output []) files headers blobs = .ok result := by
  induction files generalizing headers blobs with
  | nil => exact ⟨_, rfl⟩
  | cons path rest ih =>
      rcases pack_file_goes (packable path List.mem_cons_self) with ⟨⟨header, blob⟩, packed⟩
      have later := ih (fun other member => packable other (List.mem_cons_of_mem path member))
        (headers ++ [header]) (blobs ++ [blob])
      rcases later with ⟨result, looped⟩
      exact ⟨result, (bind_goes packed).trans looped⟩

theorem packable_run {fs : FileSystem} {output : Path} (opens : Opens fs output)
    {files : List Path} (few : files.length < 2 ^ 32)
    (packable : ∀ path ∈ files, Packable fs output path) :
    ∃ after, makeInitrd fs files output = (after, .ok ()) := by
  have counted : packWord files.length = .ok (bytes32 (UInt32.ofNat files.length)) := if_pos few
  rcases pack_loop_goes files packable [] [] with ⟨⟨headers, blobs⟩, looped⟩
  refine ⟨(fs.put output []).put output
    (bytes32 (UInt32.ofNat files.length) ++ headers.flatten ++ blobs.flatten), ?_⟩
  unfold makeInitrd
  rw [if_pos opens, counted]
  dsimp only
  rw [looped]

/-- What has reached the disk when the loop fails: the count, if it has one. -/
def countBytes (files : List Path) : Bytes :=
  if files.length < 2 ^ 32 then bytes32 (UInt32.ofNat files.length) else []

theorem pack_word_fails {value : Nat} {e : PackError} (failed : packWord value = .error e) :
    ¬ value < 2 ^ 32 := by
  intro small
  rw [packWord, if_pos small] at failed
  cases failed

theorem opened_run {fs : FileSystem} {files : List Path} {output : Path}
    (opens : Opens fs output) :
    (∃ e, makeInitrd fs files output = (fs.put output (countBytes files), .error e)) ∨
      files.length < 2 ^ 32 ∧ ∃ entries, List.Forall₂ (Packs fs output) files entries ∧
        makeInitrd fs files output = (fs.put output (image entries), .ok ()) := by
  simp only [makeInitrd, if_pos opens]
  cases counted : packWord files.length with
  | error e =>
      -- `struct.pack` of the count raises before anything is written
      refine .inl ⟨e, ?_⟩
      rw [countBytes, if_neg (pack_word_fails counted)]
  | ok count =>
      rcases pack_word_ok counted with ⟨few, rfl⟩
      cases looped : packLoop (fs.put output []) files [] [] with
      | error e =>
          refine .inl ⟨e, ?_⟩
          dsimp only
          rw [put_put, countBytes, if_pos few]
      | ok result =>
          rcases pack_loop_ok files [] [] looped with ⟨entries, packs, rfl⟩
          refine .inr ⟨few, entries, packs, ?_⟩
          dsimp only
          rw [put_put, image, packs.length_eq]
          rfl

theorem finished_run {fs after : FileSystem} {files : List Path} {output : Path}
    (finished : makeInitrd fs files output = (after, .ok ())) :
    Opens fs output ∧ files.length < 2 ^ 32 ∧
      ∃ entries, List.Forall₂ (Packs fs output) files entries ∧
        after = fs.put output (image entries) := by
  by_cases opens : Opens fs output
  · rcases opened_run opens with ⟨e, failed⟩ | ⟨few, entries, packs, ran⟩
    · cases failed.symm.trans finished
    · cases ran.symm.trans finished
      exact ⟨opens, few, entries, packs, rfl⟩
  · rw [makeInitrd, if_neg opens] at finished
    cases finished

theorem single_run {fs : FileSystem} {output path : Path} {raw : Bytes} (opens : Opens fs output)
    (packable : Packable fs output path) (read : contentsDuring fs output path = some raw) :
    ∃ e : Entry, e.data = normalise raw ∧
      makeInitrd fs [path] output = (fs.put output (image [e]), .ok ()) := by
  have one : [path].length < 2 ^ 32 := by
    rw [List.length_singleton]
    omega
  have only : ∀ other ∈ [path], Packable fs output other :=
    fun other member => List.mem_singleton.mp member ▸ packable
  rcases packable_run opens one only with ⟨after, packed⟩
  rcases finished_run packed with ⟨_, _, entries, packs, rfl⟩
  cases packs with
  | cons first rest =>
      cases rest
      rcases first.data with ⟨raw', found, data⟩
      cases read.symm.trans found
      exact ⟨_, data, packed⟩

/-- What a run leaves on the disk: all as it was where the output cannot be
opened, the bare count after any later failure, and the whole image on success. -/
inductive Leaves (fs : FileSystem) (files : List Path) (output : Path) :
    FileSystem × Except PackError Unit → Prop where
  | unopened (e : PackError) (refused : ¬ Opens fs output) : Leaves fs files output (fs, .error e)
  | counted (e : PackError) (opened : Opens fs output) :
      Leaves fs files output (fs.put output (countBytes files), .error e)
  | packed (opened : Opens fs output) (few : files.length < 2 ^ 32) (entries : List Entry)
      (packs : List.Forall₂ (Packs fs output) files entries) :
      Leaves fs files output (fs.put output (image entries), .ok ())

theorem make_initrd_leaves (fs : FileSystem) (files : List Path) (output : Path) :
    Leaves fs files output (makeInitrd fs files output) := by
  by_cases opens : Opens fs output
  · rcases opened_run opens with ⟨e, ran⟩ | ⟨few, entries, packs, ran⟩
    · rw [ran]
      exact .counted e opens
    · rw [ran]
      exact .packed opens few entries packs
  · rw [makeInitrd, if_neg opens]
    exact .unopened _ opens

def staleImage : FileSystem where
  contents := fun path => if path = ['o'] then some [9] else none
  readable := fun _ => true
  writable := fun _ => true

/-- An input that does not exist costs the old image. -/
theorem missing_input_destroys_output :
    ¬ ∀ (fs : FileSystem) (files : List Path) (output : Path) (after : FileSystem)
      (e : PackError), makeInitrd fs files output = (after, .error e) →
        after.contents output = fs.contents output := by
  intro always
  have opens : Opens staleImage ['o'] := ⟨rfl, by simp⟩
  rcases @opened_run _ [['m']] _ opens with ⟨e, ran⟩ | ⟨_, entries, packs, _⟩
  · have kept := always _ _ _ _ _ ran
    rw [put_self] at kept
    have sizes := congrArg (Option.map List.length) kept
    simp [countBytes, staleImage, bytes_length] at sizes
  · cases packs with
    | cons first rest =>
        rcases first.data with ⟨raw, found, _⟩
        simp [contentsDuring, staleImage] at found

end NexusOS.ImagePacker
