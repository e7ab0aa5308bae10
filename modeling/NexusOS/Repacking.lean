import NexusOS.DiskImage
import NexusOS.LineEndings

/-!
Packing what the kernel finds in an image. `blobs` reads the data back out of the
bytes of an image; the second run gets, under the same names and in the same
order, files that hold what `initrd_get_file` found. It writes the same image
exactly when no input has a CR that the first run left in front of an LF.
-/

namespace NexusOS.Repacking

open ByteMemory ImagePacker DiskImage LineEndings

def leadingWord : Bytes → UInt32
  | b₀ :: b₁ :: b₂ :: b₃ :: _ => word b₀ b₁ b₂ b₃
  | _ => 0

def headerSizes : Nat → Bytes → List Nat
  | 0, _ => []
  | n + 1, headers =>
      (leadingWord (headers.drop 32)).toNat :: headerSizes n (headers.drop 36)

def cut : List Nat → Bytes → List Bytes
  | [], _ => []
  | size :: rest, data => data.take size :: cut rest (data.drop size)

/-- The data of the files of an image, by its count and its sizes. -/
def blobs (image : Bytes) : List Bytes :=
  cut (headerSizes (leadingWord image).toNat (image.drop 4))
    (image.drop (4 + 36 * (leadingWord image).toNat))

def bytesAt (m : Memory) (a : UInt32) : Nat → Bytes
  | 0 => []
  | n + 1 => m a :: bytesAt m (a + 1) n

/-- The contents that a look-up returns. -/
def foundBytes (m : Memory) (base size name : UInt32) : Bytes :=
  bytesAt m (initrdGetFile (initrdInit m base) m name size).pointer
    (initrdGetFile (initrdInit m base) m name size).size.toNat

/-- An input of the second run, for an input of the first. -/
structure CopyOf (fs : FileSystem) (output : Path) (found : Path → Bytes) (path copy : Path) :
    Prop where
  name : basename copy = basename path
  contents : fs.contents copy = some (found path)
  readable : fs.readable copy = true
  noNul : Char.ofNat 0 ∉ copy
  other : copy ≠ output

/-- Every second run writes the image `bytes` again, and no file in it has a CR LF. -/
structure Idempotent (files : List Path) (bytes : Bytes) (found : Path → Bytes) : Prop where
  free : ∀ blob ∈ blobs bytes, ¬ crlf <:+: blob
  again : ∀ (fs : FileSystem) (copies : List Path) (output : Path), Opens fs output →
    List.Forall₂ (CopyOf fs output found) files copies →
      ∃ written, makeInitrd fs copies output = (written, .ok ()) ∧
        written.contents output = some bytes

theorem leading_bytes (w : UInt32) (rest : Bytes) : leadingWord (bytes32 w ++ rest) = w :=
  word_bytes w

theorem header_size (e : Entry) (rest : Bytes) :
    (leadingWord ((e.header ++ rest).drop 32)).toNat = e.data.length := by
  rw [Entry.header, List.append_assoc, ← pad_length e, List.drop_left, leading_bytes]
  exact (UInt32.toNat_ofNat').trans (Nat.mod_eq_of_lt e.small)

theorem header_sizes_exact (entries : List Entry) (rest : Bytes) :
    headerSizes entries.length (entries.flatMap Entry.header ++ rest) =
      entries.map fun e => e.data.length := by
  induction entries with
  | nil => rfl
  | cons e entries ih =>
      rw [List.flatMap_cons, List.append_assoc, List.length_cons, headerSizes, header_size,
        ← header_length e, List.drop_left, ih]
      rfl

theorem cut_exact (entries : List Entry) :
    cut (entries.map fun e => e.data.length) (entries.flatMap Entry.data) =
      entries.map Entry.data := by
  induction entries with
  | nil => rfl
  | cons e entries ih =>
      rw [List.map_cons, List.flatMap_cons, cut, List.take_left, List.drop_left, ih]
      rfl

/-- Reading an image back gives the data that was packed. -/
theorem blobs_image (entries : List Entry) (few : entries.length < 2 ^ 32) :
    blobs (image entries) = entries.map Entry.data := by
  have count : (UInt32.ofNat entries.length).toNat = entries.length :=
    (UInt32.toNat_ofNat').trans (Nat.mod_eq_of_lt few)
  have headers : (image entries).drop 4 =
      entries.flatMap Entry.header ++ entries.flatMap Entry.data := by
    rw [image, List.append_assoc, ← bytes_length (UInt32.ofNat entries.length), List.drop_left]
  have data : (image entries).drop (4 + 36 * entries.length) = entries.flatMap Entry.data := by
    rw [← List.drop_drop, headers, ← headers_length, List.drop_left]
  have leading : leadingWord (image entries) = UInt32.ofNat entries.length := by
    rw [image, List.append_assoc, leading_bytes]
  rw [blobs, leading, count, data, headers, header_sizes_exact, cut_exact]

theorem bytes_at_holds {m : Memory} {a : UInt32} {data : Bytes} (holds : Holds m a data) :
    bytesAt m a data.length = data := by
  induction data generalizing a with
  | nil => rfl
  | cons b rest ih => rw [List.length_cons, bytesAt, holds.1, ih holds.2]

theorem ascii_injective {left right : Path} (ascii : ∀ c ∈ left, c.toNat < 128)
    (asciiRight : ∀ c ∈ right, c.toNat < 128) (same : asciiBytes left = asciiBytes right) :
    left = right := by
  induction left generalizing right with
  | nil =>
      cases right with
      | nil => rfl
      | cons d right => cases same
  | cons c left ih =>
      cases right with
      | nil => cases same
      | cons d right =>
          have first : UInt8.ofNat c.toNat = UInt8.ofNat d.toNat := (List.cons.inj same).1
          have small := ascii c List.mem_cons_self
          have smallRight := asciiRight d List.mem_cons_self
          have value := congrArg UInt8.toNat first
          rw [UInt8.toNat_ofNat', UInt8.toNat_ofNat', Nat.mod_eq_of_lt (by omega),
            Nat.mod_eq_of_lt (by omega)] at value
          rw [Char.toNat_inj.mp value, ih (fun b member => ascii b (List.mem_cons_of_mem c member))
            (fun b member => asciiRight b (List.mem_cons_of_mem d member)) (List.cons.inj same).2]

/-- Basenames of 1 to 31 ASCII characters, all different. -/
structure Named (files : List Path) : Prop where
  distinct : (files.map basename).Nodup
  ascii : ∀ path ∈ files, ∀ c ∈ basename path, c.toNat < 128
  nonempty : ∀ path ∈ files, basename path ≠ []
  short : ∀ path ∈ files, (basename path).length ≤ 31

theorem named_whole {files : List Path} (named : Named files) {path : Path}
    (member : path ∈ files) : entryName path = asciiBytes (basename path) := by
  have short := named.short path member
  rw [entryName, List.take_of_length_le]
  rwa [asciiBytes, List.length_map]

theorem named_distinct {files : List Path} (named : Named files) :
    (files.map entryName).Nodup := by
  apply (List.nodup_map_iff_inj_on named.distinct.of_map).mpr
  intro path member other otherMember same
  rw [named_whole named member, named_whole named otherMember] at same
  apply List.inj_on_of_nodup_map named.distinct member otherMember
  exact ascii_injective (named.ascii path member) (named.ascii other otherMember) same

/-- What the first run packed for `path`, and what the kernel finds there. -/
structure Stored (fs : FileSystem) (output : Path) (found : Path → Bytes) (path : Path)
    (e : Entry) : Prop where
  packs : Packs fs output path e
  found : found path = e.data

theorem found_stored {fs written : FileSystem} {files : List Path} {output : Path} {m : Memory}
    {base size : UInt32} {nameOf : Path → UInt32} {entries : List Entry}
    (packed : makeInitrd fs files output = (written, .ok ()))
    (packs : List.Forall₂ (Packs fs output) files entries)
    (there : written.contents output = some (image entries)) (named : Named files)
    (loaded : Loaded m base (image entries))
    (names : ∀ path ∈ files, NameAt m (nameOf path) (asciiBytes (basename path))) :
    List.Forall₂ (Stored fs output fun path => foundBytes m base size (nameOf path)) files
      entries := by
  have members := (List.forall₂_and_left files entries).mpr ⟨fun _ member => member, packs⟩
  refine members.imp ?_
  rintro path e ⟨member, own⟩
  have nameAt := names path member
  rcases stored_found packed there (named_distinct named) loaded nameAt size member
    (named_whole named member).symm with ⟨raw, read, _, length, holds⟩
  rcases own.data with ⟨raw', read', data⟩
  cases read.symm.trans read'
  refine ⟨own, ?_⟩
  change bytesAt m _ _ = _
  rw [data, length]
  exact bytes_at_holds holds

section Copies
variable {fs fs₂ : FileSystem} {output output₂ : Path} {found : Path → Bytes}
  {files copies : List Path} {entries entries₂ : List Entry}

-- An input whose data the treatment leaves alone is packed again as it was.
theorem copy_packs {path copy : Path} {e e₂ : Entry} (stored : Stored fs output found path e)
    (fixed : normalise e.data = e.data) (copied : CopyOf fs₂ output₂ found path copy)
    (packs : Packs fs₂ output₂ copy e₂) : e₂ = e := by
  have name : e₂.name = e.name := by
    rw [packs.name, stored.packs.name, entryName, entryName, copied.name]
  have data : e₂.data = e.data := by
    rcases packs.data with ⟨raw, read, data⟩
    rw [contentsDuring, if_neg copied.other, copied.contents] at read
    cases read
    rw [data, stored.found, fixed]
  cases e
  cases e₂
  cases name
  cases data
  rfl

theorem copies_pack (stored : List.Forall₂ (Stored fs output found) files entries)
    (fixed : ∀ e ∈ entries, normalise e.data = e.data)
    (copied : List.Forall₂ (CopyOf fs₂ output₂ found) files copies)
    (packs : List.Forall₂ (Packs fs₂ output₂) copies entries₂) : entries₂ = entries := by
  induction stored generalizing copies entries₂ with
  | nil =>
      cases copied
      cases packs
      rfl
  | cons first rest ih =>
      cases copied with
      | cons copiedFirst copiedRest =>
          cases packs with
          | cons packsFirst packsRest =>
              rw [copy_packs first (fixed _ List.mem_cons_self) copiedFirst packsFirst,
                ih (fun e member => fixed e (List.mem_cons_of_mem _ member)) copiedRest packsRest]

theorem copies_packable (stored : List.Forall₂ (Stored fs output found) files entries)
    (fixed : ∀ e ∈ entries, normalise e.data = e.data)
    (ascii : ∀ path ∈ files, ∀ c ∈ basename path, c.toNat < 128)
    (copied : List.Forall₂ (CopyOf fs₂ output₂ found) files copies) :
    ∀ copy ∈ copies, Packable fs₂ output₂ copy := by
  induction stored generalizing copies with
  | nil =>
      cases copied
      exact fun copy member => absurd member List.not_mem_nil
  | cons first rest ih =>
      rename_i path e files entries
      cases copied with
      | cons copiedFirst copiedRest =>
          intro copy member
          rcases List.mem_cons.mp member with rfl | later
          · have small : (normalise (found path)).length < 2 ^ 32 := by
              rw [first.found, fixed e List.mem_cons_self]
              exact e.small
            refine ⟨?_, copiedFirst.readable, copiedFirst.noNul, found path, ?_, small⟩
            · rw [copiedFirst.name]
              exact ascii path List.mem_cons_self
            · rw [contentsDuring, if_neg copiedFirst.other]
              exact copiedFirst.contents
          · exact ih (fun e member => fixed e (List.mem_cons_of_mem _ member))
              (fun path member => ascii path (List.mem_cons_of_mem _ member)) copiedRest copy later

end Copies

section Run
variable {fs written : FileSystem} {files : List Path} {output : Path} {bytes : Bytes}
  {m : Memory} {base : UInt32} {nameOf : Path → UInt32}

theorem stored_free {found : Path → Bytes} {entries : List Entry}
    (stored : List.Forall₂ (Stored fs output found) files entries)
    (clean : ∀ path ∈ files, ∀ raw, contentsDuring fs output path = some raw → Clean raw) :
    ∀ e ∈ entries, ¬ crlf <:+: e.data ∧ normalise e.data = e.data := by
  intro e member
  rcases input_of_entry (stored.imp fun _ _ own => own.packs) member with ⟨path, inside, packs⟩
  rcases packs.data with ⟨raw, read, data⟩
  have free : ¬ crlf <:+: e.data := by
    rw [data, normalise_crlf_iff]
    exact not_not_intro (clean path inside raw read)
  refine ⟨free, normalise_fixed free ?_⟩
  rw [data]
  exact normalise_last raw

/-- Packing is idempotent exactly when no input holds CR CR LF and none ends in CR. -/
theorem repacking_idempotent_iff (packed : makeInitrd fs files output = (written, .ok ()))
    (there : written.contents output = some bytes) (named : Named files)
    (loaded : Loaded m base bytes)
    (names : ∀ path ∈ files, NameAt m (nameOf path) (asciiBytes (basename path)))
    (size : UInt32) :
    Idempotent files bytes (fun path => foundBytes m base size (nameOf path)) ↔
      ∀ path ∈ files, ∀ raw, contentsDuring fs output path = some raw → Clean raw := by
  rcases finished_run packed with ⟨_, few, entries, packs, rfl⟩
  rw [put_self] at there
  cases there
  have read := blobs_image entries (packs.length_eq ▸ few)
  constructor
  · intro idempotent path member raw found
    rcases entry_of_input packs (named_distinct named) member with ⟨before, e, after, rfl, own, _⟩
    rcases own.data with ⟨raw', found', data⟩
    cases found.symm.trans found'
    have free := idempotent.free e.data (read ▸ List.mem_map_of_mem (by simp))
    rw [data, normalise_crlf_iff] at free
    exact not_not.mp free
  · intro clean
    -- what was packed is left alone by a second treatment
    have stored := @found_stored _ _ _ _ _ _ size _ _ packed packs (put_self ..) named loaded names
    have treated := stored_free stored clean
    have fixed : ∀ e ∈ entries, normalise e.data = e.data := fun e member => (treated e member).2
    constructor
    · intro blob member
      rw [read] at member
      rcases List.mem_map.mp member with ⟨e, inside, rfl⟩
      exact (treated e inside).1
    · intro fs₂ copies output₂ opens copied
      have fewCopies : copies.length < 2 ^ 32 := copied.length_eq ▸ few
      rcases packable_run opens fewCopies (copies_packable stored fixed named.ascii copied) with
        ⟨written₂, packed₂⟩
      rcases finished_run packed₂ with ⟨_, _, entries₂, packs₂, rfl⟩
      refine ⟨_, packed₂, ?_⟩
      rw [put_self, copies_pack stored fixed copied packs₂]

end Run

def fileOf (raw : Bytes) : FileSystem where
  contents := fun path => if path = ['f'] then some raw else none
  readable := fun _ => true
  writable := fun _ => true

theorem letter_named : Named [['f']] :=
  ⟨List.nodup_singleton _, by simp [basename], by simp [basename], by simp [basename]⟩

theorem file_run (raw : Bytes) (small : (normalise raw).length < 2 ^ 30) :
    ∃ written bytes m base name, makeInitrd (fileOf raw) [['f']] ['o'] = (written, .ok ()) ∧
      written.contents ['o'] = some bytes ∧ Loaded m base bytes ∧
      (∀ path ∈ [['f']], NameAt m name (asciiBytes (basename path))) ∧
      blobs bytes = [normalise raw] := by
  have contents : contentsDuring (fileOf raw) ['o'] ['f'] = some raw := rfl
  have packable : Packable (fileOf raw) ['o'] ['f'] :=
    ⟨by simp [basename], rfl, by simp, raw, contents, by omega⟩
  have opens : Opens (fileOf raw) ['o'] := ⟨rfl, by simp⟩
  rcases single_run opens packable contents with ⟨e, data, packed⟩
  have size : (image [e]).length = 40 + (normalise raw).length := by
    rw [image_length, List.flatMap_singleton, data]
    rfl
  rcases placed (image [e]) [0x66] (by simp) (by rw [size, List.length_singleton]; omega) with
    ⟨m, base, name, loaded, nameAt⟩
  have named : ∀ path ∈ [['f']], NameAt m name (asciiBytes (basename path)) := by
    intro path member
    rw [List.mem_singleton.mp member]
    exact nameAt
  refine ⟨_, _, m, base, name, packed, put_self _ _ _, loaded, named, ?_⟩
  rw [blobs_image [e] (by simp), List.map_singleton, data]

/-- A DOS file in a directory and one that is only a line end. -/
def dosFiles : FileSystem where
  contents := fun path =>
    if path = "d/f".toList then some [0x61, 0x0D, 0x0A, 0x62]
    else if path = ['g'] then some [0x0D, 0x0A] else none
  readable := fun _ => true
  writable := fun _ => true

def dosPaths : List Path := ["d/f".toList, ['g']]

theorem dos_named : Named dosPaths := ⟨by decide, by decide, by decide, by decide⟩

theorem two_placed (bytes : Bytes) (small : bytes.length < 2 ^ 31) :
    ∃ m base, ∃ nameOf : Path → UInt32, Loaded m base bytes ∧
      ∀ path ∈ dosPaths, NameAt m (nameOf path) (asciiBytes (basename path)) := by
  have room : (bytes ++ ([0x66, 0] ++ [0x67, 0])).length + ([] : Bytes).length ≤ 2 ^ 32 := by
    simp only [List.length_append, List.length_cons, List.length_nil]
    omega
  have stored := @holds_store (fun _ => 0) 1 [] (bytes ++ ([0x66, 0] ++ [0x67, 0])) trivial room
  rw [List.append_nil, holds_append, holds_append] at stored
  rcases stored with ⟨loaded, first, second⟩
  have one : (1 : UInt32).toNat = 1 := rfl
  have apart (k : Nat) (below : k ≤ 2) :
      1 + UInt32.ofNat bytes.length + UInt32.ofNat k ≠ 0 := fun zero => by
    have value := congrArg UInt32.toNat zero
    rw [UInt32.add_assoc, ← UInt32.ofNat_add, address_exact 1 _ (by omega), one] at value
    change _ = 0 at value
    omega
  have start := apart 0 (by decide)
  rw [first_address] at start
  refine ⟨_, 1, fun path => if path = ['g'] then 1 + UInt32.ofNat bytes.length + UInt32.ofNat 2
    else 1 + UInt32.ofNat bytes.length, ⟨by decide, loaded, by omega⟩, fun path member => ?_⟩
  rcases List.mem_cons.mp member with rfl | last
  · exact ⟨start, by decide +kernel, first⟩
  · rw [List.mem_singleton.mp last]
    exact ⟨apart 2 (Nat.le_refl 2), by decide +kernel, second⟩

theorem dos_files_repacked : ∃ written bytes m base, ∃ nameOf : Path → UInt32,
    makeInitrd dosFiles dosPaths ['o'] = (written, .ok ()) ∧
    written.contents ['o'] = some bytes ∧ Named dosPaths ∧ Loaded m base bytes ∧
    (∀ path ∈ dosPaths, NameAt m (nameOf path) (asciiBytes (basename path))) ∧
    (Idempotent dosPaths bytes (fun path => foundBytes m base 0 (nameOf path)) ↔
      ∀ path ∈ dosPaths, ∀ raw,
        contentsDuring dosFiles ['o'] path = some raw → Clean raw) := by
  obtain ⟨written, bytes, packed, there, size⟩ : ∃ written bytes,
      makeInitrd dosFiles dosPaths ['o'] = (written, .ok ()) ∧
      written.contents ['o'] = some bytes ∧ bytes.length = 81 := ⟨_, _, rfl, rfl, rfl⟩
  rcases two_placed bytes (by rw [size]; decide) with ⟨m, base, nameOf, loaded, names⟩
  exact ⟨written, bytes, m, base, nameOf, packed, there, dos_named, loaded, names,
    repacking_idempotent_iff packed there dos_named loaded names 0⟩

/-- The file CR CR LF is packed as CR LF. -/
theorem double_return_kept :
    ¬ ∀ (fs written : FileSystem) (files : List Path) (output : Path) (bytes : Bytes)
      (m : Memory) (base size : UInt32) (nameOf : Path → UInt32),
      makeInitrd fs files output = (written, .ok ()) → written.contents output = some bytes →
      Named files → Loaded m base bytes →
      (∀ path ∈ files, NameAt m (nameOf path) (asciiBytes (basename path))) →
      Idempotent files bytes (fun path => foundBytes m base size (nameOf path)) := by
  intro always
  rcases file_run [0x0D, 0x0D, 0x0A] (by decide) with
    ⟨written, bytes, m, base, name, packed, there, loaded, named, read⟩
  have idempotent := always _ _ _ _ _ m base 0 (fun _ => name) packed there letter_named loaded
    named
  have free := idempotent.free [0x0D, 0x0A] (read ▸ List.mem_singleton.mpr rfl)
  exact free (List.infix_refl _)

end NexusOS.Repacking
