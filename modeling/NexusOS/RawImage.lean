import NexusOS.HeaderWalk

/-!
`initrd_get_file` on every image that keeps the layout, written by `make_initrd`
or not: name fields need no NUL, names may repeat, sizes are any words, as long
as the headers and the data end below 2^32. The walk over the headers is the
search for the first field that agrees with the name.
-/

namespace NexusOS.RawImage

open ByteMemory StringOrder ImagePacker DiskImage HeaderWalk

structure Header where
  field : Bytes
  size : UInt32
  wide : field.length = 32

def Header.bytes (h : Header) : Bytes := h.field ++ bytes32 h.size

def dataSize (headers : List Header) : Nat := (headers.map fun h => h.size.toNat).sum

/-- Bytes from the image's start to its end. -/
def extent (headers : List Header) : Nat := 4 + 36 * headers.length + dataSize headers

structure WellFormed (m : Memory) (base : UInt32) (headers : List Header) : Prop where
  nonzero : base ≠ 0
  holds : Holds m base
    (bytes32 (UInt32.ofNat headers.length) ++ headers.flatMap Header.bytes)
  fits : base.toNat + extent headers < 2 ^ 32

/-- Up to the field's first NUL, or in all 32 bytes. -/
def Agrees (field query : Bytes) : Prop := field.takeWhile (· ≠ 0) = query.take 32

/-- The look-up finds the first header that agrees, reads no byte outside the
image or behind the name's NUL, uses no byte but those it reads, and adds and
multiplies without wrapping. -/
structure SearchExact (m : Memory) (base : UInt32) (headers : List Header) (name : UInt32)
    (query : Bytes) (size : UInt32) : Prop where
  found : ∀ before h after, headers = before ++ h :: after →
    (∀ b ∈ before, ¬ Agrees b.field query) → Agrees h.field query →
      (initrdGetFile (initrdInit m base) m name size).pointer.toNat =
          base.toNat + (4 + 36 * headers.length + dataSize before) ∧
        (initrdGetFile (initrdInit m base) m name size).size = h.size
  missed : (∀ h ∈ headers, ¬ Agrees h.field query) →
    initrdGetFile (initrdInit m base) m name size = ⟨0, size⟩
  imageReads : ∀ a ∈ initrdGetFileAccesses (initrdInit m base) m name, a.origin = .image →
    base.toNat ≤ a.address.toNat ∧ a.address.toNat < base.toNat + extent headers
  nameReads : ∀ a ∈ initrdGetFileAccesses (initrdInit m base) m name, a.origin = .name →
    ∃ i ≤ query.length, a.address = name + UInt32.ofNat i
  noOthers : ∀ other : Memory,
    (∀ a ∈ initrdGetFileAccesses (initrdInit m base) m name, other a.address = m a.address) →
      initrdGetFile (initrdInit m base) other name size =
        initrdGetFile (initrdInit m base) m name size
  sums : ∀ s ∈ initrdGetFileAdditions (initrdInit m base) m name, s.Exact
  product : (initrdInit m base).nFiles.toNat * 36 < 2 ^ 32

theorem header_bytes_length (h : Header) : h.bytes.length = 36 := by
  rw [Header.bytes, List.length_append, h.wide, bytes_length]

theorem header_run_length (headers : List Header) :
    (headers.flatMap Header.bytes).length = 36 * headers.length := by
  induction headers with
  | nil => rfl
  | cons h rest ih =>
      rw [List.flatMap_cons, List.length_append, ih, header_bytes_length, List.length_cons]
      omega

theorem data_size_append (headers more : List Header) :
    dataSize (headers ++ more) = dataSize headers + dataSize more := by
  rw [dataSize, List.map_append, List.sum_append]
  rfl

section Image
variable {m : Memory} {base : UInt32} {headers : List Header}

theorem count_exact (formed : WellFormed m base headers) :
    (load32 m base).toNat = headers.length := by
  have fits := formed.fits
  have count := ((holds_append m base _ _).mp formed.holds).1
  rw [load_holds count, UInt32.toNat_ofNat', Nat.mod_eq_of_lt]
  rw [extent] at fits
  omega

-- Header number `before.length`, where the walk looks for it.
theorem header_here {before : List Header} {h : Header} {after : List Header}
    (formed : WellFormed m base (before ++ h :: after)) :
    Holds m (headerAt (base + 4) before.length) h.bytes := by
  have run := ((holds_append m base _ _).mp formed.holds).2
  rw [bytes_length, List.flatMap_append, holds_append, header_run_length, List.flatMap_cons,
    holds_append] at run
  exact run.2.1

theorem size_here {before : List Header} {h : Header} {after : List Header}
    (formed : WellFormed m base (before ++ h :: after)) :
    sizeAt m (base + 4) before.length = h.size := by
  have parts := (holds_append m _ h.field _).mp (header_here formed)
  rw [h.wide] at parts
  exact load_holds parts.2

theorem match_here {before : List Header} {h : Header} {after : List Header}
    (formed : WellFormed m base (before ++ h :: after)) {name : UInt32} {query : Bytes}
    (nameAt : NameAt m name query) :
    Matches m (base + 4) name before.length ↔ Agrees h.field query := by
  have parts := (holds_append m _ h.field _).mp (header_here formed)
  have compared := strncmp_agrees m _ name h.field query nameAt.nonzero parts.1 nameAt.holds
  rw [h.wide] at compared
  exact compared

theorem sizes_here (before : List Header) {after : List Header}
    (formed : WellFormed m base (before ++ after)) :
    sizesBefore m (base + 4) before.length = dataSize before := by
  induction before using List.reverseRecOn generalizing after with
  | nil => rfl
  | append_singleton before h ih =>
      have formed' : WellFormed m base (before ++ h :: after) := by
        rw [List.append_cons]
        exact formed
      rw [List.length_append, List.length_singleton, sizesBefore, ih formed', size_here formed',
        data_size_append]
      rfl

theorem at_index {k : Nat} (inside : k < headers.length) :
    ∃ before h after, headers = before ++ h :: after ∧ before.length = k :=
  ⟨headers.take k, headers[k], headers.drop (k + 1),
    by rw [← List.drop_eq_getElem_cons inside, List.take_append_drop],
    List.length_take_of_le (Nat.le_of_lt inside)⟩

theorem sizes_fit (formed : WellFormed m base headers) {k : Nat} (inside : k ≤ headers.length) :
    4 + 36 * headers.length + sizesBefore m (base + 4) k ≤ extent headers := by
  rw [← List.take_append_drop k headers] at formed
  have sizes := sizes_here _ formed
  have split := data_size_append (headers.take k) (headers.drop k)
  rw [List.length_take_of_le inside] at sizes
  rw [List.take_append_drop] at split
  rw [extent]
  omega

variable (formed : WellFormed m base headers) {name : UInt32} {query : Bytes}
  (nameAt : NameAt m name query)
include formed

theorem additions_exact : ∀ s ∈ initrdGetFileAdditions (initrdInit m base) m name, s.Exact := by
  have fits := formed.fits
  have count := count_exact formed
  have size : extent headers = 4 + 36 * headers.length + dataSize headers := rfl
  intro s member
  unfold initrdGetFileAdditions at member
  split at member
  · exact absurd member List.not_mem_nil
  rcases List.mem_cons.mp member with rfl | member
  · change base.toNat + 4 < 2 ^ 32
    omega
  rcases List.mem_cons.mp member with rfl | member
  · have start : (base + 4).toNat = base.toNat + 4 := address_exact base 4 (by omega)
    have product : (load32 m base * 36).toNat = headers.length * 36 := by
      rw [UInt32.toNat_mul, count]
      change headers.length * 36 % 2 ^ 32 = _
      exact Nat.mod_eq_of_lt (by omega)
    change (base + 4).toNat + (load32 m base * 36).toNat < 2 ^ 32
    rw [start, product]
    omega
  · rcases search_additions m name _ (base + 4) _ s member with ⟨k, below, here⟩
    change k < (load32 m base).toNat at below
    rw [count] at below
    have header : (headerAt (base + 4) k).toNat = base.toNat + 4 + 36 * k := by
      have address := header_address base k 0 (by omega)
      rwa [show UInt32.ofNat 0 = 0 from rfl, UInt32.add_zero] at address
    rcases here with rfl | rfl | rfl
    · change (headerAt (base + 4) k).toNat + 32 < 2 ^ 32
      omega
    · change (headerAt (base + 4) k).toNat + 36 < 2 ^ 32
      omega
    · have room := sizes_fit formed (Nat.succ_le_of_lt below)
      rw [sizesBefore] at room
      have address := data_address base (load32 m base) (sizesBefore m (base + 4) k) (by omega)
      change (base + 4 + load32 m base * 36 + UInt32.ofNat (sizesBefore m (base + 4) k)).toNat +
        (sizeAt m (base + 4) k).toNat < 2 ^ 32
      omega

include nameAt

theorem first_agreeing (size : UInt32) {before : List Header} {h : Header} {after : List Header}
    (split : headers = before ++ h :: after) (others : ∀ b ∈ before, ¬ Agrees b.field query)
    (agrees : Agrees h.field query) :
    (initrdGetFile (initrdInit m base) m name size).pointer.toNat =
        base.toNat + (4 + 36 * headers.length + dataSize before) ∧
      (initrdGetFile (initrdInit m base) m name size).size = h.size := by
  subst split
  have fits := formed.fits
  have count := count_exact formed
  have inside : before.length < (before ++ h :: after).length := by
    rw [List.length_append, List.length_cons]
    omega
  have matched := (match_here formed nameAt).mpr agrees
  -- a header before this one is one of the others
  have passed : Unmatched m (base + 4) name before.length := by
    intro j below found
    rcases at_index below with ⟨first, b, rest, rfl, rfl⟩
    have formed' : WellFormed m base (first ++ b :: (rest ++ h :: after)) := by
      simpa using formed
    exact others b (by simp) ((match_here formed' nameAt).mp found)
  have reached : Reached m base name before.length :=
    ⟨formed.nonzero, nameAt.nonNull, count.symm ▸ inside, passed⟩
  rcases get_file_result m base name size with ⟨k, other, found, result⟩ | ⟨missed, _⟩
  · have same : k = before.length := by
      rcases Nat.lt_trichotomy k before.length with earlier | same | later
      · exact absurd found (passed k earlier)
      · exact same
      · exact absurd matched (other.unmatched _ later)
    subst same
    have sizes := sizes_here before formed
    have room := sizes_fit formed (Nat.le_of_lt inside)
    rw [result, size_here formed, data_address _ _ _ (by omega), count, sizes]
    exact ⟨by omega, rfl⟩
  · exact absurd matched (missed _ reached)

theorem none_agreeing (size : UInt32) (absent : ∀ h ∈ headers, ¬ Agrees h.field query) :
    initrdGetFile (initrdInit m base) m name size = ⟨0, size⟩ := by
  rcases get_file_result m base name size with ⟨k, reached, found, _⟩ | ⟨_, result⟩
  · have inside := reached.counted
    rw [count_exact formed] at inside
    rcases at_index inside with ⟨before, h, after, rfl, rfl⟩
    exact absurd ((match_here formed nameAt).mp found) (absent h (by simp))
  · exact result

theorem search_exact (size : UInt32) : SearchExact m base headers name query size := by
  have fits := formed.fits
  have count := count_exact formed
  have reach : extent headers = 4 + 36 * headers.length + dataSize headers := rfl
  constructor
  · exact fun before h after split others agrees =>
      first_agreeing formed nameAt size split others agrees
  · exact none_agreeing formed nameAt size
  · intro a member image
    rcases image_reads_reached a member with ⟨k, reached, within⟩
    rcases within image with ⟨i, below, address⟩
    have inside := reached.counted
    rw [count] at inside
    rw [address, header_address _ _ _ (by omega)]
    omega
  · intro a member through
    rcases reads_reached a member with ⟨k, _, size | field⟩
    · have image := (word_accesses_within _ a size).1
      exact nomatch image.symm.trans through
    · have string : StringAt m name query := ⟨nameAt.nonzero, nameAt.holds⟩
      rcases strncmp_name_within m 32 _ name string a field through with ⟨i, below, address⟩
      exact ⟨i, Nat.le_of_lt_succ below, address⟩
  · exact fun other same => get_file_local _ name size same
  · exact additions_exact formed
  · change (load32 m base).toNat * 36 < 2 ^ 32
    omega

end Image

/-- The name ends early, with other bytes behind its NUL. -/
def shortHeader : Header := ⟨0x61 :: 0 :: List.replicate 30 0xFF, 3, rfl⟩

/-- A name field with no NUL in it. -/
def fullHeader : Header := ⟨List.replicate 32 0x61, 5, rfl⟩

theorem full_field_searched : ∃ m base name, WellFormed m base [shortHeader, fullHeader] ∧
    NameAt m name (List.replicate 40 0x61) ∧
    SearchExact m base [shortHeader, fullHeader] name (List.replicate 40 0x61) 7 ∧
    (initrdGetFile (initrdInit m base) m name 7).pointer.toNat = base.toNat + 79 := by
  have size : (bytes32 (UInt32.ofNat 2) ++
      [shortHeader, fullHeader].flatMap Header.bytes).length = 76 := by
    rw [List.length_append, bytes_length, header_run_length]
    rfl
  -- the byte behind the image is not part of it
  rcases placed ((bytes32 (UInt32.ofNat 2) ++ [shortHeader, fullHeader].flatMap Header.bytes) ++
      List.replicate 9 0x0A) (List.replicate 40 0x61) (by simp)
      (by rw [List.length_append, size]; decide) with ⟨m, base, name, loaded, nameAt⟩
  have fits := loaded.fits
  rw [List.length_append, size, List.length_replicate] at fits
  have formed : WellFormed m base [shortHeader, fullHeader] := by
    refine ⟨loaded.nonzero, ((holds_append m base _ _).mp loaded.holds).1, ?_⟩
    change base.toNat + 84 < 2 ^ 32
    omega
  have searched := search_exact formed nameAt 7
  have differs : ¬ Agrees shortHeader.field (List.replicate 40 0x61) := by
    rw [Agrees]
    decide
  have agrees : Agrees fullHeader.field (List.replicate 40 0x61) := by
    rw [Agrees]
    decide
  have second : [shortHeader, fullHeader] = [shortHeader] ++ fullHeader :: [] := rfl
  refine ⟨m, base, name, formed, nameAt, searched, ?_⟩
  exact (searched.found _ _ _ second (by simpa using differs) agrees).1

end NexusOS.RawImage
