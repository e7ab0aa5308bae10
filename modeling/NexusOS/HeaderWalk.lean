import NexusOS.Comparers

/-!
What a look-up in the RAM disk reads. The size of the module that holds the disk
is known to `kernel_main`, which passes only its start on; the count and the
sizes that the walk over the headers relies on come from the image itself. The
accesses and additions of the code are listed beside the functions of
`DiskImage`, for any memory whatever.
-/

namespace NexusOS.HeaderWalk

open ByteMemory StringOrder DiskImage Comparers

/-- Which pointer a byte is read through. -/
inductive Origin where
  | image
  | name
  deriving DecidableEq

structure Access where
  origin : Origin
  address : UInt32

def wordAccesses (a : UInt32) : List Access :=
  [⟨.image, a⟩, ⟨.image, a + 1⟩, ⟨.image, a + 2⟩, ⟨.image, a + 3⟩]

def strncmpAccesses (m : Memory) (s₁ s₂ : UInt32) : Nat → List Access
  | 0 => []
  | n + 1 =>
      -- the byte that ends the loop is read again for the difference
      ⟨.image, s₁⟩ :: ⟨.name, s₂⟩ ::
        if m s₁ ≠ 0 ∧ m s₁ = m s₂ then strncmpAccesses m (s₁ + 1) (s₂ + 1) n else []

def searchAccesses (m : Memory) (name : UInt32) : Nat → UInt32 → List Access
  | 0, _ => []
  | left + 1, headerPtr =>
      wordAccesses (headerPtr + 32) ++ strncmpAccesses m headerPtr name 32 ++
        if strncmp m headerPtr name 32 = 0 then []
        else searchAccesses m name left (headerPtr + 36)

def initrdInitAccesses (location : UInt32) : List Access := wordAccesses location

def initrdGetFileAccesses (d : Initrd) (m : Memory) (name : UInt32) : List Access :=
  if d.initrdBase = 0 ∨ d.nFiles = 0 ∨ name = 0 then []
  else searchAccesses m name d.nFiles.toNat (d.initrdBase + 4)

structure Addition where
  left : UInt32
  right : UInt32

def Addition.Exact (a : Addition) : Prop := a.left.toNat + a.right.toNat < 2 ^ 32

def searchAdditions (m : Memory) (name : UInt32) : Nat → UInt32 → UInt32 → List Addition
  | 0, _, _ => []
  | left + 1, headerPtr, dataPtr =>
      let fsize := load32 m (headerPtr + 32)
      ⟨headerPtr, 32⟩ ::
        if strncmp m headerPtr name 32 = 0 then []
        else ⟨headerPtr, 36⟩ :: ⟨dataPtr, fsize⟩ ::
          searchAdditions m name left (headerPtr + 36) (dataPtr + fsize)

def initrdGetFileAdditions (d : Initrd) (m : Memory) (name : UInt32) : List Addition :=
  if d.initrdBase = 0 ∨ d.nFiles = 0 ∨ name = 0 then []
  else
    ⟨d.initrdBase, 4⟩ :: ⟨d.initrdBase + 4, d.nFiles * 36⟩ ::
      searchAdditions m name d.nFiles.toNat (d.initrdBase + 4)
        (d.initrdBase + 4 + d.nFiles * 36)

def headerAt (first : UInt32) (k : Nat) : UInt32 := first + UInt32.ofNat (36 * k)

def sizeAt (m : Memory) (first : UInt32) (k : Nat) : UInt32 := load32 m (headerAt first k + 32)

def Matches (m : Memory) (first name : UInt32) (k : Nat) : Prop :=
  strncmp m (headerAt first k) name 32 = 0

/-- The search gets to header `k`, if there are as many. -/
def Unmatched (m : Memory) (first name : UInt32) (k : Nat) : Prop :=
  ∀ j < k, ¬ Matches m first name j

def sizesBefore (m : Memory) (first : UInt32) : Nat → Nat
  | 0 => 0
  | k + 1 => sizesBefore m first k + (sizeAt m first k).toNat

/-- Through `origin` the access reads one of the `count` bytes from `first` on. -/
def Access.Within (a : Access) (origin : Origin) (first : UInt32) (count : Nat) : Prop :=
  a.origin = origin → ∃ i < count, a.address = first + UInt32.ofNat i

theorem header_at_zero (first : UInt32) : headerAt first 0 = first := UInt32.add_zero first

theorem header_at_succ (first : UInt32) (k : Nat) :
    headerAt (first + 36) k = headerAt first (k + 1) := by
  rw [headerAt, headerAt, Nat.mul_succ, Nat.add_comm (36 * k), UInt32.ofNat_add, UInt32.add_assoc]
  rfl

theorem size_at_succ (m : Memory) (first : UInt32) (k : Nat) :
    sizeAt m (first + 36) k = sizeAt m first (k + 1) := by
  rw [sizeAt, sizeAt, header_at_succ]

theorem matches_succ (m : Memory) (first name : UInt32) (k : Nat) :
    Matches m (first + 36) name k ↔ Matches m first name (k + 1) := by
  rw [Matches, Matches, header_at_succ]

theorem sizes_before_succ (m : Memory) (first : UInt32) (k : Nat) :
    sizesBefore m first (k + 1) = (sizeAt m first 0).toNat + sizesBefore m (first + 36) k := by
  induction k with
  | zero => exact Nat.add_comm _ _
  | succ k ih => rw [sizesBefore, ih, sizesBefore, size_at_succ, Nat.add_assoc]

theorem data_at_zero (m : Memory) (first dataPtr : UInt32) :
    dataPtr + UInt32.ofNat (sizesBefore m first 0) = dataPtr := UInt32.add_zero dataPtr

theorem data_at_succ (m : Memory) (first dataPtr : UInt32) (k : Nat) :
    dataPtr + sizeAt m first 0 + UInt32.ofNat (sizesBefore m (first + 36) k) =
      dataPtr + UInt32.ofNat (sizesBefore m first (k + 1)) := by
  rw [sizes_before_succ, UInt32.ofNat_add, UInt32.ofNat_toNat, UInt32.add_assoc]

theorem unmatched_succ {m : Memory} {first name : UInt32} {k : Nat}
    (here : ¬ Matches m first name 0) (later : Unmatched m (first + 36) name k) :
    Unmatched m first name (k + 1) := by
  intro j below
  cases j with
  | zero => exact here
  | succ j => exact (matches_succ m first name j).not.mp (later j (Nat.lt_of_succ_lt_succ below))

theorem within_shift {a : Access} {origin : Origin} {first : UInt32} {k count total : Nat}
    (within : a.Within origin (first + UInt32.ofNat k) count) (fits : k + count ≤ total) :
    a.Within origin first total := by
  intro through
  rcases within through with ⟨i, below, address⟩
  refine ⟨k + i, by omega, ?_⟩
  rw [address, UInt32.ofNat_add, UInt32.add_assoc]

theorem word_accesses_within (first : UInt32) :
    ∀ a ∈ wordAccesses first, a.origin = .image ∧ a.Within .image first 4 := by
  intro a member
  simp only [wordAccesses, List.mem_cons, List.not_mem_nil, or_false] at member
  rcases member with rfl | rfl | rfl | rfl
  · exact ⟨rfl, fun _ => ⟨0, by decide, (UInt32.add_zero first).symm⟩⟩
  · exact ⟨rfl, fun _ => ⟨1, by decide, rfl⟩⟩
  · exact ⟨rfl, fun _ => ⟨2, by decide, rfl⟩⟩
  · exact ⟨rfl, fun _ => ⟨3, by decide, rfl⟩⟩

theorem accesses_are_reads (m : Memory) (n : Nat) (s₁ s₂ : UInt32) :
    strncmpAccesses m s₁ s₂ n =
      (strncmpReads m s₁ s₂ n).flatMap fun p => [⟨.image, p.1⟩, ⟨.name, p.2⟩] := by
  induction n generalizing s₁ s₂ with
  | zero => rfl
  | succ n ih =>
      rw [strncmpAccesses, strncmpReads, List.flatMap_cons]
      split
      · rw [ih]
        rfl
      · rfl

theorem strncmp_image_within (m : Memory) (n : Nat) (s₁ s₂ : UInt32) :
    ∀ a ∈ strncmpAccesses m s₁ s₂ n, a.Within .image s₁ n := by
  obtain ⟨s, left⟩ := field_exists m s₁ n
  obtain ⟨t, right⟩ := field_exists m s₂ n
  intro a member
  rw [accesses_are_reads] at member
  obtain ⟨p, read, here⟩ := List.mem_flatMap.mp member
  obtain ⟨k, below, _, _, rfl⟩ := strncmp_reads left right p read
  rcases List.mem_pair.mp here with rfl | rfl
  · exact fun _ => ⟨k, below, rfl⟩
  · exact nofun

-- The comparison does not get past the NUL of the second string.
theorem strncmp_name_within (m : Memory) (n : Nat) (s₁ s₂ : UInt32) {query : List UInt8}
    (string : StringAt m s₂ query) :
    ∀ a ∈ strncmpAccesses m s₁ s₂ n, a.Within .name s₂ (query.length + 1) := by
  obtain ⟨s, left⟩ := field_exists m s₁ n
  intro a member
  rw [accesses_are_reads] at member
  obtain ⟨p, read, here⟩ := List.mem_flatMap.mp member
  obtain ⟨k, _, _, inside, rfl⟩ := strncmp_reads left (string.field n) p read
  rcases List.mem_pair.mp here with rfl | rfl
  · exact nofun
  · exact fun _ => ⟨k, Nat.lt_succ_of_le inside, rfl⟩

section Local
variable {m other : Memory}

theorem word_local {a : UInt32} (same : ∀ b ∈ wordAccesses a, other b.address = m b.address) :
    load32 other a = load32 m a := by
  simp only [wordAccesses, List.forall_mem_cons] at same
  obtain ⟨b₀, b₁, b₂, b₃, _⟩ := same
  rw [load32, b₀, b₁, b₂, b₃, ← load32]

theorem compare_local {s₁ s₂ : UInt32} {n : Nat}
    (same : ∀ b ∈ strncmpAccesses m s₁ s₂ n, other b.address = m b.address) :
    strncmp other s₁ s₂ n = strncmp m s₁ s₂ n := by
  rw [accesses_are_reads] at same
  refine (strncmp_local fun p member => ⟨?_, ?_⟩).1
  · exact same ⟨.image, p.1⟩ (List.mem_flatMap.mpr ⟨p, member, List.mem_cons_self⟩)
  · exact same ⟨.name, p.2⟩
      (List.mem_flatMap.mpr ⟨p, member, List.mem_cons_of_mem _ List.mem_cons_self⟩)

theorem search_local (name size : UInt32) {left : Nat} {headerPtr : UInt32} (dataPtr : UInt32)
    (same : ∀ b ∈ searchAccesses m name left headerPtr, other b.address = m b.address) :
    searchFrom other name size left headerPtr dataPtr =
      searchFrom m name size left headerPtr dataPtr := by
  induction left generalizing headerPtr dataPtr with
  | zero => rfl
  | succ left ih =>
      rw [searchAccesses, List.forall_mem_append, List.forall_mem_append] at same
      obtain ⟨⟨word, field⟩, later⟩ := same
      simp only [searchFrom, word_local word, compare_local field]
      split
      · rfl
      · rename_i differ
        rw [if_neg differ] at later
        exact ih _ later

/-- The look-up hangs on the bytes it is listed to read, and on nothing else. -/
theorem get_file_local (d : Initrd) (name size : UInt32)
    (same : ∀ b ∈ initrdGetFileAccesses d m name, other b.address = m b.address) :
    initrdGetFile d other name size = initrdGetFile d m name size := by
  unfold initrdGetFileAccesses at same
  unfold initrdGetFile
  split
  · rfl
  · rename_i searched
    rw [if_neg searched] at same
    exact search_local name size _ same

end Local

section Search
variable (m : Memory) (name : UInt32)

-- The search reads in a header only if no header before it matches.
theorem search_accesses (left : Nat) (first : UInt32) :
    ∀ a ∈ searchAccesses m name left first, ∃ k < left, Unmatched m first name k ∧
      (a ∈ wordAccesses (headerAt first k + 32) ∨
        a ∈ strncmpAccesses m (headerAt first k) name 32) := by
  induction left generalizing first with
  | zero => exact fun a member => absurd member List.not_mem_nil
  | succ left ih =>
      intro a member
      rw [searchAccesses, List.mem_append, List.mem_append] at member
      rcases member with here | member
      · rw [← header_at_zero first] at here
        exact ⟨0, Nat.succ_pos left, fun j below => absurd below (Nat.not_lt_zero j), here⟩
      · split at member
        · exact absurd member List.not_mem_nil
        · rename_i differ
          rw [← header_at_zero first] at differ
          rcases ih (first + 36) a member with ⟨k, below, unmatched, there⟩
          rw [header_at_succ] at there
          exact ⟨k + 1, Nat.succ_lt_succ below, unmatched_succ differ unmatched, there⟩

-- The first header that matches, or the caller's `size` untouched.
theorem search_result (size : UInt32) (left : Nat) (first dataPtr : UInt32) :
    (∃ k < left, Unmatched m first name k ∧ Matches m first name k ∧
      searchFrom m name size left first dataPtr =
        ⟨dataPtr + UInt32.ofNat (sizesBefore m first k), sizeAt m first k⟩) ∨
    ((∀ k < left, ¬ Matches m first name k) ∧
      searchFrom m name size left first dataPtr = ⟨0, size⟩) := by
  induction left generalizing first dataPtr with
  | zero => exact .inr ⟨fun k below => absurd below (Nat.not_lt_zero k), rfl⟩
  | succ left ih =>
      by_cases here : Matches m first name 0
      · refine .inl ⟨0, Nat.succ_pos left, fun j below => absurd below (Nat.not_lt_zero j), here,
          ?_⟩
        rw [Matches, header_at_zero] at here
        rw [searchFrom, if_pos here, sizeAt, header_at_zero, data_at_zero]
      · have passed : searchFrom m name size (left + 1) first dataPtr =
            searchFrom m name size left (first + 36) (dataPtr + sizeAt m first 0) := by
          rw [Matches, header_at_zero] at here
          rw [searchFrom, if_neg here, sizeAt, header_at_zero]
        rw [passed]
        rcases ih (first + 36) (dataPtr + sizeAt m first 0) with
          ⟨k, below, unmatched, found, result⟩ | ⟨missed, result⟩
        · refine .inl ⟨k + 1, Nat.succ_lt_succ below, unmatched_succ here unmatched,
            (matches_succ m first name k).mp found, ?_⟩
          rw [result, data_at_succ, size_at_succ]
        · refine .inr ⟨fun k below => ?_, result⟩
          exact unmatched_succ here (fun j inside => missed j inside) k below

theorem search_additions (left : Nat) (first dataPtr : UInt32) :
    ∀ s ∈ searchAdditions m name left first dataPtr, ∃ k < left,
      s = ⟨headerAt first k, 32⟩ ∨ s = ⟨headerAt first k, 36⟩ ∨
        s = ⟨dataPtr + UInt32.ofNat (sizesBefore m first k), sizeAt m first k⟩ := by
  induction left generalizing first dataPtr with
  | zero => exact fun s member => absurd member List.not_mem_nil
  | succ left ih =>
      intro s member
      have size : load32 m (first + 32) = sizeAt m first 0 := by rw [sizeAt, header_at_zero]
      rw [searchAdditions, size] at member
      rcases List.mem_cons.mp member with rfl | member
      · exact ⟨0, Nat.succ_pos left, .inl (by rw [header_at_zero])⟩
      split at member
      · exact absurd member List.not_mem_nil
      rcases List.mem_cons.mp member with rfl | member
      · exact ⟨0, Nat.succ_pos left, .inr (.inl (by rw [header_at_zero]))⟩
      rcases List.mem_cons.mp member with rfl | member
      · exact ⟨0, Nat.succ_pos left, .inr (.inr (by rw [data_at_zero]))⟩
      · rcases ih (first + 36) _ s member with ⟨k, below, here⟩
        rw [header_at_succ, size_at_succ, data_at_succ] at here
        exact ⟨k + 1, Nat.succ_lt_succ below, here⟩

/-- Where no addition listed wraps, the two pointers are plain sums at every
header that the search gets to. -/
theorem search_sums {left : Nat} {first dataPtr : UInt32}
    (sums : ∀ s ∈ searchAdditions m name left first dataPtr, s.Exact) {k : Nat} (below : k < left)
    (unmatched : Unmatched m first name k) :
    (headerAt first k).toNat = first.toNat + 36 * k ∧
      (dataPtr + UInt32.ofNat (sizesBefore m first k)).toNat =
        dataPtr.toNat + sizesBefore m first k := by
  induction left generalizing first dataPtr k with
  | zero => exact absurd below (Nat.not_lt_zero k)
  | succ left ih =>
      cases k with
      | zero =>
          rw [header_at_zero, data_at_zero]
          exact ⟨rfl, rfl⟩
      | succ k =>
          have differ : ¬ strncmp m first name 32 = 0 := by
            rw [← header_at_zero first]
            exact unmatched 0 (Nat.succ_pos k)
          have later : Unmatched m (first + 36) name k := fun j inside =>
            (matches_succ m first name j).not.mpr (unmatched (j + 1) (Nat.succ_lt_succ inside))
          have size : load32 m (first + 32) = sizeAt m first 0 := by rw [sizeAt, header_at_zero]
          rw [searchAdditions, size, if_neg differ, List.forall_mem_cons, List.forall_mem_cons,
            List.forall_mem_cons] at sums
          obtain ⟨_, header, data, rest⟩ := sums
          obtain ⟨headers, sizes⟩ := ih rest (Nat.lt_of_succ_lt_succ below) later
          have next : (first + 36).toNat = first.toNat + 36 := address_exact first 36 header
          have behind : (dataPtr + sizeAt m first 0).toNat =
              dataPtr.toNat + (sizeAt m first 0).toNat := by
            rw [UInt32.toNat_add]
            exact Nat.mod_eq_of_lt data
          rw [header_at_succ, next] at headers
          rw [data_at_succ, behind] at sizes
          rw [headers, sizes, sizes_before_succ]
          constructor <;> omega

end Search

/-- The look-up of `name` in the disk at `start` gets to header `k`. -/
structure Reached (m : Memory) (start name : UInt32) (k : Nat) : Prop where
  loaded : start ≠ 0
  named : name ≠ 0
  counted : k < (load32 m start).toNat
  unmatched : Unmatched m (start + 4) name k

/-- The module from `start` to `stop` holds all that the image says about itself,
as far as the look-up goes. -/
structure Contained (m : Memory) (start stop name : UInt32) : Prop where
  count : start.toNat + 4 ≤ stop.toNat
  header : ∀ k, Reached m start name k → start.toNat + 4 + 36 * (k + 1) ≤ stop.toNat
  data : ∀ k, Reached m start name k → Matches m (start + 4) name k →
    start.toNat + 4 + 36 * (load32 m start).toNat + sizesBefore m (start + 4) (k + 1) ≤ stop.toNat

def Inside (start stop a : UInt32) : Prop := start.toNat ≤ a.toNat ∧ a.toNat < stop.toNat

/-- `initrd_init` and `initrd_get_file` stay in the module, and so does what they return. -/
structure Confined (m : Memory) (start stop name : UInt32) : Prop where
  init : ∀ a ∈ initrdInitAccesses start, Inside start stop a.address
  reads : ∀ a ∈ initrdGetFileAccesses (initrdInit m start) m name, a.origin = .image →
    Inside start stop a.address
  result : ∀ size, (initrdGetFile (initrdInit m start) m name size).pointer ≠ 0 →
    start.toNat ≤ (initrdGetFile (initrdInit m start) m name size).pointer.toNat ∧
      (initrdGetFile (initrdInit m start) m name size).pointer.toNat +
        (initrdGetFile (initrdInit m start) m name size).size.toNat ≤ stop.toNat

theorem header_address (start : UInt32) (k i : Nat)
    (fits : start.toNat + 4 + 36 * k + i < 2 ^ 32) :
    (headerAt (start + 4) k + UInt32.ofNat i).toNat = start.toNat + 4 + 36 * k + i := by
  have offset : headerAt (start + 4) k + UInt32.ofNat i =
      start + UInt32.ofNat (4 + 36 * k + i) := by
    simp only [headerAt, UInt32.ofNat_add, ← UInt32.add_assoc]
    rfl
  rw [offset, address_exact _ _ (by omega)]
  omega

theorem data_address (start n : UInt32) (earlier : Nat)
    (fits : start.toNat + 4 + 36 * n.toNat + earlier < 2 ^ 32) :
    (start + 4 + n * 36 + UInt32.ofNat earlier).toNat =
      start.toNat + 4 + 36 * n.toNat + earlier := by
  have offset : start + 4 + n * 36 + UInt32.ofNat earlier =
      start + UInt32.ofNat (4 + 36 * n.toNat + earlier) := by
    simp only [UInt32.ofNat_add, UInt32.ofNat_mul, UInt32.ofNat_toNat, ← UInt32.add_assoc,
      UInt32.mul_comm n]
    rfl
  rw [offset, address_exact _ _ (by omega)]
  omega

-- The look-up reads only in headers it gets to, and in the name beside them.
theorem reads_reached {m : Memory} {start name : UInt32} :
    ∀ a ∈ initrdGetFileAccesses (initrdInit m start) m name, ∃ k, Reached m start name k ∧
      (a ∈ wordAccesses (headerAt (start + 4) k + 32) ∨
        a ∈ strncmpAccesses m (headerAt (start + 4) k) name 32) := by
  intro a member
  unfold initrdGetFileAccesses at member
  split at member
  · exact absurd member List.not_mem_nil
  · rename_i searched
    simp only [not_or] at searched
    rcases searched with ⟨loaded, _, named⟩
    rcases search_accesses m name _ _ a member with ⟨k, counted, unmatched, here⟩
    exact ⟨k, ⟨loaded, named, counted, unmatched⟩, here⟩

theorem image_reads_reached {m : Memory} {start name : UInt32} :
    ∀ a ∈ initrdGetFileAccesses (initrdInit m start) m name, ∃ k, Reached m start name k ∧
      a.Within .image (headerAt (start + 4) k) 36 := by
  intro a member
  rcases reads_reached a member with ⟨k, reached, size | field⟩
  · exact ⟨k, reached, @within_shift _ _ _ 32 4 36 (word_accesses_within _ a size).2
      (Nat.le_refl _)⟩
  · refine ⟨k, reached, fun through => ?_⟩
    rcases strncmp_image_within m 32 (headerAt (start + 4) k) name a field through with
      ⟨i, below, address⟩
    exact ⟨i, Nat.lt_trans below (by decide), address⟩

theorem get_file_result (m : Memory) (start name size : UInt32) :
    (∃ k, Reached m start name k ∧ Matches m (start + 4) name k ∧
      initrdGetFile (initrdInit m start) m name size =
        ⟨start + 4 + load32 m start * 36 + UInt32.ofNat (sizesBefore m (start + 4) k),
          sizeAt m (start + 4) k⟩) ∨
    (∀ k, Reached m start name k → ¬ Matches m (start + 4) name k) ∧
      initrdGetFile (initrdInit m start) m name size = ⟨0, size⟩ := by
  by_cases guarded : start = 0 ∨ load32 m start = 0 ∨ name = 0
  · refine .inr ⟨?_, if_pos guarded⟩
    rintro k ⟨loaded, named, counted, _⟩
    rcases guarded with noBase | noFiles | noName
    · exact absurd noBase loaded
    · rw [noFiles] at counted
      exact absurd counted (Nat.not_lt_zero k)
    · exact absurd noName named
  · have searched : initrdGetFile (initrdInit m start) m name size = searchFrom m name size
        (load32 m start).toNat (start + 4) (start + 4 + load32 m start * 36) := if_neg guarded
    simp only [not_or] at guarded
    rcases guarded with ⟨loaded, _, named⟩
    rw [searched]
    rcases search_result m name size (load32 m start).toNat (start + 4)
        (start + 4 + load32 m start * 36) with
      ⟨k, counted, unmatched, found, result⟩ | ⟨missed, result⟩
    · exact .inl ⟨k, ⟨loaded, named, counted, unmatched⟩, found, result⟩
    · exact .inr ⟨fun k reached => missed k reached.counted, result⟩

theorem contained_confined {m : Memory} {start stop name : UInt32}
    (contained : Contained m start stop name) : Confined m start stop name := by
  have limit := stop.toNat_lt
  constructor
  · intro a member
    have count := contained.count
    rcases word_accesses_within start a member with ⟨image, within⟩
    rcases within image with ⟨i, below, address⟩
    rw [Inside, address, address_exact _ _ (by omega)]
    omega
  · intro a member image
    rcases image_reads_reached a member with ⟨k, reached, within⟩
    rcases within image with ⟨i, below, address⟩
    -- the header ends in the module, so its addresses do not wrap
    have fits := contained.header k reached
    rw [Inside, address, header_address _ _ _ (by omega)]
    omega
  · intro size nonNull
    rcases get_file_result m start name size with ⟨k, reached, found, result⟩ | ⟨_, missed⟩
    · have fits := contained.data k reached found
      rw [sizesBefore] at fits
      rw [result, data_address _ _ _ (by omega)]
      change _ ∧ _ + (sizeAt m (start + 4) k).toNat ≤ _
      omega
    · rw [missed] at nonNull
      exact absurd rfl nonNull

/-- A module of the four bytes of a count of 1, and the name a elsewhere. -/
def truncated : Memory :=
  fun a => if a = 0x100000 then 1 else if a = 0x200000 then 0x61 else 0

/-- A module of the files a and b, of three bytes and of two, and the name b behind it. -/
def twoFiles : Memory :=
  let field (c : UInt8) := c :: List.replicate 31 0
  let image := bytes32 2 ++ (field 0x61 ++ bytes32 3) ++ (field 0x62 ++ bytes32 2) ++
    [0x78, 0x79, 0x0A, 0x7A, 0x0A]
  fun a => (image ++ [0x62, 0]).getD (a - 0x100000).toNat 0

theorem second_file_confined :
    Contained twoFiles 0x100000 0x100051 0x100051 ∧
      Confined twoFiles 0x100000 0x100051 0x100051 ∧
      (initrdGetFile (initrdInit twoFiles 0x100000) twoFiles 0x100051 7).pointer = 0x10004F := by
  have counted : load32 twoFiles 0x100000 = 2 := by decide +kernel
  have ends : ∀ k < 2, 0x100000 + 4 + 36 * (k + 1) ≤ 0x100051 ∧
      0x100000 + 4 + 36 * 2 + sizesBefore twoFiles (0x100000 + 4) (k + 1) ≤ 0x100051 := by
    decide +kernel
  have contained : Contained twoFiles 0x100000 0x100051 0x100051 := by
    constructor
    · decide
    · intro k reached
      have below := reached.counted
      rw [counted] at below
      exact (ends k below).1
    · intro k reached _
      have below := reached.counted
      rw [counted] at below ⊢
      exact (ends k below).2
  exact ⟨contained, contained_confined contained, by decide +kernel⟩

/-- What an aborted `make_initrd` leaves: a count, and no header behind it. -/
theorem truncated_image_left :
    ¬ ∀ (m : Memory) (start stop name : UInt32) (query : List UInt8), NameAt m name query →
      start.toNat ≤ stop.toNat → Confined m start stop name := by
  intro always
  have named : NameAt truncated 0x200000 [0x61] :=
    ⟨by decide, by simp, rfl, rfl, trivial⟩
  have confined := always truncated 0x100000 0x100004 0x200000 [0x61] named (by decide)
  have outside := confined.reads ⟨.image, 0x100024⟩ List.mem_cons_self rfl
  exact absurd outside.2 (by decide)

end NexusOS.HeaderWalk
