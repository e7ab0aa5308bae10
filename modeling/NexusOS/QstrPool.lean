import NexusOS.Comparers
import NexusOS.MemoryAreas
import NexusOS.MemoryMove
import NexusOS.MpDict

/-!
The interned strings of `kernel/python/py/qstr.c`: the pools, the search through
them, and `qstr_from_strn` with its chunks of string data. Pools are records
that know which areas of the memory they occupy; their strings are read in it. The
allocator is the environment: its answers are given with a call, and what they
must not touch is said in `Respects`.
-/

namespace NexusOS.QstrPool

open ByteMemory BlockCopy MemoryAreas MemoryMove DiskImage StringOrder Comparers

abbrev Bytes := List UInt8

structure Entry where
  hash : UInt8
  length : UInt8
  qPtr : UInt32

/-- `records` is where the pool lies itself: its header and its three arrays. -/
structure Pool where
  totalPrevLen : Nat
  isSorted : Bool
  alloc : Nat
  entries : List Entry
  records : List Area

/-- The fields of `MP_STATE_VM` that interning uses, the pools from `last_pool` back. -/
structure Vm where
  lastPool : List Pool
  qstrLastChunk : UInt32
  qstrLastAlloc : Nat
  qstrLastUsed : Nat

def hashLoop (m : Memory) : Nat → UInt32 → UInt32 → UInt32
  | 0, _, hash => hash
  | n + 1, data, hash => hashLoop m n (data + 1) (((hash <<< 5) + hash) ^^^ (m data).toUInt32)

/-- `qstr_compute_hash` with hashes of one byte. -/
def qstrComputeHash (m : Memory) (data : UInt32) (len : Nat) : UInt32 :=
  let hash := hashLoop m len data 5381 &&& 0xFF
  if hash = 0 then hash + 1 else hash

/-- `find_qstr`, up to the assertion at its end. -/
def findQstr : List Pool → Nat → Option (Pool × Nat)
  | [], _ => none
  | pool :: prev, q =>
      if q < pool.totalPrevLen then findQstr prev q else some (pool, q - pool.totalPrevLen)

def entryOf (vm : Vm) (q : Nat) : Option Entry :=
  (findQstr vm.lastPool q).bind fun found => found.1.entries[found.2]?

def qstrHash (vm : Vm) (q : Nat) : Option UInt8 := (entryOf vm q).map (·.hash)
def qstrLen (vm : Vm) (q : Nat) : Option Nat := (entryOf vm q).map (·.length.toNat)
def qstrStr (vm : Vm) (q : Nat) : Option UInt32 := (entryOf vm q).map (·.qPtr)
def qstrData (vm : Vm) (q : Nat) : Option (UInt32 × Nat) :=
  (entryOf vm q).map fun e => (e.qPtr, e.length.toNat)

def mpQstrNull : Nat := 0
def mpQstrEmpty : Nat := 1

section Search
variable (m : Memory) (str : UInt32) (strLen : Nat)

/-- The binary search; `none` when it reads past the pool. -/
def narrow (entries : List Entry) : Nat → Nat → Nat → Option (Nat × Nat)
  | 0, _, _ => none
  | fuel + 1, low, high =>
      if high - low > 1 then
        let mid := (low + high) / 2
        match entries[mid]? with
        | none => none
        | some e =>
            if strncmp m str e.qPtr strLen ≤ 0 then narrow entries fuel low mid
            else narrow entries fuel mid high
      else some (low, high)

def Matches (strHash : UInt32) (e : Entry) : Prop :=
  e.hash.toUInt32 = strHash ∧ e.length.toNat = strLen ∧ memcmp m e.qPtr str strLen = 0

instance (strHash : UInt32) (e : Entry) : Decidable (Matches m str strLen strHash e) :=
  inferInstanceAs (Decidable (_ ∧ _ ∧ _))

inductive Searched where
  | found (at_ : Nat)
  | notFound
  | outside
  deriving DecidableEq

/-- The sequential search of `left` places from `at_` on. -/
def scan (strHash : UInt32) (entries : List Entry) : Nat → Nat → Searched
  | 0, _ => .notFound
  | left + 1, at_ =>
      match entries[at_]? with
      | none => .outside
      | some e =>
          if Matches m str strLen strHash e then .found at_
          else scan strHash entries left (at_ + 1)

def searchPool (strHash : UInt32) (pool : Pool) : Searched :=
  match pool.entries.length with
  -- `high` wraps around in an empty pool, and `high + 1` back to 0
  | 0 => if pool.isSorted then .outside else .notFound
  | high + 1 =>
      if pool.isSorted then
        match narrow m str strLen pool.entries (high + 1) 0 high with
        | none => .outside
        | some (low, high) => scan m str strLen strHash pool.entries (high + 1 - low) low
      else scan m str strLen strHash pool.entries (high + 1) 0

def searchPools (strHash : UInt32) : List Pool → Option Nat
  | [] => some mpQstrNull
  | pool :: prev =>
      match searchPool m str strLen strHash pool with
      | .found at_ => some (pool.totalPrevLen + at_)
      | .notFound => searchPools strHash prev
      | .outside => none

def qstrFindStrn (vm : Vm) : Option Nat :=
  if strLen = 0 then some mpQstrEmpty
  else searchPools m str strLen (qstrComputeHash m str strLen) vm.lastPool

end Search

/-- What the allocator answers during one call, and does to the memory meanwhile. -/
structure Grants where
  grows : Bool
  chunk : UInt32
  exactChunk : UInt32
  pool : UInt32
  afterChunk : Memory → Memory
  afterPool : Memory → Memory

inductive Result where
  | value (q : Nat)
  | nameTooLong
  | memoryError
  deriving DecidableEq

/-- The end of the last chunk, grown in place or given up. -/
def growChunk (g : Grants) (vm : Vm) (nBytes : Nat) : Vm :=
  if vm.qstrLastChunk ≠ 0 ∧ vm.qstrLastUsed + nBytes > vm.qstrLastAlloc then
    if g.grows then { vm with qstrLastAlloc := vm.qstrLastAlloc + nBytes }
    else { vm with qstrLastChunk := 0 }
  else vm

/-- A new chunk where there is none, of 128 bytes if it can be. -/
def newChunk (g : Grants) (vm : Vm) (nBytes : Nat) : Vm × Bool :=
  if vm.qstrLastChunk = 0 then
    if g.chunk ≠ 0 then
      ({ vm with qstrLastChunk := g.chunk, qstrLastAlloc := max nBytes 128, qstrLastUsed := 0 },
        true)
    else if g.exactChunk ≠ 0 then
      ({ vm with qstrLastChunk := g.exactChunk, qstrLastAlloc := nBytes, qstrLastUsed := 0 }, true)
    else (vm, false)
  else (vm, true)

def reserve (g : Grants) (vm : Vm) (nBytes : Nat) : Vm × Bool :=
  newChunk g (growChunk g vm nBytes) nBytes

/-- A header of 24 bytes, and of each string its pointer, its hash and its length. -/
def poolSize (newAlloc : Nat) : Nat := 24 + (4 + 1 + 1) * newAlloc

def qstrAdd (g : Grants) (vm : Vm) (e : Entry) : Option (Result × Vm) :=
  match vm.lastPool with
  | [] => none
  | pool :: prev =>
      if pool.entries.length ≥ pool.alloc then
        if g.pool ≠ 0 then
          -- `is_sorted` is what the allocator cleared it to
          let total := pool.totalPrevLen + pool.entries.length
          let record : Area := ⟨g.pool, poolSize (pool.alloc * 2)⟩
          some (.value total, { vm with
            lastPool := ⟨total, false, pool.alloc * 2, [e], [record]⟩ :: pool :: prev })
        else some (.memoryError, { vm with qstrLastChunk := 0 })
      else
        some (.value (pool.totalPrevLen + pool.entries.length), { vm with
          lastPool := { pool with entries := pool.entries ++ [e] } :: prev })

def qstrFromStrn (g : Grants) (vm : Vm) (m : Memory) (str : UInt32) (len : Nat) :
    Option (Result × Vm × Memory) :=
  match qstrFindStrn m str len vm with
  | none => none
  | some q =>
      if q ≠ 0 then some (.value q, vm, m)
      else if len ≥ 256 then some (.nameTooLong, vm, m)
      else
        let reserved := reserve g vm (len + 1)
        let m := g.afterChunk m
        if reserved.2 then
          let vm := reserved.1
          let qPtr := vm.qstrLastChunk + UInt32.ofNat vm.qstrLastUsed
          let hash := qstrComputeHash m str len
          let copied := (memcpy m qPtr str (UInt32.ofNat len)).memory
          let stored := Function.update copied (qPtr + UInt32.ofNat len) 0
          (qstrAdd g { vm with qstrLastUsed := vm.qstrLastUsed + (len + 1) }
            ⟨hash.toUInt8, UInt8.ofNat len, qPtr⟩).map fun added =>
              (added.1, added.2, g.afterPool stored)
        else some (.memoryError, reserved.1, m)

/-- What an entry says of its string. The null string alone has no hash. -/
structure EntryHolds (m : Memory) (e : Entry) (s : Bytes) : Prop where
  length : e.length.toNat = s.length
  hash : s ≠ [] → e.hash.toNat = MpDict.qstrComputeHash s
  holds : Holds m e.qPtr (s ++ [0])

def Sorted (strings : List Bytes) : Prop :=
  (strings.Pairwise fun s t => order s t = .lt) ∧ ∀ s ∈ strings, ∀ c ∈ s, c ≠ 0

/-- The pools hold the strings, numbered from the oldest on. A sorted pool is full. -/
inductive Chain (m : Memory) : List Pool → List Bytes → Prop where
  | nil : Chain m [] []
  | cons {pool : Pool} {prev : List Pool} {old new : List Bytes} (earlier : Chain m prev old)
      (total : pool.totalPrevLen = old.length)
      (entries : List.Forall₂ (EntryHolds m) pool.entries new) (filled : new ≠ [])
      (sorted : pool.isSorted = true → Sorted new ∧ pool.alloc ≤ new.length) :
      Chain m (pool :: prev) (old ++ new)

section Hashes

theorem hash_loop_text {m : Memory} {data : UInt32} {s : Bytes} (holds : Holds m data s)
    (hash : UInt32) : hashLoop m s.length data hash =
      s.foldl (fun (hash : UInt32) c => ((hash <<< 5) + hash) ^^^ c.toUInt32) hash := by
  induction s generalizing data hash with
  | nil => rfl
  | cons c rest ih => rw [List.length_cons, hashLoop, holds.1, ih holds.2, List.foldl_cons]

theorem compute_hash_text {m : Memory} {data : UInt32} {s : Bytes} (holds : Holds m data s) :
    (qstrComputeHash m data s.length).toNat = MpDict.qstrComputeHash s := by
  rw [qstrComputeHash, hash_loop_text holds, MpDict.qstrComputeHash]
  split
  case isTrue zero =>
    rw [zero]
    rfl
  case isFalse => rfl

theorem compute_hash_small (s : Bytes) : MpDict.qstrComputeHash s < 256 := by
  rw [MpDict.qstrComputeHash]
  split
  · decide
  · exact Nat.lt_of_le_of_lt Nat.and_le_right (by decide)

end Hashes

section Find
variable {m : Memory} {str : UInt32} {s : Bytes} {entries : List Entry} {strings : List Bytes}

theorem matches_iff {e : Entry} {u : Bytes} (holds : Holds m str s) (nonempty : s ≠ [])
    (entry : EntryHolds m e u) :
    Matches m str s.length (qstrComputeHash m str s.length) e ↔ u = s := by
  have text := ((holds_append _ _ _ _).mp entry.holds).1
  have compared : u.length = s.length → (memcmp m e.qPtr str s.length = 0 ↔ u = s) := by
    intro same
    rw [← sign_eq, memcmp_order text holds (Nat.le_of_eq same.symm) (Nat.le_refl _), ← same,
      List.take_length, same, List.take_length]
    exact Std.LawfulEqCmp.compare_eq_iff_eq
  constructor
  · rintro ⟨_, length, zero⟩
    exact (compared (entry.length.symm.trans length)).mp zero
  · rintro rfl
    refine ⟨UInt32.toNat_inj.mp ?_, entry.length, (compared rfl).mpr rfl⟩
    rw [UInt8.toNat_toUInt32, entry.hash nonempty, compute_hash_text holds]

theorem entry_at (all : List.Forall₂ (EntryHolds m) entries strings) {at_ : Nat}
    (below : at_ < entries.length) :
    ∃ e u, entries[at_]? = some e ∧ strings[at_]? = some u ∧ EntryHolds m e u := by
  have other : at_ < strings.length := all.length_eq ▸ below
  exact ⟨entries[at_], strings[at_], List.getElem?_eq_getElem below,
    List.getElem?_eq_getElem other, List.Forall₂.get all below other⟩

theorem scan_exact (holds : Holds m str s) (nonempty : s ≠ [])
    (all : List.Forall₂ (EntryHolds m) entries strings) (left at_ : Nat)
    (within : at_ + left ≤ entries.length) :
    (∃ k, scan m str s.length (qstrComputeHash m str s.length) entries left at_ = .found k ∧
        strings[k]? = some s) ∨
      scan m str s.length (qstrComputeHash m str s.length) entries left at_ = .notFound ∧
        ∀ k, at_ ≤ k → k < at_ + left → strings[k]? ≠ some s := by
  induction left generalizing at_ with
  | zero => exact Or.inr ⟨rfl, fun k above below => by omega⟩
  | succ left ih =>
      rcases entry_at all (show at_ < entries.length by omega) with ⟨e, u, here, text, entry⟩
      have hit := matches_iff holds nonempty entry
      rw [scan, here]
      by_cases same : u = s
      · exact Or.inl ⟨at_, if_pos (hit.mpr same), same ▸ text⟩
      · simp only [if_neg (mt hit.mp same)]
        rcases ih (at_ + 1) (by omega) with found | ⟨missed, passed⟩
        · exact Or.inl found
        · refine Or.inr ⟨missed, fun k above below => ?_⟩
          rcases Nat.lt_or_eq_of_le above with later | first
          · exact passed k later (by omega)
          · rw [← first, text]
            exact fun hit => same (Option.some.inj hit)

theorem strncmp_cut_le {e : Entry} {u : Bytes} (holds : Holds m str s)
    (visible : ∀ c ∈ s, c ≠ 0) (entry : EntryHolds m e u) (others : ∀ c ∈ u, c ≠ 0) :
    strncmp m str e.qPtr s.length ≤ 0 ↔ (order s (u.take s.length)).isLE := by
  have left : FieldAt m str s.length s := ⟨visible, holds, fun short => absurd short (by omega)⟩
  have right : StringAt m e.qPtr u := ⟨others, entry.holds⟩
  rw [← sign_le, strncmp_order left (right.field _), List.take_length]

theorem half_exact (sorted : Sorted strings) {e : Entry} {u : Bytes} {mid t : Nat}
    (holds : Holds m str s) (entry : EntryHolds m e u) (middle : strings[mid]? = some u)
    (target : strings[t]? = some s) :
    (strncmp m str e.qPtr s.length ≤ 0 → t ≤ mid) ∧
      (¬ strncmp m str e.qPtr s.length ≤ 0 → mid ≤ t) := by
  rcases List.getElem?_eq_some_iff.mp middle with ⟨midInside, rfl⟩
  rcases List.getElem?_eq_some_iff.mp target with ⟨inside, rfl⟩
  have pairs := List.pairwise_iff_getElem.mp sorted.1
  rw [strncmp_cut_le holds (sorted.2 _ (List.getElem_mem inside)) entry
    (sorted.2 _ (List.getElem_mem midInside))]
  constructor
  · intro le
    by_contra above
    have before := pairs mid t midInside inside (Nat.not_le.mp above)
    have cut := Std.TransCmp.lt_of_isLE_of_lt
      (order_initial strings[t].length strings[mid]) before
    have turned := Std.OrientedCmp.gt_of_lt cut
    rw [turned] at le
    cases le
  · intro gt
    by_contra below
    exact gt (order_cut (pairs t mid inside midInside (Nat.not_le.mp below)))

-- By induction on the fuel; the string stays between the two ends.
theorem narrow_exact (holds : Holds m str s) (all : List.Forall₂ (EntryHolds m) entries strings)
    (sorted : Sorted strings) (fuel low high : Nat) (enough : high < low + fuel)
    (ordered : low ≤ high) (inside : high < entries.length) :
    ∃ lo hi, narrow m str s.length entries fuel low high = some (lo, hi) ∧ lo ≤ hi ∧
      hi < entries.length ∧
      ∀ t, strings[t]? = some s → low ≤ t → t ≤ high → lo ≤ t ∧ t ≤ hi := by
  induction fuel generalizing low high with
  | zero => omega
  | succ fuel ih =>
      rw [narrow]
      by_cases wide : high - low > 1
      · rcases entry_at all (show (low + high) / 2 < entries.length by omega) with
          ⟨e, u, here, text, entry⟩
        simp only [if_pos wide, here]
        have half := fun t target => half_exact sorted (t := t) holds entry text target
        by_cases le : strncmp m str e.qPtr s.length ≤ 0
        · rw [if_pos le]
          rcases ih low ((low + high) / 2) (by omega) (by omega) (by omega) with
            ⟨lo, hi, ran, lohi, below, kept⟩
          exact ⟨lo, hi, ran, lohi, below, fun t target above _ =>
            kept t target above ((half t target).1 le)⟩
        · rw [if_neg le]
          rcases ih ((low + high) / 2) high (by omega) (by omega) (by omega) with
            ⟨lo, hi, ran, lohi, below, kept⟩
          exact ⟨lo, hi, ran, lohi, below, fun t target _ under =>
            kept t target ((half t target).2 le) under⟩
      · exact ⟨low, high, if_neg wide, ordered, inside, fun t _ above below => ⟨above, below⟩⟩

theorem search_pool_exact {pool : Pool} (holds : Holds m str s) (nonempty : s ≠ [])
    (all : List.Forall₂ (EntryHolds m) pool.entries strings) (filled : strings ≠ [])
    (sorted : pool.isSorted = true → Sorted strings) :
    (∃ k, searchPool m str s.length (qstrComputeHash m str s.length) pool = .found k ∧
        strings[k]? = some s) ∨
      searchPool m str s.length (qstrComputeHash m str s.length) pool = .notFound ∧
        s ∉ strings := by
  have absent : (∀ k < pool.entries.length, strings[k]? ≠ some s) → s ∉ strings := by
    intro missed member
    rcases List.mem_iff_getElem?.mp member with ⟨k, here⟩
    have below := (List.getElem?_eq_some_iff.mp here).1
    exact missed k (all.length_eq ▸ below) here
  have same := all.length_eq
  have positive := List.length_pos_iff.mpr filled
  rw [searchPool]
  cases len : pool.entries.length with
  | zero => omega
  | succ high =>
      cases kind : pool.isSorted with
      | false =>
          rcases scan_exact holds nonempty all (high + 1) 0 (by omega) with
            found | ⟨missed, passed⟩
          · exact Or.inl found
          · exact Or.inr ⟨missed, absent fun k below => passed k (Nat.zero_le k) (by omega)⟩
      | true =>
          rcases narrow_exact holds all (sorted kind) (high + 1) 0 high (by omega)
            (by omega) (by omega) with ⟨lo, hi, ran, lohi, below, kept⟩
          simp only [ran, if_true]
          rcases scan_exact holds nonempty all (hi + 1 - lo) lo (by omega) with
            found | ⟨missed, passed⟩
          · exact Or.inl found
          · refine Or.inr ⟨missed, absent fun k within here => ?_⟩
            have between := kept k here (Nat.zero_le k) (by omega)
            exact passed k between.1 (by omega) here

theorem search_pools_exact {pools : List Pool} {table : List Bytes} (chain : Chain m pools table)
    (holds : Holds m str s) (nonempty : s ≠ []) :
    ∃ q, searchPools m str s.length (qstrComputeHash m str s.length) pools = some q ∧
      (table[q]? = some s ∨ q = 0 ∧ s ∉ table) := by
  induction chain with
  | nil => exact ⟨0, rfl, Or.inr ⟨rfl, List.not_mem_nil⟩⟩
  | @cons pool prev old new earlier total entries filled sorted ih =>
      rw [searchPools]
      rcases search_pool_exact holds nonempty entries filled fun kind => (sorted kind).1 with
        ⟨k, found, here⟩ | ⟨missed, absent⟩
      · rw [found]
        refine ⟨_, rfl, Or.inl ?_⟩
        rw [total, List.getElem?_append_right (Nat.le_add_right _ _), Nat.add_sub_cancel_left]
        exact here
      · rw [missed]
        rcases ih with ⟨q, result, here | ⟨zero, notOld⟩⟩
        · have inside := (List.getElem?_eq_some_iff.mp here).1
          exact ⟨q, result, Or.inl (by rw [List.getElem?_append_left inside, here])⟩
        · refine ⟨q, result, Or.inr ⟨zero, fun member => ?_⟩⟩
          exact (List.mem_append.mp member).elim notOld absent

end Find

/-- The strings by number: the null string, the empty string, and no string twice after that. -/
structure Tabled (table : List Bytes) : Prop where
  null : table[0]? = some []
  empty : table[1]? = some []
  distinct : (table.drop 1).Nodup

section Table
variable {m : Memory} {vm : Vm} {table : List Bytes}

theorem find_exact (chain : Chain m vm.lastPool table) (tabled : Tabled table) {str : UInt32}
    {s : Bytes} (holds : Holds m str s) :
    ∃ q, qstrFindStrn m str s.length vm = some q ∧
      (q ≠ 0 ∧ table[q]? = some s ∨ q = 0 ∧ s ∉ table) := by
  rw [qstrFindStrn]
  by_cases empty : s = []
  · subst empty
    exact ⟨1, rfl, Or.inl ⟨Nat.one_ne_zero, tabled.empty⟩⟩
  · rw [if_neg fun zero => empty (List.length_eq_zero_iff.mp zero)]
    rcases search_pools_exact chain holds empty with ⟨q, result, here | absent⟩
    · refine ⟨q, result, Or.inl ⟨fun zero => ?_, here⟩⟩
      rw [zero, tabled.null] at here
      exact empty (Option.some.inj here).symm
    · exact ⟨q, result, Or.inr absent⟩

theorem find_qstr_exact {pools : List Pool} (chain : Chain m pools table) {q : Nat} {s : Bytes}
    (here : table[q]? = some s) :
    ∃ pool at_ e, findQstr pools q = some (pool, at_) ∧ pool.entries[at_]? = some e ∧
      EntryHolds m e s := by
  induction chain with
  | nil => cases here
  | @cons pool prev old new earlier total entries filled sorted ih =>
      rw [findQstr, total]
      by_cases older : q < old.length
      · rw [List.getElem?_append_left older] at here
        rw [if_pos older]
        exact ih here
      · rw [List.getElem?_append_right (Nat.not_lt.mp older)] at here
        rw [if_neg older]
        have inside := (List.getElem?_eq_some_iff.mp here).1
        rcases entry_at entries (show q - old.length < pool.entries.length by
          rw [entries.length_eq]; exact inside) with ⟨e, u, at_, text, entry⟩
        have same : u = s := Option.some.inj (text.symm.trans here)
        exact ⟨pool, _, e, rfl, at_, same ▸ entry⟩

theorem entry_exact (chain : Chain m vm.lastPool table) {q : Nat} {s : Bytes}
    (here : table[q]? = some s) : ∃ e, entryOf vm q = some e ∧ EntryHolds m e s := by
  rcases find_qstr_exact chain here with ⟨pool, at_, e, found, entry, holds⟩
  exact ⟨e, by rw [entryOf, found]; exact entry, holds⟩

/-- What `qstr_hash`, `qstr_len`, `qstr_str` and `qstr_data` answer for a string. -/
structure ReadsAs (m : Memory) (vm : Vm) (q : Nat) (s : Bytes) : Prop where
  text : ∃ p, qstrStr vm q = some p ∧ qstrData vm q = some (p, s.length) ∧ Holds m p (s ++ [0])
  length : qstrLen vm q = some s.length
  hash : s ≠ [] → (qstrHash vm q).map UInt8.toNat = some (MpDict.qstrComputeHash s)

theorem reads_exact (chain : Chain m vm.lastPool table) {q : Nat} {s : Bytes}
    (here : table[q]? = some s) : ReadsAs m vm q s := by
  rcases entry_exact chain here with ⟨e, found, entry⟩
  refine ⟨⟨e.qPtr, ?_, ?_, entry.holds⟩, ?_, fun nonempty => ?_⟩
  · rw [qstrStr, found, Option.map_some]
  · rw [qstrData, found, Option.map_some, entry.length]
  · rw [qstrLen, found, Option.map_some, entry.length]
  · rw [qstrHash, found, Option.map_some, Option.map_some, entry.hash nonempty]

end Table

end NexusOS.QstrPool
