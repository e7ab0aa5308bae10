import NexusOS.OpenAddressing
import NexusOS.Association

/-!
`py/map.c`: the hash table behind every dictionary and namespace, with its one
entry point `mp_map_lookup` and the rehash that calls it back.
-/

namespace NexusOS.MpMap

open OpenAddressing Association

/-- What the table asks of an object. `MP_OBJ_NULL` and `MP_OBJ_SENTINEL` are no
objects: they are `Slot.empty` and `Slot.deleted` as keys. An object with no
hash makes `mp_unary_op` raise. -/
structure Objects (Key : Type) where
  isQstr : Key → Bool
  isExactStr : Key → Bool
  qstrHash : Key → Nat
  unaryHash : Key → Option Nat
  equal : Key → Key → Bool

variable {Key Val : Type}

def hashOf (o : Objects Key) (index : Key) : Option Nat :=
  if o.isQstr index then some (o.qstrHash index) else o.unaryHash index

/-- The language's rules for keys: equality is an equivalence and equal keys hash
alike. Of two interned strings one is the other when they are equal. A table of
interned strings alone counts on the last rule, which instances with an `__eq__`
and a `__hash__` of their own can break (`unlawful_key_missed`). -/
structure Lawful (o : Objects Key) : Prop where
  equivalence : Equivalence fun a b => o.equal a b = true
  hash_eq : ∀ a b, o.equal a b = true → hashOf o a = hashOf o b
  qstr_eq : ∀ a b, o.isQstr a = true → o.isQstr b = true → o.equal a b = true → a = b
  qstr_str : ∀ a b, o.isQstr a = true → o.equal a b = true →
    o.isQstr b = true ∨ o.isExactStr b = true

structure Elem (Key Val : Type) where
  key : Slot Key
  value : Option Val

structure Map (Key Val : Type) where
  allKeysAreQstrs : Bool
  isFixed : Bool
  isOrdered : Bool
  used : Nat
  alloc : Nat
  table : Nat → Elem Key Val

inductive LookupKind where
  | lookup
  | addIfNotFound
  | removeIfFound
  deriving DecidableEq

inductive Error where
  | typeError
  | memoryError
  deriving DecidableEq

/-- `undefined`: an assertion fails, a write goes through NULL or the fuel is gone. -/
inductive Answer (Key Val : Type) where
  | done (m : Map Key Val) (slot : Option Nat)
  | raised (m : Map Key Val) (error : Error)
  | undefined

def hashAllocationSizes : List Nat :=
  [0, 2, 4, 6, 8, 10, 12, 17, 23, 29, 37, 47, 59, 73, 97, 127, 167, 223, 293, 389, 521, 691, 919,
    1223, 1627, 2161, 3229, 4831, 7243, 10861, 16273, 24407, 36607, 54907]

def getHashAllocGreaterOrEqualTo (x : Nat) : Nat :=
  match hashAllocationSizes.find? fun n => decide (x ≤ n) with
  | some n => n
  -- ran out of primes in the table
  | none => (x + x / 2) ||| 1

def zeroed : Nat → Elem Key Val := fun _ => ⟨.empty, none⟩

def mpMapInit (n : Nat) : Map Key Val := ⟨true, false, false, 0, n, zeroed⟩

def mpMapClear (m : Map Key Val) : Map Key Val :=
  { m with alloc := 0, used := 0, allKeysAreQstrs := true, isFixed := false, table := zeroed }

def Map.setKey (m : Map Key Val) (pos : Nat) (key : Slot Key) : Map Key Val :=
  { m with table := Function.update m.table pos ⟨key, (m.table pos).value⟩ }

def Map.setValue (m : Map Key Val) (pos : Nat) (value : Option Val) : Map Key Val :=
  { m with table := Function.update m.table pos ⟨(m.table pos).key, value⟩ }

/-- The map with a new and empty table. -/
def Map.renewed (m : Map Key Val) (newAlloc : Nat) : Map Key Val :=
  { m with alloc := newAlloc, used := 0, allKeysAreQstrs := true, table := zeroed }

/-- `compare_only_ptrs`, or nothing where the lookup returns NULL at once. -/
def compareOnlyPtrs (o : Objects Key) (m : Map Key Val) (index : Key) (kind : LookupKind) :
    Option Bool :=
  if m.allKeysAreQstrs then
    if o.isQstr index then some true
    else if o.isExactStr index then some false
    else if kind ≠ .addIfNotFound then none
    else some true
  else some false

section Search
variable [DecidableEq Key]

def isIndex (o : Objects Key) (comparePtrs : Bool) (index key : Key) : Bool :=
  key = index || (!comparePtrs && o.equal key index)

-- The ordered array: a search from its first element to its last.
def orderedSearch (o : Objects Key) (comparePtrs : Bool) (index : Key) (m : Map Key Val) :
    Option Nat :=
  (List.range m.used).find? fun pos =>
    match (m.table pos).key with
    | .filled key => isIndex o comparePtrs index key
    | _ => false

inductive Probe where
  | null (pos : Nat) (availSlot : Option Nat)
  | found (pos : Nat)
  | wrapped (availSlot : Option Nat)
  | running
  deriving DecidableEq

def probe (o : Objects Key) (comparePtrs : Bool) (index : Key) (m : Map Key Val)
    (startPos : Nat) : Nat → Nat → Option Nat → Probe
  | 0, _, _ => .running
  | fuel + 1, pos, availSlot =>
      let next := fun availSlot =>
        if (pos + 1) % m.alloc = startPos then .wrapped availSlot
        else probe o comparePtrs index m startPos fuel ((pos + 1) % m.alloc) availSlot
      match (m.table pos).key with
      | .empty => .null pos availSlot
      | .deleted => next (availSlot.or (some pos))
      | .filled key => if isIndex o comparePtrs index key then .found pos else next availSlot

def addAt (o : Objects Key) (index : Key) (m : Map Key Val) (slot : Nat) : Map Key Val :=
  { m with
    used := m.used + 1
    table := Function.update m.table slot ⟨.filled index, none⟩
    allKeysAreQstrs := m.allKeysAreQstrs && o.isQstr index }

def removeAt (m : Map Key Val) (pos : Nat) : Map Key Val :=
  let key : Slot Key :=
    match (m.table ((pos + 1) % m.alloc)).key with
    | .empty => .empty
    | _ => .deleted
  { m.setKey pos key with used := m.used - 1 }

/-- The loop from `hash % alloc`, begun again after a rehash. -/
def searchFrom (o : Objects Key) (rehash : Map Key Val → Answer Key Val) (comparePtrs : Bool)
    (index : Key) (kind : LookupKind) (hash : Nat) : Nat → Map Key Val → Answer Key Val
  | 0, _ => .undefined
  | fuel + 1, m =>
      match probe o comparePtrs index m (hash % m.alloc) m.alloc (hash % m.alloc) none with
      | .null pos availSlot =>
          if kind = .addIfNotFound then
            .done (addAt o index m (availSlot.getD pos)) (some (availSlot.getD pos))
          else .done m none
      | .found pos => .done (if kind = .removeIfFound then removeAt m pos else m) (some pos)
      | .wrapped availSlot =>
          if kind = .addIfNotFound then
            match availSlot with
            | some slot => .done (addAt o index m slot) (some slot)
            | none =>
                match rehash m with
                | .done m _ => searchFrom o rehash comparePtrs index kind hash fuel m
                | failed => failed
          else .done m none
      | .running => .undefined

def moveFrom (add : Map Key Val → Key → Answer Key Val) (oldTable : Nat → Elem Key Val) :
    List Nat → Map Key Val → Answer Key Val
  | [], m => .done m none
  | i :: rest, m =>
      match (oldTable i).key with
      | .filled key =>
          match add m key with
          | .done m (some slot) =>
              moveFrom add oldTable rest (m.setValue slot (oldTable i).value)
          | .done _ none => .undefined
          | failed => failed
      | _ => moveFrom add oldTable rest m

/-- `room n`: the heap has space for a table of `n` elements. -/
def mpMapRehash (room : Nat → Bool) (add : Map Key Val → Key → Answer Key Val)
    (m : Map Key Val) : Answer Key Val :=
  let newAlloc := getHashAllocGreaterOrEqualTo (m.alloc + 1)
  if room newAlloc then
    moveFrom add m.table (List.range m.alloc) (m.renewed newAlloc)
  else .raised m .memoryError

/-- From the hash on: the table has places by now. -/
def hashLookup (o : Objects Key) (rehash : Map Key Val → Answer Key Val) (comparePtrs : Bool)
    (index : Key) (kind : LookupKind) (fuel : Nat) (m : Map Key Val) : Answer Key Val :=
  match hashOf o index with
  | none => .raised m .typeError
  | some hash => searchFrom o rehash comparePtrs index kind hash fuel m

def mpMapLookup (o : Objects Key) (room : Nat → Bool) :
    Nat → Map Key Val → Key → LookupKind → Answer Key Val
  | 0, _, _, _ => .undefined
  | fuel + 1, m, index, kind =>
      let rehash := mpMapRehash room fun m key => mpMapLookup o room fuel m key .addIfNotFound
      if m.isFixed ∧ kind ≠ .lookup then .undefined
      else
        match compareOnlyPtrs o m index kind with
        | none => .done m none
        | some comparePtrs =>
            if m.isOrdered then .done m (orderedSearch o comparePtrs index m)
            else if m.alloc = 0 then
              if kind = .addIfNotFound then
                match rehash m with
                | .done m _ => hashLookup o rehash comparePtrs index kind (fuel + 1) m
                | failed => failed
              else .done m none
            else hashLookup o rehash comparePtrs index kind (fuel + 1) m

end Search

end NexusOS.MpMap
