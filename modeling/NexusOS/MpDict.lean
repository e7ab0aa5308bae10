import NexusOS.MapLookup

/-!
`py/objdict.c` over the hash table: every operation of a dictionary, on as many
dictionaries as a program makes.
-/

namespace NexusOS.MpDict

open OpenAddressing Association MpMap MapLookup

variable {Key Val : Type}

inductive Raised (Key : Type) where
  | keyError (key : Key)
  | emptyDict
  | lookup (error : Error)
  deriving DecidableEq

inductive Result (Key Val : Type) where
  | none
  | value (value : Val)
  | pair (key : Key) (value : Val)
  | truth (yes : Bool)
  | count (n : Nat)
  | items (l : List (Key × Option Val))
  | raised (error : Raised Key)
  deriving DecidableEq

/-- What the garbage collected heap still grants: a table of so many elements, one
small object. -/
structure Grant where
  table : Nat → Bool
  object : Bool

abbrev Outcome (Key Val : Type) := Option (Map Key Val × Result Key Val)

def afterLookup (answer : Answer Key Val) (next : Map Key Val → Option Nat → Outcome Key Val) :
    Outcome Key Val :=
  match answer with
  | .done m slot => next m slot
  | .raised m error => some (m, .raised (.lookup error))
  | .undefined => none

def dictIterNext (m : Map Key Val) (cur : Nat) : Option ((Key × Option Val) × Nat) :=
  (List.range' cur (m.alloc - cur)).findSome? fun i => (held m i).map fun e => (e, i + 1)

def itemsFrom (m : Map Key Val) : Nat → Nat → List (Key × Option Val)
  | 0, _ => []
  | fuel + 1, cur =>
      match dictIterNext m cur with
      | some (e, next) => e :: itemsFrom m fuel next
      | none => []

def dictClear (m : Map Key Val) : Outcome Key Val :=
  if m.isFixed then some (m, .raised (.lookup .typeError)) else some (mpMapClear m, .none)

def popAt (m : Map Key Val) (pos : Nat) : Map Key Val :=
  { (m.setValue pos none).setKey pos .deleted with used := m.used - 1 }

def dictPopitem (g : Grant) (m : Map Key Val) : Outcome Key Val :=
  if m.isFixed then some (m, .raised (.lookup .typeError))
  else if m.used = 0 then some (m, .raised .emptyDict)
  else
    match dictIterNext m 0 with
    | some ((key, some value), next) =>
        let m := popAt m (next - 1)
        -- the tuple is made when the element is already gone
        if g.object then some (m, .pair key value) else some (m, .raised (.lookup .memoryError))
    | _ => none

def mpObjDictCopy (g : Grant) (m : Map Key Val) : Option (Map Key Val) :=
  if g.object && (m.alloc = 0 || g.table m.alloc) then
    some ⟨m.allKeysAreQstrs, false, m.isOrdered, m.used, m.alloc, m.table⟩
  else none

section Ops
variable [DecidableEq Key] (o : Objects Key) (constNone : Val) (g : Grant)

/-- Two levels of the calls between lookup and rehash are enough (`lookup_add`). -/
def lookup (m : Map Key Val) (index : Key) (kind : LookupKind) : Answer Key Val :=
  mpMapLookup o g.table 2 m index kind

def mpObjDictStore (m : Map Key Val) (key : Key) (value : Val) : Outcome Key Val :=
  if m.isFixed then some (m, .raised (.lookup .typeError))
  else afterLookup (lookup o g m key .addIfNotFound) fun m slot =>
    slot.map fun pos => (m.setValue pos (some value), .none)

def mpObjDictGet (m : Map Key Val) (index : Key) : Outcome Key Val :=
  afterLookup (lookup o g m index .lookup) fun m slot =>
    match slot with
    | none => some (m, .raised (.keyError index))
    | some pos => (m.table pos).value.map fun value => (m, .value value)

def dictContains (m : Map Key Val) (index : Key) : Outcome Key Val :=
  afterLookup (lookup o g m index .lookup) fun m slot => some (m, .truth slot.isSome)

/-- `dflt` is the third argument when there is one. -/
def dictGetHelper (m : Map Key Val) (index : Key) (dflt : Option Val) (kind : LookupKind) :
    Outcome Key Val :=
  if kind ≠ .lookup ∧ m.isFixed then some (m, .raised (.lookup .typeError))
  else afterLookup (lookup o g m index kind) fun m slot =>
    match slot.bind fun pos => (m.table pos).value with
    | none =>
        if kind = .removeIfFound ∧ dflt = none then some (m, .raised (.keyError index))
        else if kind = .addIfNotFound then
          slot.map fun pos =>
            (m.setValue pos (some (dflt.getD constNone)), .value (dflt.getD constNone))
        else some (m, .value (dflt.getD constNone))
    | some value =>
        if kind = .removeIfFound then
          slot.map fun pos => (m.setValue pos none, .value value)
        else some (m, .value value)

def dictGet (m : Map Key Val) (index : Key) (dflt : Option Val) : Outcome Key Val :=
  dictGetHelper o constNone g m index dflt .lookup

def dictPop (m : Map Key Val) (index : Key) (dflt : Option Val) : Outcome Key Val :=
  dictGetHelper o constNone g m index dflt .removeIfFound

def dictSetdefault (m : Map Key Val) (index : Key) (dflt : Option Val) : Outcome Key Val :=
  dictGetHelper o constNone g m index dflt .addIfNotFound

def mpObjDictDelete (m : Map Key Val) (key : Key) : Outcome Key Val :=
  (dictGetHelper o constNone g m key none .removeIfFound).map fun (m, result) =>
    match result with
    | .raised error => (m, .raised error)
    | _ => (m, .none)

/-- The loop of `dict_update` over another dictionary. -/
def updateFrom (other : Map Key Val) : Nat → Nat → Map Key Val → Outcome Key Val
  | 0, _, _ => none
  | fuel + 1, cur, m =>
      match dictIterNext other cur with
      | none => some (m, .none)
      | some ((key, value), next) =>
          afterLookup (lookup o g m key .addIfNotFound) fun m slot =>
            slot.bind fun pos => updateFrom other fuel next (m.setValue pos value)

/-- `isSelf`: the other dictionary is this one. -/
def dictUpdate (m other : Map Key Val) (isSelf : Bool) : Outcome Key Val :=
  if m.isFixed then some (m, .raised (.lookup .typeError))
  else if isSelf then some (m, .none)
  else updateFrom o g other (other.alloc + 1) 0 m

/-- The loop of `dict_binary_op` for `==`. -/
def equalFrom (valueEqual : Val → Val → Bool) (lhs rhs : Map Key Val) :
    Nat → Nat → Option (Result Key Val)
  | 0, _ => none
  | fuel + 1, cur =>
      match dictIterNext lhs cur with
      | none => some (.truth true)
      | some ((key, value), next) =>
          match lookup o g rhs key .lookup with
          | .done _ none => some (.truth false)
          | .done rhs (some pos) =>
              match value, (rhs.table pos).value with
              | some a, some b =>
                  if valueEqual a b then equalFrom valueEqual lhs rhs fuel next
                  else some (.truth false)
              | _, _ => none
          | .raised _ error => some (.raised (.lookup error))
          | .undefined => none

def dictEqual (valueEqual : Val → Val → Bool) (lhs rhs : Map Key Val) : Option (Result Key Val) :=
  if lhs.used ≠ rhs.used then some (.truth false)
  else equalFrom o g valueEqual lhs rhs (lhs.alloc + 1) 0

end Ops

inductive Op (Key Val : Type) where
  | store (key : Key) (value : Val)
  | load (key : Key)
  | delete (key : Key)
  | get (key : Key) (dflt : Option Val)
  | pop (key : Key) (dflt : Option Val)
  | setdefault (key : Key) (dflt : Option Val)
  | contains (key : Key)
  | popitem
  | clear
  | len
  | items

/-- Dictionaries are named by numbers; `copy i j` makes `j` the copy of `i`. -/
inductive Call (Key Val : Type) where
  | on (i : Nat) (op : Op Key Val)
  | update (i j : Nat)
  | copy (i j : Nat)
  | equal (i j : Nat)

section Run
variable [DecidableEq Key] (o : Objects Key) (valueEqual : Val → Val → Bool) (constNone : Val)

def apply (g : Grant) (m : Map Key Val) : Op Key Val → Outcome Key Val
  | .store key value => mpObjDictStore o g m key value
  | .load key => mpObjDictGet o g m key
  | .delete key => mpObjDictDelete o constNone g m key
  | .get key dflt => dictGet o constNone g m key dflt
  | .pop key dflt => dictPop o constNone g m key dflt
  | .setdefault key dflt => dictSetdefault o constNone g m key dflt
  | .contains key => dictContains o g m key
  | .popitem => dictPopitem g m
  | .clear => dictClear m
  | .len => some (m, .count m.used)
  | .items => some (m, .items (itemsFrom m (m.alloc + 1) 0))

abbrev World (Key Val : Type) := Nat → Map Key Val

def step (g : Grant) (w : World Key Val) : Call Key Val → Option (World Key Val × Result Key Val)
  | .on i op => (apply o constNone g (w i) op).map fun (m, result) =>
      (Function.update w i m, result)
  | .update i j => (dictUpdate o g (w i) (w j) (i = j)).map fun (m, result) =>
      (Function.update w i m, result)
  | .copy i j =>
      match mpObjDictCopy g (w i) with
      | some m => some (Function.update w j m, .none)
      | none => some (w, .raised (.lookup .memoryError))
  | .equal i j => (dictEqual o g valueEqual (w i) (w j)).map fun result => (w, result)

def run : List (Grant × Call Key Val) → World Key Val →
    Option (World Key Val × List (Result Key Val))
  | [], w => some (w, [])
  | (g, call) :: rest, w =>
      (step o valueEqual constNone g w call).bind fun (next, result) =>
        (run rest next).map fun (last, results) => (last, result :: results)

end Run

/-- Strings and small ints as keys: an interned string is its text, a plain one also
has an address of its own. -/
inductive Name where
  | qstr (text : List UInt8)
  | str (address : Nat) (text : List UInt8)
  | smallInt (n : Int)
  deriving DecidableEq

def qstrComputeHash (data : List UInt8) : Nat :=
  let hash := data.foldl (fun (hash : UInt32) c => ((hash <<< 5) + hash) ^^^ c.toUInt32) 5381
  if hash &&& 0xFF = 0 then 1 else (hash &&& 0xFF).toNat

/-- What `mp_obj_str_equal` and the small int path of `mp_obj_equal` compare. -/
def Name.compared : Name → List UInt8 ⊕ Int
  | .qstr text | .str _ text => .inl text
  | .smallInt n => .inr n

def Name.hash (name : Name) : Nat :=
  match name.compared with
  | .inl text => qstrComputeHash text
  | .inr n => (n % 2 ^ 32).toNat

def names : Objects Name where
  isQstr name := match name with | .qstr _ => true | _ => false
  isExactStr name := match name with | .str _ _ => true | _ => false
  qstrHash := Name.hash
  unaryHash name := some name.hash
  equal a b := a.compared = b.compared

theorem names_lawful : Lawful names := by
  have same : ∀ a b, names.equal a b = true ↔ a.compared = b.compared := fun a b =>
    decide_eq_true_iff
  have hashes : ∀ name, hashOf names name = some name.hash := by
    intro name
    rw [hashOf]
    split <;> rfl
  refine ⟨⟨fun a => (same a a).mpr rfl, fun {a b} ab => (same b a).mpr ((same a b).mp ab).symm,
    fun {a b c} ab bc => (same a c).mpr (((same a b).mp ab).trans ((same b c).mp bc))⟩,
    fun a b ab => ?_, fun a b left right ab => ?_, fun a b left ab => ?_⟩
  · rw [hashes, hashes, Name.hash, Name.hash, (same a b).mp ab]
  · have texts := (same a b).mp ab
    cases a <;> cases b <;> simp_all [names, Name.compared]
  · have texts := (same a b).mp ab
    cases a <;> cases b <;> simp_all [names, Name.compared]

end NexusOS.MpDict
