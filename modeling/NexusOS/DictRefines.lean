import NexusOS.MpDict

/-!
The dictionaries of a program are what the language says they are: in any run of
operations every result is that of plain finite dictionaries. An operation fails
where its key has no hash or the heap refuses what it needs, and nowhere else.
-/

namespace NexusOS.DictRefines

open OpenAddressing Association MpMap MapLookup MpDict

variable {Key Val : Type}

def pairs (d : List (Key × Val)) : List (Key × Option Val) := d.map fun e => (e.1, some e.2)

structure Represents (o : Objects Key) (m : Map Key Val) (d : List (Key × Val)) : Prop where
  formed : Formed o m
  order : (contents m).Perm (pairs d)

section Meaning
variable (o : Objects Key) (valueEqual : Val → Val → Bool) (constNone : Val)

/-- The language's dictionaries, the pairs in some order. -/
def meaning (d : List (Key × Val)) : Op Key Val → Result Key Val × List (Key × Val)
  | .store key value => (.none, put o.equal d key value)
  | .load key =>
      match find o.equal d key with
      | some e => (.value e.2, d)
      | none => (.raised (.keyError key), d)
  | .delete key =>
      match find o.equal d key with
      | some _ => (.none, erase o.equal d key)
      | none => (.raised (.keyError key), d)
  | .get key dflt =>
      match find o.equal d key with
      | some e => (.value e.2, d)
      | none => (.value (dflt.getD constNone), d)
  | .pop key dflt =>
      match find o.equal d key, dflt with
      | some e, _ => (.value e.2, erase o.equal d key)
      | none, some value => (.value value, d)
      | none, none => (.raised (.keyError key), d)
  | .setdefault key dflt =>
      match find o.equal d key with
      | some e => (.value e.2, d)
      | none => (.value (dflt.getD constNone), put o.equal d key (dflt.getD constNone))
  | .contains key => (.truth (find o.equal d key).isSome, d)
  | .popitem =>
      match d with
      | [] => (.raised .emptyDict, [])
      | e :: rest => (.pair e.1 e.2, rest)
  | .clear => (.none, [])
  | .len => (.count d.length, d)
  | .items => (.items (pairs d), d)

def opKey : Op Key Val → Option Key
  | .store key _ | .load key | .delete key | .get key _ | .pop key _ | .setdefault key _
  | .contains key => some key
  | .popitem | .clear | .len | .items => none

def adds : Op Key Val → Bool
  | .store _ _ | .setdefault _ _ => true
  | _ => false

/-- The heap has no table for a dictionary that is full with the pairs of `d`. -/
def TableRefused (g : Grant) (d : List (Key × Val)) : Prop :=
  g.table (getHashAllocGreaterOrEqualTo (d.length + 1)) = false

/-- What an operation may come to while the heap grants `g`. -/
inductive Means (g : Grant) (d : List (Key × Val)) (op : Op Key Val) :
    Result Key Val → List (Key × Val) → Prop where
  | meant {any : List (Key × Val)} (order : any.Perm d)
      (hashed : adds op = true → ∀ key, opKey op = some key → hashOf o key ≠ none) :
      Means g d op (meaning o constNone any op).1 (meaning o constNone any op).2
  | unhashable {key : Key} (uses : opKey op = some key) (unknown : hashOf o key = none) :
      Means g d op (.raised (.lookup .typeError)) d
  | noTable {key : Key} (uses : opKey op = some key) (grows : adds op = true)
      (absent : find o.equal d key = none) (refused : TableRefused g d) :
      Means g d op (.raised (.lookup .memoryError)) d
  -- The one failure that changes a dictionary: the pair is gone before its tuple is made.
  | noTuple {e : Key × Val} {rest : List (Key × Val)} (pops : op = .popitem)
      (order : d.Perm (e :: rest)) (refused : g.object = false) :
      Means g d op (.raised (.lookup .memoryError)) rest

def putAll (d l : List (Key × Val)) : List (Key × Val) :=
  l.foldl (fun d e => put o.equal d e.1 e.2) d

/-- Two dictionaries with equal values under equal keys, and no others. -/
def SameDict (d e : List (Key × Val)) : Prop :=
  ∀ key, match find o.equal d key, find o.equal e key with
    | some a, some b => valueEqual a.2 b.2 = true
    | none, none => True
    | _, _ => False

inductive Step (g : Grant) (d : Nat → List (Key × Val)) :
    Call Key Val → Result Key Val → (Nat → List (Key × Val)) → Prop where
  | on {i : Nat} {op : Op Key Val} {result : Result Key Val} {after : List (Key × Val)}
      (means : Means o constNone g (d i) op result after) :
      Step g d (.on i op) result (Function.update d i after)
  | updateSelf {i : Nat} : Step g d (.update i i) .none d
  | update {i j : Nat} {order : List (Key × Val)} (differ : i ≠ j) (perm : order.Perm (d j)) :
      Step g d (.update i j) .none (Function.update d i (putAll o (d i) order))
  -- An update that finds no memory has put the pairs before the one that needs a table.
  | updateHalts {i j : Nat} {put left : List (Key × Val)} {e : Key × Val} (differ : i ≠ j)
      (perm : (put ++ e :: left).Perm (d j))
      (absent : find o.equal (putAll o (d i) put) e.1 = none)
      (refused : TableRefused g (putAll o (d i) put)) :
      Step g d (.update i j) (.raised (.lookup .memoryError))
        (Function.update d i (putAll o (d i) put))
  | copy {i j : Nat} : Step g d (.copy i j) .none (Function.update d j (d i))
  | noCopy {i j : Nat}
      (refused : g.object = false ∨ ∃ size ≥ (d i).length, g.table size = false) :
      Step g d (.copy i j) (.raised (.lookup .memoryError)) d
  | equal {i j : Nat} {answer : Bool}
      (same : answer = true ↔ SameDict o valueEqual (d i) (d j)) :
      Step g d (.equal i j) (.truth answer) d

inductive Runs : (Nat → List (Key × Val)) → List (Grant × Call Key Val) →
    List (Result Key Val) → (Nat → List (Key × Val)) → Prop where
  | nil {d : Nat → List (Key × Val)} : Runs d [] [] d
  | cons {d between after : Nat → List (Key × Val)} {g : Grant} {call : Call Key Val}
      {result : Result Key Val} {calls : List (Grant × Call Key Val)}
      {results : List (Result Key Val)}
      (first : Step o valueEqual constNone g d call result between)
      (rest : Runs between calls results after) :
      Runs d ((g, call) :: calls) (result :: results) after

end Meaning

section Lookups
variable {o : Objects Key} {constNone : Val} {g : Grant} {m : Map Key Val}
  {d : List (Key × Val)} {key : Key}

theorem Represents.distinct (represents : Represents o m d) (laws : Lawful o) :
    Distinct o.equal d := by
  have apart := (distinct_perm laws.equivalence represents.order).mp represents.formed.distinct
  exact List.pairwise_map.mp apart

theorem Represents.reorder {e : List (Key × Val)} (represents : Represents o m d)
    (order : d.Perm e) : Represents o m e :=
  ⟨represents.formed, represents.order.trans (order.map _)⟩

/-- The pair the slot holds, set apart from the rest. -/
structure Holds (o : Objects Key) (m : Map Key Val) (d : List (Key × Val)) (key : Key) (pos : Nat)
    (e : Key × Val) (rest : List (Key × Val)) : Prop where
  below : pos < m.alloc
  filled : slots m pos = .filled e.1
  value : (m.table pos).value = some e.2
  matched : o.equal e.1 key = true
  order : d.Perm (e :: rest)

theorem found_holds {pos : Nat} (represents : Represents o m d) (found : Found o m key pos) :
    ∃ e rest, Holds o m d key pos e rest := by
  rcases found with ⟨below, stored, filled, matched⟩
  have member := represents.order.mem_iff.mp (mem_of_filled below filled)
  rcases List.mem_map.mp member with ⟨e, inside, pair⟩
  rcases List.append_of_mem inside with ⟨before, later, rfl⟩
  obtain ⟨rfl, value⟩ := Prod.mk.injEq _ _ _ _ ▸ pair
  exact ⟨e, before ++ later, below, filled, value.symm, matched, List.perm_middle⟩

theorem Holds.found {pos : Nat} {e : Key × Val} {rest : List (Key × Val)}
    (holds : Holds o m d key pos e rest) (represents : Represents o m d) (laws : Lawful o) :
    find o.equal d key = some e :=
  find_head laws.equivalence (represents.distinct laws) holds.order holds.matched

theorem Holds.hashed {pos : Nat} {e : Key × Val} {rest : List (Key × Val)}
    (holds : Holds o m d key pos e rest) (represents : Represents o m d) (laws : Lawful o) :
    hashOf o key ≠ none := by
  have keyed := represents.formed.keyed _ (mem_of_filled holds.below holds.filled)
  rwa [laws.hash_eq e.1 key holds.matched] at keyed

theorem missing_find (represents : Represents o m d) (missing : Missing o m key) :
    find o.equal d key = none := by
  refine List.find?_eq_none.mpr fun e member => ?_
  have inside : (e.1, some e.2) ∈ pairs d := List.mem_map.mpr ⟨e, member, rfl⟩
  exact missing _ (represents.order.mem_iff.mpr inside)

theorem Holds.set {pos : Nat} {e : Key × Val} {rest : List (Key × Val)}
    (holds : Holds o m d key pos e rest) (represents : Represents o m d) (laws : Lawful o)
    (value : Val) : Represents o (m.setValue pos (some value)) (put o.equal d key value) := by
  have order : (contents m).Perm ((e.1, some e.2) :: pairs rest) :=
    represents.order.trans (holds.order.map _)
  have plain : Represents o (m.setValue pos (some value)) ((e.1, value) :: rest) :=
    ⟨represents.formed.set_value holds.below holds.filled holds.value order _,
      contents_set_value holds.below holds.filled holds.value order _⟩
  exact plain.reorder (put_head laws.equivalence (represents.distinct laws) holds.order
    holds.matched
    value).symm

theorem added_set {after : Map Key Val} {pos : Nat} (represents : Represents o m d)
    (added : Added o m key after pos) (value : Val) :
    Represents o (after.setValue pos (some value)) (put o.equal d key value) := by
  have filled : slots after pos = .filled key := congrArg Elem.key added.elem
  have unset : (after.table pos).value = none := congrArg Elem.value added.elem
  rw [put, missing_find represents added.missing]
  exact ⟨added.formed.set_value added.below filled unset added.order _,
    (contents_set_value added.below filled unset added.order _).trans
      (represents.order.cons _)⟩

theorem Holds.remove {pos : Nat} {e : Key × Val} {rest : List (Key × Val)}
    (holds : Holds o m d key pos e rest) (represents : Represents o m d) :
    Represents o (removeAt m pos) rest := by
  have stored := held_filled holds.filled
  rw [holds.value] at stored
  rcases represents.formed.remove holds.below stored with ⟨formed, order⟩
  exact ⟨formed, (order.symm.trans (represents.order.trans (holds.order.map _))).cons_inv⟩

theorem Represents.set_vacant {pos : Nat} (represents : Represents o m d)
    (vacant : held m pos = none) (value : Option Val) :
    Represents o (m.setValue pos value) d := by
  have same : contents (m.setValue pos value) = contents m := by
    refine entries_congr fun p _ => ?_
    by_cases here : p = pos
    · subst here
      rw [vacant]
      refine held_vacant fun k filled => ?_
      rw [slots_set_value] at filled
      rw [held_filled filled] at vacant
      cases vacant
    · simp [held, Map.setValue, here]
  rcases represents with ⟨⟨plain, hashed, sound, keyed, used, qstrs⟩, order⟩
  rw [← same] at keyed used qstrs order
  exact ⟨⟨plain, hashed, by rw [slots_set_value]; exact sound, keyed, used, qstrs⟩, order⟩

/-- The operation ends, in a way the language allows. -/
def Ends (o : Objects Key) (constNone : Val) (g : Grant) (d : List (Key × Val))
    (op : Op Key Val) (outcome : Outcome Key Val) : Prop :=
  ∃ after result e, outcome = some (after, result) ∧ Means o constNone g d op result e ∧
    Represents o after e

theorem uses_hashed {op : Op Key Val} (uses : opKey op = some key) (known : hashOf o key ≠ none)
    (_ : adds op = true) (other : Key) (used : opKey op = some other) : hashOf o other ≠ none := by
  rw [uses] at used
  cases used
  exact known

theorem ends_meaning {op : Op Key Val} {after : Map Key Val} {result : Result Key Val}
    {e : List (Key × Val)} (g : Grant) (means : meaning o constNone d op = (result, e))
    (hashed : adds op = true → ∀ key, opKey op = some key → hashOf o key ≠ none)
    (represents : Represents o after e) :
    Ends o constNone g d op (some (after, result)) := by
  have meant : Means o constNone g d op (meaning o constNone d op).1
      (meaning o constNone d op).2 := .meant (List.Perm.refl d) hashed
  rw [means] at meant
  exact ⟨after, result, e, rfl, meant, represents⟩

theorem ends_unhashable {op : Op Key Val} {after : Map Key Val} (g : Grant)
    (represents : Represents o after d) (uses : opKey op = some key)
    (unknown : hashOf o key = none) :
    Ends o constNone g d op (some (after, .raised (.lookup .typeError))) :=
  ⟨after, _, d, rfl, .unhashable uses unknown, represents⟩

theorem ends_no_table {op : Op Key Val} {g : Grant} (represents : Represents o m d)
    (uses : opKey op = some key) (grows : adds op = true) (absent : find o.equal d key = none)
    (refused : TableRefused g d) :
    Ends o constNone g d op (some (m, .raised (.lookup .memoryError))) :=
  ⟨m, _, d, rfl, .noTable uses grows absent refused, represents⟩

end Lookups

section Iteration
variable {o : Objects Key} {constNone : Val} {m : Map Key Val} {d : List (Key × Val)}

/-- The elements an iteration at `cur` has still to come to. -/
def ahead (m : Map Key Val) (cur : Nat) : List (Key × Option Val) :=
  (List.range' cur (m.alloc - cur)).filterMap (held m)

theorem ahead_zero (m : Map Key Val) : ahead m 0 = contents m := by
  rw [ahead, Nat.sub_zero, ← List.range_eq_range', contents, entries]

theorem iter_next (m : Map Key Val) (cur : Nat) :
    dictIterNext m cur = none ∧ ahead m cur = [] ∨
      ∃ e next, dictIterNext m cur = some (e, next + 1) ∧ ahead m cur = e :: ahead m (next + 1) ∧
        next < m.alloc ∧ held m next = some e := by
  rw [dictIterNext, ahead]
  induction left : m.alloc - cur generalizing cur with
  | zero => exact Or.inl ⟨rfl, rfl⟩
  | succ n ih =>
      have less : m.alloc - (cur + 1) = n := by omega
      rw [List.range'_succ, List.findSome?_cons]
      cases here : held m cur with
      | none =>
          rw [List.filterMap_cons_none here]
          exact ih (cur + 1) less
      | some e =>
          rw [List.filterMap_cons_some here]
          refine Or.inr ⟨e, cur, rfl, ?_, by omega, here⟩
          rw [ahead, less]

theorem items_ahead {fuel cur : Nat} (enough : (ahead m cur).length < fuel) :
    itemsFrom m fuel cur = ahead m cur := by
  induction fuel generalizing cur with
  | zero => cases enough
  | succ fuel ih =>
      rw [itemsFrom]
      rcases iter_next m cur with ⟨ends, finished⟩ | ⟨e, next, found, more, _, _⟩
      · rw [ends, finished]
      · rw [more] at enough ⊢
        rw [found]
        exact congrArg _ (ih (Nat.lt_of_succ_lt_succ enough))

theorem contents_enough (m : Map Key Val) : (ahead m 0).length < m.alloc + 1 := by
  rw [ahead_zero]
  exact Nat.lt_succ_of_le (entries_length_le _ _)

-- The table's own order is one of the orders of the dictionary.
theorem represents_list (represents : Represents o m d) :
    ∃ order, contents m = pairs order ∧ order.Perm d := by
  have back := represents.order.filterMap fun e => e.2.map fun value => (e.1, value)
  have whole : (pairs d).filterMap (fun e => e.2.map fun value => (e.1, value)) = d := by
    rw [pairs, List.filterMap_map]
    exact List.filterMap_some
  rw [whole] at back
  refine ⟨_, ?_, back⟩
  have valued : ∀ e ∈ contents m, ∃ value, e.2 = some value := by
    intro e member
    rcases List.mem_map.mp (represents.order.mem_iff.mp member) with ⟨pair, _, rfl⟩
    exact ⟨pair.2, rfl⟩
  generalize contents m = l at valued ⊢
  induction l with
  | nil => rfl
  | cons e rest ih =>
      rcases valued e List.mem_cons_self with ⟨value, matched⟩
      have tail := ih fun x member => valued x (List.mem_cons_of_mem _ member)
      rw [List.filterMap_cons_some (b := (e.1, value)) (by rw [matched]; rfl), pairs, List.map_cons,
        ← pairs, ← tail, ← matched]

theorem represents_length (represents : Represents o m d) : m.used = d.length := by
  rw [represents.formed.used, represents.order.length_eq, pairs, List.length_map]

theorem len_ends (g : Grant) (represents : Represents o m d) :
    Ends o constNone g d .len (some (m, .count m.used)) :=
  ends_meaning g (by rw [meaning, represents_length represents]) nofun represents

theorem clear_ends (g : Grant) (represents : Represents o m d) :
    Ends o constNone g d .clear (dictClear m) := by
  rw [dictClear, represents.formed.plain]
  rcases clear_formed represents.formed with ⟨formed, emptied⟩
  refine ends_meaning g rfl nofun ⟨formed, ?_⟩
  rw [emptied]
  exact List.Perm.refl _

theorem items_ends (g : Grant) (represents : Represents o m d) :
    Ends o constNone g d .items (some (m, .items (itemsFrom m (m.alloc + 1) 0))) := by
  rw [items_ahead (contents_enough m), ahead_zero]
  rcases represents_list represents with ⟨order, list, perm⟩
  rw [list]
  exact ⟨m, _, _, rfl, .meant perm nofun, represents.reorder perm.symm⟩

theorem popped_represents {key : Key} {pos : Nat} {e : Key × Val} {rest : List (Key × Val)}
    (represents : Represents o m d) (holds : Holds o m d key pos e rest) :
    Represents o (popAt m pos) rest := by
  have stored := held_filled holds.filled
  rw [holds.value] at stored
  have gone : held (popAt m pos) = Function.update (held m) pos none := by
    funext p
    by_cases here : p = pos
    · subst here
      simp [held, popAt, Map.setKey, Map.setValue]
    · simp [held, popAt, Map.setKey, Map.setValue, here]
  have marked : slots (popAt m pos) = Function.update (slots m) pos .deleted := by
    funext p
    by_cases here : p = pos
    · subst here
      simp [slots, popAt, Map.setKey]
    · simp [slots, popAt, Map.setKey, Map.setValue, here]
  rcases represents.formed.take holds.below stored gone
    (marked ▸ sound_delete represents.formed.sound pos) with ⟨formed, order⟩
  exact ⟨formed, (order.symm.trans (represents.order.trans (holds.order.map _))).cons_inv⟩

-- Deleting at the first element found leaves the mark that keeps walks going.
theorem popitem_ends (laws : Lawful o) (represents : Represents o m d) (g : Grant) :
    Ends o constNone g d .popitem (dictPopitem g m) := by
  rw [dictPopitem, represents.formed.plain]
  by_cases empty : m.used = 0
  · have nothing : d = [] := List.length_eq_zero_iff.mp (represents_length represents ▸ empty)
    subst nothing
    simp only [Bool.false_eq_true, empty, ↓reduceIte]
    exact ends_meaning g rfl nofun represents
  · simp only [Bool.false_eq_true, empty, ↓reduceIte]
    rcases iter_next m 0 with ⟨_, finished⟩ | ⟨e, next, found, _, below, here⟩
    · rw [ahead_zero] at finished
      rw [represents.formed.used, finished] at empty
      exact absurd rfl empty
    · rcases held_some here with ⟨filled, value⟩
      have known : Found o m e.1 next :=
        ⟨below, e.1, filled, laws.equivalence.refl e.1⟩
      rcases found_holds represents known with ⟨pair, rest, holds⟩
      have key : pair.1 = e.1 := Slot.filled.inj (holds.filled.symm.trans filled)
      rw [holds.value] at value
      have taken := popped_represents represents holds
      have whole : e = (pair.1, some pair.2) := Prod.ext key.symm value.symm
      rw [found, whole]
      cases grant : g.object with
      | true => exact ⟨_, _, _, rfl, .meant holds.order.symm nofun, taken⟩
      | false => exact ⟨_, _, _, rfl, .noTuple rfl holds.order grant, taken⟩

theorem same_dict_iff (valueEqual : Val → Val → Bool) (laws : Lawful o) {e : List (Key × Val)}
    (first : Distinct o.equal d)
    (second : Distinct o.equal e) : SameDict o valueEqual d e ↔ d.length = e.length ∧
      ∀ x ∈ d, ∃ y, find o.equal e x.1 = some y ∧ valueEqual x.2 y.2 = true := by
  constructor
  · intro same
    have forward : ∀ x ∈ d, ∃ y, find o.equal e x.1 = some y ∧ valueEqual x.2 y.2 = true := by
      intro x member
      have here := same x.1
      rw [find_mem laws.equivalence first member (laws.equivalence.refl x.1)] at here
      cases there : find o.equal e x.1 with
      | none => rw [there] at here; exact here.elim
      | some y => rw [there] at here; exact ⟨y, rfl, here⟩
    refine ⟨Nat.le_antisymm ?_ ?_, forward⟩
    · refine covered_length laws.equivalence first second fun x member lacking => ?_
      rcases forward x member with ⟨y, found, _⟩
      rw [lacking] at found
      cases found
    · refine covered_length laws.equivalence second first fun y member lacking => ?_
      have here := same y.1
      rw [lacking, find_mem laws.equivalence second member (laws.equivalence.refl y.1)] at here
      exact here
  · rintro ⟨size, forward⟩ key
    cases mine : find o.equal d key with
    | some x =>
        have member := List.mem_of_find?_eq_some mine
        have matched : o.equal x.1 key = true := by simpa using List.find?_some mine
        rcases forward x member with ⟨y, found, hit⟩
        have at_y : o.equal y.1 x.1 = true := by simpa using List.find?_some found
        rw [find_mem laws.equivalence second (List.mem_of_find?_eq_some found)
          (laws.equivalence.trans at_y matched)]
        exact hit
    | none =>
        cases yours : find o.equal e key with
        | none => trivial
        | some y =>
            have matched : o.equal y.1 key = true := by simpa using List.find?_some yours
            have back := covered_back laws.equivalence first second size.ge
              (fun x member lacking => by
              rcases forward x member with ⟨z, found, _⟩
              rw [lacking] at found
              cases found) y (List.mem_of_find?_eq_some yours)
            rcases Option.ne_none_iff_exists'.mp back with ⟨x, found⟩
            have at_x : o.equal x.1 y.1 = true := by simpa using List.find?_some found
            rw [find_mem laws.equivalence first (List.mem_of_find?_eq_some found)
              (laws.equivalence.trans at_x matched)] at mine
            cases mine

theorem copy_represents (represents : Represents o m d) {g : Grant} {copy : Map Key Val}
    (made : mpObjDictCopy g m = some copy) : Represents o copy d := by
  rw [mpObjDictCopy] at made
  split at made
  · cases made
    rcases represents with ⟨⟨_, hashed, sound, keyed, used, qstrs⟩, order⟩
    exact ⟨⟨rfl, hashed, sound, keyed, used, qstrs⟩, order⟩
  · cases made

theorem copy_refused (represents : Represents o m d) {g : Grant}
    (refused : mpObjDictCopy g m = none) :
    g.object = false ∨ ∃ size ≥ d.length, g.table size = false := by
  rw [mpObjDictCopy] at refused
  cases object : g.object with
  | false => exact Or.inl rfl
  | true =>
      have fits : d.length ≤ m.alloc := by
        rw [← represents_length represents, represents.formed.used]
        exact entries_length_le _ _
      refine Or.inr ⟨m.alloc, fits, ?_⟩
      cases table : g.table m.alloc with
      | false => rfl
      | true => simp [object, table] at refused

def AllRepresent (o : Objects Key) (w : World Key Val) (d : Nat → List (Key × Val)) : Prop :=
  ∀ i, Represents o (w i) (d i)

theorem all_update {w : World Key Val} {d : Nat → List (Key × Val)} {m : Map Key Val}
    {e : List (Key × Val)} (all : AllRepresent o w d) (i : Nat) (represents : Represents o m e) :
    AllRepresent o (Function.update w i m) (Function.update d i e) := by
  intro j
  by_cases here : j = i
  · subst here
    rwa [Function.update_self, Function.update_self]
  · rw [Function.update_of_ne here, Function.update_of_ne here]
    exact all j

end Iteration

section Operations
variable [DecidableEq Key] {o : Objects Key} {valueEqual : Val → Val → Bool} {constNone : Val}
  {m : Map Key Val}
  {d : List (Key × Val)} {key : Key}

theorem lookup_finds (laws : Lawful o) (represents : Represents o m d) (g : Grant) (key : Key)
    (kind : LookupKind) (finds : kind ≠ .addIfNotFound) :
    (∃ pos e rest, lookup o g m key kind =
        .done (if kind = .removeIfFound then removeAt m pos else m) (some pos) ∧
      Holds o m d key pos e rest) ∨
    (lookup o g m key kind = .done m none ∧ find o.equal d key = none) ∨
    (lookup o g m key kind = .raised m .typeError ∧ hashOf o key = none) := by
  have spec := lookup_find laws represents.formed key finds g.table 1
  rw [lookup]
  generalize mpMapLookup o g.table 2 m key kind = answer at spec ⊢
  cases spec with
  | found matched =>
      rcases found_holds represents matched with ⟨e, rest, holds⟩
      exact Or.inl ⟨_, e, rest, rfl, holds⟩
  | missing matched => exact Or.inr (Or.inl ⟨rfl, missing_find represents matched⟩)
  | unhashable unknown => exact Or.inr (Or.inr ⟨rfl, unknown⟩)

theorem lookup_adds (laws : Lawful o) (represents : Represents o m d) (g : Grant) (key : Key) :
    (∃ pos e rest, lookup o g m key .addIfNotFound = .done m (some pos) ∧
      Holds o m d key pos e rest) ∨
    (∃ after pos, lookup o g m key .addIfNotFound = .done after (some pos) ∧
      Added o m key after pos ∧ hashOf o key ≠ none) ∨
    (lookup o g m key .addIfNotFound = .raised m .memoryError ∧ find o.equal d key = none ∧
      TableRefused g d) ∨
    (∃ after, lookup o g m key .addIfNotFound = .raised after .typeError ∧
      hashOf o key = none ∧ Represents o after d) := by
  have spec := lookup_add laws represents.formed key g.table 0
  rw [lookup]
  generalize mpMapLookup o g.table 2 m key .addIfNotFound = answer at spec ⊢
  cases spec with
  | found matched =>
      rcases found_holds represents matched with ⟨e, rest, holds⟩
      exact Or.inl ⟨_, e, rest, rfl, holds⟩
  | added matched =>
      have inside := matched.order.mem_iff.mpr List.mem_cons_self
      exact Or.inr (Or.inl ⟨_, _, rfl, matched, matched.formed.keyed _ inside⟩)
  | full missing packed denied =>
      refine Or.inr (Or.inr (Or.inl ⟨rfl, missing_find represents missing, ?_⟩))
      rwa [TableRefused, ← represents_length represents, represents.formed.used, packed]
  | unhashable unknown formed order =>
      exact Or.inr (Or.inr (Or.inr ⟨_, rfl, unknown, formed, order.trans represents.order⟩))

theorem store_ends (laws : Lawful o) (represents : Represents o m d) (g : Grant)
    (key : Key) (value : Val) :
    Ends o constNone g d (.store key value) (mpObjDictStore o g m key value) := by
  rw [mpObjDictStore, represents.formed.plain]
  rcases lookup_adds laws represents g key with ⟨pos, e, rest, ran, holds⟩ |
    ⟨after, pos, ran, added, keyed⟩ | ⟨ran, absent, refused⟩ | ⟨after, ran, unknown, same⟩
  · rw [ran]
    exact ends_meaning g rfl (uses_hashed rfl (holds.hashed represents laws))
      (holds.set represents laws value)
  · rw [ran]
    exact ends_meaning g rfl (uses_hashed rfl keyed) (added_set represents added value)
  · rw [ran]
    exact ends_no_table represents rfl rfl absent refused
  · rw [ran]
    exact ends_unhashable g same rfl unknown

theorem load_ends (laws : Lawful o) (represents : Represents o m d) (g : Grant) (key : Key) :
    Ends o constNone g d (.load key) (mpObjDictGet o g m key) := by
  rw [mpObjDictGet]
  rcases lookup_finds laws represents g key .lookup nofun with
    ⟨pos, e, rest, ran, holds⟩ | ⟨ran, absent⟩ | ⟨ran, unknown⟩
  · have found := holds.found represents laws
    simp only [ran, afterLookup, reduceCtorEq, ↓reduceIte, holds.value, Option.map_some]
    exact ends_meaning g (by simp only [meaning, found]) nofun represents
  · simp only [ran, afterLookup]
    exact ends_meaning g (by simp only [meaning, absent]) nofun represents
  · rw [ran]
    exact ends_unhashable g represents rfl unknown

theorem contains_ends (laws : Lawful o) (represents : Represents o m d) (g : Grant) (key : Key) :
    Ends o constNone g d (.contains key) (dictContains o g m key) := by
  rw [dictContains]
  rcases lookup_finds laws represents g key .lookup nofun with
    ⟨pos, e, rest, ran, holds⟩ | ⟨ran, absent⟩ | ⟨ran, unknown⟩
  · have found := holds.found represents laws
    simp only [ran, afterLookup, reduceCtorEq, ↓reduceIte, Option.isSome_some]
    exact ends_meaning g (by simp only [meaning, found, Option.isSome_some]) nofun represents
  · simp only [ran, afterLookup, Option.isSome_none]
    exact ends_meaning g (by simp only [meaning, absent, Option.isSome_none]) nofun represents
  · rw [ran]
    exact ends_unhashable g represents rfl unknown

theorem get_ends (laws : Lawful o) (represents : Represents o m d) (g : Grant) (key : Key)
    (dflt : Option Val) :
    Ends o constNone g d (.get key dflt) (dictGet o constNone g m key dflt) := by
  rw [dictGet, dictGetHelper]
  rcases lookup_finds laws represents g key .lookup nofun with
    ⟨pos, e, rest, ran, holds⟩ | ⟨ran, absent⟩ | ⟨ran, unknown⟩
  · have found := holds.found represents laws
    simp only [ran, afterLookup, Option.bind_some, holds.value, ne_eq, not_true_eq_false, false_and,
      reduceCtorEq, ↓reduceIte]
    exact ends_meaning g (by simp only [meaning, found]) nofun represents
  · simp only [ran, afterLookup, Option.bind_none, ne_eq, not_true_eq_false, false_and,
      reduceCtorEq, ↓reduceIte]
    exact ends_meaning g (by simp only [meaning, absent]) nofun represents
  · rw [ran]
    exact ends_unhashable g represents rfl unknown

-- The element taken out keeps its value until the caller has read it.
theorem pop_result (laws : Lawful o) (represents : Represents o m d) (g : Grant)
    (constNone : Val) (key : Key) (dflt : Option Val) :
    (∃ after e, dictPop o constNone g m key dflt = some (after, .value e.2) ∧
      find o.equal d key = some e ∧ Represents o after (erase o.equal d key)) ∨
    (dictPop o constNone g m key dflt = some (m, match dflt with
        | some value => .value value
        | none => .raised (.keyError key)) ∧ find o.equal d key = none) ∨
    (dictPop o constNone g m key dflt = some (m, .raised (.lookup .typeError)) ∧
      hashOf o key = none) := by
  rw [dictPop, dictGetHelper]
  simp only [represents.formed.plain, Bool.false_eq_true, and_false, ↓reduceIte]
  rcases lookup_finds laws represents g key .removeIfFound nofun with
    ⟨pos, e, rest, ran, holds⟩ | ⟨ran, absent⟩ | ⟨ran, unknown⟩
  · have kept : ((removeAt m pos).table pos).value = some e.2 := by
      simpa [removeAt, Map.setKey] using holds.value
    have vacant : held (removeAt m pos) pos = none := by
      rw [held_remove, Function.update_self]
    have gone :=
      (erase_head laws.equivalence (represents.distinct laws) holds.order holds.matched).symm
    refine Or.inl ⟨(removeAt m pos).setValue pos none, e, ?_, holds.found represents laws,
      ((holds.remove represents).set_vacant vacant none).reorder gone⟩
    simp only [ran, afterLookup, Option.bind_some, ↓reduceIte, kept, Option.map_some]
  · refine Or.inr (Or.inl ⟨?_, absent⟩)
    cases dflt with
    | none => simp only [ran, afterLookup, Option.bind_none, and_self, ↓reduceIte]
    | some value =>
        simp only [ran, afterLookup, Option.bind_none, reduceCtorEq, and_false, ↓reduceIte,
          Option.getD_some]
  · exact Or.inr (Or.inr ⟨by rw [ran]; rfl, unknown⟩)

theorem pop_ends (laws : Lawful o) (represents : Represents o m d) (g : Grant) (key : Key)
    (dflt : Option Val) :
    Ends o constNone g d (.pop key dflt) (dictPop o constNone g m key dflt) := by
  rcases pop_result laws represents g constNone key dflt with
    ⟨after, e, ran, found, gone⟩ | ⟨ran, absent⟩ | ⟨ran, unknown⟩
  · rw [ran]
    exact ends_meaning g (by simp only [meaning, found]) nofun gone
  · rw [ran]
    refine ends_meaning g ?_ nofun represents
    cases dflt <;> simp only [meaning, absent]
  · rw [ran]
    exact ends_unhashable g represents rfl unknown

theorem delete_ends (laws : Lawful o) (represents : Represents o m d) (g : Grant) (key : Key) :
    Ends o constNone g d (.delete key) (mpObjDictDelete o constNone g m key) := by
  rw [mpObjDictDelete]
  rcases pop_result laws represents g constNone key none with
    ⟨after, e, ran, found, gone⟩ | ⟨ran, absent⟩ | ⟨ran, unknown⟩
  · rw [dictPop] at ran
    rw [ran]
    exact ends_meaning g (by simp only [meaning, found]) nofun gone
  · rw [dictPop] at ran
    rw [ran]
    exact ends_meaning g (by simp only [meaning, absent]) nofun represents
  · rw [dictPop] at ran
    rw [ran]
    exact ends_unhashable g represents rfl unknown

theorem setdefault_ends (laws : Lawful o) (represents : Represents o m d) (g : Grant) (key : Key)
    (dflt : Option Val) :
    Ends o constNone g d (.setdefault key dflt) (dictSetdefault o constNone g m key dflt) := by
  rw [dictSetdefault, dictGetHelper]
  simp only [represents.formed.plain, Bool.false_eq_true, and_false, ↓reduceIte, reduceCtorEq,
    false_and]
  rcases lookup_adds laws represents g key with ⟨pos, e, rest, ran, holds⟩ |
    ⟨after, pos, ran, added, keyed⟩ | ⟨ran, absent, refused⟩ | ⟨after, ran, unknown, same⟩
  · have found := holds.found represents laws
    have known := holds.hashed represents laws
    simp only [ran, afterLookup, Option.bind_some, holds.value]
    exact ends_meaning g (by simp only [meaning, found]) (uses_hashed rfl known) represents
  · have unset : (after.table pos).value = none := congrArg Elem.value added.elem
    have absent := missing_find represents added.missing
    simp only [ran, afterLookup, Option.bind_some, unset, Option.map_some]
    exact ends_meaning g (by simp only [meaning, absent]) (uses_hashed rfl keyed)
      (added_set represents added _)
  · rw [ran]
    exact ends_no_table represents rfl rfl absent refused
  · rw [ran]
    exact ends_unhashable g same rfl unknown

theorem apply_ends (constNone : Val) (laws : Lawful o) (represents : Represents o m d) (g : Grant)
    (op : Op Key Val) :
    Ends o constNone g d op (apply o constNone g m op) := by
  cases op with
  | store key value => exact store_ends laws represents g key value
  | load key => exact load_ends laws represents g key
  | delete key => exact delete_ends laws represents g key
  | get key dflt => exact get_ends laws represents g key dflt
  | pop key dflt => exact pop_ends laws represents g key dflt
  | setdefault key dflt => exact setdefault_ends laws represents g key dflt
  | contains key => exact contains_ends laws represents g key
  | popitem => exact popitem_ends laws represents g
  | clear => exact clear_ends g represents
  | len => exact len_ends g represents
  | items => exact items_ends g represents

/-- The first of the pairs left is new, and the heap has no table for it. -/
def Halted (o : Objects Key) (g : Grant) (d : List (Key × Val)) : List (Key × Val) → Prop
  | [] => False
  | e :: _ => find o.equal d e.1 = none ∧ TableRefused g d

-- By induction on the elements still ahead; each is put as a store would put it.
theorem update_from (laws : Lawful o) {other : Map Key Val} (formed : Formed o other) (g : Grant)
    {l : List (Key × Val)} {fuel cur : Nat} (represents : Represents o m d)
    (remain : ahead other cur = pairs l) (enough : l.length < fuel) :
    ∃ after result done left, updateFrom o g other fuel cur m = some (after, result) ∧
      l = done ++ left ∧ Represents o after (putAll o d done) ∧
      (left = [] ∧ result = .none ∨
        Halted o g (putAll o d done) left ∧ result = .raised (.lookup .memoryError)) := by
  induction l generalizing fuel cur m d with
  | nil =>
      cases fuel with
      | zero => cases enough
      | succ fuel =>
          rw [updateFrom]
          rcases iter_next other cur with ⟨ends, _⟩ | ⟨e, next, _, more, _, _⟩
          · rw [ends]
            exact ⟨m, .none, [], [], rfl, rfl, represents, Or.inl ⟨rfl, rfl⟩⟩
          · rw [more] at remain
            cases remain
  | cons e rest ih =>
      cases fuel with
      | zero => cases enough
      | succ fuel =>
          rw [updateFrom]
          rcases iter_next other cur with ⟨_, finished⟩ | ⟨x, next, found, more, below, here⟩
          · rw [finished] at remain
            cases remain
          · rw [more, pairs, List.map_cons, ← pairs] at remain
            obtain ⟨first, tail⟩ := List.cons.inj remain
            have known : hashOf o e.1 ≠ none := by
              have inside : x ∈ contents other := mem_entries.mpr ⟨next, below, here⟩
              have keyed := formed.keyed x inside
              rwa [first] at keyed
            have onward := fun {m : Map Key Val} (put : Represents o m (put o.equal d e.1 e.2)) =>
              ih put tail (Nat.lt_of_succ_lt_succ enough)
            rw [found, first]
            rcases lookup_adds laws represents g e.1 with ⟨pos, pair, others, ran, holds⟩ |
              ⟨after, pos, ran, added, _⟩ | ⟨ran, absent, refused⟩ | ⟨_, _, unknown, _⟩
            · rcases onward (holds.set represents laws e.2) with ⟨last, result, put, left, ended⟩
              simp only [ran, afterLookup, Option.bind_some]
              exact ⟨last, result, e :: put, left, ended.1, congrArg _ ended.2.1, ended.2.2⟩
            · rcases onward (added_set represents added e.2) with ⟨last, result, put, left, ended⟩
              simp only [ran, afterLookup, Option.bind_some]
              exact ⟨last, result, e :: put, left, ended.1, congrArg _ ended.2.1, ended.2.2⟩
            · simp only [ran, afterLookup]
              exact ⟨m, _, [], e :: rest, rfl, rfl, represents, Or.inr ⟨⟨absent, refused⟩, rfl⟩⟩
            · exact absurd unknown known

theorem equal_from (laws : Lawful o) {rhs : Map Key Val} {e : List (Key × Val)}
    (formed : Formed o m) (represents : Represents o rhs e) (g : Grant) {l : List (Key × Val)}
    {fuel cur : Nat} (remain : ahead m cur = pairs l) (enough : l.length < fuel) :
    ∃ answer, equalFrom o g valueEqual m rhs fuel cur = some (.truth answer) ∧
      (answer = true ↔ ∀ x ∈ l, ∃ y, find o.equal e x.1 = some y ∧ valueEqual x.2 y.2 = true) := by
  induction l generalizing fuel cur with
  | nil =>
      cases fuel with
      | zero => cases enough
      | succ fuel =>
          rw [equalFrom]
          rcases iter_next m cur with ⟨ends, _⟩ | ⟨x, next, _, more, _, _⟩
          · rw [ends]
            exact ⟨true, rfl, by simp⟩
          · rw [more] at remain
            cases remain
  | cons x rest ih =>
      cases fuel with
      | zero => cases enough
      | succ fuel =>
          rw [equalFrom]
          rcases iter_next m cur with ⟨_, finished⟩ | ⟨held, next, found, more, below, here⟩
          · rw [finished] at remain
            cases remain
          · rw [more, pairs, List.map_cons, ← pairs] at remain
            obtain ⟨first, tail⟩ := List.cons.inj remain
            have known : hashOf o x.1 ≠ none := by
              have inside : held ∈ contents m := mem_entries.mpr ⟨next, below, here⟩
              have keyed := formed.keyed held inside
              rwa [first] at keyed
            rw [found, first]
            rcases lookup_finds laws represents g x.1 .lookup nofun with
              ⟨pos, y, others, ran, holds⟩ | ⟨ran, absent⟩ | ⟨_, unknown⟩
            · have there := holds.found represents laws
              simp only [ran, reduceCtorEq, ↓reduceIte, holds.value]
              by_cases same : valueEqual x.2 y.2 = true
              · rcases ih tail (Nat.lt_of_succ_lt_succ enough) with ⟨answer, result, all⟩
                rw [if_pos same]
                refine ⟨answer, result, all.trans ?_⟩
                simp only [List.forall_mem_cons, there, Option.some.injEq, exists_eq_left', same,
                  true_and]
              · rw [if_neg same]
                refine ⟨false, rfl, by simp, fun all => ?_⟩
                rcases all x List.mem_cons_self with ⟨z, at_z, hit⟩
                rw [there] at at_z
                cases at_z
                exact absurd hit same
            · simp only [ran]
              refine ⟨false, rfl, by simp, fun all => ?_⟩
              rcases all x List.mem_cons_self with ⟨z, at_z, _⟩
              rw [absent] at at_z
              cases at_z
            · exact absurd unknown known

theorem equal_spec (laws : Lawful o) {rhs : Map Key Val} {e : List (Key × Val)}
    (left : Represents o m d) (right : Represents o rhs e) (g : Grant) :
    ∃ answer, dictEqual o g valueEqual m rhs = some (.truth answer) ∧
      (answer = true ↔ SameDict o valueEqual d e) := by
  have agree := same_dict_iff valueEqual laws (left.distinct laws) (right.distinct laws)
  rw [dictEqual, represents_length left, represents_length right]
  by_cases size : d.length = e.length
  · rw [if_neg (not_not_intro size)]
    rcases represents_list left with ⟨order, list, perm⟩
    have remain : ahead m 0 = pairs order := (ahead_zero m).trans list
    have enough : order.length < m.alloc + 1 := by
      have less := contents_enough m
      rwa [remain, pairs, List.length_map] at less
    rcases equal_from laws left.formed right g remain enough with ⟨answer, result, all⟩
    refine ⟨answer, result, all.trans (Iff.trans ?_ agree.symm)⟩
    simp only [perm.mem_iff, size, true_and]
  · rw [if_pos size]
    exact ⟨false, rfl, by simp [agree, size]⟩

theorem update_spec (laws : Lawful o) {other : Map Key Val} {e : List (Key × Val)}
    (left : Represents o m d) (right : Represents o other e) (g : Grant) :
    ∃ after result done rest, dictUpdate o g m other false = some (after, result) ∧
      (done ++ rest).Perm e ∧ Represents o after (putAll o d done) ∧
      (rest = [] ∧ result = .none ∨
        Halted o g (putAll o d done) rest ∧ result = .raised (.lookup .memoryError)) := by
  rw [dictUpdate, left.formed.plain]
  rcases represents_list right with ⟨order, list, perm⟩
  have remain : ahead other 0 = pairs order := (ahead_zero other).trans list
  have enough : order.length < other.alloc + 1 := by
    have less := contents_enough other
    rwa [remain, pairs, List.length_map] at less
  rcases update_from laws right.formed g left remain enough with
    ⟨after, result, done, rest, ran, split, represents, ended⟩
  exact ⟨after, result, done, rest, ran, split ▸ perm, represents, ended⟩

end Operations

section Runs
variable [DecidableEq Key] {o : Objects Key}

theorem step_refines (valueEqual : Val → Val → Bool) (constNone : Val) (laws : Lawful o)
    {w : World Key Val}
    {d : Nat → List (Key × Val)} (all : AllRepresent o w d) (g : Grant) (call : Call Key Val) :
    ∃ next result e, step o valueEqual constNone g w call = some (next, result) ∧
      Step o valueEqual constNone g d call result e ∧ AllRepresent o next e := by
  cases call with
  | on i op =>
      rcases apply_ends constNone laws (all i) g op with
        ⟨after, result, e, ran, means, represents⟩
      exact ⟨_, result, _, by rw [step, ran]; rfl, .on means, all_update all i represents⟩
  | update i j =>
      by_cases same : i = j
      · subst same
        refine ⟨w, .none, d, ?_, .updateSelf, all⟩
        simp only [step, dictUpdate, (all i).formed.plain, Bool.false_eq_true, decide_true,
          ↓reduceIte, Option.map_some, Function.update_eq_self]
      · rcases update_spec laws (all i) (all j) g with
          ⟨after, result, done, rest, ran, perm, represents, ended⟩
        have ran' : step o valueEqual constNone g w (.update i j) =
            some (Function.update w i after, result) := by
          rw [step, decide_eq_false same, ran]
          rfl
        refine ⟨_, result, _, ran', ?_, all_update all i represents⟩
        rcases ended with ⟨rfl, rfl⟩ | ⟨halted, rfl⟩
        · rw [List.append_nil] at perm
          exact .update same perm
        · cases rest with
          | nil => exact halted.elim
          | cons e left => exact .updateHalts same perm halted.1 halted.2
  | copy i j =>
      cases made : mpObjDictCopy g (w i) with
      | some copy =>
          exact ⟨_, .none, _, by rw [step, made], .copy, all_update all j
            (copy_represents (all i) made)⟩
      | none => exact ⟨w, _, d, by rw [step, made], .noCopy (copy_refused (all i) made), all⟩
  | equal i j =>
      rcases equal_spec laws (all i) (all j) g with ⟨answer, ran, same⟩
      exact ⟨w, .truth answer, d, by rw [step, ran]; rfl, .equal same, all⟩

theorem run_refines (valueEqual : Val → Val → Bool) (constNone : Val) (laws : Lawful o)
    {w : World Key Val}
    {d : Nat → List (Key × Val)} (all : AllRepresent o w d) (calls : List (Grant × Call Key Val)) :
    ∃ last results e, run o valueEqual constNone calls w = some (last, results) ∧
      Runs o valueEqual constNone d calls results e ∧ AllRepresent o last e := by
  induction calls generalizing w d with
  | nil => exact ⟨w, [], d, rfl, .nil, all⟩
  | cons pair rest ih =>
      rcases step_refines valueEqual constNone laws all pair.1 pair.2 with
        ⟨next, result, between, stepped, means, kept⟩
      rcases ih kept with ⟨last, results, e, ran, more, final⟩
      exact ⟨last, result :: results, e,
        by simp only [run, stepped, Option.bind_some, ran, Option.map_some], .cons means more,
        final⟩

end Runs

/-- The heap that grants everything. -/
def plenty : Grant := ⟨fun _ => true, true⟩

/-- The heap that is out of tables. -/
def spent : Grant := ⟨fun _ => false, true⟩

-- The third key needs a larger table, which the heap has at the second attempt only.
def busyDicts : List (Grant × Call Name (Option Int)) :=
  [(plenty, .on 0 (.store (.qstr [0x61]) (some 1))),
    (plenty, .on 0 (.store (.str 16 [0x61]) (some 2))),
    (plenty, .on 0 (.store (.smallInt 7) none)), (spent, .on 0 (.store (.smallInt 8) (some 3))),
    (plenty, .on 0 (.store (.smallInt 8) (some 3))), (plenty, .copy 0 1),
    (plenty, .on 0 (.delete (.str 24 [0x61]))), (plenty, .equal 0 1), (plenty, .update 0 1),
    (plenty, .equal 0 1), (plenty, .on 0 (.load (.qstr [0x61])))]

example : (run names (· == ·) none busyDicts fun _ => mpMapInit 0).map Prod.snd =
    some [.none, .none, .none, .raised (.lookup .memoryError), .none, .none, .none, .truth false,
      .none, .truth true, .value (some 2)] := by decide

end NexusOS.DictRefines
