import NexusOS.MpMap

/-!
What `mp_map_lookup` does to a hash table that is in order: it finds the one slot
of the index, adds or removes it and keeps everything else, through any rehash.
-/

namespace NexusOS.MapLookup

open OpenAddressing Association MpMap

variable {Key Val : Type} {o : Objects Key} {m : Map Key Val} {index : Key}

def slots (m : Map Key Val) (pos : Nat) : Slot Key := (m.table pos).key

def held (m : Map Key Val) (pos : Nat) : Option (Key × Option Val) :=
  match (m.table pos).key with
  | .filled key => some (key, (m.table pos).value)
  | _ => none

def contents (m : Map Key Val) : List (Key × Option Val) := entries (held m) m.alloc

def keyHash (o : Objects Key) (key : Key) : Nat := (hashOf o key).getD 0

abbrev Same (o : Objects Key) (a b : Key) : Prop := o.equal a b = true

structure Formed (o : Objects Key) (m : Map Key Val) : Prop where
  plain : m.isFixed = false
  hashed : m.isOrdered = false
  sound : Sound (Same o) (keyHash o) (slots m) m.alloc
  keyed : ∀ e ∈ contents m, hashOf o e.1 ≠ none
  used : m.used = (contents m).length
  qstrs : m.allKeysAreQstrs = true → ∀ e ∈ contents m, o.isQstr e.1 = true

theorem held_filled {pos : Nat} {key : Key} (filled : slots m pos = .filled key) :
    held m pos = some (key, (m.table pos).value) := by
  rw [slots] at filled
  rw [held, filled]

theorem held_some {pos : Nat} {e : Key × Option Val} (present : held m pos = some e) :
    slots m pos = .filled e.1 ∧ (m.table pos).value = e.2 := by
  rw [held] at present
  rw [slots]
  cases key : (m.table pos).key <;> rw [key] at present <;> cases present
  exact ⟨rfl, rfl⟩

theorem mem_contents {e : Key × Option Val} :
    e ∈ contents m ↔ ∃ pos < m.alloc, slots m pos = .filled e.1 ∧ (m.table pos).value = e.2 := by
  rw [contents, mem_entries]
  refine exists_congr fun pos => and_congr_right fun _ => ⟨held_some, fun ⟨filled, value⟩ => ?_⟩
  rw [held_filled filled, value]

theorem absent_iff : Absent (Same o) (slots m) m.alloc index ↔
    ∀ e ∈ contents m, ¬ Same o e.1 index := by
  constructor
  · intro absent e member
    rcases mem_contents.mp member with ⟨pos, below, filled, _⟩
    exact absent pos below e.1 filled
  · intro lacking pos below other filled
    exact lacking (other, (m.table pos).value) (mem_contents.mpr ⟨pos, below, filled, rfl⟩)

theorem Formed.distinct (formed : Formed o m) :
    Distinct o.equal (contents m) := by
  refine entries_pairwise fun p q before below a b first second => ?_
  cases present : o.equal a.1 b.1 with
  | false => rfl
  | true =>
      have one := formed.sound.distinct p (Nat.lt_trans before below) q below a.1 b.1
        (held_some first).1 (held_some second).1 present
      exact absurd one (Nat.ne_of_lt before)

section Writes
variable {pos : Nat}

@[simp] theorem slots_set_value (value : Option Val) :
    slots (m.setValue pos value) = slots m := by
  funext p
  by_cases here : p = pos
  · subst here
    simp [slots, Map.setValue]
  · simp [slots, Map.setValue, here]

theorem slots_add (o : Objects Key) (index : Key) (m : Map Key Val) (pos : Nat) :
    slots (addAt o index m pos) = Function.update (slots m) pos (.filled index) := by
  funext p
  by_cases here : p = pos
  · subst here
    simp [slots, addAt]
  · simp [slots, addAt, here]

theorem held_add (o : Objects Key) (index : Key) (m : Map Key Val) (pos : Nat) :
    held (addAt o index m pos) = Function.update (held m) pos (some (index, none)) := by
  funext p
  by_cases here : p = pos
  · subst here
    simp [held, addAt]
  · simp [held, addAt, here]

theorem held_set_value {key : Key} (filled : slots m pos = .filled key) (value : Option Val) :
    held (m.setValue pos value) = Function.update (held m) pos (some (key, value)) := by
  rw [slots] at filled
  funext p
  by_cases here : p = pos
  · subst here
    simp [held, Map.setValue, filled]
  · simp [held, Map.setValue, here]

theorem held_remove (m : Map Key Val) (pos : Nat) :
    held (removeAt m pos) = Function.update (held m) pos none := by
  funext p
  by_cases here : p = pos
  · subst here
    simp only [held, removeAt, Map.setKey, Function.update_self]
    cases (m.table ((p + 1) % m.alloc)).key <;> rfl
  · simp [held, removeAt, Map.setKey, here]

theorem slots_remove_empty (follows : slots m ((pos + 1) % m.alloc) = .empty) :
    slots (removeAt m pos) = Function.update (slots m) pos .empty := by
  rw [slots] at follows
  funext p
  by_cases here : p = pos
  · subst here
    simp [slots, removeAt, Map.setKey, follows]
  · simp [slots, removeAt, Map.setKey, here]

theorem slots_remove_mark (follows : slots m ((pos + 1) % m.alloc) ≠ .empty) :
    slots (removeAt m pos) = Function.update (slots m) pos .deleted := by
  rw [slots] at follows
  funext p
  by_cases here : p = pos
  · subst here
    cases next : (m.table ((p + 1) % m.alloc)).key with
    | empty => exact absurd next follows
    | deleted => simp [slots, removeAt, Map.setKey, next]
    | filled key => simp [slots, removeAt, Map.setKey, next]
  · simp [slots, removeAt, Map.setKey, here]

theorem contents_add (below : pos < m.alloc) (vacant : held m pos = none) :
    (contents (addAt o index m pos)).Perm ((index, none) :: contents m) := by
  have update := entries_update (held m) below (some (index, none))
  have same : Function.update (held m) pos none = held m := by
    rw [← vacant, Function.update_eq_self]
  rw [same, ← held_add o index m pos] at update
  exact update

theorem contents_set_value (below : pos < m.alloc) {key : Key} {old : Option Val}
    {rest : List (Key × Option Val)} (filled : slots m pos = .filled key)
    (present : (m.table pos).value = old) (order : (contents m).Perm ((key, old) :: rest))
    (value : Option Val) :
    (contents (m.setValue pos value)).Perm ((key, value) :: rest) := by
  have split := entries_split (held m) below
  have update := entries_update (held m) below (some (key, value))
  rw [held_filled filled, present] at split
  rw [← held_set_value filled value] at update
  exact update.trans (((split.symm.trans order).cons_inv).cons _)

end Writes

theorem mem_of_filled {pos : Nat} {key : Key} (below : pos < m.alloc)
    (filled : slots m pos = .filled key) : (key, (m.table pos).value) ∈ contents m :=
  mem_contents.mpr ⟨pos, below, filled, rfl⟩

theorem Formed.set_value (formed : Formed o m) {pos : Nat} {key : Key} {old : Option Val}
    {rest : List (Key × Option Val)} (below : pos < m.alloc) (filled : slots m pos = .filled key)
    (present : (m.table pos).value = old) (order : (contents m).Perm ((key, old) :: rest))
    (value : Option Val) : Formed o (m.setValue pos value) := by
  have after := contents_set_value below filled present order value
  have keys : ∀ P : Key → Prop, (∀ e ∈ contents m, P e.1) →
      ∀ e ∈ contents (m.setValue pos value), P e.1 := by
    intro P all e member
    rcases List.mem_cons.mp (after.mem_iff.mp member) with rfl | rest
    · exact all (key, old) (order.mem_iff.mpr List.mem_cons_self)
    · exact all e (order.mem_iff.mpr (List.mem_cons_of_mem _ rest))
  refine ⟨formed.plain, formed.hashed, ?_, keys (fun key => hashOf o key ≠ none) formed.keyed, ?_,
    fun qstrs => keys (fun key => o.isQstr key = true) (formed.qstrs qstrs)⟩
  · rw [slots_set_value]
    exact formed.sound
  · rw [after.length_eq, List.length_cons, ← List.length_cons (a := (key, old)), ← order.length_eq]
    exact formed.used

theorem Formed.add (formed : Formed o m) {pos : Nat} (below : pos < m.alloc)
    (vacant : held m pos = none) (keyed : hashOf o index ≠ none)
    (sound : Sound (Same o) (keyHash o) (Function.update (slots m) pos (.filled index)) m.alloc) :
    Formed o (addAt o index m pos) := by
  have after : (contents (addAt o index m pos)).Perm ((index, none) :: contents m) :=
    contents_add below vacant
  refine ⟨formed.plain, formed.hashed, ?_, fun e member => ?_, ?_, fun qstrs e member => ?_⟩
  · rw [slots_add]
    exact sound
  · rcases List.mem_cons.mp (after.mem_iff.mp member) with rfl | old
    · exact keyed
    · exact formed.keyed e old
  · rw [after.length_eq, List.length_cons, ← formed.used]
    rfl
  · rcases Bool.and_eq_true_iff.mp qstrs with ⟨all, one⟩
    rcases List.mem_cons.mp (after.mem_iff.mp member) with rfl | old
    · exact one
    · exact formed.qstrs all e old

-- One element less, whatever its slot says now.
theorem Formed.take (formed : Formed o m) {pos : Nat} {e : Key × Option Val}
    {table : Nat → Elem Key Val} (below : pos < m.alloc) (present : held m pos = some e)
    (gone : held { m with used := m.used - 1, table := table } = Function.update (held m) pos none)
    (sound : Sound (Same o) (keyHash o) (slots { m with used := m.used - 1, table := table })
      m.alloc) :
    Formed o { m with used := m.used - 1, table := table } ∧
      (contents m).Perm (e :: contents { m with used := m.used - 1, table := table }) := by
  have order : (contents m).Perm
      (e :: contents { m with used := m.used - 1, table := table }) := by
    have split := entries_split (held m) below
    rw [present, ← gone] at split
    exact split
  have stays : ∀ x ∈ contents { m with used := m.used - 1, table := table }, x ∈ contents m :=
    fun x member => order.mem_iff.mpr (List.mem_cons_of_mem _ member)
  refine ⟨⟨formed.plain, formed.hashed, sound, fun x member => formed.keyed x (stays x member), ?_,
    fun qstrs x member => formed.qstrs qstrs x (stays x member)⟩, order⟩
  have count := order.length_eq
  rw [List.length_cons, ← formed.used] at count
  exact Nat.sub_eq_of_eq_add count

theorem Formed.remove (formed : Formed o m) {pos : Nat} {e : Key × Option Val}
    (below : pos < m.alloc) (present : held m pos = some e) :
    Formed o (removeAt m pos) ∧ (contents m).Perm (e :: contents (removeAt m pos)) := by
  refine formed.take below present (held_remove m pos) ?_
  change Sound (Same o) (keyHash o) (slots (removeAt m pos)) m.alloc
  cases follows : slots m ((pos + 1) % m.alloc) with
  | empty => exact slots_remove_empty follows ▸ sound_clear formed.sound follows
  | deleted => exact slots_remove_mark (by rw [follows]; nofun) ▸ sound_delete formed.sound pos
  | filled key => exact slots_remove_mark (by rw [follows]; nofun) ▸ sound_delete formed.sound pos

section Walks
variable {hash : Nat}

theorem compare_none {kind : LookupKind} (laws : Lawful o) (formed : Formed o m)
    (chosen : compareOnlyPtrs o m index kind = none) :
    kind ≠ .addIfNotFound ∧ ∀ e ∈ contents m, ¬ Same o e.1 index := by
  cases all : m.allKeysAreQstrs with
  | false => simp [compareOnlyPtrs, all] at chosen
  | true =>
      by_cases interned : o.isQstr index = true
      · simp [compareOnlyPtrs, all, interned] at chosen
      · by_cases plain : o.isExactStr index = true
        · simp [compareOnlyPtrs, all, interned, plain] at chosen
        · refine ⟨fun adding => ?_, fun e member present => ?_⟩
          · simp [compareOnlyPtrs, all, interned, plain, adding] at chosen
          · rcases laws.qstr_str _ _ (formed.qstrs all e member) present with yes | yes
            · exact interned yes
            · exact plain yes

abbrev Passing (o : Objects Key) (m : Map Key Val) (hash : Nat) (index : Key) (d : Nat)
    (mark : Option Nat) : Prop :=
  Walked (Same o) (slots m) m.alloc hash index d mark

def Probed (o : Objects Key) (m : Map Key Val) (hash : Nat) (index : Key) : Probe → Prop
  | .found pos => pos < m.alloc ∧ ∃ key, slots m pos = .filled key ∧ Same o key index
  | .null pos mark => ∃ d < m.alloc, pos = place m.alloc hash d ∧ slots m pos = .empty ∧
      Passing o m hash index d mark
  | .wrapped mark => Passing o m hash index m.alloc mark
  | .running => False

/-- The slot `pos` of `m` holds the index. -/
def Found (o : Objects Key) (m : Map Key Val) (index : Key) (pos : Nat) : Prop :=
  pos < m.alloc ∧ ∃ key, slots m pos = .filled key ∧ Same o key index

def Missing (o : Objects Key) (m : Map Key Val) (index : Key) : Prop :=
  ∀ e ∈ contents m, ¬ Same o e.1 index

structure Added (o : Objects Key) (m : Map Key Val) (index : Key) (after : Map Key Val)
    (pos : Nat) :
    Prop where
  missing : Missing o m index
  formed : Formed o after
  below : pos < after.alloc
  elem : after.table pos = ⟨.filled index, none⟩
  order : (contents after).Perm ((index, none) :: contents m)

theorem key_hash (known : hashOf o index = some hash) : keyHash o index = hash := by
  rw [keyHash, known]
  rfl

theorem same_hash (laws : Lawful o) (other : Key) (present : Same o other index) :
    keyHash o other = keyHash o index := by
  rw [keyHash, keyHash, laws.hash_eq other index present]

theorem missing_of_null (laws : Lawful o) (formed : Formed o m) (known : hashOf o index = some hash)
    {d : Nat} {mark : Option Nat} (empty : slots m (place m.alloc hash d) = .empty)
    (passing : Passing o m hash index d mark) : Missing o m index := by
  have start := key_hash known
  subst start
  exact absent_iff.mp (absent_of_empty formed.sound (same_hash laws) passing.passed empty)

theorem missing_of_lap {mark : Option Nat} (passing : Passing o m hash index m.alloc mark) :
    Missing o m index :=
  absent_iff.mp (absent_of_lap passing.passed)

theorem held_vacant {pos : Nat} (vacant : ∀ key, slots m pos ≠ .filled key) :
    held m pos = none := by
  cases present : held m pos with
  | none => rfl
  | some e => exact absurd (held_some present).1 (vacant e.1)

theorem added_at {pos : Nat} (formed : Formed o m) (known : hashOf o index = some hash)
    (missing : Missing o m index) (below : pos < m.alloc)
    (vacant : ∀ key, slots m pos ≠ .filled key)
    (sound : Sound (Same o) (keyHash o) (Function.update (slots m) pos (.filled index)) m.alloc) :
    Added o m index (addAt o index m pos) pos :=
  ⟨missing, formed.add below (held_vacant vacant) (by rw [known]; nofun) sound, below,
    Function.update_self _ _ _, contents_add below (held_vacant vacant)⟩

-- The first mark the walk met takes the key before the empty place that ended it.
theorem added_mark (laws : Lawful o) (formed : Formed o m) (known : hashOf o index = some hash)
    {d pos : Nat} (within : d ≤ m.alloc) (passing : Passing o m hash index d (some pos))
    (missing : Missing o m index) : Added o m index (addAt o index m pos) pos := by
  have start := key_hash known
  subst start
  rcases passing.marked pos rfl with ⟨e, early, rfl, deleted⟩
  have size : 0 < m.alloc := by omega
  refine added_at formed known missing (place_lt size _ e) (by rw [deleted]; nofun) ?_
  exact sound_mark formed.sound (fun _ _ => laws.equivalence.symm) within passing
    (absent_iff.mpr missing)

theorem added_null (laws : Lawful o) (formed : Formed o m) (known : hashOf o index = some hash)
    {d : Nat} (within : d < m.alloc) (empty : slots m (place m.alloc hash d) = .empty)
    (passing : Passing o m hash index d none) :
    Added o m index (addAt o index m (place m.alloc hash d)) (place m.alloc hash d) := by
  have missing := missing_of_null laws formed known empty passing
  have start := key_hash known
  subst start
  refine added_at formed known missing (place_lt (by omega) _ d) (by rw [empty]; nofun) ?_
  exact sound_fill formed.sound (fun _ _ => laws.equivalence.symm) within passing.clear
    (absent_iff.mpr missing)

/-- Some place of the table holds no key. -/
def Vacant (m : Map Key Val) : Prop := (contents m).length < m.alloc

theorem lap_full (passing : Passing o m hash index m.alloc none) :
    (contents m).length = m.alloc := by
  refine entries_length_full fun pos below => ?_
  rcases full_of_walked passing pos below with ⟨key, filled⟩
  rw [held_filled filled]
  rfl

theorem vacant_unlapped {mark : Option Nat} (vacant : Vacant m)
    (passing : Passing o m hash index m.alloc mark) : mark ≠ none := by
  rintro rfl
  exact absurd vacant (by rw [Vacant, lap_full passing]; exact Nat.lt_irrefl _)

structure Rehashed (o : Objects Key) (m after : Map Key Val) : Prop where
  formed : Formed o after
  order : (contents after).Perm (contents m)
  vacant : Vacant after

theorem Added.from_rehashed {between after : Map Key Val} {pos : Nat}
    (rehashed : Rehashed o m between)
    (added : Added o between index after pos) : Added o m index after pos :=
  ⟨fun e member => added.missing e (rehashed.order.mem_iff.mpr member), added.formed, added.below,
    added.elem, added.order.trans (rehashed.order.cons _)⟩

theorem missing_rehashed {between : Map Key Val} (rehashed : Rehashed o m between)
    (missing : Missing o m index) : Missing o between index :=
  fun e member => missing e (rehashed.order.mem_iff.mp member)

end Walks

section Search
variable [DecidableEq Key] {comparePtrs : Bool} {hash : Nat}

def Agrees (o : Objects Key) (comparePtrs : Bool) (index : Key) (m : Map Key Val) : Prop :=
  ∀ e ∈ contents m, isIndex o comparePtrs index e.1 = o.equal e.1 index

-- Comparing pointers is enough for as long as every key is an interned string.
theorem compare_agrees {kind : LookupKind} (laws : Lawful o) (formed : Formed o m)
    (chosen : compareOnlyPtrs o m index kind = some comparePtrs) :
    Agrees o comparePtrs index m := by
  intro e member
  have self : o.equal index index = true := laws.equivalence.refl index
  cases comparePtrs with
  | false =>
      by_cases one : e.1 = index
      · simp [isIndex, one, self]
      · simp [isIndex, one]
  | true =>
      have all : m.allKeysAreQstrs = true := by
        cases all : m.allKeysAreQstrs with
        | true => rfl
        | false => simp [compareOnlyPtrs, all] at chosen
      have qstr := formed.qstrs all e member
      by_cases one : e.1 = index
      · simp [isIndex, one, self]
      · have apart : o.equal e.1 index = false := by
          cases present : o.equal e.1 index with
          | false => rfl
          | true =>
              rcases laws.qstr_str _ _ qstr present with interned | plain
              · exact absurd (laws.qstr_eq _ _ qstr interned present) one
              · by_cases interned : o.isQstr index = true
                · exact absurd (laws.qstr_eq _ _ qstr interned present) one
                · simp [compareOnlyPtrs, all, interned, plain] at chosen
        simp [isIndex, one, apart]

-- By induction on the places still to be looked at; a step is one place of the lap.
theorem probe_probed (agrees : Agrees o comparePtrs index m) {fuel d : Nat} {mark : Option Nat}
    (within : d < m.alloc) (left : fuel + d = m.alloc) (passing : Passing o m hash index d mark) :
    Probed o m hash index (probe o comparePtrs index m (hash % m.alloc) fuel
      (place m.alloc hash d) mark) := by
  induction fuel generalizing d mark with
  | zero => omega
  | succ fuel ih =>
      have onward : ∀ mark, Passing o m hash index (d + 1) mark →
          Probed o m hash index
            (if (place m.alloc hash d + 1) % m.alloc = hash % m.alloc then .wrapped mark
              else probe o comparePtrs index m (hash % m.alloc) fuel
                ((place m.alloc hash d + 1) % m.alloc) mark) := by
        intro mark passed
        rw [← place_succ]
        rcases Nat.lt_or_eq_of_le (Nat.succ_le_of_lt within) with more | last
        · have away : place m.alloc hash (d + 1) ≠ hash % m.alloc := fun back =>
            absurd (place_inj more (Nat.lt_of_le_of_lt (Nat.zero_le d) within) back)
              (Nat.succ_ne_zero d)
          rw [if_neg away]
          exact ih more (by omega) passed
        · have back : place m.alloc hash (d + 1) = hash % m.alloc :=
            (congrArg _ last).trans (place_size m.alloc hash)
          rw [if_pos back, Probed, ← last]
          exact passed
      rw [probe]
      cases here : (m.table (place m.alloc hash d)).key with
      | empty => exact ⟨d, within, rfl, here, passing⟩
      | deleted => exact onward _ (walked_deleted passing here)
      | filled key =>
          have below := place_lt (Nat.lt_of_le_of_lt (Nat.zero_le d) within) hash d
          have same := agrees _ (mem_of_filled below here)
          simp only [same]
          by_cases present : o.equal key index = true
          · rw [if_pos present]
            exact ⟨below, key, here, present⟩
          · rw [if_neg present]
            exact onward mark (walked_filled passing here present)

theorem probe_spec (agrees : Agrees o comparePtrs index m) (pos : 0 < m.alloc) (hash : Nat) :
    Probed o m hash index
      (probe o comparePtrs index m (hash % m.alloc) m.alloc (hash % m.alloc) none) :=
  probe_probed agrees pos (Nat.add_zero _) walked_start

theorem search_add_vacant (laws : Lawful o) (formed : Formed o m)
    (agrees : Agrees o comparePtrs index m) (vacant : Vacant m) (known : hashOf o index = some hash)
    (rehash : Map Key Val → Answer Key Val) (fuel : Nat) :
    ∃ after pos, searchFrom o rehash comparePtrs index .addIfNotFound hash (fuel + 1) m =
        .done after (some pos) ∧
      (after = m ∧ Found o m index pos ∨ Added o m index after pos ∧ after.alloc = m.alloc) := by
  have size : 0 < m.alloc := Nat.lt_of_le_of_lt (Nat.zero_le _) vacant
  have spec := probe_spec agrees size hash
  rw [searchFrom]
  cases result : probe o comparePtrs index m (hash % m.alloc) m.alloc (hash % m.alloc) none with
  | running => exact (result ▸ spec).elim
  | found pos =>
      rw [result] at spec
      exact ⟨m, pos, rfl, Or.inl ⟨rfl, spec⟩⟩
  | null pos mark =>
      rw [result] at spec
      rcases spec with ⟨d, within, rfl, empty, passing⟩
      cases mark with
      | none => exact ⟨_, _, rfl, Or.inr ⟨added_null laws formed known within empty passing, rfl⟩⟩
      | some slot =>
          have missing := missing_of_null laws formed known empty passing
          exact ⟨_, _, rfl, Or.inr
            ⟨added_mark laws formed known (Nat.le_of_lt within) passing missing, rfl⟩⟩
  | wrapped mark =>
      rw [result] at spec
      cases mark with
      | none => exact absurd rfl (vacant_unlapped vacant spec)
      | some slot =>
          exact ⟨_, _, rfl, Or.inr
            ⟨added_mark laws formed known (Nat.le_refl _) spec (missing_of_lap spec), rfl⟩⟩

theorem lookup_add_vacant (laws : Lawful o) (formed : Formed o m) (vacant : Vacant m)
    (known : hashOf o index = some hash) (missing : Missing o m index) (room : Nat → Bool)
    (fuel : Nat) :
    ∃ after pos, mpMapLookup o room (fuel + 1) m index .addIfNotFound = .done after (some pos) ∧
      Added o m index after pos ∧ after.alloc = m.alloc := by
  have size : m.alloc ≠ 0 := Nat.ne_of_gt (Nat.lt_of_le_of_lt (Nat.zero_le _) vacant)
  rw [mpMapLookup]
  simp only [formed.plain, formed.hashed, size, Bool.false_eq_true, false_and, ↓reduceIte]
  cases chosen : compareOnlyPtrs o m index .addIfNotFound with
  | none => exact absurd rfl (compare_none laws formed chosen).1
  | some comparePtrs =>
      have agrees := compare_agrees laws formed chosen
      simp only [hashLookup, known]
      rcases search_add_vacant laws formed agrees vacant known _ fuel with
        ⟨after, pos, result, ⟨_, below, key, filled, present⟩ | added⟩
      · exact absurd present (missing _ (mem_of_filled below filled))
      · exact ⟨after, pos, result, added⟩

-- By induction on the old places: what is still to be moved and what the new
-- table holds are together the old contents.
theorem move_spec (laws : Lawful o) (old : Map Key Val) (room : Nat → Bool) (fuel : Nat)
    (ps : List Nat)
    (formed : Formed o m) (distinct : Distinct o.equal (ps.filterMap (held old) ++ contents m))
    (keyed : ∀ e ∈ ps.filterMap (held old), hashOf o e.1 ≠ none)
    (fits : (ps.filterMap (held old) ++ contents m).length < m.alloc) :
    ∃ after, moveFrom (fun m key => mpMapLookup o room (fuel + 1) m key .addIfNotFound) old.table ps
        m = .done after none ∧
      Formed o after ∧ (contents after).Perm (ps.filterMap (held old) ++ contents m) ∧
      after.alloc = m.alloc := by
  induction ps generalizing m with
  | nil => exact ⟨m, rfl, formed, List.Perm.refl _, rfl⟩
  | cons p rest ih =>
      rw [moveFrom]
      cases at_p : (old.table p).key with
      | empty =>
          have vacant : held old p = none := held_vacant (by rw [slots, at_p]; nofun)
          rw [List.filterMap_cons_none vacant] at distinct keyed fits ⊢
          exact ih formed distinct keyed fits
      | deleted =>
          have vacant : held old p = none := held_vacant (by rw [slots, at_p]; nofun)
          rw [List.filterMap_cons_none vacant] at distinct keyed fits ⊢
          exact ih formed distinct keyed fits
      | filled key =>
          have present := held_filled (m := old) at_p
          rw [List.filterMap_cons_some present] at distinct keyed fits ⊢
          rcases Option.ne_none_iff_exists'.mp (keyed _ List.mem_cons_self) with ⟨hash, known⟩
          have missing : Missing o m key := by
            intro e member same
            have apart := List.rel_of_pairwise_cons distinct
              (List.mem_append_right (rest.filterMap (held old)) member)
            rw [laws.equivalence.symm same] at apart
            cases apart
          have vacant : Vacant m := by
            simp only [List.cons_append, List.length_cons, List.length_append] at fits
            rw [Vacant]
            omega
          rcases lookup_add_vacant laws formed vacant known missing room fuel with
            ⟨after, slot, result, added, alloc⟩
          have at_slot : slots after slot = .filled key := congrArg Elem.key added.elem
          have no_value : (after.table slot).value = none := congrArg Elem.value added.elem
          have order := contents_set_value added.below at_slot no_value added.order
            (old.table p).value
          have shifted : ((rest.filterMap (held old)) ++
              contents (after.setValue slot (old.table p).value)).Perm
              ((key, (old.table p).value) :: (rest.filterMap (held old) ++ contents m)) :=
            (order.append_left _).trans List.perm_middle
          have moved := ih (m := after.setValue slot (old.table p).value)
            (added.formed.set_value added.below at_slot no_value added.order _)
            ((distinct_perm laws.equivalence shifted).mpr distinct)
            (fun e member => keyed e (List.mem_cons_of_mem _ member))
            (by rw [shifted.length_eq]; exact Nat.lt_of_lt_of_eq fits alloc.symm)
          rcases moved with ⟨last, ran, formed, all, size⟩
          simp only [result]
          exact ⟨last, ran, formed, all.trans shifted, size.trans alloc⟩

theorem hash_alloc_ge (x : Nat) : x ≤ getHashAllocGreaterOrEqualTo x := by
  rw [getHashAllocGreaterOrEqualTo]
  cases found : hashAllocationSizes.find? fun n => decide (x ≤ n) with
  | some n => simpa using List.find?_some found
  | none => exact Nat.le_trans (Nat.le_add_right x (x / 2)) Nat.left_le_or

theorem rehash_spec (laws : Lawful o) (formed : Formed o m) (room : Nat → Bool) (fuel : Nat) :
    let rehash := mpMapRehash room
      fun m key => mpMapLookup o room (fuel + 1) m key .addIfNotFound
    rehash m = .raised m .memoryError ∧ room (getHashAllocGreaterOrEqualTo (m.alloc + 1)) = false ∨
      ∃ after, rehash m = .done after none ∧ Rehashed o m after := by
  simp only [mpMapRehash]
  split
  case isFalse denied => exact Or.inl ⟨rfl, Bool.eq_false_iff.mpr denied⟩
  case isTrue =>
    refine Or.inr ?_
    have grown := hash_alloc_ge (m.alloc + 1)
    generalize getHashAllocGreaterOrEqualTo (m.alloc + 1) = newAlloc at grown ⊢
    have fewer : (contents m).length ≤ m.alloc := entries_length_le _ _
    have emptied : contents (m.renewed newAlloc) = [] :=
      List.filterMap_eq_nil_iff.mpr fun _ _ => rfl
    have moved := move_spec (m := m.renewed newAlloc) laws m room fuel (List.range m.alloc)
      ⟨formed.plain, formed.hashed, sound_none fun _ _ => rfl, by rw [emptied]; nofun,
        by rw [emptied]; rfl, by rw [emptied]; nofun⟩
      (by rw [emptied, List.append_nil]; exact formed.distinct) formed.keyed
      (by rw [emptied, List.append_nil]; exact Nat.lt_of_le_of_lt fewer grown)
    rcases moved with ⟨after, ran, whole, order, size⟩
    rw [emptied, List.append_nil] at order
    refine ⟨after, ran, whole, order, ?_⟩
    rw [Vacant, order.length_eq, size]
    exact Nat.lt_of_le_of_lt fewer grown

/-- How a lookup that adds may end. -/
inductive AddResult (o : Objects Key) (room : Nat → Bool) (m : Map Key Val) (index : Key) :
    Answer Key Val → Prop where
  | found {pos : Nat} (present : Found o m index pos) :
      AddResult o room m index (.done m (some pos))
  | added {after : Map Key Val} {pos : Nat} (present : Added o m index after pos) :
      AddResult o room m index (.done after (some pos))
  | full (missing : Missing o m index) (packed : (contents m).length = m.alloc)
      (denied : room (getHashAllocGreaterOrEqualTo (m.alloc + 1)) = false) :
      AddResult o room m index (.raised m .memoryError)
  | unhashable {after : Map Key Val} (unknown : hashOf o index = none) (formed : Formed o after)
      (order : (contents after).Perm (contents m)) :
      AddResult o room m index (.raised after .typeError)

theorem agrees_rehashed {between : Map Key Val} (rehashed : Rehashed o m between)
    (agrees : Agrees o comparePtrs index m) : Agrees o comparePtrs index between :=
  fun e member => agrees e (rehashed.order.mem_iff.mp member)

-- After a rehash the key is new to a table with a place for it.
theorem search_rehashed (laws : Lawful o) {between : Map Key Val} (rehashed : Rehashed o m between)
    (agrees : Agrees o comparePtrs index m) (missing : Missing o m index)
    (known : hashOf o index = some hash) (rehash : Map Key Val → Answer Key Val) (fuel : Nat) :
    ∃ after pos, searchFrom o rehash comparePtrs index .addIfNotFound hash (fuel + 1) between =
        .done after (some pos) ∧ Added o m index after pos := by
  rcases search_add_vacant laws rehashed.formed (agrees_rehashed rehashed agrees) rehashed.vacant
    known rehash fuel with
    ⟨after, pos, result, ⟨_, below, key, filled, present⟩ | ⟨added, _⟩⟩
  · exact absurd present (missing_rehashed rehashed missing _ (mem_of_filled below filled))
  · exact ⟨after, pos, result, added.from_rehashed rehashed⟩

theorem search_add (laws : Lawful o) (formed : Formed o m) (agrees : Agrees o comparePtrs index m)
    (size : 0 < m.alloc) (known : hashOf o index = some hash) (room : Nat → Bool) (fuel : Nat) :
    AddResult o room m index (searchFrom o
      (mpMapRehash room fun m key => mpMapLookup o room (fuel + 1) m key .addIfNotFound)
      comparePtrs index .addIfNotFound hash (fuel + 2) m) := by
  have spec := probe_spec agrees size hash
  rw [searchFrom]
  cases result : probe o comparePtrs index m (hash % m.alloc) m.alloc (hash % m.alloc) none with
  | running => exact (result ▸ spec).elim
  | found pos =>
      rw [result] at spec
      exact .found spec
  | null pos mark =>
      rw [result] at spec
      rcases spec with ⟨d, within, rfl, empty, passing⟩
      cases mark with
      | none => exact .added (added_null laws formed known within empty passing)
      | some slot =>
          have missing := missing_of_null laws formed known empty passing
          exact .added (added_mark laws formed known (Nat.le_of_lt within) passing missing)
  | wrapped mark =>
      rw [result] at spec
      have missing := missing_of_lap spec
      cases mark with
      | some slot =>
          exact .added (added_mark laws formed known (Nat.le_refl _) spec missing)
      | none =>
          simp only [↓reduceIte]
          rcases rehash_spec laws formed room fuel with ⟨denied, noRoom⟩ | ⟨between, ran, rehashed⟩
          · rw [denied]
            exact .full missing (lap_full spec) noRoom
          · rw [ran]
            rcases search_rehashed laws rehashed agrees missing known
                (mpMapRehash room fun m key => mpMapLookup o room (fuel + 1) m key .addIfNotFound)
                fuel with ⟨after, pos, found, added⟩
            simp only [found]
            exact .added added

theorem lookup_add (laws : Lawful o) (formed : Formed o m) (index : Key) (room : Nat → Bool)
    (fuel : Nat) :
    AddResult o room m index (mpMapLookup o room (fuel + 2) m index .addIfNotFound) := by
  rw [mpMapLookup]
  simp only [formed.plain, formed.hashed, Bool.false_eq_true, false_and, ↓reduceIte]
  cases chosen : compareOnlyPtrs o m index .addIfNotFound with
  | none => exact absurd rfl (compare_none laws formed chosen).1
  | some comparePtrs =>
      have agrees := compare_agrees laws formed chosen
      by_cases fresh : m.alloc = 0
      · have vacuous : contents m = [] := by
          rw [contents, fresh]
          rfl
        have missing : Missing o m index := by
          rw [Missing, vacuous]
          nofun
        simp only [fresh, ↓reduceIte]
        rcases rehash_spec laws formed room fuel with ⟨denied, noRoom⟩ | ⟨between, ran, rehashed⟩
        · rw [denied]
          exact .full missing (by rw [vacuous, fresh]; rfl) noRoom
        · rw [ran]
          simp only [hashLookup]
          cases known : hashOf o index with
          | none => exact .unhashable known rehashed.formed rehashed.order
          | some hash =>
              rcases search_rehashed laws rehashed agrees missing known
                  (mpMapRehash room fun m key => mpMapLookup o room (fuel + 1) m key .addIfNotFound)
                  (fuel + 1) with ⟨after, pos, found, added⟩
              simp only [found]
              exact .added added
      · simp only [fresh, ↓reduceIte, hashLookup]
        cases known : hashOf o index with
        | none => exact .unhashable known formed (List.Perm.refl _)
        | some hash =>
            exact search_add laws formed agrees (Nat.pos_of_ne_zero fresh) known room fuel

/-- How a lookup that adds nothing may end. -/
inductive FindResult (o : Objects Key) (m : Map Key Val) (index : Key) (kind : LookupKind) :
    Answer Key Val → Prop where
  | found {pos : Nat} (present : Found o m index pos) :
      FindResult o m index kind
        (.done (if kind = .removeIfFound then removeAt m pos else m) (some pos))
  | missing (present : Missing o m index) : FindResult o m index kind (.done m none)
  | unhashable (unknown : hashOf o index = none) : FindResult o m index kind (.raised m .typeError)

theorem lookup_find (laws : Lawful o) (formed : Formed o m) (index : Key) {kind : LookupKind}
    (finds : kind ≠ .addIfNotFound) (room : Nat → Bool) (fuel : Nat) :
    FindResult o m index kind (mpMapLookup o room (fuel + 1) m index kind) := by
  rw [mpMapLookup]
  simp only [formed.plain, formed.hashed, Bool.false_eq_true, false_and, ↓reduceIte]
  cases chosen : compareOnlyPtrs o m index kind with
  | none => exact .missing (compare_none laws formed chosen).2
  | some comparePtrs =>
      have agrees := compare_agrees laws formed chosen
      by_cases fresh : m.alloc = 0
      · simp only [fresh, finds, ↓reduceIte]
        refine .missing ?_
        rw [Missing, contents, fresh]
        nofun
      · simp only [fresh, ↓reduceIte, hashLookup]
        cases known : hashOf o index with
        | none => exact .unhashable known
        | some hash =>
            have spec := probe_spec agrees (Nat.pos_of_ne_zero fresh) hash
            simp only [searchFrom]
            cases result : probe o comparePtrs index m (hash % m.alloc) m.alloc (hash % m.alloc)
              none with
            | running => exact (result ▸ spec).elim
            | found pos =>
                rw [result] at spec
                exact .found spec
            | null pos mark =>
                rw [result] at spec
                rcases spec with ⟨d, within, rfl, empty, passing⟩
                simp only [finds, ↓reduceIte]
                exact .missing (missing_of_null laws formed known empty passing)
            | wrapped mark =>
                rw [result] at spec
                simp only [finds, ↓reduceIte]
                exact .missing (missing_of_lap spec)

/-- The last rule for keys is needed: while every key is an interned string, an
index that is no plain string is not found, whatever it is equal to. -/
theorem unlawful_key_missed (strings : m.allKeysAreQstrs = true) (plain : m.isFixed = false)
    (interned : o.isQstr index = false) (exactly : o.isExactStr index = false)
    {kind : LookupKind} (finds : kind ≠ .addIfNotFound) (room : Nat → Bool) (fuel : Nat) :
    mpMapLookup o room (fuel + 1) m index kind = .done m none := by
  have undecided : compareOnlyPtrs o m index kind = none := by
    simp [compareOnlyPtrs, strings, interned, exactly, finds]
  rw [mpMapLookup]
  simp only [plain, undecided, Bool.false_eq_true, false_and, ↓reduceIte]

end Search

theorem init_formed (o : Objects Key) (n : Nat) : Formed o (mpMapInit n : Map Key Val) := by
  have vacuous : contents (mpMapInit n : Map Key Val) = [] :=
    List.filterMap_eq_nil_iff.mpr fun _ _ => rfl
  exact ⟨rfl, rfl, sound_none fun _ _ => rfl, by rw [vacuous]; nofun, by rw [vacuous]; rfl,
    by rw [vacuous]; nofun⟩

theorem clear_formed (formed : Formed o m) :
    Formed o (mpMapClear m) ∧ contents (mpMapClear m) = [] :=
  ⟨⟨rfl, formed.hashed, sound_none nofun, nofun, rfl, nofun⟩, rfl⟩

end NexusOS.MapLookup
