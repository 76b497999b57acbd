import Mathlib.Data.List.Basic

/-!
# Interning

A table of entries in order of first use, with the index of every key.
Interning a key finds its index or appends an entry; a block of entries is
appended without keys.
-/

namespace Cgir.Library

/-- Entries, and the index of the entry that stands for each key. -/
structure InternTable (Key Entry : Type*) where
  entries : List Entry
  index : List (Key × Nat)
  deriving DecidableEq, Repr

namespace InternTable

variable {Key Entry : Type*}

def empty : InternTable Key Entry where
  entries := []
  index := []

/-- Append entries that no key finds. -/
def append (table : InternTable Key Entry) (block : List Entry) :
    InternTable Key Entry where
  entries := table.entries ++ block
  index := table.index

variable [DecidableEq Key]

/-- The index of a key. -/
def find (table : InternTable Key Entry) (key : Key) : Option Nat :=
  (table.index.find? fun pair => pair.1 = key).map Prod.snd

/-- The index of a key; the entry is appended at its first use. -/
def intern (table : InternTable Key Entry) (key : Key) (entry : Entry) :
    InternTable Key Entry × Nat :=
  match table.find key with
  | some index => (table, index)
  | none =>
      ({ entries := table.entries ++ [entry]
         index := (key, table.entries.length) :: table.index },
        table.entries.length)

/-- Intern a list of keys, and collect their indices. -/
def internAll (table : InternTable Key Entry) :
    List (Key × Entry) → InternTable Key Entry × List Nat
  | [] => (table, [])
  | item :: rest =>
      let first := table.intern item.1 item.2
      let others := first.1.internAll rest
      (others.1, first.2 :: others.2)

/--
What a table records of the items interned so far: every key of an item is
found, at the entry of its first item, and no two keys share an entry.
-/
structure Records (items : List (Key × Entry))
    (table : InternTable Key Entry) : Prop where
  stored : ∀ {key index}, table.find key = some index →
    ∃ entry, table.entries[index]? = some entry ∧
      items.find? (fun item => item.1 = key) = some (key, entry)
  missing : ∀ {key}, table.find key = none →
    items.find? (fun item => item.1 = key) = none
  injective : ∀ {key key' index}, table.find key = some index →
    table.find key' = some index → key = key'

/-- A later table keeps the entries and the keys of an earlier one. -/
structure Extends (later earlier : InternTable Key Entry) : Prop where
  entries : earlier.entries <+: later.entries
  find : ∀ {key index}, earlier.find key = some index →
    later.find key = some index

namespace Extends

variable {first second third : InternTable Key Entry}

theorem refl (table : InternTable Key Entry) : table.Extends table where
  entries := List.prefix_rfl
  find := id

theorem trans (later : third.Extends second) (earlier : second.Extends first) :
    third.Extends first where
  entries := earlier.entries.trans later.entries
  find := fun found => later.find (earlier.find found)

/-- An entry keeps its place. -/
theorem getElem? (later : second.Extends first) {index : Nat} {entry : Entry}
    (stored : first.entries[index]? = some entry) :
    second.entries[index]? = some entry := by
  obtain ⟨rest, split⟩ := later.entries
  rw [← split, List.getElem?_append_left]
  · exact stored
  · exact (List.getElem?_eq_some_iff.mp stored).1

end Extends

variable {table : InternTable Key Entry} {items : List (Key × Entry)}

@[simp] theorem find_empty (key : Key) :
    (empty : InternTable Key Entry).find key = none :=
  rfl

@[simp] theorem find_append (block : List Entry) (key : Key) :
    (table.append block).find key = table.find key :=
  rfl

theorem find_cons (entries : List Entry) (key key' : Key) (index : Nat) :
    (InternTable.mk entries ((key, index) :: table.index)).find key' =
      if key = key' then some index else table.find key' := by
  by_cases same : key = key' <;> simp [find, same]

theorem records_empty : (empty : InternTable Key Entry).Records [] where
  stored := fun found => (Option.some_ne_none _ found.symm).elim
  missing := fun _ => rfl
  injective := fun found => (Option.some_ne_none _ found.symm).elim

theorem append_extends (block : List Entry) :
    (table.append block).Extends table where
  entries := List.prefix_append _ _
  find := id

/-- Entries without keys leave every key its entry. -/
theorem Records.append (records : table.Records items) (block : List Entry) :
    (table.append block).Records items where
  stored := by
    intro key index found
    obtain ⟨entry, stored, first⟩ := records.stored found
    exact ⟨entry, (append_extends block).getElem? stored, first⟩
  missing := records.missing
  injective := records.injective

/-- What one use of a key does. -/
structure Interned (table : InternTable Key Entry)
    (items : List (Key × Entry)) (item : Key × Entry)
    (result : InternTable Key Entry × Nat) : Prop where
  records : result.1.Records (items ++ [item])
  later : result.1.Extends table
  found : result.1.find item.1 = some result.2

/-- A key that is found again keeps its entry. -/
private theorem Records.again (records : table.Records items)
    {item : Key × Entry} {index : Nat}
    (found : table.find item.1 = some index) :
    table.Records (items ++ [item]) where
  stored := by
    intro key index' found'
    obtain ⟨entry, stored, first⟩ := records.stored found'
    refine ⟨entry, stored, ?_⟩
    rw [List.find?_append, first, Option.some_or]
  missing := by
    intro key missing
    have different : item.1 ≠ key := by
      rintro rfl
      rw [found] at missing
      exact Option.some_ne_none _ missing
    rw [List.find?_append, records.missing missing, Option.none_or]
    simp [different]
  injective := records.injective

/-- A new key gets the entry behind all others. -/
private theorem Records.fresh (records : table.Records items)
    {item : Key × Entry} (missing : table.find item.1 = none) :
    Interned table items item
      ({ entries := table.entries ++ [item.2]
         index := (item.1, table.entries.length) :: table.index },
        table.entries.length) := by
  have unused : ∀ {key}, table.find key ≠ some table.entries.length := by
    intro key old
    obtain ⟨_, stored, -⟩ := records.stored old
    exact Nat.lt_irrefl _ (List.getElem?_eq_some_iff.mp stored).1
  have later : Extends
      { entries := table.entries ++ [item.2]
        index := (item.1, table.entries.length) :: table.index } table := by
    refine ⟨List.prefix_append _ _, fun {key index} old => ?_⟩
    rw [find_cons, if_neg, old]
    rintro rfl
    rw [missing] at old
    exact Option.some_ne_none _ old.symm
  refine
    { records := ⟨?_, ?_, ?_⟩
      later := later
      found := by rw [find_cons, if_pos rfl] }
  · intro key index found
    rw [find_cons] at found
    split at found
    · rename_i same
      subst same
      obtain rfl := Option.some.inj found
      refine ⟨item.2, List.getElem?_concat_length, ?_⟩
      rw [List.find?_append, records.missing missing, Option.none_or]
      simp
    · obtain ⟨entry, stored, first⟩ := records.stored found
      refine ⟨entry, later.getElem? stored, ?_⟩
      rw [List.find?_append, first, Option.some_or]
  · intro key absent
    rw [find_cons] at absent
    split at absent
    · exact (Option.some_ne_none _ absent).elim
    · rename_i different
      rw [List.find?_append, records.missing absent, Option.none_or]
      simp [different]
  · intro first second index atFirst atSecond
    rw [find_cons] at atFirst atSecond
    split at atFirst <;> split at atSecond
    · rename_i same same'
      exact same.symm.trans same'
    · obtain rfl := Option.some.inj atFirst
      exact (unused atSecond).elim
    · obtain rfl := Option.some.inj atSecond
      exact (unused atFirst).elim
    · exact records.injective atFirst atSecond

theorem Records.intern (records : table.Records items)
    (item : Key × Entry) :
    Interned table items item (table.intern item.1 item.2) := by
  unfold InternTable.intern
  cases found : table.find item.1 with
  | some index =>
      exact
        { records := records.again found
          later := Extends.refl table
          found := found }
  | none => exact records.fresh found

/-- What interning a list of keys does. -/
structure InternedAll (table : InternTable Key Entry)
    (items new : List (Key × Entry))
    (result : InternTable Key Entry × List Nat) : Prop where
  records : result.1.Records (items ++ new)
  later : result.1.Extends table
  length : result.2.length = new.length
  found : ∀ {position : Nat} {item : Key × Entry},
    new[position]? = some item →
      ∃ index, result.2[position]? = some index ∧
        result.1.find item.1 = some index

theorem Records.internAll (records : table.Records items)
    (new : List (Key × Entry)) :
    InternedAll table items new (table.internAll new) := by
  induction new generalizing table items with
  | nil =>
      exact
        { records := by rw [List.append_nil]; exact records
          later := Extends.refl table
          length := rfl
          found := fun found => (Option.some_ne_none _ found.symm).elim }
  | cons item rest ih =>
      have first := records.intern item
      have others := ih first.records
      refine
        { records := by
            rw [List.append_cons]
            exact others.records
          later := others.later.trans first.later
          length := congrArg Nat.succ others.length
          found := ?_ }
      intro position other found
      cases position with
      | zero =>
          obtain rfl := Option.some.inj found
          exact ⟨_, rfl, others.later.find first.found⟩
      | succ position => exact others.found found

end InternTable

end Cgir.Library
