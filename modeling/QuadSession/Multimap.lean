import Std.Data.TreeMap
import Std.Data.TreeSet

/-!
# Maps from keys to sets of values

An index assigns to every key the set of values that belong to it.  Taking the
last value from an entry takes the entry away as well, so a map that only grows
by `insert` and shrinks by `erase` has no empty entries.  An empty entry is
still a possible state: `touch` makes one, and an audit has to find it.

## Main statements

* `lookup?_insert` and `lookup?_erase` say what the operations do to the entry of
  every key.
* `contains_insert` and `contains_erase` say what they do to the values.
-/

namespace QuadSession

/-- A map from keys to sets of values, both kept in order. -/
structure Multimap (κ α : Type) [Ord κ] [Ord α] where
  entries : Std.TreeMap κ (Std.TreeSet α)

namespace Multimap

variable {κ α : Type} [Ord κ] [Ord α]

def empty : Multimap κ α :=
  ⟨∅⟩

/-- The entry of a key, if the key has one. -/
def lookup? (m : Multimap κ α) (k : κ) : Option (Std.TreeSet α) :=
  m.entries[k]?

/-- Whether the key has an entry, even an empty one. -/
def hasKey (m : Multimap κ α) (k : κ) : Bool :=
  m.entries.contains k

/-- The keys that have an entry, in order. -/
def keys (m : Multimap κ α) : List κ :=
  m.entries.keys

/-- The values of a key, in order. -/
def values (m : Multimap κ α) (k : κ) : List α :=
  match m.lookup? k with
  | some entry => entry.toList
  | none => []

/-- Whether the key has the value. -/
def contains (m : Multimap κ α) (k : κ) (a : α) : Bool :=
  (m.lookup? k).any fun entry => entry.contains a

/-- Whether some value of the key passes the test. -/
def anyValue (m : Multimap κ α) (k : κ) (test : α → Bool) : Bool :=
  (m.values k).any test

/-- Gives the key one more value.  A value that the key has is left as it
was. -/
def insert (m : Multimap κ α) (k : κ) (a : α) : Multimap κ α :=
  ⟨m.entries.alter k fun entry => some ((entry.getD ∅).insert a)⟩

/-- Gives the key an entry without giving it a value. -/
def touch (m : Multimap κ α) (k : κ) : Multimap κ α :=
  ⟨m.entries.alter k fun entry => some (entry.getD ∅)⟩

/-- Takes a value from an entry, and then the entry itself if it is empty. -/
def without (entry : Std.TreeSet α) (a : α) : Option (Std.TreeSet α) :=
  if (entry.erase a).isEmpty then none else some (entry.erase a)

/-- Takes a value from the key.  A key left without values loses its entry. -/
def erase (m : Multimap κ α) (k : κ) (a : α) : Multimap κ α :=
  ⟨m.entries.alter k fun entry => entry.bind fun entry => without entry a⟩

/-! ## What the operations do to each entry -/

variable [Std.TransOrd κ]

theorem lookup?_insert (m : Multimap κ α) (k k' : κ) (a : α) :
    (m.insert k a).lookup? k' =
      if compare k k' = .eq then some (((m.lookup? k).getD ∅).insert a) else m.lookup? k' :=
  Std.TreeMap.getElem?_alter

theorem lookup?_erase (m : Multimap κ α) (k k' : κ) (a : α) :
    (m.erase k a).lookup? k' =
      if compare k k' = .eq then (m.lookup? k).bind fun entry => without entry a
      else m.lookup? k' :=
  Std.TreeMap.getElem?_alter

/-! ## What the operations do to the values -/

variable [Std.TransOrd α]

theorem contains_insert (m : Multimap κ α) (k k' : κ) (a a' : α) :
    (m.insert k a).contains k' a' =
      if compare k k' = .eq then compare a a' == .eq || m.contains k a'
      else m.contains k' a' := by
  unfold contains
  rw [lookup?_insert]
  by_cases hkey : compare k k' = .eq
  · rw [if_pos hkey, if_pos hkey, Option.any_some, Std.TreeSet.contains_insert]
    cases m.lookup? k with
    | none => simp
    | some entry => rfl
  · rw [if_neg hkey, if_neg hkey]

theorem any_without (entry : Std.TreeSet α) (a a' : α) :
    ((without entry a).any fun entry => entry.contains a') =
      (compare a a' != .eq && entry.contains a') := by
  rw [← Std.TreeSet.contains_erase]
  by_cases hempty : (entry.erase a).isEmpty = true
  · rw [without, if_pos hempty, Std.TreeSet.contains_of_isEmpty hempty]
    rfl
  · rw [without, if_neg hempty]
    rfl

theorem contains_erase (m : Multimap κ α) (k k' : κ) (a a' : α) :
    (m.erase k a).contains k' a' =
      if compare k k' = .eq then compare a a' != .eq && m.contains k a'
      else m.contains k' a' := by
  unfold contains
  rw [lookup?_erase]
  by_cases hkey : compare k k' = .eq
  · rw [if_pos hkey, if_pos hkey]
    cases m.lookup? k with
    | none => simp
    | some entry => exact any_without entry a a'
  · rw [if_neg hkey, if_neg hkey]

end Multimap

end QuadSession
