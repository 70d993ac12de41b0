import QuadSession.Dataset

/-!
# Damage to a single index

An audit is only as good as the faults it finds.  Here a fault is put into one
part of a dataset while every other part stays as it is, so that what the audit
then reports can be compared with what was done.
-/

namespace QuadSession.Dataset

/-- One fault.  An entry that is put without a value is made if it is not there,
and may so be empty. -/
inductive Damage where
  | clearPrimary
  | clearOwners
  | clearSubjects
  | clearSlots
  | clearObjects
  | dropPrimary (quad : Quad)
  | insertPrimary (quad : Quad)
  | putOwner (key : Entity) (value : Option Quad)
  | putSubject (key : Term) (value : Option Quad)
  | putSlot (key : Slot) (value : Option Quad)
  | putObject (key : Term) (value : Option Entity)

/-- Gives a key an entry and, if there is one, a value. -/
def putEntry {κ α : Type} [Ord κ] [Ord α] (m : Multimap κ α) (key : κ) :
    Option α → Multimap κ α
  | some value => m.insert key value
  | none => m.touch key

/-- The dataset with one fault put in. -/
def inflict (d : Dataset) : Damage → Dataset
  | .clearPrimary => { d with primary := ∅ }
  | .clearOwners => { d with byOwner := .empty }
  | .clearSubjects => { d with bySubject := .empty }
  | .clearSlots => { d with bySlot := .empty }
  | .clearObjects => { d with byObject := .empty }
  | .dropPrimary quad => { d with primary := d.primary.erase quad }
  | .insertPrimary quad => { d with primary := d.primary.insert quad }
  | .putOwner key value => { d with byOwner := putEntry d.byOwner key value }
  | .putSubject key value => { d with bySubject := putEntry d.bySubject key value }
  | .putSlot key value => { d with bySlot := putEntry d.bySlot key value }
  | .putObject key value => { d with byObject := putEntry d.byObject key value }

end QuadSession.Dataset
