/-!
# What a deletion takes along

Blank nodes that nothing refers to any more go with every deletion.  Two
choices go further: the blank children of the deleted entity can be deleted even
if something else refers to them, and the quads that refer to the deleted entity
can be removed.
-/

namespace QuadSession

/-- The choices for a deletion.  References to the deleted entity are removed
unless stated otherwise. -/
structure DeletePolicy where
  deleteChildren : Bool := false
  nullifyReferences : Bool := true
deriving DecidableEq, Repr

namespace DeletePolicy

/-- Neither choice. -/
def none : DeletePolicy :=
  ⟨false, false⟩

/-- Only the choice to delete blank children. -/
def children : DeletePolicy :=
  ⟨true, false⟩

/-- Only the choice to remove references. -/
def references : DeletePolicy :=
  ⟨false, true⟩

instance : Inhabited DeletePolicy := ⟨{}⟩

/-- Every choice that one of the two policies makes. -/
def union (a b : DeletePolicy) : DeletePolicy :=
  ⟨a.deleteChildren || b.deleteChildren, a.nullifyReferences || b.nullifyReferences⟩

instance : OrOp DeletePolicy := ⟨union⟩

/-- Whether `a` makes every choice that `b` makes. -/
def includes (a b : DeletePolicy) : Bool :=
  (a.deleteChildren || !b.deleteChildren) && (a.nullifyReferences || !b.nullifyReferences)

def isNone (a : DeletePolicy) : Bool :=
  !a.deleteChildren && !a.nullifyReferences

/-- The names of the choices that are made. -/
def choices (a : DeletePolicy) : List String :=
  (if a.deleteChildren then ["DeleteChildren"] else []) ++
    (if a.nullifyReferences then ["NullifyChildren"] else [])

def render (a : DeletePolicy) : String :=
  if a.isNone then "None" else " | ".intercalate a.choices

end DeletePolicy

end QuadSession
