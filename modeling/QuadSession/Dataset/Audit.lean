import QuadSession.Dataset

/-!
# Auditing the indices of a dataset

The audit compares the primary set and the indices in both directions.

* Every quad of the primary set is found under its own key in the index by
  owner, by subject and by slot, and its owner is listed for its object unless
  the object is a literal.
* Every quad in one of these three indices belongs to the primary set and is
  filed under its own key.
* Every entity listed for an object still owns, according to the index by owner,
  a quad with that object.
* No index has an entry without values.

Each violation is reported with the index and what was found there.

## Main definitions

* `Dataset.audit` lists the violations, and `Dataset.report` puts them in order.
* `Dataset.isSound` says that there are none.
-/

namespace QuadSession

namespace Dataset

/-- The four indices of a dataset. -/
inductive Index where
  | entity
  | subject
  | slot
  | object
deriving DecidableEq, Repr

def Index.name : Index → String
  | entity => "entity"
  | subject => "subject"
  | slot => "subject-predicate"
  | object => "object"

/-- A disagreement between the primary set and an index. -/
inductive Violation where
  /-- The index does not lead to a quad of the primary set. -/
  | unreachable (index : Index) (quad : Quad)
  /-- The index holds a quad that the primary set does not hold. -/
  | alien (index : Index) (quad : Quad)
  /-- The index holds a quad under a key that is not the key of the quad. -/
  | misfiled (index : Index) (quad : Quad)
  /-- The entity is listed for an object that it does not refer to. -/
  | unfounded (entity : Entity)
  /-- The index of quads has an entry without quads. -/
  | vacant (index : Index)
  /-- The object has an entry that lists no entity. -/
  | unreferenced (object : Term)

namespace Violation

/-- The kinds of violations, as they are told apart in messages. -/
inductive Kind where
  | unreachable
  | alien
  | misfiled
  | unfounded
  | vacant
deriving DecidableEq, Repr

def Kind.description : Kind → String
  | unreachable => "Quad is missing"
  | alien => "Quad is not part of the collection"
  | misfiled => "Quad is stored under a foreign key"
  | unfounded => "Entity no longer references the object"
  | vacant => "Entry is empty"

def kind : Violation → Kind
  | unreachable _ _ => .unreachable
  | alien _ _ => .alien
  | misfiled _ _ => .misfiled
  | unfounded _ => .unfounded
  | vacant _ => .vacant
  | unreferenced _ => .vacant

def index : Violation → Index
  | unreachable index _ => index
  | alien index _ => index
  | misfiled index _ => index
  | unfounded _ => .object
  | vacant index => index
  | unreferenced _ => .object

/-- What was looked for or found. -/
def entry : Violation → String
  | unreachable _ quad => quad.render
  | alien _ quad => quad.render
  | misfiled _ quad => quad.render
  | unfounded entity => entity.render
  | vacant _ => "<empty>"
  | unreferenced object => object.render

def message (v : Violation) : String :=
  "Corruption in the " ++ v.index.name ++ " index: " ++ v.kind.description ++
    " (" ++ v.entry ++ ")"

end Violation

/-! ## The checks -/

/-- The indices that do not lead to the quad. -/
def blindIndices (d : Dataset) (q : Quad) : List Index :=
  (if d.byOwner.contains q.owner q then [] else [.entity]) ++
  (if d.bySubject.contains q.subject q then [] else [.subject]) ++
  (if d.bySlot.contains q.slot q then [] else [.slot]) ++
  (if q.object.isLiteral || d.byObject.contains q.object.term q.owner then [] else [.object])

/-- What is wrong with the quads of one entry, given the test for quads that
belong under its key. -/
def checkEntry (d : Dataset) (index : Index) (belongs : Quad → Bool) (entry : Quads) :
    List Violation :=
  if entry.isEmpty then [.vacant index]
  else entry.toList.flatMap fun q =>
    (if d.contains q then [] else [.alien index q]) ++
    (if belongs q then [] else [.misfiled index q])

/-- What is wrong with the entities listed for an object. -/
def checkReferrers (d : Dataset) (object : Term) (entry : Std.TreeSet Entity) :
    List Violation :=
  if entry.isEmpty then [.unreferenced object]
  else entry.toList.flatMap fun e =>
    if d.byOwner.anyValue e fun q => q.object.term == object then [] else [.unfounded e]

/-- Every violation in the dataset. -/
def audit (d : Dataset) : List Violation :=
  (d.quads.flatMap fun q => (d.blindIndices q).map fun index => .unreachable index q) ++
  (d.byOwner.entries.toList.flatMap fun (owner, entry) =>
    d.checkEntry .entity (fun q => q.owner == owner) entry) ++
  (d.bySubject.entries.toList.flatMap fun (subject, entry) =>
    d.checkEntry .subject (fun q => q.subject == subject) entry) ++
  (d.bySlot.entries.toList.flatMap fun (slot, entry) =>
    d.checkEntry .slot (fun q => q.slot == slot) entry) ++
  (d.byObject.entries.toList.flatMap fun (object, entry) => d.checkReferrers object entry)

/-- Whether the audit finds nothing. -/
def isSound (d : Dataset) : Bool :=
  d.audit.isEmpty

/-- The violations in the order of their messages. -/
def report (d : Dataset) : List Violation :=
  d.audit.mergeSort fun a b => (compare a.message b.message).isLE

end Dataset

end QuadSession
