import QuadSession.Blank

/-!
# Labels drawn at random

A new blank node needs a label that no other blank node of its root has.  The
label is a number of 32 hexadecimal digits drawn at random.  Its first digit is
a letter, so that the label is also a name in formats where names do not start
with a digit.
-/

namespace QuadSession.Blank

/-- The least number whose 32 hexadecimal digits start with a letter. -/
def freshLow : Nat :=
  0xA0000000000000000000000000000000

/-- The greatest number with 32 hexadecimal digits. -/
def freshHigh : Nat :=
  0xFFFFFFFFFFFFFFFFFFFFFFFFFFFFFFFF

/-- A blank node in the scope of `root` with a label drawn from the generator,
and the generator after the draw. -/
def fresh (root : Iri) (generator : StdGen) : Blank × StdGen :=
  let (number, rest) := randNat generator freshLow freshHigh
  (⟨root, String.ofList (Nat.toDigits 16 number)⟩, rest)

end QuadSession.Blank
