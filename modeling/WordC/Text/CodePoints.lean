/-!
# Sets of code points

A set of code points is given by the increasing list of the points where
membership changes, beginning outside the set. `within` reads such a list.
-/

namespace WordC

namespace Text

/-- Whether `n` lies inside, when membership before the first of `bounds` is
`inside` and changes at each of them. -/
def insideAt : List Nat → Nat → Bool → Bool
  | [], _, inside => inside
  | b :: bs, n, inside => if n < b then inside else insideAt bs n (!inside)

/-- Membership in the set whose changes are listed by `bounds`. -/
def within (bounds : List Nat) (c : Char) : Bool :=
  insideAt bounds c.toNat false

end Text

end WordC
