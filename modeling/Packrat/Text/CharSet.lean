set_option autoImplicit false

namespace Packrat

structure CharSet where
  ranges : List (Nat × Nat)

namespace CharSet

def within : List (Nat × Nat) → Nat → Bool
  | [], _ => false
  | (low, high) :: rest, code =>
    if code < low then false else if code ≤ high then true else within rest code

def contains (set : CharSet) (c : Char) : Bool :=
  within set.ranges c.toNat

def blank : CharSet where
  ranges :=
    [(0x9, 0xd), (0x20, 0x20), (0x85, 0x85), (0xa0, 0xa0), (0x1680, 0x1680), (0x2000, 0x200a),
      (0x2028, 0x2029), (0x202f, 0x202f), (0x205f, 0x205f), (0x3000, 0x3000)]

end CharSet

end Packrat
