/-!
# Bounds

How far the numbers go that have a fixed width.
-/

namespace Communities

/-- The number of ids that 32 bits can tell apart. -/
def idBound : Nat := 4294967296

/-- The number of values of a 64-bit counter. -/
def countBound : Nat := 18446744073709551616

/-- The number of bytes that no table may reach: what 63 bits can count up to. -/
def tableBytes : Nat := 9223372036854775808

end Communities
