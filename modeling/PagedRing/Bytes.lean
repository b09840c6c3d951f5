/-!
# Bytes

Strings of bytes, the slices taken of them and the newline that ends a line.
-/

namespace PagedRing

/-- Bytes, in order. -/
abbrev Bytes := List UInt8

/-- The byte that ends a line. -/
def newline : UInt8 := 10

end PagedRing
