/-!
# Spans

A span is a run of bytes inside one page. Its flags tell a whole page, a place past the end of the ring, and the end
of the range apart. A set of flags is also a number, one bit a flag, and has a text in which bits without a flag
come last.

* `SpanFlags.ofBits_bits`: the bits determine the flags.
-/

namespace PagedRing

/-- What is special about a span. -/
structure SpanFlags where
  /-- The span is a whole page. -/
  fullPage : Bool
  /-- The span lies past the end of the ring, seen from the start of its range. -/
  wrapped : Bool
  /-- The span ends its range. -/
  last : Bool
deriving DecidableEq, Inhabited

namespace SpanFlags

/-- The flags of a number; bits without a flag are dropped. -/
def ofBits (bits : Nat) : SpanFlags := ⟨bits.testBit 0, bits.testBit 1, bits.testBit 2⟩

/-- The number of a set of flags. -/
def bits (f : SpanFlags) : Nat := f.fullPage.toNat + 2 * f.wrapped.toNat + 4 * f.last.toNat

/-- The flags of a number that has no other bits. -/
def ofBits? (bits : Nat) : Option SpanFlags := if bits < 8 then some (ofBits bits) else none

/-- The flags that are not set. -/
def complement (f : SpanFlags) : SpanFlags := ⟨!f.fullPage, !f.wrapped, !f.last⟩

/-- Whether every flag is set. -/
def isAll (f : SpanFlags) : Bool := f.fullPage && f.wrapped && f.last

/-- Whether no flag is set. -/
def isEmpty (f : SpanFlags) : Bool := f.complement.isAll

/-- The names of the flags that are set, lowest bit first. -/
def names (f : SpanFlags) : List String :=
  (if f.fullPage then ["FULL_PAGE"] else []) ++ (if f.wrapped then ["WRAPPED"] else []) ++
    if f.last then ["LAST"] else []

/-- The text of a number read as flags: their names, then the other bits as one hexadecimal number; zero without
either. -/
def bitsText (bits : Nat) : String :=
  let others := bits / 8 * 8
  let parts := (ofBits bits).names ++ if others = 0 then [] else ["0x" ++ String.ofList (Nat.toDigits 16 others)]
  "ChunkFlags(" ++ (if parts.isEmpty then "0x0" else " | ".intercalate parts) ++ ")"

/-- The text of a set of flags. -/
def text (f : SpanFlags) : String := bitsText f.bits

/-- The bits determine the flags. -/
@[simp] theorem ofBits_bits (f : SpanFlags) : ofBits f.bits = f := by
  obtain ⟨a, b, c⟩ := f
  cases a <;> cases b <;> cases c <;> decide

end SpanFlags

end PagedRing
