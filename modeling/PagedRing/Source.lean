import PagedRing.Ring

/-!
# Sources

What a drain reads from: a ring with its writer, or a table of pages whose write position is set by hand. A table
makes no promise: its pages may have any length and its position may lie anywhere.
-/

namespace PagedRing

/-- What a drain reads from. -/
inductive Source where
  /-- A ring. -/
  | ring (ring : Ring)
  /-- The first pages of a source whose other pages are empty, and its write position. -/
  | table (pages : Array Bytes) (position : Nat)

namespace Source

/-- The position up to which bytes were written. -/
def position : Source → Nat
  | .ring r => r.position
  | .table _ position => position

/-- The bytes of a page. -/
def page : Source → Nat → Except Fault Bytes
  | .ring r, number => r.page number
  | .table pages _, number => .ok (pages[number]?.getD [])

/-- A page whose number can be counted is not missing because of a sum. -/
theorem page_ne_addOverflow (source : Source) {number : Nat} (h : number + 1 < wordBound) :
    source.page number ≠ .error .addOverflow := by
  cases source with
  | ring r => exact r.page_ne_addOverflow h
  | table pages position => rintro ⟨⟩

end Source

end PagedRing
