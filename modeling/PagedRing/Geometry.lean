import PagedRing.Word

/-!
# Geometry of a paged ring

A ring of `capacity` bytes is cut into pages of `pageSize` bytes. Positions are the numbers below the capacity, and
moving past the last one leads back to 0. A `Geometry` holds only sizes that fit together, so every position lies in
exactly one page and no page straddles the end of the ring.

* `Geometry.ofSizes`: the sizes that are accepted, and the first reason against the others.
* `unreadLen`: the bytes from a read position to a write position, with at most one turn between them.
* `Geometry.advance`: a step of any length around the ring.
-/

namespace PagedRing

/-- Why sizes or a position are refused. -/
inductive GeometryError where
  /-- The page size is zero. -/
  | zeroPageSize
  /-- The capacity is zero. -/
  | zeroCapacity
  /-- The capacity is no whole number of pages. -/
  | notPageAligned (capacity pageSize : Nat)
  /-- The position does not lie in the ring. -/
  | positionOutOfRange (position capacity : Nat)
deriving DecidableEq, Inhabited

/-- The text of a refusal. -/
def GeometryError.message : GeometryError → String
  | .zeroPageSize => "page size must be non-zero"
  | .zeroCapacity => "capacity must be non-zero"
  | .notPageAligned capacity pageSize => s!"capacity {capacity} is not a multiple of page size {pageSize}"
  | .positionOutOfRange position capacity => s!"position {position} is outside a ring of {capacity} bytes"

/-- The size of a ring and of its pages: the ring is not empty and holds a whole number of pages. -/
structure Geometry where
  /-- Bytes in the ring. -/
  capacity : Nat
  /-- Bytes in a page. -/
  pageSize : Nat
  capacity_pos : 0 < capacity
  capacity_lt : capacity < wordBound
  pageSize_dvd : pageSize ∣ capacity
deriving DecidableEq

/-- The bytes written between a read position and a write position; a write position below the read position has
passed the end of the ring once. -/
def unreadLen (read write capacity : Nat) : Except Fault Nat :=
  if read ≤ write then
    Word.sub write read
  else do
    let tail ← Word.sub capacity read
    Word.add tail write

/-- Whether the write position has left the read position. -/
def hasUnread (read write : Nat) : Bool := read != write

namespace Geometry

/-- A ring of 1 GiB in pages of 4 KiB. -/
instance : Inhabited Geometry := ⟨⟨1024 * 1024 * 1024, 4 * 1024, by decide, by decide, by decide⟩⟩

/-- The geometry with these sizes, or the first reason against it. -/
def ofSizes (capacity pageSize : UInt64) : Except GeometryError Geometry :=
  if pageSize.toNat = 0 then
    .error .zeroPageSize
  else if hc : capacity.toNat = 0 then
    .error .zeroCapacity
  else if hd : capacity.toNat % pageSize.toNat = 0 then
    .ok ⟨capacity.toNat, pageSize.toNat, Nat.pos_of_ne_zero hc, capacity.toNat_lt, Nat.dvd_of_mod_eq_zero hd⟩
  else
    .error (.notPageAligned capacity.toNat pageSize.toNat)

variable (g : Geometry)

theorem pageSize_pos : 0 < g.pageSize := Nat.pos_of_dvd_of_pos g.pageSize_dvd g.capacity_pos

theorem pageSize_le : g.pageSize ≤ g.capacity := Nat.le_of_dvd g.capacity_pos g.pageSize_dvd

/-- The number of pages. -/
def pageCount : Nat := g.capacity / g.pageSize

/-- The page that holds a position. -/
def pageOf (position : Nat) : Nat := position / g.pageSize

/-- The offset of a position in its page. -/
def offsetInPage (position : Nat) : Nat := position % g.pageSize

/-- Whether a position lies in the ring. -/
def contains (position : Nat) : Bool := decide (position < g.capacity)

/-- The bytes from a read position to a write position of this ring. -/
def unreadLen (read write : Nat) : Except Fault Nat := PagedRing.unreadLen read write g.capacity

/-- The position `count` bytes after `position`; no sum on the way exceeds the capacity. -/
def advance (position count : Nat) : Except Fault Nat := do
  let room ← Word.sub g.capacity position
  let step := count % g.capacity
  if room ≤ step then Word.sub step room else Word.add position step

/-- The position, if it lies in the ring. -/
def position? (position : Nat) : Except GeometryError Nat :=
  if g.contains position then .ok position else .error (.positionOutOfRange position g.capacity)

theorem contains_iff {position : Nat} : g.contains position = true ↔ position < g.capacity := by
  simp [contains]

theorem pageCount_mul_pageSize : g.pageCount * g.pageSize = g.capacity := Nat.div_mul_cancel g.pageSize_dvd

/-- A page number and an offset give back the position. -/
theorem pageOf_mul_add_offsetInPage (position : Nat) :
    g.pageOf position * g.pageSize + g.offsetInPage position = position := by
  rw [Nat.mul_comm]; exact Nat.div_add_mod position g.pageSize

theorem offsetInPage_lt (position : Nat) : g.offsetInPage position < g.pageSize :=
  Nat.mod_lt _ g.pageSize_pos

theorem pageOf_lt {position : Nat} (h : position < g.capacity) : g.pageOf position < g.pageCount := by
  rw [pageOf, Nat.div_lt_iff_lt_mul g.pageSize_pos, pageCount_mul_pageSize]; exact h

/-- A step from a position of the ring, or from its end, is a sum modulo the capacity. -/
theorem advance_of_le {position : Nat} (h : position ≤ g.capacity) (count : Nat) :
    g.advance position count = .ok ((position + count) % g.capacity) := by
  have hw := g.capacity_lt
  have hm := Nat.mod_lt count g.capacity_pos
  rw [← Nat.add_mod_mod]
  simp only [advance, Word.sub_of_le h, bind, Except.bind]
  generalize count % g.capacity = step at hm ⊢
  split
  · next hr =>
    rw [Word.sub_of_le hr, Nat.mod_eq_sub_mod (by omega), Nat.mod_eq_of_lt (by omega)]
    congr 1; omega
  · next hr => rw [Word.add_of_lt (by omega), Nat.mod_eq_of_lt (by omega)]

/-- A step leads to a position of the ring. -/
theorem lt_of_advance {position count next : Nat} (h : position ≤ g.capacity)
    (hnext : g.advance position count = .ok next) : next < g.capacity := by
  rw [g.advance_of_le h, Except.ok.injEq] at hnext
  rw [← hnext]
  exact Nat.mod_lt _ g.capacity_pos

/-- Between positions of the ring the unread length exists. -/
theorem unreadLen_of_le {read write : Nat} (h : read ≤ g.capacity) :
    g.unreadLen read write = .ok (if read ≤ write then write - read else g.capacity - read + write) := by
  have hw := g.capacity_lt
  simp only [unreadLen, PagedRing.unreadLen]
  split
  · next hr => exact Word.sub_of_le hr
  · next hr =>
    simp only [Word.sub_of_le h, bind, Except.bind]
    exact Word.add_of_lt (by omega)

/-- The unread bytes lead from the read position to the write position. -/
theorem advance_unreadLen {read write len : Nat} (hr : read < g.capacity) (hw : write < g.capacity)
    (h : g.unreadLen read write = .ok len) : g.advance read len = .ok write ∧ len < g.capacity := by
  rw [g.unreadLen_of_le (Nat.le_of_lt hr), Except.ok.injEq] at h
  rw [g.advance_of_le (Nat.le_of_lt hr)]
  split at h
  · next hle =>
    refine ⟨?_, by omega⟩
    rw [show read + len = write by omega, Nat.mod_eq_of_lt hw]
  · next hlt =>
    refine ⟨?_, by omega⟩
    rw [show read + len = write + g.capacity by omega, Nat.add_mod_right, Nat.mod_eq_of_lt hw]

/-- Two numbers that are less than a turn apart and lead to the same position are the same. -/
theorem eq_of_same_position {first a b : Nat} (h : (first + b) % g.capacity = (first + a) % g.capacity)
    (hab : a ≤ b) (hba : b < a + g.capacity) : a = b := by
  have hmod := Nat.sub_mod_eq_zero_of_mod_eq h
  rw [Nat.mod_eq_of_lt (by omega)] at hmod
  omega

end Geometry

end PagedRing
