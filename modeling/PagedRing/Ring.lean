import PagedRing.Bytes
import PagedRing.Geometry

/-!
# The ring

A ring keeps the last bytes written to it, as many as its capacity, in cells that start out zero. Each byte goes to
the cell at the write position, which then moves on, from the last cell back to the first. Nothing keeps the writer
from a cell that was not read yet.

* `Ring.new_eq`, `Ring.startingAt_of_zerosAt`: a new ring needs memory for its cells.
* `Ring.write`: what becomes of a ring, byte by byte; `Ring.write_append`: only the bytes written count, not how they
  were cut into writes.
* `Ring.append`: the writer, which copies whole runs up to the end of the ring; `Ring.append_eq_write`: it always comes
  to an end, and to the same.
* `Ring.page_eq_ok_iff`: the pages that exist, and their bytes.
-/

namespace PagedRing

/-- The cells of a ring and its write position. -/
@[ext] structure Ring where
  /-- The sizes of the ring. -/
  geometry : Geometry
  /-- The byte at each position. -/
  cells : Array UInt8
  /-- The position of the next byte to be written. -/
  position : Nat
  size_cells : cells.size = geometry.capacity
  position_lt : position < geometry.capacity

namespace Ring

/-- The ring of zeros with its write position at 0. -/
def zeros (g : Geometry) : Ring := ⟨g, Array.replicate g.capacity 0, 0, Array.size_replicate, g.capacity_pos⟩

/-- The ring of zeros with its write position at `start`. -/
def zerosAt (g : Geometry) (start : Nat) : Except GeometryError Ring :=
  if h : start < g.capacity then
    .ok ⟨g, Array.replicate g.capacity 0, start, Array.size_replicate, h⟩
  else
    .error (.positionOutOfRange start g.capacity)

/-- A new ring. -/
def new (g : Geometry) : Except Fault Ring := (allocate g.capacity).map fun _ => zeros g

/-- A new ring with its write position at `start`. The position is looked at before memory is taken. -/
def startingAt (g : Geometry) (start : Nat) : Except Fault (Except GeometryError Ring) :=
  match zerosAt g start with
  | .error cause => .ok (.error cause)
  | .ok ring => (allocate g.capacity).map fun _ => .ok ring

/-- Writes one byte. -/
def push (r : Ring) (byte : UInt8) : Ring where
  geometry := r.geometry
  cells := r.cells.set r.position byte (r.size_cells.symm ▸ r.position_lt)
  position := if r.position + 1 < r.geometry.capacity then r.position + 1 else 0
  size_cells := by rw [Array.size_set, r.size_cells]
  position_lt := by have := r.geometry.capacity_pos; split <;> omega

/-- What bytes make of a ring, one after the other. -/
def write (r : Ring) (bytes : Bytes) : Ring := bytes.foldl push r

/-- Copies bytes into cells, from a position on. -/
def overwrite (cells : Array UInt8) (position : Nat) : Bytes → Array UInt8
  | [] => cells
  | byte :: run => overwrite (cells.setIfInBounds position byte) (position + 1) run

theorem size_overwrite (cells : Array UInt8) (position : Nat) (run : Bytes) :
    (overwrite cells position run).size = cells.size := by
  induction run generalizing cells position with
  | nil => rfl
  | cons byte run ih => simp [overwrite, ih]

/-- Copies the bytes that fit before the end of the ring, moves the write position past them and returns the others. -/
def copyRun (r : Ring) (bytes : Bytes) : Except Fault (Ring × Bytes) := do
  let room ← Word.sub r.geometry.capacity r.position
  let count := min room bytes.length
  let stop ← Word.add r.position count
  if stop ≤ r.cells.size then
    match h : r.geometry.advance r.position count with
    | .error fault => .error fault
    | .ok position =>
      return (⟨r.geometry, overwrite r.cells r.position (bytes.take count), position,
        (size_overwrite _ _ _).trans r.size_cells, r.geometry.lt_of_advance (Nat.le_of_lt r.position_lt) h⟩,
        bytes.drop count)
  else
    .error .outOfBounds

/-- The bytes of a page; both bounds are computed before the cells are looked at. -/
def page (r : Ring) (number : Nat) : Except Fault Bytes := do
  let start ← Word.mul number r.geometry.pageSize
  let following ← Word.add number 1
  let stop ← Word.mul following r.geometry.pageSize
  if stop ≤ r.cells.size then return (r.cells.extract start stop).toList else .error .outOfBounds

/-- A summary of the ring without its bytes. -/
def summary (r : Ring) : String :=
  s!"MemoryPages \x7b geometry: Geometry \x7b capacity: {r.geometry.capacity}, " ++
    s!"page_size: {r.geometry.pageSize} \x7d, position: {r.position}, .. \x7d"

/-- A new ring needs memory for its cells. -/
theorem new_eq (g : Geometry) : new g = if 2 * g.capacity < wordBound then .ok (zeros g) else .error .tooLarge := by
  unfold new allocate
  split <;> rfl

theorem startingAt_of_zerosAt {g : Geometry} {start : Nat} {r : Ring} (h : zerosAt g start = .ok r) :
    startingAt g start = if 2 * g.capacity < wordBound then .ok (.ok r) else .error .tooLarge := by
  unfold startingAt allocate
  rw [h]
  dsimp only
  split <;> rfl

@[simp] theorem geometry_push (r : Ring) (byte : UInt8) : (r.push byte).geometry = r.geometry := rfl

/-- One byte moves the write position one step around the ring. -/
theorem position_push (r : Ring) (byte : UInt8) :
    (r.push byte).position = (r.position + 1) % r.geometry.capacity := by
  have := r.position_lt
  simp only [push]
  split
  · rw [Nat.mod_eq_of_lt (by omega)]
  · rw [show r.position + 1 = r.geometry.capacity by omega, Nat.mod_self]

@[simp] theorem write_nil (r : Ring) : r.write [] = r := rfl

@[simp] theorem write_cons (r : Ring) (byte : UInt8) (bytes : Bytes) :
    r.write (byte :: bytes) = (r.push byte).write bytes := rfl

/-- Only the bytes written count, not how they were cut into writes. -/
theorem write_append (r : Ring) (a b : Bytes) : r.write (a ++ b) = (r.write a).write b := List.foldl_append

@[simp] theorem geometry_write (r : Ring) (bytes : Bytes) : (r.write bytes).geometry = r.geometry := by
  induction bytes generalizing r with
  | nil => rfl
  | cons byte bytes ih => rw [write_cons, ih, geometry_push]

/-- Each byte moves the write position one step around the ring. -/
theorem position_write (r : Ring) (bytes : Bytes) :
    (r.write bytes).position = (r.position + bytes.length) % r.geometry.capacity := by
  induction bytes generalizing r with
  | nil => exact (Nat.mod_eq_of_lt r.position_lt).symm
  | cons byte bytes ih =>
    rw [write_cons, ih, position_push, geometry_push, List.length_cons, Nat.mod_add_mod]
    congr 1
    omega

/-! ## Writes by runs -/

/-- Bytes that fit before the end of the ring go into consecutive cells. -/
theorem cells_write {r : Ring} {run : Bytes} (h : r.position + run.length ≤ r.geometry.capacity) :
    (r.write run).cells = overwrite r.cells r.position run := by
  induction run generalizing r with
  | nil => rfl
  | cons byte run ih =>
    simp only [List.length_cons] at h
    have hpush : (r.push byte).cells = r.cells.setIfInBounds r.position byte := by
      simp [push, Array.setIfInBounds, r.size_cells, r.position_lt]
    cases run with
    | nil => simp [overwrite, hpush]
    | cons byte' run =>
      have hposition : (r.push byte).position = r.position + 1 := by
        simp only [List.length_cons] at h
        rw [position_push, Nat.mod_eq_of_lt (by omega)]
      rw [write_cons, ih (by rw [hposition, geometry_push]; omega), hposition, hpush]
      rfl

/-- A turn of the writer writes what fits before the end of the ring. -/
theorem copyRun_eq (r : Ring) (bytes : Bytes) :
    r.copyRun bytes = .ok (r.write (bytes.take (r.geometry.capacity - r.position)),
      bytes.drop (r.geometry.capacity - r.position)) := by
  have hposition := r.position_lt
  have hcapacity := r.geometry.capacity_lt
  obtain ⟨room, hroom⟩ : ∃ room, r.geometry.capacity - r.position = room := ⟨_, rfl⟩
  have htake : bytes.take (min room bytes.length) = bytes.take room := by simp [List.take_eq_take_min]
  have hdrop : bytes.drop (min room bytes.length) = bytes.drop room := by simp [List.drop_eq_drop_min]
  have hlength : (bytes.take room).length = min room bytes.length := by simp
  unfold copyRun
  simp only [Word.sub_of_le (Nat.le_of_lt hposition), bind, Except.bind, hroom]
  rw [Word.add_of_lt (by omega)]
  simp only [r.size_cells]
  rw [if_pos (by omega)]
  split
  · next fault h =>
    rw [r.geometry.advance_of_le (Nat.le_of_lt hposition)] at h
    cases h
  · next position h =>
    rw [r.geometry.advance_of_le (Nat.le_of_lt hposition), Except.ok.injEq] at h
    simp only [pure, Except.pure, htake, hdrop, Except.ok.injEq, Prod.mk.injEq, and_true]
    apply Ring.ext
    · simp
    · exact (cells_write (by omega)).symm
    · rw [position_write, hlength]
      exact h.symm

/-- Each turn but the last fills the ring up to its end; as the write position lies before the end, none is idle. -/
theorem length_lt_of_copyRun {r r' : Ring} {bytes rest : Bytes} (hne : bytes ≠ [])
    (h : r.copyRun bytes = .ok (r', rest)) : rest.length < bytes.length := by
  have hposition := r.position_lt
  have hlength := List.length_pos_iff.mpr hne
  rw [copyRun_eq, Except.ok.injEq, Prod.mk.injEq] at h
  rw [← h.2, List.length_drop]
  omega

/-- The writer: it copies one run after the other until no bytes are left. -/
def append (r : Ring) (bytes : Bytes) : Except Fault Ring :=
  if _hne : bytes = [] then .ok r
  else
    match _h : r.copyRun bytes with
    | .error fault => .error fault
    | .ok (r, rest) => append r rest
termination_by bytes.length
decreasing_by exact length_lt_of_copyRun _hne _h

/-- The writer always comes to an end, and writes the bytes one after the other. -/
theorem append_eq_write (r : Ring) (bytes : Bytes) : r.append bytes = .ok (r.write bytes) := by
  fun_induction append r bytes with
  | case1 r => rfl
  | case2 r bytes hne fault h =>
    rw [copyRun_eq] at h
    cases h
  | case3 r bytes hne r' rest h ih =>
    rw [copyRun_eq, Except.ok.injEq, Prod.mk.injEq] at h
    rw [ih, ← h.1, ← h.2, ← write_append, List.take_append_drop]

/-! ## Pages -/

/-- The pages that exist are those below the page count. -/
theorem page_eq_ok_iff (r : Ring) (number : Nat) (bytes : Bytes) :
    r.page number = .ok bytes ↔ number < r.geometry.pageCount ∧
      bytes = (r.cells.toList.drop (number * r.geometry.pageSize)).take r.geometry.pageSize := by
  have hcap := r.geometry.pageCount_mul_pageSize
  have hpos := r.geometry.pageSize_pos
  have hlt := r.geometry.capacity_lt
  have hstep : (number + 1) * r.geometry.pageSize = number * r.geometry.pageSize + r.geometry.pageSize :=
    Nat.succ_mul _ _
  simp only [page, Fault.bind_eq_ok_iff, Word.mul_eq_ok_iff, Word.add_eq_ok_iff, r.size_cells]
  constructor
  · rintro ⟨start, ⟨-, rfl⟩, following, ⟨-, rfl⟩, stop, ⟨-, rfl⟩, h⟩
    split at h
    · next hle =>
      refine ⟨?_, ?_⟩
      · rw [← hcap] at hle
        exact Nat.lt_of_succ_le (Nat.le_of_mul_le_mul_right hle hpos)
      · simp only [pure, Except.pure, Except.ok.injEq] at h
        rw [← h, Array.toList_extract, List.extract_eq_take_drop, hstep, Nat.add_sub_cancel_left]
    · simp at h
  · rintro ⟨hn, rfl⟩
    have hle : (number + 1) * r.geometry.pageSize ≤ r.geometry.capacity :=
      hcap ▸ Nat.mul_le_mul_right _ hn
    have hnum : number + 1 ≤ (number + 1) * r.geometry.pageSize := Nat.le_mul_of_pos_right _ hpos
    refine ⟨_, ⟨by omega, rfl⟩, _, ⟨by omega, rfl⟩, _, ⟨by omega, rfl⟩, ?_⟩
    rw [if_pos hle, Array.toList_extract, List.extract_eq_take_drop, hstep, Nat.add_sub_cancel_left]
    rfl

/-- A page whose number can be counted is not missing because of a sum. -/
theorem page_ne_addOverflow (r : Ring) {number : Nat} (h : number + 1 < wordBound) :
    r.page number ≠ .error .addOverflow := by
  have hmul : ∀ a b, Word.mul a b ≠ .error .addOverflow := by
    intro a b
    unfold Word.mul
    split <;> simp
  unfold page
  rw [Word.add_of_lt h]
  cases hstart : Word.mul number r.geometry.pageSize with
  | error fault =>
    rintro ⟨⟩
    exact hmul _ _ hstart
  | ok start =>
    cases hstop : Word.mul (number + 1) r.geometry.pageSize with
    | error fault =>
      intro heq
      refine hmul _ _ (hstop.trans ?_)
      simpa [bind, Except.bind, hstop] using heq
    | ok stop =>
      simp only [bind, Except.bind, hstop]
      split <;> simp [pure, Except.pure]

end Ring

end PagedRing
