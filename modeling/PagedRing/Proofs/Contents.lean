import Mathlib.Data.Nat.SuccPred
import PagedRing.Ring

/-!
# What a ring holds

A ring holds the last bytes that were written to it, as many as it has cells: each byte stays in its cell until the
writer comes around to that cell again, and a cell that was never reached is zero. How the bytes were cut into writes
leaves no trace, however long the writes are.

* `Ring.getElem?_write`: a byte that was written is found again, unless a full turn came after it.
* `Ring.run_write`: so are the bytes of a span.
* `Ring.cell_write`: what a cell holds, the last byte written to it or what it held before.
* `Ring.flatten_pages`: the pages are the ring, cut into pieces.
* `Ring.latest_kept`: what a ring of zeros holds after any writes, and its pages.
-/

namespace PagedRing

namespace Ring

theorem getElem?_push_self (r : Ring) (byte : UInt8) : (r.push byte).cells[r.position]? = some byte :=
  Array.getElem?_set_self (r.size_cells.symm ▸ r.position_lt)

theorem getElem?_push_ne (r : Ring) (byte : UInt8) {k : Nat} (h : r.position ≠ k) :
    (r.push byte).cells[k]? = r.cells[k]? :=
  Array.getElem?_set_ne (r.size_cells.symm ▸ r.position_lt) h

/-- A write leaves the cells alone that it does not reach. -/
theorem getElem?_write_ne (r : Ring) (bytes : Bytes) {k : Nat}
    (h : ∀ j < bytes.length, (r.position + j) % r.geometry.capacity ≠ k) :
    (r.write bytes).cells[k]? = r.cells[k]? := by
  induction bytes generalizing r with
  | nil => rfl
  | cons byte bytes ih =>
    have hne : r.position ≠ k := by
      have := h 0 (Nat.zero_lt_succ _)
      rwa [Nat.add_zero, Nat.mod_eq_of_lt r.position_lt] at this
    rw [write_cons, ih, getElem?_push_ne r byte hne]
    intro j hj
    have := h (j + 1) (Nat.succ_lt_succ hj)
    rwa [position_push, geometry_push, Nat.mod_add_mod, Nat.add_assoc, Nat.add_comm 1 j]

/-- A byte that was written is found again, unless a full turn came after it. -/
theorem getElem?_write (r : Ring) (bytes : Bytes) {i : Nat} (hi : i < bytes.length)
    (hle : bytes.length ≤ i + r.geometry.capacity) :
    (r.write bytes).cells[(r.position + i) % r.geometry.capacity]? = bytes[i]? := by
  induction bytes generalizing r i with
  | nil => cases hi
  | cons byte bytes ih =>
    rw [List.length_cons] at hi hle
    cases i with
    | zero =>
      have hpos := r.position_lt
      rw [Nat.add_zero, Nat.mod_eq_of_lt hpos, write_cons, getElem?_write_ne, getElem?_push_self]
      · rfl
      · -- the bytes after it do not come around to its cell
        intro j hj heq
        rw [position_push, geometry_push, Nat.mod_add_mod] at heq
        rcases Nat.lt_or_ge (r.position + 1 + j) r.geometry.capacity with hlt | hge
        · rw [Nat.mod_eq_of_lt hlt] at heq
          omega
        · rw [Nat.mod_eq_sub_mod hge, Nat.mod_eq_of_lt (by omega)] at heq
          omega
    | succ i =>
      have := ih (r.push byte) (i := i) (by omega) (by rw [geometry_push]; omega)
      rw [position_push, geometry_push, Nat.mod_add_mod] at this
      rw [write_cons, List.getElem?_cons_succ, ← this]
      congr 2
      omega

/-- The bytes of a span are found again, unless a full turn came after the first of them. -/
theorem run_write (r : Ring) (bytes : Bytes) {k len offset : Nat}
    (hoffset : offset = (r.position + k) % r.geometry.capacity)
    (hend : offset + len ≤ r.geometry.capacity) (hlen : k + len ≤ bytes.length)
    (hle : bytes.length ≤ k + r.geometry.capacity) :
    ((r.write bytes).cells.toList.drop offset).take len = (bytes.drop k).take len := by
  have hcells : (r.write bytes).cells.toList.length = r.geometry.capacity := by
    rw [Array.length_toList, (r.write bytes).size_cells, geometry_write]
  refine List.ext_getElem? fun j => ?_
  rw [List.getElem?_take, List.getElem?_take]
  split
  · next hj =>
    rw [List.getElem?_drop, List.getElem?_drop, ← r.getElem?_write bytes (i := k + j) (by omega) (by omega),
      Array.getElem?_toList, ← Nat.add_assoc, ← Nat.mod_add_mod (r.position + k), ← hoffset,
      Nat.mod_eq_of_lt (by omega)]
  · rfl

/-! ## Cells -/

/-- The last byte of a string that goes to a cell, if one does. -/
theorem exists_latest (g : Geometry) (first len j : Nat) :
    (∃ i, IsGreatest {i | i < len ∧ (first + i) % g.capacity = j} i) ∨
      ∀ i < len, (first + i) % g.capacity ≠ j := by
  by_cases h : ∃ i < len, (first + i) % g.capacity = j
  · left
    obtain ⟨i, hi⟩ := h
    have hbounded : BddAbove {i | i < len ∧ (first + i) % g.capacity = j} := ⟨len, fun k hk => Nat.le_of_lt hk.1⟩
    exact hbounded.exists_isGreatest_of_nonempty ⟨i, hi⟩
  · right
    intro i hi heq
    exact h ⟨i, hi, heq⟩

/-- A full turn did not come after the last byte that goes to a cell. -/
theorem len_le_of_latest {g : Geometry} {first len i j : Nat}
    (h : IsGreatest {i | i < len ∧ (first + i) % g.capacity = j} i) : len ≤ i + g.capacity := by
  obtain ⟨⟨-, heq⟩, hgreatest⟩ := h
  by_contra hlt
  have hnext : i + g.capacity ≤ i := hgreatest ⟨by omega, by rw [← Nat.add_assoc, Nat.add_mod_right, heq]⟩
  have := g.capacity_pos
  omega

/-- A cell holds the last byte that was written to it, or what it held before. -/
theorem cell_write (r : Ring) (bytes : Bytes) (j : Nat) :
    (∃ i, IsGreatest {i | i < bytes.length ∧ (r.position + i) % r.geometry.capacity = j} i ∧
      (r.write bytes).cells[j]? = bytes[i]?) ∨
    ((∀ i < bytes.length, (r.position + i) % r.geometry.capacity ≠ j) ∧ (r.write bytes).cells[j]? = r.cells[j]?) := by
  rcases exists_latest r.geometry r.position bytes.length j with ⟨i, hi⟩ | hnone
  · left
    obtain ⟨hlt, rfl⟩ := hi.1
    exact ⟨i, hi, r.getElem?_write bytes hlt (len_le_of_latest hi)⟩
  · right
    exact ⟨hnone, r.getElem?_write_ne bytes hnone⟩

/-! ## Writes -/

/-- Writes strings one after the other: the position that each write returns, and the ring after them. -/
def appendAll (r : Ring) : List Bytes → Except Fault (List Nat × Ring)
  | [] => .ok ([], r)
  | bytes :: rest => do
    let r ← r.append bytes
    let (positions, last) ← r.appendAll rest
    return (r.position :: positions, last)

/-- Writes always come to an end; each returns the position after its last byte, and together they write the strings
as one. -/
theorem appendAll_eq (r : Ring) (writes : List Bytes) :
    ∃ positions, r.appendAll writes = .ok (positions, r.write writes.flatten) ∧ positions.length = writes.length ∧
      ∀ k < writes.length, positions[k]? =
        some ((r.position + (writes.take (k + 1)).flatten.length) % r.geometry.capacity) := by
  induction writes generalizing r with
  | nil => exact ⟨[], rfl, rfl, by simp⟩
  | cons bytes rest ih =>
    obtain ⟨positions, hrest, hlength, hpositions⟩ := ih (r.write bytes)
    refine ⟨(r.write bytes).position :: positions, ?_, ?_, ?_⟩
    · simp only [appendAll, append_eq_write, bind, Except.bind, hrest, List.flatten_cons, write_append]
      rfl
    · simp [hlength]
    · intro k hk
      cases k with
      | zero => simp [position_write]
      | succ k =>
        rw [List.getElem?_cons_succ, hpositions k (Nat.lt_of_succ_lt_succ hk), position_write, geometry_write,
          List.take_succ_cons, List.flatten_cons, List.length_append, Nat.mod_add_mod, Nat.add_assoc]

/-! ## Pages -/

/-- The bytes of a page, which has the length of a page. -/
theorem page_of_lt (r : Ring) {number : Nat} (h : number < r.geometry.pageCount) :
    r.page number = .ok ((r.cells.toList.drop (number * r.geometry.pageSize)).take r.geometry.pageSize) ∧
      ((r.cells.toList.drop (number * r.geometry.pageSize)).take r.geometry.pageSize).length =
        r.geometry.pageSize := by
  refine ⟨(r.page_eq_ok_iff _ _).mpr ⟨h, rfl⟩, ?_⟩
  have hend : (number + 1) * r.geometry.pageSize ≤ r.geometry.pageCount * r.geometry.pageSize :=
    Nat.mul_le_mul_right _ h
  rw [r.geometry.pageCount_mul_pageSize, Nat.succ_mul] at hend
  rw [List.length_take, List.length_drop, Array.length_toList, r.size_cells]
  omega

/-- There are no other pages. -/
theorem page_of_le (r : Ring) {number : Nat} (h : r.geometry.pageCount ≤ number) :
    ∃ fault, r.page number = .error fault := by
  cases hpage : r.page number with
  | error fault => exact ⟨fault, rfl⟩
  | ok bytes =>
    have := ((r.page_eq_ok_iff _ _).mp hpage).1
    omega

/-- Computations that all have a result have one together. -/
theorem mapM_eq_ok {α β : Type} {f : α → Except Fault β} {f' : α → β} {xs : List α} (h : ∀ x ∈ xs, f x = .ok (f' x)) :
    xs.mapM f = .ok (xs.map f') := by
  induction xs with
  | nil => rfl
  | cons x xs ih =>
    rw [List.mapM_cons, h x List.mem_cons_self, ih fun y hy => h y (List.mem_cons_of_mem x hy)]
    rfl

/-- Pieces of one length that follow each other. -/
theorem flatten_pieces (bytes : Bytes) (size count : Nat) :
    ((List.range count).map fun number => (bytes.drop (number * size)).take size).flatten = bytes.take (count * size) := by
  induction count with
  | zero => simp
  | succ count ih =>
    rw [List.range_succ, List.map_append, List.flatten_append, ih, Nat.succ_mul, List.take_add]
    simp

/-- The pages, one after the other, are the whole ring. -/
theorem flatten_pages (r : Ring) :
    ∃ pages, (List.range r.geometry.pageCount).mapM r.page = .ok pages ∧ pages.flatten = r.cells.toList := by
  refine ⟨_, mapM_eq_ok fun number hnumber => (r.page_of_lt (List.mem_range.mp hnumber)).1, ?_⟩
  rw [flatten_pieces, r.geometry.pageCount_mul_pageSize, ← r.size_cells, ← Array.length_toList, List.take_length]

/-! ## Rings of zeros -/

/-- What a ring holds after a string was written to a ring of zeros, from a position on. -/
structure Keeps (g : Geometry) (first : Nat) (bytes : Bytes) (r : Ring) : Prop where
  geometry : r.geometry = g
  /-- The write position has gone around with the bytes, and lies in the ring. -/
  position : r.position = (first + bytes.length) % g.capacity ∧ r.position < g.capacity
  /-- Each cell holds the last byte that went to it, or zero if none did. -/
  cell : ∀ j < g.capacity,
    (∃ i, IsGreatest {i | i < bytes.length ∧ (first + i) % g.capacity = j} i ∧ r.cells[j]? = bytes[i]?) ∨
      ((∀ i < bytes.length, (first + i) % g.capacity ≠ j) ∧ r.cells[j]? = some 0)
  /-- Each page below the page count consists of its own cells. -/
  page : ∀ number < g.pageCount, ∃ page, r.page number = .ok page ∧ page.length = g.pageSize ∧
    page = (r.cells.toList.drop (number * g.pageSize)).take g.pageSize
  /-- There is no other page. -/
  beyond : ∀ number, g.pageCount ≤ number → ∃ fault, r.page number = .error fault
  /-- The pages, one after the other, are the whole ring. -/
  pages : ∃ pages, (List.range g.pageCount).mapM r.page = .ok pages ∧ pages.flatten = r.cells.toList

/-- A ring of zeros keeps what is written to it. -/
theorem keeps_write {r : Ring} (hzeros : ∀ j < r.geometry.capacity, r.cells[j]? = some 0) (bytes : Bytes) :
    Keeps r.geometry r.position bytes (r.write bytes) where
  geometry := r.geometry_write bytes
  position := by
    have hlt := (r.write bytes).position_lt
    rw [geometry_write] at hlt
    exact ⟨r.position_write bytes, hlt⟩
  cell j hj := by
    rw [← hzeros j hj]
    exact r.cell_write bytes j
  page number hnumber := by
    rw [← r.geometry_write bytes] at hnumber ⊢
    obtain ⟨hpage, hlength⟩ := (r.write bytes).page_of_lt hnumber
    exact ⟨_, hpage, hlength, rfl⟩
  beyond number hnumber := by
    rw [← r.geometry_write bytes] at hnumber
    exact (r.write bytes).page_of_le hnumber
  pages := by
    rw [← r.geometry_write bytes]
    exact (r.write bytes).flatten_pages

/-- Whatever is written to a ring of zeros, from any position on and in writes of any lengths: every write comes to an
end and returns the position after its last byte, the ring keeps the bytes as one string, and writes that make the same
string make the same ring. Such a ring can be made if memory can hold its cells. -/
theorem latest_kept (g : Geometry) {first : Nat} (hfirst : first < g.capacity) (writes : List Bytes) :
    ∃ zeros positions r, zerosAt g first = .ok zeros ∧
      startingAt g first = (if 2 * g.capacity < wordBound then .ok (.ok zeros) else .error .tooLarge) ∧
      (first = 0 → zeros = .zeros g ∧ new g = if 2 * g.capacity < wordBound then .ok zeros else .error .tooLarge) ∧
      zeros.appendAll writes = .ok (positions, r) ∧ positions.length = writes.length ∧
      (∀ k < writes.length, positions[k]? = some ((first + (writes.take (k + 1)).flatten.length) % g.capacity)) ∧
      Keeps g first writes.flatten r ∧
      ∀ writes' : List Bytes, writes'.flatten = writes.flatten →
        ∃ positions', zeros.appendAll writes' = .ok (positions', r) := by
  have hzeros : zerosAt g first = .ok _ := dif_pos hfirst
  obtain ⟨zeros, hzeros, hgeometry, hposition, hcells⟩ : ∃ zeros, zerosAt g first = .ok zeros ∧ zeros.geometry = g ∧
    zeros.position = first ∧ zeros.cells = Array.replicate g.capacity 0 := ⟨_, hzeros, rfl, rfl, rfl⟩
  subst hgeometry hposition
  obtain ⟨positions, happend, hlength, hpositions⟩ := zeros.appendAll_eq writes
  refine ⟨zeros, positions, _, hzeros, startingAt_of_zerosAt hzeros, ?_, happend, hlength, hpositions, ?_, ?_⟩
  · intro hstart
    have hsame : zeros = .zeros zeros.geometry := Ring.ext rfl hcells hstart
    have hnew := new_eq zeros.geometry
    rw [← hsame] at hnew
    exact ⟨hsame, hnew⟩
  · apply keeps_write
    intro j hj
    rw [hcells, Array.getElem?_replicate, if_pos hj]
  · intro writes' hsame
    obtain ⟨positions', happend', -, -⟩ := zeros.appendAll_eq writes'
    rw [hsame] at happend'
    exact ⟨positions', happend'⟩

/-- A ring of three pages of five bytes. -/
def threeFives : Geometry := ⟨15, 5, by decide, by decide, by decide⟩

/-- Nothing, then more than the ring holds, then three bytes more. -/
def lapping : List Bytes := [[], [1, 2, 3, 4, 5, 6, 7, 8, 9, 10, 11, 12, 13, 14, 15, 16, 17, 18, 19, 20], [21, 22, 23]]

theorem latest_kept_lapping : 13 < threeFives.capacity ∧ ∃ zeros positions r,
    zerosAt threeFives 13 = .ok zeros ∧ zeros.appendAll lapping = .ok (positions, r) ∧ positions = [13, 3, 6] ∧
      Keeps threeFives 13 lapping.flatten r := by
  have hfirst : 13 < threeFives.capacity := by decide
  refine ⟨hfirst, ?_⟩
  obtain ⟨zeros, positions, r, hzeros, -, -, happend, hlength, hpositions, hkeeps, -⟩ :=
    latest_kept threeFives hfirst lapping
  refine ⟨zeros, positions, r, hzeros, happend, ?_, hkeeps⟩
  refine List.ext_getElem? fun k => ?_
  rcases Nat.lt_or_ge k 3 with hk | hk
  · rw [hpositions k hk]
    exact (by decide : ∀ k < 3, some ((13 + (lapping.take (k + 1)).flatten.length) % threeFives.capacity) =
      [13, 3, 6][k]?) k hk
  · rw [List.getElem?_eq_none (hlength.trans_le hk), List.getElem?_eq_none hk]

end Ring

end PagedRing
