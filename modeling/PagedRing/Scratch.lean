import PagedRing.Bytes
import PagedRing.Word

/-!
# Scratches

A scratch is the buffer from which whole pages are handed out. It is resized to the page and overwritten, so nothing
of what it held before remains. Zeros at its end are counted and not stored.

* `Scratch.length_bytes`: a scratch holds as many bytes as its size says.
* `Scratch.bytes_load`: after a page was loaded, the scratch holds that page.
-/

namespace PagedRing

/-- A buffer: the bytes of `content`, then zeros up to `size`. -/
structure Scratch where
  /-- Number of bytes. -/
  size : Nat
  /-- The first bytes; all others are zero. -/
  content : Bytes
  length_le : content.length ≤ size
deriving DecidableEq

namespace Scratch

/-- A scratch of zeros. -/
def zeros (size : Nat) : Scratch := ⟨size, [], Nat.zero_le _⟩

/-- A new scratch of zeros. -/
def ofSize (size : Nat) : Except Fault Scratch := (allocate size).map fun _ => zeros size

/-- The empty scratch. -/
def empty : Scratch := zeros 0

instance : Inhabited Scratch := ⟨empty⟩

/-- The bytes of the buffer. -/
def bytes (s : Scratch) : Bytes := s.content ++ List.replicate (s.size - s.content.length) 0

/-- Cuts the buffer to `size` bytes, or fills it up with zeros. -/
def resize (s : Scratch) (size : Nat) : Scratch := ⟨size, s.content.take size, List.length_take_le _ _⟩

/-- Overwrites the first bytes; the size stays. -/
def overwrite (s : Scratch) (page : Bytes) : Scratch :=
  ⟨s.size, (page ++ s.content.drop page.length).take s.size, List.length_take_le _ _⟩

/-- Resizes the buffer to the length of pages and copies a page into it. -/
def load (s : Scratch) (pageSize : Nat) (page : Bytes) : Scratch := (s.resize pageSize).overwrite page

/-- A scratch holds as many bytes as its size says. -/
@[simp] theorem length_bytes (s : Scratch) : s.bytes.length = s.size := by
  have := s.length_le
  simp only [bytes, List.length_append, List.length_replicate]
  omega

/-- After a page was loaded, the scratch holds that page. -/
theorem bytes_load (s : Scratch) (page : Bytes) : (s.load page.length page).bytes = page := by
  simp [load, overwrite, resize, bytes]

end Scratch

end PagedRing
