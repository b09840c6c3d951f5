import PagedRing.Geometry
import PagedRing.Span

/-!
# Plans

A plan cuts a range of the ring into spans, one at a time: each span starts where the one before it ended and ends
with its page or with the range. Plans hold no bytes, so the range may be as long as any ring.

* `Plan.remaining_lt_of_next`: every span that is taken leaves less of the range.
* `Plan.spans`: all spans that are still to come.
* `Plan.sizeHint`: bounds on their number, known in advance.
-/

namespace PagedRing

/-- A run of bytes inside one page. -/
structure Span where
  /-- Position of the first byte in the ring. -/
  offset : Nat
  /-- Number of the page. -/
  page : Nat
  /-- Offset of the first byte in the page. -/
  offsetInPage : Nat
  /-- Number of bytes. -/
  len : Nat
  /-- What is special about the span. -/
  flags : SpanFlags
deriving DecidableEq, Inhabited

/-- The bounds of the span in its page; the upper one is exclusive. -/
def Span.range (s : Span) : Except Fault (Nat × Nat) := do
  let stop ← Word.add s.offsetInPage s.len
  return (s.offsetInPage, stop)

/-- A range of a ring and how much of it is planned already. -/
structure Plan where
  /-- The ring. -/
  geometry : Geometry
  /-- Position of the first byte of the range. -/
  start : Nat
  /-- Length of the range. -/
  len : Nat
  /-- Bytes of the range that earlier spans cover. -/
  planned : Nat
deriving DecidableEq

namespace Plan

/-- The plan of `len` bytes from `start`: the range starts in the ring and goes around it at most once. -/
def ofRange (g : Geometry) (start len : Nat) : Except Fault Plan :=
  if !g.contains start then
    .error (.startOutside start)
  else if g.capacity < len then
    .error (.lengthExceeds len)
  else
    .ok ⟨g, start, len, 0⟩

/-- The plan of the bytes from a read position to a write position. -/
def ofPositions (g : Geometry) (read write : Nat) : Except Fault Plan := do
  let len ← g.unreadLen read write
  ofRange g read len

/-- Bytes not planned yet. -/
def remaining (p : Plan) : Nat := p.len - p.planned

/-- The next span and the plan after it, or nothing at the end of the range. -/
def next (p : Plan) : Except Fault (Option (Span × Plan)) :=
  if p.len ≤ p.planned then
    .ok none
  else do
    let g := p.geometry
    let offset ← g.advance p.start p.planned
    let offsetInPage := g.offsetInPage offset
    let available ← Word.sub g.pageSize offsetInPage
    let left ← Word.sub p.len p.planned
    let len := min available left
    let ahead ← Word.sub g.capacity p.start
    let planned ← Word.add p.planned len
    let flags := ⟨len == g.pageSize, decide (ahead ≤ p.planned), planned == p.len⟩
    return some (⟨offset, g.pageOf offset, offsetInPage, len, flags⟩, { p with planned })

/-- Every span that is taken leaves less of the range. -/
theorem remaining_lt_of_next {p q : Plan} {s : Span} (h : p.next = .ok (some (s, q))) :
    q.remaining < p.remaining := by
  unfold next at h
  split at h
  · simp at h
  · next hp =>
    simp only [Fault.bind_eq_ok_iff, Word.sub_eq_ok_iff, Word.add_eq_ok_iff, pure, Except.pure, Except.ok.injEq,
      Option.some.injEq, Prod.mk.injEq] at h
    obtain ⟨offset, -, available, ⟨-, ha⟩, left, ⟨-, hl⟩, -, -, planned, ⟨-, hn⟩, -, rfl⟩ := h
    have := p.geometry.offsetInPage_lt offset
    simp only [remaining]
    omega

/-- The spans that are still to come. -/
def spans (p : Plan) : Except Fault (List Span) :=
  match _h : p.next with
  | .error fault => .error fault
  | .ok none => .ok []
  | .ok (some (span, rest)) => (spans rest).map (span :: ·)
termination_by p.remaining
decreasing_by exact remaining_lt_of_next _h

/-- A lower and an upper bound on the number of spans to come: only the first and the last may be less than a
page. -/
def sizeHint (p : Plan) : Except Fault (Nat × Nat) :=
  if p.remaining = 0 then
    .ok (0, 0)
  else do
    let pages := (p.remaining + (p.geometry.pageSize - 1)) / p.geometry.pageSize
    let upper ← Word.add pages 1
    return (pages, upper)

/-! ## Excerpts -/

/-- What a plan says about the rest of its range before a span is taken. -/
structure Outlook where
  /-- Bytes not planned yet. -/
  remaining : Nat
  /-- Bounds on the number of spans to come. -/
  bounds : Except Fault (Nat × Nat)

/-- What a plan says about the rest of its range. -/
def outlook (p : Plan) : Outlook := ⟨p.remaining, p.sizeHint⟩

/-- The first spans of a plan. -/
structure Excerpt where
  /-- The spans, in order. -/
  spans : List Span
  /-- The outlook before the first span and after each. -/
  outlooks : List Outlook
  /-- Whether the end of the range was reached. -/
  complete : Bool

/-- The spans that at most `limit` steps take from a plan. -/
def excerpt : Nat → Plan → Except Fault Excerpt
  | 0, p => .ok ⟨[], [p.outlook], false⟩
  | limit + 1, p => do
    match ← p.next with
    | none => return ⟨[], [p.outlook], true⟩
    | some (span, rest) =>
      let more ← excerpt limit rest
      return ⟨span :: more.spans, p.outlook :: more.outlooks, more.complete⟩

end Plan

end PagedRing
