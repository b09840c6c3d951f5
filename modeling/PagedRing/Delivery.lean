import PagedRing.Journal
import PagedRing.Scratch

/-!
# Delivery of a range

A range of the ring reaches a sink span by span. Each page is fetched just before its span is handed out, a whole
page goes through the scratch and any other span as a copy of exactly its bytes. The first page of the wrong length
and the first refusal end the delivery.

The surroundings are a `Host` over a state of any kind: fetching a page, handing out a chunk and reading the write
position may each change that state, so a sink may write to the ring or start deliveries of its own.

* `Host.deliver`: a whole range, after its bounds were checked.
* `Host.deliverRest`: the spans of a plan that are still to come.
-/

namespace PagedRing

/-- What a delivery needs from its surroundings. -/
structure Host (σ : Type) where
  /-- Reads the write position. -/
  position : σ → Nat × σ
  /-- Fetches a page. -/
  fetch : Nat → σ → Except Fault Bytes × σ
  /-- Hands a chunk to the sink. -/
  accept : Bytes → σ → Except SinkError Unit × σ
  /-- Writes down an event. -/
  note : Event → σ → σ

/-- The bytes of a span of a page, and the scratch after they were copied. -/
def Span.copyFrom (span : Span) (page : Bytes) (scratch : Scratch) : Except Fault (Bytes × Scratch) :=
  if span.flags.fullPage then
    let scratch := scratch.load page.length page
    .ok (scratch.bytes, scratch)
  else do
    let (start, stop) ← span.range
    if stop ≤ page.length then return ((page.take stop).drop start, scratch) else .error .outOfBounds

namespace Host

variable {σ : Type} (host : Host σ)

/-- Hands one span to the sink. The report `done` of the range counts the chunks before it, and `delivered` their
bytes. -/
def handOut (g : Geometry) (done : Transfer) (delivered : Nat) (span : Span) (scratch : Scratch) (s : σ) :
    Except Halt Unit × Scratch × σ :=
  match host.fetch span.page s with
  | (.error fault, s) => (.error (.fault fault), scratch, s)
  | (.ok page, s) =>
    if page.length = g.pageSize then
      match span.copyFrom page scratch with
      | .error fault => (.error (.fault fault), scratch, s)
      | .ok (bytes, scratch) =>
        match host.accept bytes (host.note (.offered span bytes) s) with
        | (.ok (), s) => (.ok (), scratch, host.note (.accepted span bytes) s)
        | (.error cause, s) =>
          (.error (.error (.sink done.start done.stop delivered cause)), scratch,
            host.note (.refused done.start done.stop delivered done.len cause) s)
    else
      (.error (.error (.pageSize span.page g.pageSize page.length delivered)), scratch, s)

/-- Delivers the spans of a plan that are still to come. -/
def deliverRest (plan : Plan) (done : Transfer) (delivered : Nat) (scratch : Scratch) (s : σ) :
    Except Halt Transfer × Scratch × σ :=
  match _h : plan.next with
  | .error fault => (.error (.fault fault), scratch, s)
  | .ok none => (.ok done, scratch, host.note (.delivered done) s)
  | .ok (some (span, rest)) =>
    match host.handOut plan.geometry done delivered span scratch s with
    | (.error halt, scratch, s) => (.error halt, scratch, s)
    | (.ok (), scratch, s) =>
      match Word.add delivered span.len, Word.add done.chunks 1 with
      | .ok delivered, .ok chunks => deliverRest rest { done with chunks } delivered scratch s
      | .error fault, _ | _, .error fault => (.error (.fault fault), scratch, s)
termination_by plan.remaining
decreasing_by exact Plan.remaining_lt_of_next _h

section

variable {plan : Plan} (done : Transfer) (delivered : Nat) (scratch : Scratch) (s : σ)

theorem deliverRest_of_fault {fault : Fault} (h : plan.next = .error fault) :
    host.deliverRest plan done delivered scratch s = (.error (.fault fault), scratch, s) := by
  rw [deliverRest]
  split
  · next heq => rw [h] at heq; cases heq; rfl
  · next heq => rw [h] at heq; cases heq
  · next heq => rw [h] at heq; cases heq

theorem deliverRest_of_none (h : plan.next = .ok none) :
    host.deliverRest plan done delivered scratch s = (.ok done, scratch, host.note (.delivered done) s) := by
  rw [deliverRest]
  split
  · next heq => rw [h] at heq; cases heq
  · rfl
  · next heq => rw [h] at heq; cases heq

theorem deliverRest_of_some {span : Span} {rest : Plan} (h : plan.next = .ok (some (span, rest))) :
    host.deliverRest plan done delivered scratch s =
      match host.handOut plan.geometry done delivered span scratch s with
      | (.error halt, scratch, s) => (.error halt, scratch, s)
      | (.ok (), scratch, s) =>
        match Word.add delivered span.len, Word.add done.chunks 1 with
        | .ok delivered, .ok chunks => host.deliverRest rest { done with chunks } delivered scratch s
        | .error fault, _ | _, .error fault => (.error (.fault fault), scratch, s) := by
  rw [deliverRest]
  split
  · next heq => rw [h] at heq; cases heq
  · next heq => rw [h] at heq; cases heq
  · next heq => rw [h] at heq; cases heq; rfl

end

/-- Delivers `len` bytes from `start`, after the range was found to lie in the ring. -/
def deliver (g : Geometry) (start len : Nat) (scratch : Scratch) (s : σ) : Except Halt Transfer × Scratch × σ :=
  if !g.contains start then
    (.error (.error (.positionOutOfRange start g.capacity)), scratch, s)
  else if g.capacity < len then
    (.error (.error (.rangeTooLong len g.capacity)), scratch, s)
  else
    match g.advance start len, Plan.ofRange g start len with
    | .ok stop, .ok plan => host.deliverRest plan ⟨start, stop, len, 0⟩ 0 scratch (host.note (.planned plan) s)
    | .error fault, _ | _, .error fault => (.error (.fault fault), scratch, s)

/-- Reads the write position, which has to lie in the ring. -/
def readPosition (g : Geometry) (s : σ) : Except Halt Nat × σ :=
  let (position, s) := host.position s
  let s := host.note (.sampled position) s
  (if g.contains position then .ok position else .error (.error (.positionOutOfRange position g.capacity)), s)

end Host

end PagedRing
