import PagedRing.Drain.Concurrent
import PagedRing.Proofs.Tiling

/-!
# Worlds

A source and a sink of any kind, as a drain meets them. Every call that the drain makes is written down with its answer,
so what a delivery does can be read off afterwards, and two deliveries can be compared call by call.

* `World`, `Stage`: a source and a sink, and the calls that were made to them.
* `World.host`: the surroundings of a drain in a world.
* `Host.deliverRest_of_lt`: one span of a delivery, without the bookkeeping of its recursion.
* `Host.deliver_of_fits`: a range that lies in the ring is delivered by its plan.
-/

namespace PagedRing

/-! ## Worlds -/

/-- A source and a sink of any kind, as a drain meets them. A call may change them as it likes, but they know nothing
of the drain. -/
structure World (σ : Type) where
  /-- Reads the write position. -/
  position : σ → Nat × σ
  /-- Fetches a page. -/
  fetch : Nat → σ → Except Fault Bytes × σ
  /-- Hands a chunk to the sink. -/
  accept : Bytes → σ → Except SinkError Unit × σ

/-- A call of a drain, with its answer. -/
inductive Call where
  /-- The write position was read. -/
  | position (answer : Nat)
  /-- A page was fetched. -/
  | fetch (page : Nat) (answer : Except Fault Bytes)
  /-- A chunk was handed to the sink. -/
  | accept (bytes : Bytes) (answer : Except SinkError Unit)

/-- A world, the cursor of a shared drain beside it, and the calls that were made so far. -/
structure Stage (σ : Type) where
  /-- The source and the sink. -/
  world : σ
  /-- The shared cursor. -/
  cursor : Nat
  /-- The calls, in order. -/
  calls : List Call

namespace Stage

variable {σ : Type}

/-- A stage before the first call. -/
def start (world : σ) (cursor : Nat) : Stage σ := ⟨world, cursor, []⟩

/-- The stage after a call. -/
def after (s : Stage σ) (call : Call) (world : σ) : Stage σ := ⟨world, s.cursor, s.calls ++ [call]⟩

/-- The same stage with its cursor elsewhere. -/
def moved (s : Stage σ) (cursor : Nat) : Stage σ := { s with cursor }

/-- The place of the shared cursor. -/
def cell : Concurrent.Cell (Stage σ) := ⟨Stage.cursor, fun position s => s.moved position⟩

@[simp] theorem load_cell (s : Stage σ) : cell.load s = s.cursor := rfl

@[simp] theorem store_cell (position : Nat) (s : Stage σ) : cell.store position s = s.moved position := rfl

end Stage

/-- The surroundings of a drain in a world: every call is written down, and nothing else of the stage changes. -/
def World.host {σ : Type} (w : World σ) : Host (Stage σ) where
  position s := ((w.position s.world).1, s.after (.position (w.position s.world).1) (w.position s.world).2)
  fetch page s := ((w.fetch page s.world).1, s.after (.fetch page (w.fetch page s.world).1) (w.fetch page s.world).2)
  accept bytes s :=
    ((w.accept bytes s.world).1, s.after (.accept bytes (w.accept bytes s.world).1) (w.accept bytes s.world).2)
  note _ s := s

@[simp] theorem World.host_note {σ : Type} (w : World σ) (event : Event) (s : Stage σ) : w.host.note event s = s := rfl

/-! ## One span of a delivery -/

namespace Host

variable {σ : Type} (host : Host σ) {plan : Plan} {done : Transfer}

/-- A delivery that is at its end reports. -/
theorem deliverRest_of_end (h : plan.Fits) (hend : plan.planned = plan.len) (delivered : Nat) (scratch : Scratch)
    (s : σ) : host.deliverRest plan done delivered scratch s = (.ok done, scratch, host.note (.delivered done) s) :=
  host.deliverRest_of_none done delivered scratch s ((Plan.next_eq_none_iff h).mpr hend)

/-- One span, and then the rest of the plan if the span was accepted; the counters do not overflow on the way. -/
theorem deliverRest_of_lt (h : plan.Fits) (hlt : plan.planned < plan.len) (hchunks : done.chunks ≤ plan.planned)
    (scratch : Scratch) (s : σ) :
    host.deliverRest plan done plan.planned scratch s =
      match host.handOut plan.geometry done plan.planned plan.head scratch s with
      | (.error halt, scratch, s) => (.error halt, scratch, s)
      | (.ok (), scratch, s) =>
        host.deliverRest plan.skip { done with chunks := done.chunks + 1 } plan.skip.planned scratch s := by
  have hw := plan.geometry.capacity_lt
  have hlen := h.len_le
  have hstep := Plan.planned_add_step_le h
  have hdelivered : Word.add plan.planned plan.head.len = .ok plan.skip.planned :=
    Word.add_of_lt (show plan.planned + plan.step < wordBound by omega)
  rewrite [host.deliverRest_of_some done plan.planned scratch s ((Plan.next_eq_some_iff h).mpr ⟨hlt, rfl, rfl⟩),
    hdelivered, Word.add_of_lt (show done.chunks + 1 < wordBound by omega)]
  rcases host.handOut plan.geometry done plan.planned plan.head scratch s with ⟨halt | ⟨⟨⟩⟩, scratch, s⟩ <;> rfl

/-- A range that starts outside the ring is refused. -/
theorem deliver_of_outside {g : Geometry} {start : Nat} (hstart : g.capacity ≤ start) (len : Nat) (scratch : Scratch)
    (s : σ) : host.deliver g start len scratch s =
      (.error (.error (.positionOutOfRange start g.capacity)), scratch, s) := by
  have hcontains : g.contains start = false := decide_eq_false (Nat.not_lt.mpr hstart)
  rw [deliver, hcontains, if_pos (by decide)]

/-- So is a range that is longer than the ring. -/
theorem deliver_of_tooLong {g : Geometry} {start len : Nat} (hstart : start < g.capacity) (hlen : g.capacity < len)
    (scratch : Scratch) (s : σ) : host.deliver g start len scratch s =
      (.error (.error (.rangeTooLong len g.capacity)), scratch, s) := by
  rw [deliver, g.contains_iff.mpr hstart, if_neg (by decide), if_pos hlen]

/-- A range that lies in the ring is delivered by its plan. -/
theorem deliver_of_fits {g : Geometry} {start len stop : Nat} (hstart : start < g.capacity) (hlen : len ≤ g.capacity)
    (hstop : g.advance start len = .ok stop) (scratch : Scratch) (s : σ) :
    host.deliver g start len scratch s =
      host.deliverRest ⟨g, start, len, 0⟩ ⟨start, stop, len, 0⟩ 0 scratch
        (host.note (.planned ⟨g, start, len, 0⟩) s) := by
  have hcontains : g.contains start = true := g.contains_iff.mpr hstart
  have hplan : Plan.ofRange g start len = .ok ⟨g, start, len, 0⟩ := by
    rw [Plan.ofRange, hcontains, if_neg (by decide), if_neg (by omega)]
  rw [deliver, hcontains, if_neg (by decide), if_neg (by omega), hstop, hplan]

end Host

end PagedRing
