import PagedRing.Session.State

/-!
# Steps without callbacks

Writes, settings and looks: what they do to the state and what they reply. None of them plays a cue.

* `State.write`: the writer of the ring, whose bytes the journal keeps.
* `State.openDrain`, `State.openScratch`, `State.openSink`: new objects take the next number of their sort.
* `State.inspect`, `State.kept`: what may be seen of them.
-/

namespace PagedRing.Session

namespace State

/-- Writes to the ring. -/
def write (s : State) (step : Nat) (bytes : Bytes) : Reply × State :=
  match s.source with
  | .ring ring =>
    match ring.append bytes with
    | .ok ring => (.position ring.position, { s with source := .ring ring }.note step (.wrote bytes))
    | .error cause => (.fault cause, s)
  | .table _ _ => (.refused, s)

/-- Sets the write position of a table. -/
def setPosition (s : State) (position : Nat) : Reply × State :=
  match s.source with
  | .ring _ => (.refused, s)
  | .table pages _ => (.position position, { s with source := .table pages position })

/-- Replaces a page of a table. -/
def setPage (s : State) (number : Nat) (bytes : Bytes) : Reply × State :=
  match s.source with
  | .ring _ => (.refused, s)
  | .table pages position =>
    if number < pages.size then
      (.done, { s with source := .table (pages.setIfInBounds number bytes) position })
    else
      (.refused, s)

/-- The bytes of a page. -/
def page (s : State) (number : Nat) : Reply :=
  match s.source.page number with
  | .ok bytes => .page bytes
  | .error cause => .fault cause

/-- Opens a drain. -/
def openDrain (s : State) (step : Nat) (kind : DrainKind) (cursor : Option Nat) (sizes : Option Sizes) :
    Reply × State :=
  match s.geometryOf sizes with
  | .error cause => (.geometryError cause, s)
  | .ok g =>
    match g.position? (cursor.getD 0) with
    | .error cause => (.geometryError cause, s)
    | .ok cursor =>
      match Drain.new kind g cursor with
      | .error cause => (.fault cause, s)
      | .ok drain =>
        let index := s.drains.size
        (.drain index, { s with drains := s.drains.push (some drain) }.note step (.opened index cursor))

/-- What a drain shows. -/
def inspect (s : State) (index : Nat) : Reply :=
  match s.drain? index with
  | none => .refused
  | some drain => .inspected drain.cursor drain.geometry s.source.position

/-- Gives a sequential drain up; a concurrent one stays. -/
def closeDrain (s : State) (index : Nat) : Reply × State :=
  match s.drain? index with
  | some ⟨_, _, .sequential _⟩ => (.position s.source.position, s.setDrain index none)
  | _ => (.refused, s)

/-- Opens a scratch. -/
def openScratch (s : State) (size : Option Nat) : Reply × State :=
  match Scratch.ofSize (size.getD 0) with
  | .error cause => (.fault cause, s)
  | .ok scratch => (.scratch s.scratches.size, { s with scratches := s.scratches.push (some scratch) })

/-- Opens a sink. -/
def openSink (s : State) (kind : SinkKind) (script : Script) : Reply × State :=
  (.sink s.sinks.size, { s with sinks := s.sinks.push (some (.new kind script)) })

/-- What a sink has kept. -/
def kept (s : State) (index : Nat) : Reply :=
  match s.sink? index with
  | none => .refused
  | some sink =>
    match sink.intake with
    | .chunks => .chunks sink.kept.toList
    | .lines framer => .lines sink.kept.toList framer.pending.toList

/-- Sets the limit of a sink for lines. -/
def setLimit (s : State) (index limit : Nat) : Reply × State :=
  match s.sink? index with
  | some ⟨.lines framer, script, calls, kept⟩ =>
    (.done, s.setSink index (some ⟨.lines (framer.limited limit), script, calls, kept⟩))
  | _ => (.refused, s)

/-- Gives a sink for lines up. -/
def takePending (s : State) (index : Nat) : Reply × State :=
  match s.sink? index with
  | some ⟨.lines framer, _, _, _⟩ => (.pending framer.pending.toList, s.setSink index none)
  | _ => (.refused, s)

end State

end PagedRing.Session
