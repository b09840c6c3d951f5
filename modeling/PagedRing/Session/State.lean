import PagedRing.Journal
import PagedRing.Lines
import PagedRing.Scratch
import PagedRing.Session.Answer
import PagedRing.Session.Step
import PagedRing.Source

/-!
# State of a session

The source with the script for reads of its write position, and the drains, sinks and scratches that were opened.
While a step uses one of them that can serve only one step at a time, its place is empty, as it is after it was given
up; a step that names an empty place is refused.

* `State.drain?`, `State.sink?`, `State.scratch?`: what a step may name.
* `State.lend`, `State.giveBack`: a scratch leaves its place for a step and comes back.
* `State.note`: the only way into the journal.
-/

namespace PagedRing.Session

/-! ## Sinks and drains -/

/-- What a sink does with the bytes it is handed. -/
inductive Intake where
  /-- It takes them as they come. -/
  | chunks
  /-- It cuts them into lines. -/
  | lines (framer : LineFramer)
deriving DecidableEq, Inhabited

/-- A sink. -/
structure Sink where
  /-- What it does with the bytes it is handed. -/
  intake : Intake
  /-- The cues of calls to come. -/
  script : Script
  /-- The number of calls so far. -/
  calls : Nat
  /-- The chunks or lines it accepted. -/
  kept : Array Bytes
deriving Inhabited

namespace Sink

/-- A sink that was not called yet. -/
def new (kind : SinkKind) (script : Script) : Sink :=
  match kind with
  | .chunks => ⟨.chunks, script, 0, #[]⟩
  | .lines limit => ⟨.lines (.start limit), script, 0, #[]⟩

/-- The unfinished line of a sink for lines. -/
def pending? (sink : Sink) : Option Bytes :=
  match sink.intake with
  | .chunks => none
  | .lines framer => some framer.pending.toList

/-- What the sink accepted after its first `count` chunks or lines. -/
def keptSince (sink : Sink) (count : Nat) : List Bytes := (sink.kept.extract count sink.kept.size).toList

end Sink

/-- What a drain has besides its cursor. -/
inductive DrainMode where
  /-- A scratch of its own. -/
  | sequential (scratch : Scratch)
  /-- Nothing. -/
  | concurrent
deriving DecidableEq, Inhabited

/-- A drain. -/
structure Drain where
  /-- The ring as the drain sees it. -/
  geometry : Geometry
  /-- The position up to which it has delivered, or claimed. -/
  cursor : Nat
  /-- What it has besides. -/
  mode : DrainMode
deriving DecidableEq, Inhabited

/-- A drain that was not used yet; a sequential one has a scratch of the size of a page. -/
def Drain.new (kind : DrainKind) (g : Geometry) (cursor : Nat) : Except Fault Drain :=
  match kind with
  | .sequential => (Scratch.ofSize g.pageSize).map fun scratch => ⟨g, cursor, .sequential scratch⟩
  | .concurrent => .ok ⟨g, cursor, .concurrent⟩

/-- Where the scratch of a delivery comes from and goes back to. -/
inductive ScratchPlace where
  /-- The scratches that steps may name. -/
  | named (index : Nat)
  /-- The one scratch of all transfers that name none. -/
  | shared
  /-- Nowhere: it is made for one step and dropped after it. -/
  | nowhere
deriving DecidableEq, Inhabited

namespace ScratchPlace

/-- The place of the scratch that a step names; without a name it is made for the step. -/
def ofName : Option Nat → ScratchPlace
  | none => .nowhere
  | some index => .named index

/-- What the answer to a step shows of its scratch: only a named one is shown. -/
def shown (place : ScratchPlace) (scratch : Scratch) : Option Bytes :=
  match place with
  | .named _ => some scratch.bytes
  | .shared | .nowhere => none

end ScratchPlace

/-! ## States -/

/-- An event, the step of the session that it belongs to, and how the drains and the source stood right after it. -/
structure Entry where
  /-- The number of the step. -/
  step : Nat
  /-- What happened. -/
  event : Event
  /-- The drains. -/
  drains : Array (Option Drain)
  /-- The source. -/
  source : Source

/-- The state of a session. -/
structure State where
  /-- The sizes of the ring. -/
  geometry : Geometry
  /-- The source of all drains. -/
  source : Source
  /-- The cues of reads of the write position to come. -/
  script : Script
  /-- The number of times that a drain read the write position. -/
  reads : Nat
  /-- The drains; the place of one in use or given up is empty. -/
  drains : Array (Option Drain)
  /-- The sinks; the place of one in use or given up is empty. -/
  sinks : Array (Option Sink)
  /-- The scratches; the place of one in use is empty. -/
  scratches : Array (Option Scratch)
  /-- The scratch of transfers that name none, unless one of them uses it. -/
  shared : Option Scratch
  /-- The number of the next step. -/
  clock : Nat
  /-- What happened so far. -/
  journal : Array Entry

namespace State

/-- A session on a source before its first step. -/
def initial (g : Geometry) (source : Source) (script : Script) : State :=
  ⟨g, source, script, 0, #[], #[], #[], some .empty, 0, #[]⟩

/-- A drain that is not in use. -/
def drain? (s : State) (index : Nat) : Option Drain := s.drains[index]?.join

/-- A sink that is not in use. -/
def sink? (s : State) (index : Nat) : Option Sink := s.sinks[index]?.join

/-- A scratch that is not in use. -/
def scratch? (s : State) (index : Nat) : Option Scratch := s.scratches[index]?.join

/-- Whether the scratch that a step names, if it names one, is there and not in use. -/
def hasScratch (s : State) : Option Nat → Bool
  | none => true
  | some index => (s.scratch? index).isSome

/-- The place of the scratch of a transfer: if it names none and the shared one is in use, it gets one of its own. -/
def scratchPlace (s : State) : Option Nat → ScratchPlace
  | none => if s.shared.isSome then .shared else .nowhere
  | some index => .named index

/-- Fills or empties the place of a drain. -/
def setDrain (s : State) (index : Nat) (drain : Option Drain) : State :=
  { s with drains := s.drains.setIfInBounds index drain }

/-- Fills or empties the place of a sink. -/
def setSink (s : State) (index : Nat) (sink : Option Sink) : State :=
  { s with sinks := s.sinks.setIfInBounds index sink }

/-- Takes a scratch from its place for the time of a step; a fresh one is empty. -/
def lend (s : State) : ScratchPlace → Scratch × State
  | .named index => ((s.scratch? index).getD .empty, { s with scratches := s.scratches.setIfInBounds index none })
  | .shared => (s.shared.getD .empty, { s with shared := none })
  | .nowhere => (.empty, s)

/-- Puts a scratch back into its place. -/
def giveBack (s : State) (place : ScratchPlace) (scratch : Scratch) : State :=
  match place with
  | .named index => { s with scratches := s.scratches.setIfInBounds index (some scratch) }
  | .shared => { s with shared := some scratch }
  | .nowhere => s

/-- Writes an event of a step down. -/
def note (s : State) (step : Nat) (event : Event) : State :=
  { s with journal := s.journal.push ⟨step, event, s.drains, s.source⟩ }

/-- The geometry that a step asks for; without sizes that of the session. -/
def geometryOf (s : State) : Option Sizes → Except GeometryError Geometry
  | none => .ok s.geometry
  | some sizes => Geometry.ofSizes sizes.capacity sizes.pageSize

end State

end PagedRing.Session
