import PagedRing.Bytes
import PagedRing.Transfer

/-!
# Steps of a session

A session plays steps on one source: writes, drains and sinks that are opened, transfers and looks at what they left.
Sinks and reads of the write position call back, and a script of cues says what a call does: fail, or play a step of
its own before the call goes on.

* `Step.cues`: the number of cues in a step, at any depth; each of them is played at most once.
-/

namespace PagedRing.Session

/-- The two sorts of drains. -/
inductive DrainKind where
  /-- Moves its cursor after a delivery. -/
  | sequential
  /-- Moves its cursor before a delivery and may be entered again meanwhile. -/
  | concurrent
deriving DecidableEq, Inhabited

/-- The two sorts of sinks. -/
inductive SinkKind where
  /-- Keeps the chunks it accepts. -/
  | chunks
  /-- Keeps the lines it accepts, with a limit on unfinished ones. -/
  | lines (limit : Option Nat)
deriving DecidableEq, Inhabited

/-- A capacity and a page size, not checked yet. -/
structure Sizes where
  /-- Bytes in the ring. -/
  capacity : UInt64
  /-- Bytes in a page. -/
  pageSize : UInt64
deriving DecidableEq, Inhabited

mutual

/-- What a session is asked to do. Drains, sinks and scratches are named by the order in which they were opened. -/
inductive Step where
  /-- Writes bytes to the ring. -/
  | write (bytes : Bytes)
  /-- Asks for a summary of the ring. -/
  | summary
  /-- Asks for the sizes of the ring. -/
  | sizes
  /-- Sets the write position of a table. -/
  | setPosition (position : Nat)
  /-- Replaces a page of a table. -/
  | setPage (number : Nat) (bytes : Bytes)
  /-- Asks for the write position. -/
  | position
  /-- Asks for a page. -/
  | page (number : Nat)
  /-- Opens a drain, at position 0 and on the ring of the session unless told otherwise. -/
  | openDrain (kind : DrainKind) (cursor : Option Nat) (sizes : Option Sizes)
  /-- Asks for the cursor of a drain, its ring and the write position. -/
  | inspect (drain : Nat)
  /-- Gives a sequential drain up. -/
  | closeDrain (drain : Nat)
  /-- Opens a scratch, empty unless a size is given. -/
  | openScratch (size : Option Nat)
  /-- Opens a sink with a script for its calls. -/
  | openSink (kind : SinkKind) (script : List Cue)
  /-- Lets a drain deliver to a sink. -/
  | transfer (drain sink : Nat) (scratch : Option Nat)
  /-- Delivers a range to a sink without a drain. -/
  | deliver (start len sink : Nat) (scratch : Option Nat) (sizes : Option Sizes)
  /-- Hands a chunk to a sink directly. -/
  | feed (sink : Nat) (bytes : Bytes)
  /-- Asks what a sink has kept. -/
  | kept (sink : Nat)
  /-- Sets the limit of a sink for lines. -/
  | setLimit (sink limit : Nat)
  /-- Gives a sink for lines up and asks for its unfinished line. -/
  | takePending (sink : Nat)
  /-- A request that could not be read. -/
  | malformed

/-- What happens at a call, counted from 0. -/
inductive Cue where
  /-- The call fails. -/
  | fail (call : Nat) (cause : SinkError)
  /-- A step is played; with `passOn` the call fails if the step ends in a failed transfer. -/
  | play (call : Nat) (step : Step) (passOn : Bool)

end

deriving instance Inhabited for Step, Cue

/-- The cues of a callback, in the order in which they are played. -/
abbrev Script := List Cue

/-- The call at which a cue is played. -/
def Cue.call : Cue → Nat
  | .fail call _ => call
  | .play call _ _ => call

namespace Script

/-- The cues of a call. -/
def due (script : Script) (call : Nat) : Script := script.filter fun cue => cue.call == call

/-- The cues of all other calls. -/
def later (script : Script) (call : Nat) : Script := script.filter fun cue => cue.call != call

end Script

mutual

/-- The number of cues in a step, at any depth. -/
def Step.cues : Step → Nat
  | .openSink _ script => Script.cues script
  | _ => 0

/-- The number of cues in a cue, itself included. -/
def Cue.cues : Cue → Nat
  | .fail _ _ => 1
  | .play _ step _ => step.cues + 1

/-- The number of cues in a script, at any depth. -/
def Script.cues : List Cue → Nat
  | [] => 0
  | cue :: rest => cue.cues + Script.cues rest

end

end PagedRing.Session
