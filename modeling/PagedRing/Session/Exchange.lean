import PagedRing.Drain.Concurrent
import PagedRing.Drain.Sequential
import PagedRing.Session.Frame

/-!
# Steps with callbacks

A step that hands bytes to a sink takes the sink out of the state and puts it back when it is done, and so it does
with the scratch that it is given and with a sequential drain. Everything else, the cursor of a concurrent drain
included, may change under it.

* `transfer`: a drain delivers what is unread.
* `deliver`: a range is delivered without a drain.
* `feed`: a chunk is handed over directly.
-/

namespace PagedRing.Session

/-- The reply to a transfer. -/
def Reply.ofOutcome (outcome : Except Halt Transfer) (got : List Bytes) (scratch : Option Bytes)
    (cursor : Option Nat) : Reply :=
  match outcome with
  | .ok report => .transferred (.ok report) got scratch cursor
  | .error (.error cause) => .transferred (.error cause) got scratch cursor
  | .error (.fault cause) => .fault cause
  | .error .unfinished => .unfinished

/-- The place of the cursor of a drain. -/
def cursorCell (index : Nat) : Concurrent.Cell Frame where
  load f := ((f.state.drain? index).map Drain.cursor).getD 0
  store position f :=
    { f with
      state :=
        { f.state with
          drains := f.state.drains.modify index (Option.map fun drain => { drain with cursor := position }) } }

/-- What a transfer leaves behind. -/
structure Leftover where
  /-- How it ended. -/
  outcome : Except Halt Transfer
  /-- The cursor of the drain. -/
  cursor : Nat
  /-- The scratch that the step was given. -/
  scratch : Scratch
  /-- The frame, with the drain back in its place. -/
  frame : Frame

/-- A transfer of a sequential drain through its own scratch: the drain is out of reach meanwhile, and the given
scratch is left alone. -/
def transferSequential (player : Player) (step index : Nat) (drain : Drain) (own scratch : Scratch) (f : Frame) :
    Leftover :=
  let f := { f with state := f.state.setDrain index none }
  let (outcome, cursor, own, f) := Sequential.transfer (host player step) drain.geometry drain.cursor own f
  let s := f.state.setDrain index (some ⟨drain.geometry, cursor, .sequential own⟩)
  ⟨outcome, cursor, scratch, { f with state := s }⟩

/-- A transfer of a concurrent drain through the given scratch: the drain stays within reach. -/
def transferConcurrent (player : Player) (budget step index : Nat) (drain : Drain) (scratch : Scratch) (f : Frame) :
    Leftover :=
  let (outcome, scratch, f) :=
    Concurrent.transfer (host player step) (cursorCell index) drain.geometry budget scratch f
  ⟨outcome, (cursorCell index).load f, scratch, f⟩

/-- The place of the scratch that a transfer is given: a sequential drain has one of its own and is given none but a
named one. -/
def DrainMode.scratchPlace (mode : DrainMode) (name : Option Nat) (s : State) : ScratchPlace :=
  match mode with
  | .sequential _ => .ofName name
  | .concurrent => s.scratchPlace name

/-- Lets a drain deliver to a sink. -/
def transfer (player : Player) (budget step index sinkIndex : Nat) (name : Option Nat) (s : State) : Answer × State :=
  match s.drain? index, s.sink? sinkIndex, s.hasScratch name with
  | some drain, some sink, true =>
    let place := drain.mode.scratchPlace name s
    let (scratch, s) := ((s.note step (.began index sinkIndex)).setSink sinkIndex none).lend place
    let f := Frame.enter s sink
    let left := match drain.mode with
      | .sequential own => transferSequential player step index drain own scratch f
      | .concurrent => transferConcurrent player budget step index drain scratch f
    let f := left.frame
    let got := f.sink.keptSince sink.kept.size
    (.mk (.ofOutcome left.outcome got (place.shown left.scratch) (some left.cursor)) f.answers.toList,
      ((f.state.giveBack place left.scratch).setSink sinkIndex (some f.sink)).note step (.ended left.outcome))
  | _, _, _ => (.leaf .refused, s)

/-- Delivers a range to a sink without a drain; sizes that do not fit are refused before the sink is looked up. -/
def deliver (player : Player) (step start len sinkIndex : Nat) (name : Option Nat) (sizes : Option Sizes)
    (s : State) : Answer × State :=
  match s.geometryOf sizes with
  | .error cause => (.leaf (.geometryError cause), s)
  | .ok g =>
    match s.sink? sinkIndex, s.hasScratch name with
    | some sink, true =>
      let place := ScratchPlace.ofName name
      let (scratch, s) := (s.setSink sinkIndex none).lend place
      let (outcome, scratch, f) := (host player step).deliver g start len scratch (Frame.enter s sink)
      let got := f.sink.keptSince sink.kept.size
      (.mk (.ofOutcome outcome got (place.shown scratch) none) f.answers.toList,
        (f.state.giveBack place scratch).setSink sinkIndex (some f.sink))
    | _, _ => (.leaf .refused, s)

/-- Hands a chunk to a sink directly. -/
def feed (player : Player) (step sinkIndex : Nat) (bytes : Bytes) (s : State) : Answer × State :=
  match s.sink? sinkIndex with
  | none => (.leaf .refused, s)
  | some sink =>
    let (outcome, f) := (Frame.enter (s.setSink sinkIndex none) sink).accept player step bytes
    (.mk (.fed outcome (f.sink.keptSince sink.kept.size) f.sink.pending?) f.answers.toList,
      f.state.setSink sinkIndex (some f.sink))

end PagedRing.Session
