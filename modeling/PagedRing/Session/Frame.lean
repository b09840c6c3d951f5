import PagedRing.Delivery
import PagedRing.Session.State

/-!
# Callbacks

A running step holds its sink in a frame, apart from the state, and collects there the answers of the steps that its
callbacks play. A callback plays the cues of its call in order; a cue that fails ends it, and so does a failed
transfer that is passed on. What the sink was offered it keeps only if the callback did not fail.

* `playCues`: one callback.
* `Frame.offer`: a chunk or a line that is offered to the sink.
* `host`: the surroundings of a delivery.
-/

namespace PagedRing.Session

/-- How steps are played. -/
abbrev Player := Step → State → Answer × State

/-- What a running step has at hand. -/
structure Frame where
  /-- The rest of the session. -/
  state : State
  /-- The sink of the step. -/
  sink : Sink
  /-- The answers of the steps that callbacks have played. -/
  answers : Array Answer

/-- Plays the cues of a callback. -/
def playCues (player : Player) : Script → Array Answer → State → Except SinkError Unit × Array Answer × State
  | [], answers, s => (.ok (), answers, s)
  | .fail _ cause :: _, answers, s => (.error cause, answers, s)
  | .play _ step passOn :: rest, answers, s =>
    let (answer, s) := player step s
    match passOn, answer.reply.failure? with
    | true, some cause => (.error cause.toSinkError, answers.push answer, s)
    | _, _ => playCues player rest (answers.push answer) s

namespace Frame

/-- The frame of a step before its first callback. -/
def enter (s : State) (sink : Sink) : Frame := ⟨s, sink, #[]⟩

/-- Writes an event of the step down. -/
def note (step : Nat) (event : Event) (f : Frame) : Frame := { f with state := f.state.note step event }

/-- Reads the write position, after the cues of this read. -/
def readPosition (player : Player) (step : Nat) (f : Frame) : Nat × Frame :=
  let call := f.state.reads
  let due := f.state.script.due call
  let s := { f.state with script := f.state.script.later call, reads := call + 1 }
  let s := if due.isEmpty then s else s.note step (.prompted due.length)
  let (_, answers, s) := playCues player due f.answers s
  (s.source.position, { f with state := s, answers })

/-- Offers a chunk or a line to the sink. -/
def offer (player : Player) (item : Bytes) (f : Frame) : Except SinkError Unit × Frame :=
  let call := f.sink.calls
  let due := f.sink.script.due call
  let sink := { f.sink with script := f.sink.script.later call, calls := call + 1 }
  match playCues player due f.answers f.state with
  | (.ok (), answers, s) => (.ok (), ⟨s, { sink with kept := sink.kept.push item }, answers⟩)
  | (.error cause, answers, s) => (.error cause, ⟨s, sink, answers⟩)

/-- Hands bytes to the sink. -/
def accept (player : Player) (step : Nat) (bytes : Bytes) (f : Frame) : Except SinkError Unit × Frame :=
  match f.sink.intake with
  | .chunks => f.offer player bytes
  | .lines framer =>
    let (outcome, framer, f) := framer.feed (fun line f => (f.note step (.line line)).offer player line) bytes f
    (outcome, { f with sink := { f.sink with intake := .lines framer } })

end Frame

/-- The surroundings of a delivery: the source of the session, and the sink of the step. -/
def host (player : Player) (step : Nat) : Host Frame where
  position f := f.readPosition player step
  fetch number f := (f.state.source.page number, f)
  accept bytes f := f.accept player step bytes
  note event f := f.note step event

end PagedRing.Session
