import PagedRing.Session.Exchange
import PagedRing.Session.Plain

/-!
# Playing a session

Each step is played on the state that the step before it left. A step is played with a budget that bounds how deep
callbacks nest and how often a claim is tried again. Every cue is played at most once, and both a nested step and a
lost claim need a cue of their own, so the number of cues in a session is budget enough.

* `playStep`: one step, given how the steps of callbacks are played.
* `play`: one step with a budget.
* `Session.run`: a whole session.
-/

namespace PagedRing

namespace Session

/-- A reply without nested answers, and the state after it. -/
def plain : Reply × State → Answer × State
  | (reply, s) => (.leaf reply, s)

/-- Plays one step, given how the steps of its callbacks are played. -/
def playStep (player : Player) (budget : Nat) (step : Step) (s : State) : Answer × State :=
  let number := s.clock
  let s := { s with clock := number + 1 }
  match step with
  | .write bytes => plain (s.write number bytes)
  | .summary =>
    match s.source with
    | .ring ring => (.leaf (.summary ring.summary), s)
    | .table _ _ => (.leaf .refused, s)
  | .sizes =>
    match s.source with
    | .ring ring => (.leaf (.sizes ring.geometry), s)
    | .table _ _ => (.leaf .refused, s)
  | .setPosition position => plain (s.setPosition position)
  | .setPage page bytes => plain (s.setPage page bytes)
  | .position => (.leaf (.position s.source.position), s)
  | .page page => (.leaf (s.page page), s)
  | .openDrain kind cursor sizes => plain (s.openDrain number kind cursor sizes)
  | .inspect drain => (.leaf (s.inspect drain), s)
  | .closeDrain drain => plain (s.closeDrain drain)
  | .openScratch size => plain (s.openScratch size)
  | .openSink kind script => plain (s.openSink kind script)
  | .transfer drain sink scratch => transfer player budget number drain sink scratch s
  | .deliver start len sink scratch sizes => deliver player number start len sink scratch sizes s
  | .feed sink bytes => feed player number sink bytes s
  | .kept sink => (.leaf (s.kept sink), s)
  | .setLimit sink limit => plain (s.setLimit sink limit)
  | .takePending sink => plain (s.takePending sink)
  | .malformed => (.leaf .refused, s)

/-- Plays one step with a budget for nested steps and lost claims. -/
def play : (budget : Nat) → Player
  | 0 => fun _ s => (.leaf .unfinished, s)
  | budget + 1 => playStep (play budget) (budget + 1)

/-- The answer to a step, and what the log says of it. -/
structure Played where
  /-- The answer. -/
  answer : Answer
  /-- The lines of the log, those of nested steps included. -/
  log : List LogLine

/-- Plays steps one after the other. -/
def playAll (budget : Nat) : List Step → State → List Played × State
  | [], s => ([], s)
  | step :: rest, s =>
    let before := s.journal.size
    let (answer, s) := play budget step s
    let log := (s.journal.extract before s.journal.size).toList.filterMap fun entry => entry.event.logLine?
    let (more, s) := playAll budget rest s
    (⟨answer, log⟩ :: more, s)

end Session

/-- A session: a source, the script for reads of its write position, and steps. -/
structure Session where
  /-- The sizes of the ring. -/
  geometry : Geometry
  /-- The source of all drains. -/
  source : Source
  /-- The cues for reads of the write position. -/
  script : Session.Script
  /-- The steps. -/
  steps : List Session.Step

namespace Session

/-- The number of cues in a session, at any depth. -/
def cues (session : Session) : Nat :=
  session.steps.foldr (fun step cues => step.cues + cues) (Script.cues session.script)

/-- Plays a session from its first step. -/
def run (session : Session) : List Played × State :=
  playAll (session.cues + 1) session.steps (.initial session.geometry session.source session.script)

/-- The answers of a session and its log. -/
def answers (session : Session) : List Played := session.run.1

end Session

end PagedRing
