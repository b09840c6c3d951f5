import PagedRing.Bytes
import PagedRing.Plan
import PagedRing.Transfer

/-!
# Journal

What happens while bytes move is written down as it happens. Some events are reported in the log, with a level, a
message and named fields; the others are steps in between that only the journal keeps.

* `Event.logLine?`: the line of the log for an event, if it is reported.
-/

namespace PagedRing

/-- What happens while bytes move. -/
inductive Event where
  /-- A drain was opened at a position. -/
  | opened (drain cursor : Nat)
  /-- Bytes were written to the ring. -/
  | wrote (bytes : Bytes)
  /-- A drain began a transfer to a sink. -/
  | began (drain sink : Nat)
  /-- The shared cursor was read. -/
  | loaded (cursor : Nat)
  /-- A read of the write position was about to play cues. -/
  | prompted (cues : Nat)
  /-- The write position was read. -/
  | sampled (position : Nat)
  /-- The shared cursor was moved to the end of a claimed range, after `retries` lost attempts. -/
  | claimed (start stop retries : Nat)
  /-- The shared cursor had been moved since it was read: the `retries`-th lost attempt. -/
  | lost (expected seen retries : Nat)
  /-- The delivery of a range began. -/
  | planned (plan : Plan)
  /-- A chunk was offered to the sink. -/
  | offered (span : Span) (bytes : Bytes)
  /-- The sink accepted a chunk. -/
  | accepted (span : Span) (bytes : Bytes)
  /-- A complete line was offered to the consumer of lines. -/
  | line (bytes : Bytes)
  /-- The sink refused a chunk of a range of `len` bytes after it had taken the first ones. -/
  | refused (start stop taken len : Nat) (cause : SinkError)
  /-- A range was delivered in full. -/
  | delivered (report : Transfer)
  /-- A drain ended a transfer. -/
  | ended (outcome : Except Halt Transfer)

/-- How much a line of the log matters. -/
inductive LogLevel where
  | trace | debug | warn
deriving DecidableEq, Inhabited

/-- The value of a field of the log. -/
inductive LogValue where
  | number (n : Nat)
  | text (s : String)
deriving DecidableEq, Inhabited

/-- A line of the log. -/
structure LogLine where
  /-- How much it matters. -/
  level : LogLevel
  /-- What happened. -/
  message : String
  /-- Its details. -/
  fields : List (String × LogValue)
deriving DecidableEq, Inhabited

/-- The line of the log for an event, if it is reported. -/
def Event.logLine? : Event → Option LogLine
  | .claimed start stop retries =>
    some ⟨.debug, "range claimed", [("start", .number start), ("end", .number stop), ("retries", .number retries)]⟩
  | .lost expected seen retries =>
    some ⟨.trace, "claim lost, retrying",
      [("expected", .number expected), ("seen", .number seen), ("retries", .number retries)]⟩
  | .offered span _ =>
    some ⟨.trace, "delivering chunk",
      [("offset", .number span.offset), ("page", .number span.page), ("len", .number span.len),
        ("flags", .text span.flags.text)]⟩
  | .refused start stop taken len cause =>
    some ⟨.warn, "sink failed mid-range",
      [("start", .number start), ("end", .number stop), ("delivered", .number taken),
        ("claimed", .number len), ("error", .text cause.text)]⟩
  | .delivered report =>
    some ⟨.debug, "range delivered",
      [("start", .number report.start), ("end", .number report.stop), ("len", .number report.len),
        ("chunks", .number report.chunks)]⟩
  | .opened _ _ | .wrote _ | .began _ _ | .loaded _ | .prompted _ | .sampled _ | .planned _ | .accepted _ _ | .line _
  | .ended _ => none

end PagedRing
