import PagedRing.Bytes
import PagedRing.Geometry
import PagedRing.Transfer

/-!
# Answers of a session

Every step has an answer, and the steps that its callbacks played have theirs beside it, in order.

* `Reply.failure?`: the failed transfer that a callback may pass on.
-/

namespace PagedRing.Session

/-- The reply to a step. -/
inductive Reply where
  /-- The step makes no sense here; nothing was done. -/
  | refused
  /-- A computation of the step had no answer; what was done before stays done. -/
  | fault (cause : Fault)
  /-- Sizes or a position were refused. -/
  | geometryError (cause : GeometryError)
  /-- Done, with nothing to report. -/
  | done
  /-- The write position. -/
  | position (position : Nat)
  /-- A summary of the ring. -/
  | summary (text : String)
  /-- The sizes of the ring. -/
  | sizes (geometry : Geometry)
  /-- The bytes of a page. -/
  | page (bytes : Bytes)
  /-- The number of a new drain. -/
  | drain (index : Nat)
  /-- The number of a new scratch. -/
  | scratch (index : Nat)
  /-- The number of a new sink. -/
  | sink (index : Nat)
  /-- The cursor of a drain, its ring and the write position. -/
  | inspected (cursor : Nat) (geometry : Geometry) (position : Nat)
  /-- A transfer: its result, what the sink kept of it, the named scratch and the cursor of the drain after it. -/
  | transferred (result : Except TransferError Transfer) (got : List Bytes) (scratch : Option Bytes)
      (cursor : Option Nat)
  /-- A chunk handed over directly: what the sink kept of it, and its unfinished line if it is a sink for lines. -/
  | fed (result : Except SinkError Unit) (got : List Bytes) (pending : Option Bytes)
  /-- The chunks that a sink has kept. -/
  | chunks (kept : List Bytes)
  /-- The lines that a sink has kept, and its unfinished line. -/
  | lines (kept : List Bytes) (pending : Bytes)
  /-- The unfinished line of a sink that was given up. -/
  | pending (bytes : Bytes)
  /-- The step was granted too few attempts to finish. -/
  | unfinished

/-- The failed transfer that a callback may pass on. -/
def Reply.failure? : Reply → Option TransferError
  | .transferred (.error cause) _ _ _ => some cause
  | _ => none

/-- The reply to a step and the answers of the steps that its callbacks played. -/
inductive Answer where
  | mk (reply : Reply) (nested : List Answer)

namespace Answer

/-- The reply to the step itself. -/
def reply : Answer → Reply
  | mk reply _ => reply

/-- The answers of the steps that its callbacks played, in order. -/
def nested : Answer → List Answer
  | mk _ nested => nested

/-- A reply without nested answers. -/
def leaf (reply : Reply) : Answer := mk reply []

end Answer

end PagedRing.Session
