import PagedRing.Word

/-!
# Transfers

What the delivery of a range reports: how far it went, or why it ended early. A refusal by a sink and a page of the
wrong length keep the number of bytes that were delivered before.
-/

namespace PagedRing

/-! ## Reports -/

/-- The report of a range that was delivered in full. -/
structure Transfer where
  /-- Position of the first byte. -/
  start : Nat
  /-- Position after the last byte. -/
  stop : Nat
  /-- Bytes delivered. -/
  len : Nat
  /-- Calls of the sink. -/
  chunks : Nat
deriving DecidableEq, Inhabited

namespace Transfer

/-- The report of a transfer that found nothing to deliver at a position. -/
def emptyAt (position : Nat) : Transfer := ⟨position, position, 0, 0⟩

/-- Whether nothing was delivered. -/
def isEmpty (t : Transfer) : Bool := t.len == 0

end Transfer

/-! ## Failures -/

/-- The kinds of failure that a sink tells apart. -/
inductive SinkErrorKind where
  | other | invalidData | invalidInput | brokenPipe | wouldBlock | unexpectedEof | interrupted | permissionDenied
  | timedOut | writeZero | notFound
deriving DecidableEq, Inhabited

/-- Why a sink refused a chunk. -/
structure SinkError where
  /-- The kind of failure. -/
  kind : SinkErrorKind
  /-- The text of the failure. -/
  text : String
deriving DecidableEq, Inhabited

/-- Why a range was not delivered in full. -/
inductive TransferError where
  /-- The sink refused a chunk of the range from `start` to `stop`. -/
  | sink (start stop delivered : Nat) (cause : SinkError)
  /-- The write position or the start of the range lies outside the ring. -/
  | positionOutOfRange (position capacity : Nat)
  /-- The range is longer than the ring. -/
  | rangeTooLong (len capacity : Nat)
  /-- A page has not the length of a page. -/
  | pageSize (page expected actual delivered : Nat)
deriving DecidableEq, Inhabited

namespace TransferError

/-- Bytes of the range that the sink accepted before the failure. -/
def delivered : TransferError → Nat
  | .sink _ _ delivered _ => delivered
  | .positionOutOfRange _ _ => 0
  | .rangeTooLong _ _ => 0
  | .pageSize _ _ _ delivered => delivered

/-- The text of a failure. -/
def message : TransferError → String
  | .sink start stop delivered cause =>
    s!"sink failed after {delivered} bytes of range [{start}, {stop}): {cause.text}"
  | .positionOutOfRange position capacity => s!"position {position} is outside a ring of {capacity} bytes"
  | .rangeTooLong len capacity => s!"range of {len} bytes exceeds a ring of {capacity} bytes"
  | .pageSize page expected actual _ => s!"page {page} has {actual} bytes, expected {expected}"

/-- A callback that passes a failed transfer on fails with its text. -/
def toSinkError (e : TransferError) : SinkError := ⟨.other, e.message⟩

end TransferError

/-- Why a transfer ended without a report. -/
inductive Halt where
  /-- It failed. -/
  | error (cause : TransferError)
  /-- A computation on its way had no answer. -/
  | fault (cause : Fault)
  /-- It was granted too few attempts to finish. -/
  | unfinished
deriving DecidableEq, Inhabited

end PagedRing
