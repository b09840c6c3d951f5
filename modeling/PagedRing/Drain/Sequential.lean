import PagedRing.Delivery

/-!
# Sequential drains

A sequential drain delivers everything from its cursor to the write position and then moves its cursor there. A
delivery that ends early leaves the cursor where it was, so the next transfer starts from the same byte.
-/

namespace PagedRing.Sequential

variable {σ : Type} (host : Host σ)

/-- One transfer from `cursor`: its outcome, the cursor and the scratch after it. -/
def transfer (g : Geometry) (cursor : Nat) (scratch : Scratch) (s : σ) :
    Except Halt Transfer × Nat × Scratch × σ :=
  match host.readPosition g s with
  | (.error halt, s) => (.error halt, cursor, scratch, s)
  | (.ok position, s) =>
    if hasUnread cursor position then
      match g.unreadLen cursor position with
      | .error fault => (.error (.fault fault), cursor, scratch, s)
      | .ok len =>
        match host.deliver g cursor len scratch s with
        | (.ok report, scratch, s) => (.ok report, position, scratch, s)
        | (.error halt, scratch, s) => (.error halt, cursor, scratch, s)
    else
      (.ok (.emptyAt position), cursor, scratch, s)

end PagedRing.Sequential
