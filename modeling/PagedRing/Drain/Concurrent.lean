import PagedRing.Delivery

/-!
# Concurrent drains

A concurrent drain shares its cursor between any number of transfers. A transfer first claims what is unread: it
reads the cursor, then the write position, and moves the cursor there if no other transfer has moved it meanwhile;
otherwise it counts a lost attempt and tries again, until the count overflows. What it claimed it delivers on its own,
and a delivery that ends early leaves the rest of the claimed range undelivered.
-/

namespace PagedRing.Concurrent

variable {σ : Type}

/-- The place of a shared cursor in a state. -/
structure Cell (σ : Type) where
  /-- Reads the cursor. -/
  load : σ → Nat
  /-- Moves the cursor. -/
  store : Nat → σ → σ

/-- What an attempt to claim the unread bytes came to. -/
inductive Claim where
  /-- Nothing was unread at this position. -/
  | idle (position : Nat)
  /-- The range from `start` to `stop` belongs to this transfer. -/
  | won (start stop : Nat)
deriving DecidableEq, Inhabited

variable (host : Host σ) (cell : Cell σ)

/-- Claims what is unread, with at most `attempts` attempts; `retries` of the same transfer were lost before. -/
def claim (g : Geometry) : (attempts retries : Nat) → σ → Except Halt Claim × σ
  | 0, _, s => (.error .unfinished, s)
  | attempts + 1, retries, s =>
    let start := cell.load s
    match host.readPosition g (host.note (.loaded start) s) with
    | (.error halt, s) => (.error halt, s)
    | (.ok position, s) =>
      if hasUnread start position then
        let seen := cell.load s
        if seen = start then
          (.ok (.won start position), host.note (.claimed start position retries) (cell.store position s))
        else
          match Count.next retries with
          | .error fault => (.error (.fault fault), s)
          | .ok retries => claim g attempts retries (host.note (.lost start seen retries) s)
      else
        (.ok (.idle position), s)

/-- One transfer, with at most `attempts` attempts to claim: its outcome and the scratch after it. -/
def transfer (g : Geometry) (attempts : Nat) (scratch : Scratch) (s : σ) : Except Halt Transfer × Scratch × σ :=
  match claim host cell g attempts 0 s with
  | (.error halt, s) => (.error halt, scratch, s)
  | (.ok (.idle position), s) => (.ok (.emptyAt position), scratch, s)
  | (.ok (.won start stop), s) =>
    match g.unreadLen start stop with
    | .error fault => (.error (.fault fault), scratch, s)
    | .ok len => host.deliver g start len scratch s

end PagedRing.Concurrent
