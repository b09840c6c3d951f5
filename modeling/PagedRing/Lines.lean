import PagedRing.Bytes
import PagedRing.Transfer

/-!
# Lines

A framer cuts the bytes that it is fed into lines. The bytes after the last newline wait for the next chunk; a limit
bounds how many of them may wait.

* `LineFramer.cut_eq_some_iff`: bytes are cut at their first newline, and nothing else is lost.
* `LineFramer.emit_eq`: a line is offered whole, however much of it had to wait.
* `LineFramer.feed`: one chunk, with each line offered as soon as it is complete.
-/

namespace PagedRing

/-- The bytes of an unfinished line and the bound on their number. -/
structure LineFramer where
  /-- The bytes since the last newline. -/
  pending : Array UInt8
  /-- How many bytes may wait for a newline; without a limit any number. -/
  limit : Option Nat
deriving DecidableEq, Inhabited

namespace LineFramer

/-- A framer at the start of a line. -/
def start (limit : Option Nat) : LineFramer := ⟨#[], limit⟩

/-- Bounds how many bytes may wait from now on. -/
def limited (f : LineFramer) (limit : Nat) : LineFramer := { f with limit := some limit }

/-- The bytes before the first newline and those after it. -/
def cut : Bytes → Option (Bytes × Bytes)
  | [] => none
  | byte :: rest => if byte = newline then some ([], rest) else (cut rest).map fun (line, tail) => (byte :: line, tail)

/-- Bytes are cut unless they hold no newline. -/
theorem cut_eq_none_iff {bytes : Bytes} : cut bytes = none ↔ newline ∉ bytes := by
  induction bytes with
  | nil => simp [cut]
  | cons byte rest ih =>
    by_cases h : byte = newline
    · simp [cut, h]
    · simp [cut, h, ih, Ne.symm h]

/-- Bytes are cut at their first newline, and nothing else is lost. -/
theorem cut_eq_some_iff {bytes line tail : Bytes} :
    cut bytes = some (line, tail) ↔ bytes = line ++ newline :: tail ∧ newline ∉ line := by
  induction bytes generalizing line tail with
  | nil => simp [cut]
  | cons byte rest ih =>
    by_cases h : byte = newline
    · subst h
      cases line with
      | nil => simp [cut]
      | cons head line =>
        simp only [cut, if_true, Option.some.injEq, Prod.mk.injEq, List.cons_append, List.cons.injEq, List.mem_cons]
        constructor
        · rintro ⟨h, -⟩
          cases h
        · rintro ⟨⟨h, -⟩, hn⟩
          exact absurd (Or.inl h) hn
    · cases line with
      | nil => simp [cut, h]
      | cons head line =>
        simp only [cut, h, if_false, Option.map_eq_some_iff, Prod.exists, ih, Prod.mk.injEq, List.cons.injEq,
          List.cons_append, List.mem_cons, not_or]
        constructor
        · rintro ⟨line', tail', ⟨rfl, hn⟩, ⟨rfl, rfl⟩, rfl⟩
          exact ⟨⟨rfl, rfl⟩, Ne.symm h, hn⟩
        · rintro ⟨⟨rfl, rfl⟩, -, hn⟩
          exact ⟨line, tail, ⟨rfl, hn⟩, ⟨rfl, rfl⟩, rfl⟩

/-- What follows a newline is shorter than the whole. -/
theorem length_lt_of_cut {bytes line tail : Bytes} (h : cut bytes = some (line, tail)) :
    tail.length < bytes.length := by
  rw [(cut_eq_some_iff.mp h).1, List.length_append, List.length_cons]
  omega

/-- Why an unfinished line is too long. -/
def overlong (len limit : Nat) : SinkError :=
  ⟨.invalidData, s!"unterminated line of {len} bytes exceeds limit of {limit}"⟩

/-- Keeps bytes without a newline; an unfinished line above the limit is dropped. -/
def hold (f : LineFramer) (bytes : Bytes) : Except SinkError Unit × LineFramer :=
  let pending := f.pending ++ bytes
  match f.limit with
  | none => (.ok (), { f with pending })
  | some limit =>
    if pending.size ≤ limit then (.ok (), { f with pending })
    else (.error (overlong pending.size limit), { f with pending := #[] })

variable {σ : Type} (onLine : Bytes → σ → Except SinkError Unit × σ)

/-- Offers a complete line to `onLine`. Without bytes that wait it goes out as it stands in the chunk. Otherwise it joins
them first, and they are gone afterwards even if it is refused. -/
def emit (f : LineFramer) (line : Bytes) (s : σ) : Except SinkError Unit × LineFramer × σ :=
  if f.pending.isEmpty then
    let (outcome, s) := onLine line s
    (outcome, f, s)
  else
    let (outcome, s) := onLine (f.pending ++ line).toList s
    (outcome, { f with pending := #[] }, s)

/-- Either way the line is offered with the bytes that waited for it, and none are left. -/
theorem emit_eq (f : LineFramer) (line : Bytes) (s : σ) :
    f.emit onLine line s =
      ((onLine (f.pending.toList ++ line) s).1, start f.limit, (onLine (f.pending.toList ++ line) s).2) := by
  obtain ⟨pending, limit⟩ := f
  unfold emit start
  split
  · next h =>
    obtain rfl : pending = #[] := by simpa using h
    simp
  · simp [Array.toList_appendList]

theorem emit_eq_iff {f f' : LineFramer} {line : Bytes} {s s' : σ} {outcome : Except SinkError Unit} :
    f.emit onLine line s = (outcome, f', s') ↔
      onLine (f.pending.toList ++ line) s = (outcome, s') ∧ f' = start f.limit := by
  rw [emit_eq, Prod.mk.injEq, Prod.mk.injEq, Prod.ext_iff]
  constructor
  · rintro ⟨houtcome, hf, hs⟩
    exact ⟨⟨houtcome, hs⟩, hf.symm⟩
  · rintro ⟨⟨houtcome, hs⟩, hf⟩
    exact ⟨houtcome, hf.symm, hs⟩

/-- Feeds one chunk. Each line that it completes is offered to `onLine`, in order, without its newline; the first
refusal ends the chunk, and what is left of it is dropped. -/
def feed (f : LineFramer) (chunk : Bytes) (s : σ) : Except SinkError Unit × LineFramer × σ :=
  match _h : cut chunk with
  | none =>
    let (outcome, f) := f.hold chunk
    (outcome, f, s)
  | some (line, rest) =>
    match f.emit onLine line s with
    | (.ok (), f, s) => feed f rest s
    | (.error cause, f, s) => (.error cause, f, s)
termination_by chunk.length
decreasing_by exact length_lt_of_cut _h

end LineFramer

end PagedRing
