import PagedRing.Proofs.Framing

/-!
# What becomes of a chunk

A framer that was only fed and given limits keeps no newline. From such a framer on, a chunk comes to one of three ends,
and each of them settles which lines were offered and what the framer keeps: a line is refused, the unfinished line is
too long, or the unfinished line is kept.

* `LineFramer.Reachable`: the framers that a consumer can come to have.
* `LineFramer.recorded`: a consumer that writes down what it is offered.
* `LineFramer.Handled`: the three ends of a chunk.
* `LineFramer.Reachable.chunk_settled`: every chunk comes to one of them.
-/

namespace PagedRing

namespace LineFramer

variable {σ : Type} {onLine : Bytes → σ → Except SinkError Unit × σ} {f : LineFramer} {s t : σ} {ls : List Bytes}

/-! ## Consumers of lines -/

/-- The lines are accepted one after the other, and bring the consumer from one state to another. -/
inductive Accepts (onLine : Bytes → σ → Except SinkError Unit × σ) : List Bytes → σ → σ → Prop
  | nil (s : σ) : Accepts onLine [] s s
  | cons {line : Bytes} {rest : List Bytes} {s s' t : σ} (hline : onLine line s = (.ok (), s'))
      (hrest : Accepts onLine rest s' t) : Accepts onLine (line :: rest) s t

/-- A consumer that also writes down the lines it is offered. -/
def recorded (onLine : Bytes → σ → Except SinkError Unit × σ) (line : Bytes) :
    σ × List Bytes → Except SinkError Unit × (σ × List Bytes)
  | (s, calls) => ((onLine line s).1, (onLine line s).2, calls ++ [line])

theorem recorded_of_eq {line : Bytes} {outcome : Except SinkError Unit} (h : onLine line s = (outcome, t))
    (calls : List Bytes) : recorded onLine line (s, calls) = (outcome, t, calls ++ [line]) := by
  simp [recorded, h]

/-- Lines are offered until one is refused, and the record shows which ones. -/
theorem offerAll_cases (onLine : Bytes → σ → Except SinkError Unit × σ) (ls : List Bytes) (s : σ) (calls : List Bytes) :
    (∃ t, Accepts onLine ls s t ∧ offerAll onLine ls s = (.ok (), t) ∧
      offerAll (recorded onLine) ls (s, calls) = (.ok (), t, calls ++ ls)) ∨
    ∃ before line after cause t t', ls = before ++ line :: after ∧ Accepts onLine before s t ∧
      onLine line t = (.error cause, t') ∧ offerAll onLine ls s = (.error cause, t') ∧
      offerAll (recorded onLine) ls (s, calls) = (.error cause, t', calls ++ (before ++ [line])) := by
  induction ls generalizing s calls with
  | nil =>
    left
    exact ⟨s, .nil s, rfl, by rw [List.append_nil]; rfl⟩
  | cons line ls ih =>
    unfold offerAll
    obtain ⟨outcome, s', hline⟩ : ∃ outcome s', onLine line s = (outcome, s') := ⟨_, _, rfl⟩
    rw [recorded_of_eq hline, hline]
    cases outcome with
    | error cause =>
      right
      exact ⟨[], line, ls, cause, s, s', rfl, .nil s, hline, rfl, rfl⟩
    | ok =>
      rcases ih s' (calls ++ [line]) with ⟨t, haccepts, hall, hrecord⟩ |
        ⟨before, refused, after, cause, t, t', rfl, haccepts, hrefused, hall, hrecord⟩
      · left
        refine ⟨t, .cons hline haccepts, hall, ?_⟩
        rw [List.append_assoc] at hrecord
        exact hrecord
      · right
        refine ⟨line :: before, refused, after, cause, t, t', rfl, .cons hline haccepts, hrefused, hall, ?_⟩
        rw [List.append_assoc] at hrecord
        exact hrecord

/-! ## Ends of a chunk -/

/-- What comes of a chunk that completes the lines `ls` and goes on with the bytes `tail`: the lines that are offered, the
outcome, and the framer and the consumer afterwards. -/
inductive Handled (onLine : Bytes → σ → Except SinkError Unit × σ) (limit : Option Nat) (ls : List Bytes) (tail : Bytes)
    (s : σ) : List Bytes → Except SinkError Unit → LineFramer → σ → Prop
  /-- A line is refused: it is the last one that is offered, and everything after it is dropped. -/
  | refused {before after : List Bytes} {line : Bytes} {cause : SinkError} {t t' : σ} (hls : ls = before ++ line :: after)
      (hbefore : Accepts onLine before s t) (hline : onLine line t = (.error cause, t')) :
      Handled onLine limit ls tail s (before ++ [line]) (.error cause) (start limit) t'
  /-- All lines are accepted, but the unfinished line is too long, and is dropped. -/
  | overlong {max : Nat} {t : σ} (hls : Accepts onLine ls s t) (hlimit : limit = some max) (hlong : max < tail.length) :
      Handled onLine limit ls tail s ls (.error (overlong tail.length max)) (start limit) t
  /-- All lines are accepted, and the unfinished line is kept. -/
  | kept {t : σ} (hls : Accepts onLine ls s t) (hshort : ∀ max ∈ limit, tail.length ≤ max) :
      Handled onLine limit ls tail s ls (.ok ()) ⟨tail.toArray, limit⟩ t

/-- Only the beginning of an unfinished line is kept, and no more than the limit allows for. -/
theorem Handled.pending {limit : Option Nat} {tail : Bytes} {calls : List Bytes} {outcome : Except SinkError Unit}
    {f : LineFramer} (h : Handled onLine limit ls tail s calls outcome f t) (htail : newline ∉ tail) :
    newline ∉ f.pending.toList ∧ ∀ max ∈ limit, f.pending.size ≤ max := by
  cases h with
  | refused hls hbefore hline => simp [start]
  | overlong hls hlimit hlong => simp [start]
  | kept hls hshort => exact ⟨htail, hshort⟩

/-- The lines that are offered are the first ones. -/
theorem Handled.calls_isPrefix {limit : Option Nat} {tail : Bytes} {calls : List Bytes}
    {outcome : Except SinkError Unit} (h : Handled onLine limit ls tail s calls outcome f t) : calls <+: ls := by
  cases h with
  | @refused before after line cause t t' hls hbefore hline =>
    refine ⟨after, ?_⟩
    rw [hls, List.append_assoc]
    rfl
  | overlong hls hlimit hlong => exact List.prefix_refl ls
  | kept hls hshort => exact List.prefix_refl ls

/-- A chunk does not change the limit. -/
theorem Handled.limit {limit : Option Nat} {tail : Bytes} {calls : List Bytes} {outcome : Except SinkError Unit}
    (h : Handled onLine limit ls tail s calls outcome f t) : f.limit = limit := by
  cases h <;> rfl

/-- A framer that keeps no newline brings every chunk to one of the ends. -/
theorem handled_feed (onLine : Bytes → σ → Except SinkError Unit × σ) (hf : newline ∉ f.pending.toList) (chunk : Bytes)
    (s : σ) : ∃ calls outcome f' t, f.feed onLine chunk s = (outcome, f', t) ∧
      f.feed (recorded onLine) chunk (s, []) = (outcome, f', t, calls) ∧
      Handled onLine f.limit (lines (f.pending.toList ++ chunk)) (unfinished (f.pending.toList ++ chunk)) s calls outcome
        f' t := by
  rw [feed_eq onLine f hf, feed_eq (recorded onLine) f hf]
  rcases offerAll_cases onLine (lines (f.pending.toList ++ chunk)) s [] with ⟨t, haccepts, hall, hrecord⟩ |
    ⟨before, line, after, cause, t, t', hls, haccepts, hline, hall, hrecord⟩
  · rw [hall, hrecord]
    rcases allowed_or_above f.limit (unfinished (f.pending.toList ++ chunk)).length with hshort | ⟨max, hlimit, hlong⟩
    · rw [hold_of_le hshort]
      exact ⟨_, _, _, _, rfl, rfl, .kept haccepts hshort⟩
    · rw [hlimit, hold_of_lt hlong]
      exact ⟨_, _, _, _, rfl, rfl, .overlong haccepts rfl hlong⟩
  · rw [hall, hrecord]
    exact ⟨_, _, _, _, rfl, rfl, .refused hls haccepts hline⟩

/-! ## Framers in use -/

/-- The framers that a consumer can come to have: a new one, one that was given a limit, and one that was fed a chunk,
whatever came of it. The consumer may be in any state when a chunk arrives. -/
inductive Reachable (onLine : Bytes → σ → Except SinkError Unit × σ) : LineFramer → Prop
  | new : Reachable onLine (start none)
  | limited {f : LineFramer} (hf : Reachable onLine f) (limit : Nat) : Reachable onLine (f.limited limit)
  | fed {f : LineFramer} (hf : Reachable onLine f) (chunk : Bytes) (s : σ) :
      Reachable onLine (f.feed onLine chunk s).2.1

/-- A framer in use keeps no newline. -/
theorem Reachable.pending (hf : Reachable onLine f) : newline ∉ f.pending.toList := by
  induction hf with
  | new => simp [start]
  | limited hf limit ih => exact ih
  | @fed f hf chunk s ih =>
    obtain ⟨calls, outcome, f', t, hfeed, -, hend⟩ := handled_feed onLine ih chunk s
    rw [hfeed]
    exact (hend.pending (newline_not_mem_unfinished _)).1

/-- Whatever a framer went through and whatever its consumer does, the lines of a chunk are offered in order up to the
first refusal, a refusal or an unfinished line above the limit leaves nothing, and otherwise the unfinished line is
kept. In each case no newline is kept, and no more than the limit allows for. -/
theorem Reachable.chunk_settled (hf : Reachable onLine f) (chunk : Bytes) (s : σ) :
    newline ∉ f.pending.toList ∧ ∃ calls outcome f' t, f.feed onLine chunk s = (outcome, f', t) ∧
      f.feed (recorded onLine) chunk (s, []) = (outcome, f', t, calls) ∧
      Handled onLine f.limit (lines (f.pending.toList ++ chunk)) (unfinished (f.pending.toList ++ chunk)) s calls outcome
        f' t ∧
      newline ∉ f'.pending.toList ∧ ∀ max ∈ f.limit, f'.pending.size ≤ max := by
  refine ⟨hf.pending, ?_⟩
  obtain ⟨calls, outcome, f', t, hfeed, hrecord, hend⟩ := handled_feed onLine hf.pending chunk s
  exact ⟨calls, outcome, f', t, hfeed, hrecord, hend, hend.pending (newline_not_mem_unfinished _)⟩

/-- A consumer that accepts as many lines as its state says. -/
def patient : Bytes → Nat → Except SinkError Unit × Nat
  | _, 0 => (.error ⟨.other, "enough"⟩, 0)
  | _, patience + 1 => (.ok (), patience)

/-- A framer with two bytes that wait, and two more that may. -/
theorem reachable_waiting : Reachable patient ⟨#[97, 98], some 4⟩ := by
  have h : Reachable patient (((start none).limited 4).feed patient [97, 98] 1).2.1 :=
    (Reachable.new.limited 4).fed [97, 98] 1
  have hfeed : (((start none).limited 4).feed patient [97, 98] 1).2.1 = ⟨#[97, 98], some 4⟩ := by
    simp [feed, cut, hold, start, limited, newline]
  rwa [hfeed] at h

theorem chunk_settled_refusing : Reachable patient ⟨#[97, 98], some 4⟩ ∧
    feed (recorded patient) ⟨#[97, 98], some 4⟩ [99, 10, 100, 10, 101] (1, []) =
      (.error ⟨.other, "enough"⟩, start (some 4), 0, [[97, 98, 99], [100]]) ∧
    Handled patient (some 4) [[97, 98, 99], [100]] [101] 1 [[97, 98, 99], [100]] (.error ⟨.other, "enough"⟩)
      (start (some 4)) 0 := by
  have hvalue : feed (recorded patient) ⟨#[97, 98], some 4⟩ [99, 10, 100, 10, 101] (1, []) =
      (.error ⟨.other, "enough"⟩, start (some 4), 0, [[97, 98, 99], [100]]) := by
    simp [feed, cut, emit, recorded, patient, start, newline]
  obtain ⟨-, calls, outcome, f', t, -, hrecord, hend, -⟩ := reachable_waiting.chunk_settled [99, 10, 100, 10, 101] 1
  cases hrecord.symm.trans hvalue
  exact ⟨reachable_waiting, hvalue, hend⟩

end LineFramer

end PagedRing
