import Mathlib.Algebra.Order.Ring.Nat
import Mathlib.Data.List.Nodup
import PagedRing.Session.Play

/-!
# Histories

The journal of a session read backwards: the latest entry comes first, and what happened before an entry is the rest
of the list. A moment of a session is therefore a suffix of its history.

* `deeds`: what one step did itself.
* `claimedTo`, `settledTo`: where the cursor of a drain stands, as its transfers have left it.
* `stream`: the bytes written since a drain was opened, numbered from 0.
* `shares`: the claims won on a drain, each with the number of its first byte in the stream.
-/

namespace PagedRing

/-- Whether an event says that a line was offered. -/
def Event.isLine : Event → Bool
  | .line _ => true
  | _ => false

/-- Whether an event leaves the drains, what they have claimed and the bytes written as they are. -/
def Event.quiet : Event → Bool
  | .opened _ _ | .wrote _ | .claimed _ _ _ | .ended _ => false
  | _ => true

/-- Whether an event says that the delivery of a range began. -/
def Event.plans : Event → Bool
  | .planned _ => true
  | _ => false

/-- Whether an event says that a chunk was offered. -/
def Event.offers : Event → Bool
  | .offered _ _ => true
  | _ => false

/-- Whether an event says that a chunk was accepted. -/
def Event.accepts : Event → Bool
  | .accepted _ _ => true
  | _ => false

/-- Whether an event says that bytes were written. -/
def Event.writes : Event → Bool
  | .wrote _ => true
  | _ => false

/-- Whether an event ends a transfer. -/
def Event.ends : Event → Bool
  | .ended _ => true
  | _ => false

/-- The position at which an event opens a drain. -/
def Event.opens? (d : Nat) : Event → Option Nat
  | .opened drain cursor => if drain = d then some cursor else none
  | _ => none

/-- The drain whose transfer begins with an event. -/
def Event.drain? : Event → Option Nat
  | .began drain _ => some drain
  | _ => none

namespace Session

/-- What happened so far, the latest entry first. -/
def State.past (s : State) : List Entry := s.journal.toList.reverse

@[simp] theorem State.past_note (s : State) (n : Nat) (event : Event) :
    (s.note n event).past = ⟨n, event, s.drains, s.source⟩ :: s.past := by
  simp [State.past, State.note]

/-! ## Moments -/

/-- Something holds of every entry, given what happened before it. -/
inductive Throughout (p : Entry → List Entry → Prop) : List Entry → Prop
  | nil : Throughout p []
  | cons {e : Entry} {past : List Entry} : Throughout p past → p e past → Throughout p (e :: past)

/-- Checks every entry, given what happened before it. -/
def throughout? (p : Entry → List Entry → Prop) [∀ e past, Decidable (p e past)] : List Entry → Bool
  | [] => true
  | e :: past => throughout? p past && decide (p e past)

namespace Throughout

variable {p : Entry → List Entry → Prop} {e : Entry} {past before : List Entry}

theorem tail (h : Throughout p (e :: past)) : Throughout p past := by
  cases h
  assumption

theorem head (h : Throughout p (e :: past)) : p e past := by
  cases h
  assumption

theorem suffix (h : Throughout p past) (hs : before <:+ past) : Throughout p before := by
  induction h with
  | nil => rw [List.suffix_nil.mp hs]; exact .nil
  | cons h hp ih =>
    rcases List.suffix_cons_iff.mp hs with rfl | hs
    · exact .cons h hp
    · exact ih hs

theorem of_check [∀ e past, Decidable (p e past)] (h : throughout? p past = true) : Throughout p past := by
  induction past with
  | nil => exact .nil
  | cons e past ih =>
    rw [throughout?, Bool.and_eq_true, decide_eq_true_iff] at h
    exact .cons (ih h.1) h.2

end Throughout

/-! ## Steps -/

/-- What a step did itself, the latest first; lines are left out. -/
def deeds (n : Nat) : List Entry → List Event
  | [] => []
  | e :: past => if e.step = n ∧ e.event.isLine = false then e.event :: deeds n past else deeds n past

/-- The drain for which a step transfers. -/
def drainOf (n : Nat) (past : List Entry) : Option Nat := (deeds n past).findSome? Event.drain?

/-- Whether a transfer has ended. -/
def Over (n : Nat) (past : List Entry) : Prop := ∃ outcome, Event.ended outcome ∈ deeds n past

theorem over_iff_any {n : Nat} {past : List Entry} : (deeds n past).any Event.ends = true ↔ Over n past := by
  rw [List.any_eq_true]
  constructor
  · rintro ⟨event, hmem, hends⟩
    cases event with
    | ended outcome => exact ⟨outcome, hmem⟩
    | _ => cases hends
  · rintro ⟨outcome, hmem⟩
    exact ⟨_, hmem, rfl⟩

instance (n : Nat) (past : List Entry) : Decidable (Over n past) := decidable_of_iff _ over_iff_any

/-- Whether the latest entry is an event of a step. -/
def Latest (n : Nat) (event : Event) (past : List Entry) : Prop :=
  ∃ drains source before, past = ⟨n, event, drains, source⟩ :: before

/-! ## Drains -/

/-- A drain as it was opened. -/
def opened? (d : Nat) : List Entry → Option Drain
  | [] => none
  | e :: past =>
    match e.event with
    | .opened drain _ => if drain = d then e.drains[d]?.join else opened? d past
    | _ => opened? d past

/-- The position up to which a shared drain has claimed. -/
def claimedTo (d : Nat) : List Entry → Nat
  | [] => 0
  | e :: past =>
    match e.event with
    | .opened drain cursor => if drain = d then cursor else claimedTo d past
    | .claimed _ stop _ => if drainOf e.step past = some d then stop else claimedTo d past
    | _ => claimedTo d past

/-- The position up to which the transfers of a drain have succeeded. -/
def settledTo (d : Nat) : List Entry → Nat
  | [] => 0
  | e :: past =>
    match e.event with
    | .opened drain cursor => if drain = d then cursor else settledTo d past
    | .ended (.ok report) => if drainOf e.step past = some d then report.stop else settledTo d past
    | _ => settledTo d past

/-! ## Bytes -/

/-- All bytes written, in order. -/
def written : List Entry → Bytes
  | [] => []
  | e :: past =>
    match e.event with
    | .wrote bytes => written past ++ bytes
    | _ => written past

/-- The bytes written since a drain was opened, in order. -/
def stream (d : Nat) : List Entry → Bytes
  | [] => []
  | e :: past =>
    match e.event with
    | .opened drain _ => if drain = d then [] else stream d past
    | .wrote bytes => stream d past ++ bytes
    | _ => stream d past

/-- The chunks that a step offered to its sink, in order. -/
def chunksOffered : List Event → List (Span × Bytes)
  | [] => []
  | .offered span bytes :: ds => chunksOffered ds ++ [(span, bytes)]
  | _ :: ds => chunksOffered ds

/-- The chunks that the sink of a step accepted, in order. -/
def chunksAccepted : List Event → List (Span × Bytes)
  | [] => []
  | .accepted span bytes :: ds => chunksAccepted ds ++ [(span, bytes)]
  | _ :: ds => chunksAccepted ds

/-- The bytes of chunks, in order. -/
def content (chunks : List (Span × Bytes)) : Bytes := (chunks.map Prod.snd).flatten

/-! ## Claims -/

/-- A claim that was won. -/
structure Share where
  /-- The step that won it. -/
  step : Nat
  /-- Position of its first byte. -/
  start : Nat
  /-- Position after its last byte. -/
  stop : Nat
  /-- The number of its first byte in the stream. -/
  first : Nat
deriving DecidableEq, Inhabited

/-- The number of bytes of a claim. -/
def Share.len (g : Geometry) (c : Share) : Nat :=
  if c.start ≤ c.stop then c.stop - c.start else g.capacity - c.start + c.stop

/-- The claims won on a drain, in the order in which they were won. The first one starts with byte 0 of the stream,
and each other one with the byte after the one before it. -/
def shares (g : Geometry) (d : Nat) : List Entry → List Share
  | [] => []
  | e :: past =>
    match e.event with
    | .claimed start stop _ =>
      if drainOf e.step past = some d then
        shares g d past ++ [⟨e.step, start, stop, ((shares g d past).map (Share.len g)).sum⟩]
      else shares g d past
    | _ => shares g d past

/-- The number of bytes that a drain has claimed. -/
def claimedLen (g : Geometry) (d : Nat) (past : List Entry) : Nat := ((shares g d past).map (Share.len g)).sum

/-! ## The latest entry -/

section Cons

variable {n m d : Nat} {e : Entry} {past new : List Entry} {event : Event} {drains : Array (Option Drain)}
  {source : Source}

theorem deeds_of_ne (h : e.step ≠ n) : deeds n (e :: past) = deeds n past := by
  simp [deeds, h]

theorem deeds_self (h : event.isLine = false) :
    deeds n (⟨n, event, drains, source⟩ :: past) = event :: deeds n past := by
  simp [deeds, h]

theorem deeds_line (h : e.event.isLine = true) : deeds n (e :: past) = deeds n past := by
  simp [deeds, h]

/-- What an event leaves alone, an entry leaves alone. -/
theorem deeds_cons_of {α : Type} {f : List Event → α} (h : ∀ ds, f (e.event :: ds) = f ds) :
    f (deeds n (e :: past)) = f (deeds n past) := by
  by_cases hn : e.step = n ∧ e.event.isLine = false
  · rw [deeds, if_pos hn]
    exact h _
  · rw [deeds, if_neg hn]

/-- Entries of other steps add no deeds. -/
theorem deeds_append (h : ∀ e ∈ new, e.step ≠ n) : deeds n (new ++ past) = deeds n past := by
  induction new with
  | nil => rfl
  | cons e new ih =>
    rw [List.cons_append, deeds_of_ne (h e (by simp)), ih fun e' he' => h e' (by simp [he'])]

/-- A step that has no entries has no deeds. -/
theorem deeds_eq_nil (h : ∀ e ∈ past, e.step ≠ n) : deeds n past = [] := by
  have happend : deeds n (past ++ []) = deeds n [] := deeds_append h
  rwa [List.append_nil] at happend

theorem mem_deeds : event ∈ deeds n past ↔ ∃ e ∈ past, e.step = n ∧ e.event = event ∧ event.isLine = false := by
  induction past with
  | nil => simp [deeds]
  | cons e past ih =>
    simp only [List.mem_cons, exists_eq_or_imp]
    by_cases h : e.step = n ∧ e.event.isLine = false
    · rw [deeds, if_pos h, List.mem_cons, ih]
      constructor
      · rintro (rfl | h')
        · exact Or.inl ⟨h.1, rfl, h.2⟩
        · exact Or.inr h'
      · rintro (⟨-, rfl, -⟩ | h')
        · exact Or.inl rfl
        · exact Or.inr h'
    · rw [deeds, if_neg h, ih]
      constructor
      · exact Or.inr
      · rintro (⟨h1, rfl, h2⟩ | h')
        · exact absurd ⟨h1, h2⟩ h
        · exact h'

/-- A deed of a step, where it was done. -/
theorem moment_of_suffix {ds : List Event} (h : event :: ds <:+ deeds n past) :
    ∃ drains source before, ⟨n, event, drains, source⟩ :: before <:+ past ∧ deeds n before = ds := by
  induction past with
  | nil => cases List.suffix_nil.mp h
  | cons e past ih =>
    have hearlier : event :: ds <:+ deeds n past → ∃ drains source before,
        ⟨n, event, drains, source⟩ :: before <:+ e :: past ∧ deeds n before = ds := by
      intro hs
      obtain ⟨drains, source, before, hbefore, hds⟩ := ih hs
      exact ⟨drains, source, before, hbefore.trans (List.suffix_cons e past), hds⟩
    by_cases hn : e.step = n ∧ e.event.isLine = false
    · rw [deeds, if_pos hn] at h
      rcases List.suffix_cons_iff.mp h with heq | hs
      · obtain ⟨m, event', drains, source⟩ := e
        obtain ⟨rfl, rfl⟩ := List.cons.inj heq
        obtain ⟨rfl, -⟩ := hn
        exact ⟨drains, source, past, List.suffix_refl _, rfl⟩
      · exact hearlier hs
    · rw [deeds, if_neg hn] at h
      exact hearlier h

/-- The latest deed of a step, where it was done. -/
theorem moment_of_deeds {ds : List Event} (h : deeds n past = event :: ds) :
    ∃ drains source before, ⟨n, event, drains, source⟩ :: before <:+ past ∧ deeds n before = ds :=
  moment_of_suffix (h ▸ List.suffix_refl _)

/-- Of two moments of a history one is over at the other, unless they are one. -/
theorem eq_of_moments {e e' : Entry} {before before' : List Entry} (hs : e :: before <:+ past)
    (hs' : e' :: before' <:+ past) (h : ¬e :: before <:+ before') (h' : ¬e' :: before' <:+ before) :
    before = before' := by
  rcases List.suffix_or_suffix_of_suffix hs hs' with hle | hle
  · rcases List.suffix_cons_iff.mp hle with heq | hlt
    · exact (List.cons.inj heq).2
    · exact absurd hlt h
  · rcases List.suffix_cons_iff.mp hle with heq | hlt
    · exact (List.cons.inj heq).2.symm
    · exact absurd hlt h'

theorem drainOf_of_ne (h : e.step ≠ n) : drainOf n (e :: past) = drainOf n past := by
  simp only [drainOf, deeds_of_ne h]

theorem drainOf_began (k : Nat) : drainOf n (⟨n, .began d k, drains, source⟩ :: past) = some d := by
  rw [drainOf, deeds_self rfl]; rfl

/-- Only its beginning tells the drain of a step. -/
theorem drainOf_of_drain? (h : e.event.drain? = none) : drainOf n (e :: past) = drainOf n past := by
  by_cases hn : e.step = n ∧ e.event.isLine = false
  · simp [drainOf, deeds, hn, h]
  · simp only [drainOf, deeds, hn, ↓reduceIte]

theorem Over.append (h : Over n past) : Over n (new ++ past) := by
  obtain ⟨outcome, ho⟩ := h
  obtain ⟨e, he, hs⟩ := mem_deeds.mp ho
  exact ⟨outcome, mem_deeds.mpr ⟨e, List.mem_append_right new he, hs⟩⟩

theorem Over.cons (h : Over n past) : Over n (e :: past) :=
  show Over n ([e] ++ past) from h.append

theorem Latest.cons : Latest n event (⟨n, event, drains, source⟩ :: past) := ⟨drains, source, past, rfl⟩

/-! ### Quiet entries -/

theorem opened?_quiet (h : e.event.quiet = true) : opened? d (e :: past) = opened? d past := by
  obtain ⟨n, event, drains, source⟩ := e
  cases event <;> first | rfl | simp [Event.quiet] at h

theorem claimedTo_quiet (h : e.event.quiet = true) : claimedTo d (e :: past) = claimedTo d past := by
  obtain ⟨n, event, drains, source⟩ := e
  cases event <;> first | rfl | simp [Event.quiet] at h

theorem settledTo_quiet (h : e.event.quiet = true) : settledTo d (e :: past) = settledTo d past := by
  obtain ⟨n, event, drains, source⟩ := e
  cases event <;> first | rfl | simp [Event.quiet] at h

theorem written_quiet (h : e.event.quiet = true) : written (e :: past) = written past := by
  obtain ⟨n, event, drains, source⟩ := e
  cases event <;> first | rfl | simp [Event.quiet] at h

end Cons

end Session

end PagedRing
