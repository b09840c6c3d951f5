import PagedRing.Proofs.Flow
import PagedRing.Proofs.Retry

/-!
# Lines do not show how they were cut

A stream is cut by its writes, by pages, by the turn of the ring and by transfers. The consumer of a sink for lines is
offered the lines of the stream, whatever the cuts were, if no line is refused and the writer spares what was not handed
out yet.

* `Lawful.succeeds`: a drain of the ring's geometry whose sink refuses nothing does not fail.
* `Flowing.caughtUp_of_last`: nothing is left if nothing was written since the last transfer began.
* `linesOffered`: the lines that a consumer was offered.
* `Drained`: a session in which a drain was piped into a sink for lines until nothing was left.
* `lines_of_stream`: what the consumer was offered then, and that no two such sessions over one stream differ in it.
-/

namespace PagedRing.Session

variable {ring : Ring} {drain : Drain} {n d k : Nat} {e : Entry} {past : List Entry} {ds : List Event}
  {drains : Array (Option Drain)} {source : Source}

/-- Without refusals, no transfer of a drain of the ring's geometry fails that serves one transfer at a time. -/
theorem Lawful.succeeds (h : Lawful (.ring ring) past) (hfinished : ∀ e ∈ past, e.event ≠ .ended (.error .unfinished))
    (ho : ∀ first, opened? d past = some first → first.geometry = ring.geometry) (hone : OneByOne d past)
    (hpiped : Piped d k past) (hw : Willing k past) :
    Throughout (fun e past => drainOf e.step past = some d → ∀ cause, e.event ≠ .ended (.error cause)) past := by
  induction past with
  | nil => exact .nil
  | cons e past ih =>
    have ho' : ∀ first, opened? d past = some first → first.geometry = ring.geometry := fun first hfirst =>
      ho first (h.opened?_cons hfirst)
    refine .cons (ih h.2.2 (fun e' he' => hfinished e' (List.mem_cons_of_mem _ he')) ho' hone.tail hpiped.tail hw.tail) ?_
    intro hd cause hevent
    obtain ⟨n, event, drains, source⟩ := e
    obtain rfl : event = .ended (.error cause) := hevent
    obtain ⟨drain, hdrain⟩ := h.2.2.opened_of_drainOf hd
    have hunfinished : cause ≠ .unfinished := by
      rintro rfl
      exact hfinished _ List.mem_cons_self rfl
    obtain ⟨start, stop, count, len, reason, _, _, before, rfl⟩ :=
      h.refused_of_failed hd hdrain hunfinished (ho' drain hdrain) fun _ => h.2.2.not_beaten hone.tail hd
    rw [drainOf_of_drain? rfl] at hd
    exact hw.tail.head rfl (hpiped.tail.tail.drainOf_iff.mp hd)

/-! ## The last transfer -/

/-- A range is found after the write position was read. -/
theorem Course.sampled_of_planned {plan : Plan} (h : Course ds) (hp : planned? ds = some plan) :
    ∃ position, Event.sampled position ∈ ds := by
  induction h with
  | began => cases hp
  | @planned ev ds plan' hcourse hfinds _ _ _ =>
    cases hcourse with
    | sampled position => exact ⟨position, by simp⟩
    | @claimed start stop ds => exact ⟨stop, by simp⟩
    | began | loaded | prompted | lost | planned | offered | accepted | refused | delivered | ended => cases hfinds
  | sampled position => exact ⟨position, List.mem_cons_self⟩
  | loaded _ _ _ ih | prompted _ _ _ ih | lost _ _ _ ih | claimed _ _ ih | offered _ _ _ _ _ ih | accepted _ ih
  | refused _ _ _ _ ih | delivered _ _ _ _ _ _ ih | ended _ _ _ ih =>
    obtain ⟨position, hsampled⟩ := ih hp
    exact ⟨position, List.mem_cons_of_mem _ hsampled⟩

/-- Whether nothing was written since the last transfer of a drain began. -/
def transferredLast (d : Nat) : List Entry → Bool
  | [] => false
  | e :: past =>
    match e.event with
    | .wrote _ => false
    | .began d' _ => decide (d' = d) || transferredLast d past
    | _ => transferredLast d past

theorem exists_of_transferredLast (h : transferredLast d past = true) :
    ∃ n k drains source new before, past = new ++ ⟨n, .began d k, drains, source⟩ :: before ∧
      ∀ e ∈ new, e.event.writes = false := by
  induction past with
  | nil => cases h
  | cons e past ih =>
    have onward (hw : e.event.writes = false) (hrest : transferredLast d past = true) :
        ∃ n k drains source new before, e :: past = new ++ ⟨n, .began d k, drains, source⟩ :: before ∧
          ∀ e' ∈ new, e'.event.writes = false := by
      obtain ⟨n, k, drains, source, new, before, rfl, hnew⟩ := ih hrest
      exact ⟨n, k, drains, source, e :: new, before, rfl, List.forall_mem_cons.mpr ⟨hw, hnew⟩⟩
    obtain ⟨n, event, drains, source⟩ := e
    cases event with
    | wrote => cases h
    | began d' k =>
      simp only [transferredLast, Bool.or_eq_true, decide_eq_true_eq] at h
      rcases h with rfl | hrest
      · exact ⟨n, k, drains, source, [], past, rfl, by simp⟩
      · exact onward rfl hrest
    | _ => exact onward rfl h

namespace Flowing

/-- A transfer that is over has read the write position. -/
theorem sampled_of_over (h : Flowing ring drain d k past) (hd : drainOf n past = some d) (hover : Over n past) :
    ∃ position, Event.sampled position ∈ deeds n past := by
  have ho := h.opened_of_drainOf hd
  obtain ⟨outcome, hend⟩ := hover
  obtain ⟨_, _, before, hs, hdeeds, hd', ho', hout⟩ := h.lawful.end_of_over hd ho hend
  cases outcome with
  | error cause => exact absurd rfl ((h.succeeds.suffix hs).head hd' cause)
  | ok report =>
    rw [hdeeds]
    rcases hout with ⟨position, -, hlatest, -⟩ | hlatest
    · exact ⟨position, List.mem_cons_of_mem _ (Lawful.mem_deeds_of_latest hlatest rfl)⟩
    · have hlaw := (h.lawful.suffix hs).2.2
      obtain ⟨plan, hplan, -⟩ := hlaw.whole_of_delivered hd' hlatest
      obtain ⟨position, hsampled⟩ := (hlaw.course hd').sampled_of_planned hplan
      exact ⟨position, List.mem_cons_of_mem _ hsampled⟩

/-- Only a write takes back that the write position was read after the last write. -/
theorem caughtUp_append {new : List Entry} (h : caughtUp d past = true) (hw : ∀ e ∈ new, e.event.writes = false) :
    caughtUp d (new ++ past) = true := by
  induction new with
  | nil => exact h
  | cons e new ih =>
    obtain ⟨hwrites, hrest⟩ := List.forall_mem_cons.mp hw
    have hcaught := ih hrest
    obtain ⟨n, event, drains, source⟩ := e
    cases event with
    | wrote => cases hwrites
    | sampled => simp only [List.cons_append, caughtUp, hcaught, Bool.or_true]
    | _ => exact hcaught

/-- It was read after the last write if nothing was written since the last transfer began, and that one is over. -/
theorem caughtUp_of_last (h : Flowing ring drain d k past) (hover : ∀ n, drainOf n past = some d → Over n past)
    (hlast : transferredLast d past = true) : caughtUp d past = true := by
  obtain ⟨n, k', drains, source, new, before, rfl, hw⟩ := exists_of_transferredLast hlast
  have hlaw := h.lawful
  have hbegan := hlaw.suffix (List.suffix_append new _)
  have hd := hlaw.drainOf_mono (List.suffix_append new _) (drainOf_began k')
  obtain ⟨position, hsampled⟩ := h.sampled_of_over hd (hover n hd)
  obtain ⟨e, he, rfl, hevent, -⟩ := mem_deeds.mp hsampled
  have hnew : e ∈ new := by
    refine (List.mem_append.mp he).resolve_right fun hmem => ?_
    rcases List.mem_cons.mp hmem with heq | hpast
    · rw [heq] at hevent
      cases hevent
    · have hnone : deeds e.step before = [] := hbegan.1.1
      have hdeed : Event.sampled position ∈ deeds e.step before := mem_deeds.mpr ⟨e, hpast, rfl, hevent, rfl⟩
      rw [hnone] at hdeed
      cases hdeed
  obtain ⟨later, between, rfl⟩ := List.append_of_mem hnew
  rw [List.append_assoc, List.cons_append]
  refine caughtUp_append ?_ fun e' he' => hw e' (List.mem_append_left _ he')
  have hd' : drainOf e.step (between ++ ⟨e.step, .began d k', drains, source⟩ :: before) = some d := by
    rw [List.append_assoc] at hlaw
    exact (hlaw.suffix ((List.suffix_cons e _).trans (List.suffix_append later _))).drainOf_mono
      (List.suffix_append between _) (drainOf_began k')
  simp only [caughtUp, hevent, hd', decide_true, Bool.true_or]

end Flowing

/-! ## Lines that were offered -/

/-- All lines that the consumer of a sink was offered. -/
def linesOffered (k : Nat) : List Entry → List Bytes
  | [] => []
  | e :: past =>
    match e.event with
    | .line bytes => if sinkOf e.step past = some k then linesOffered k past ++ [bytes] else linesOffered k past
    | _ => linesOffered k past

/-- Without refusals, all of them count. -/
theorem Willing.linesOffered_eq (h : Willing k past) : linesOffered k past = called k past ∧ earlier k past = [] := by
  induction past with
  | nil => exact ⟨rfl, rfl⟩
  | cons e past ih =>
    obtain ⟨hcalled, hearlier⟩ := ih h.tail
    have hhead := h.head
    obtain ⟨n, event, drains, source⟩ := e
    by_cases hk : sinkOf n past = some k
    · cases event with
      | refused => exact absurd hk (hhead rfl)
      | _ => simp only [linesOffered, called, earlier, hk, hcalled, hearlier, ↓reduceIte, and_self]
    · cases event <;> simp only [linesOffered, called, earlier, hk, hcalled, hearlier, ↓reduceIte, and_self]

/-! ## Whole sessions -/

/-- A session on a ring in which a drain was piped into a sink for lines until nothing was left. -/
structure Drained (session : Session) (ring : Ring) (drain : Drain) (d k : Nat) (framer : LineFramer)
    (kept : Array Bytes) : Prop extends Conduit session ring drain d k framer kept where
  /-- Less than a turn was written that was not handed to the sink yet. -/
  keptUp : KeptUp drain.geometry d (handedLen k) session.past
  /-- The consumer never refuses a line. -/
  willing : Willing k session.past
  /-- Nothing was written since the last transfer began, or it has read the write position after the last write. -/
  last : transferredLast d session.past = true ∨ caughtUp d session.past = true

namespace Drained

variable {session : Session} {framer : LineFramer} {kept : Array Bytes}

theorem flowing (h : Drained session ring drain d k framer kept) : Flowing ring drain d k session.past := by
  refine ⟨h.piping, h.keptUp, h.willing,
    h.lawful.succeeds session.never_unfinished ?_ h.piping.oneByOne h.piped h.willing⟩
  exact fun first ho => by rw [h.first_eq ho, h.geometry]

/-- The consumer was offered the lines of the stream and has accepted them, and the sink waits with the bytes after
the last newline. -/
theorem lines_eq (h : Drained session ring drain d k framer kept) :
    linesOffered k session.past = lines (stream d session.past) ∧
      kept.toList = lines (stream d session.past) ∧
      framer.pending.toList = unfinished (stream d session.past) := by
  have hover : ∀ n, drainOf n session.past = some d → Over n session.past := fun n => session.finished
  have hcaught := h.last.elim (h.flowing.caughtUp_of_last hover) id
  have htaken : taken k session.past = stream d session.past := h.flowing.taken_eq hover hcaught
  obtain ⟨hoffered, hearlier⟩ := h.willing.linesOffered_eq
  obtain ⟨-, hcalled, hpending, hkept⟩ := h.standing
  rw [htaken] at hcalled hpending
  rw [hearlier, List.nil_append, hcalled] at hkept
  exact ⟨hoffered.trans hcalled, hkept, hpending⟩

end Drained

variable {session : Session} {framer : LineFramer} {kept : Array Bytes}

/-- In every session on a ring, a drain of either sort hands a sink for lines the lines of its stream. Two sessions over
one stream do so whatever their rings, their drains and the order of their steps. -/
theorem lines_of_stream (h : Drained session ring drain d k framer kept) :
    (linesOffered k session.past = lines (stream d session.past) ∧ kept.toList = lines (stream d session.past) ∧
      framer.pending.toList = unfinished (stream d session.past)) ∧
    ∀ (session' : Session) (ring' : Ring) (drain' : Drain) (d' k' : Nat) (framer' : LineFramer) (kept' : Array Bytes),
      Drained session' ring' drain' d' k' framer' kept' → stream d' session'.past = stream d session.past →
        linesOffered k' session'.past = linesOffered k session.past ∧ kept' = kept ∧
          framer'.pending = framer.pending := by
  refine ⟨h.lines_eq, fun session' ring' drain' d' k' framer' kept' h' hstream => ?_⟩
  obtain ⟨hoffered, hkept, hpending⟩ := h.lines_eq
  obtain ⟨hoffered', hkept', hpending'⟩ := h'.lines_eq
  rw [hstream] at hoffered' hkept' hpending'
  exact ⟨hoffered'.trans hoffered.symm, Array.toList_inj.mp (hkept'.trans hkept.symm),
    Array.toList_inj.mp (hpending'.trans hpending.symm)⟩

/-- Two lines and the start of a third one in a ring of eight bytes in pages of one; the first line goes around the end
of the ring. -/
def turning : Session where
  geometry := octet
  source := .ring (.zeros octet)
  script := []
  steps := [.write [0, 0, 0, 0, 0, 0, 0], .openDrain .sequential (some 7) none, .openSink (.lines none) [],
    .write [97, 98, 10], .transfer 0 0 none, .write [99, 10, 100], .transfer 0 0 none]

/-- A ring of ten bytes in pages of two. -/
def pairs : Geometry := ⟨10, 2, by decide, by decide, by decide⟩

/-- The same bytes in a ring of ten bytes in pages of two, through a shared drain; the last two of them are written when
the consumer is offered the first line. -/
def answering : Session where
  geometry := pairs
  source := .ring (.zeros pairs)
  script := []
  steps := [.openDrain .concurrent none none, .openSink (.lines none) [.play 0 (.write [10, 100]) false],
    .write [97], .transfer 0 0 none, .write [98, 10, 99], .transfer 0 0 none, .transfer 0 0 none]

theorem turning_drained : Drained turning (.zeros octet) ⟨octet, 7, .sequential (.zeros 1)⟩ 0 0 ⟨#[100], none⟩
    #[[97, 98], [99]] where
  source := rfl
  opened := by cbv
  geometry := rfl
  abreast := Throughout.of_check (by cbv)
  keptUp := Throughout.of_check (by cbv)
  piped := Piped.of_check (by cbv)
  spares := by simp [Spares, turning, Step.Spares, Script.Spares]
  willing := Throughout.of_check (by cbv)
  last := Or.inl (by cbv)
  sink := ⟨[], 2, by cbv⟩
  unlimited := rfl

theorem answering_drained : Drained answering (.zeros pairs) ⟨pairs, 0, .concurrent⟩ 0 0 ⟨#[100], none⟩
    #[[97, 98], [99]] where
  source := rfl
  opened := by cbv
  geometry := rfl
  abreast := Throughout.of_check (by cbv)
  keptUp := Throughout.of_check (by cbv)
  piped := Piped.of_check (by cbv)
  spares := by simp [Spares, answering, Step.Spares, Script.Spares, Cue.Spares]
  willing := Throughout.of_check (by cbv)
  last := Or.inl (by cbv)
  sink := ⟨_, _, by cbv⟩
  unlimited := rfl

theorem answering_stream : stream 0 answering.past = stream 0 turning.past := by cbv

theorem lines_of_stream_turning : linesOffered 0 turning.past = [[97, 98], [99]] ∧
    linesOffered 0 answering.past = linesOffered 0 turning.past := by
  obtain ⟨⟨hoffered, -, -⟩, hsame⟩ := lines_of_stream turning_drained
  refine ⟨hoffered.trans ?_, (hsame _ _ _ _ _ _ _ answering_drained answering_stream).1⟩
  cbv

end PagedRing.Session
