import PagedRing.Proofs.Contention

/-!
# Drains stay in their rings

No session moves a cursor out of its ring, and no transfer runs into a check that its range has to pass, whatever the
source does. What ends a transfer early is a write position outside the ring, a source without the page or with a page
of another length, the sink, or more lost attempts than can be counted.

* `Inside`: every cursor and the position of a ring lie in their rings.
* `Guarded`: how a transfer may end.
* `ends_on_ring`: how it may end on a ring of its drain's geometry.
* `drains_guarded`: all of this for every session.
-/

namespace PagedRing

/-- The pages that a ring does not have are those from its page count on. -/
theorem Ring.pageCount_le_of_fault {r : Ring} {number : Nat} {cause : Fault} (h : r.page number = .error cause) :
    r.geometry.pageCount ≤ number := by
  refine Nat.le_of_not_lt fun hlt => ?_
  rw [(r.page_eq_ok_iff number _).mpr ⟨hlt, rfl⟩] at h
  cases h

namespace Session

/-! ## Cursors -/

/-- Where the cursor of a drain stands, also while the drain is in use. -/
def cursorAt (d : Nat) (drain : Drain) (past : List Entry) : Nat :=
  match drain.mode with
  | .concurrent => claimedTo d past
  | .sequential _ => settledTo d past

/-- Whether every cursor and the position of a ring lie in their rings. -/
structure Inside (past : List Entry) (drains : Array (Option Drain)) (source : Source) : Prop where
  cursor : ∀ d drain, opened? d past = some drain → cursorAt d drain past < drain.geometry.capacity
  place : ∀ (d : Nat) own, drains[d]? = some (some own) → own.cursor < own.geometry.capacity ∧
    ∃ drain, opened? d past = some drain ∧ own.geometry = drain.geometry ∧ own.cursor = cursorAt d drain past
  position : ∀ ring, source = .ring ring → ring.position < ring.geometry.capacity

variable {origin source : Source} {past before : List Entry} {n d : Nat} {drain : Drain} {drains : Array (Option Drain)}
  {ring : Ring} {outcome : Except Halt Transfer}

/-- A lawful history leaves every cursor in its ring. -/
theorem Lawful.inside (h : Lawful origin past) (hf : Faithful origin past drains source) :
    Inside past drains source := by
  have hcursor : ∀ d drain, opened? d past = some drain → cursorAt d drain past < drain.geometry.capacity := by
    intro d drain ho
    unfold cursorAt
    split
    · exact h.claimedTo_lt ho
    · exact h.settledTo_lt ho
  refine ⟨hcursor, fun d own hown => ?_, fun ring _ => ring.position_lt⟩
  have hplace := hf.place d
  unfold Place at hplace
  cases ho : opened? d past with
  | none => rw [ho, hown] at hplace; cases hplace
  | some drain =>
    simp only [ho, hown] at hplace
    have hlt := hcursor d drain ho
    unfold cursorAt at hlt ⊢
    cases hm : drain.mode with
    | concurrent =>
      simp only [hm, Option.some.injEq] at hplace hlt
      subst hplace
      exact ⟨hlt, drain, rfl, rfl, by rw [hm]⟩
    | sequential scratch =>
      simp only [hm, Option.some.injEq, reduceCtorEq, false_or] at hplace hlt
      obtain ⟨scratch', rfl⟩ := hplace
      exact ⟨hlt, drain, rfl, rfl, by rw [hm]⟩

/-! ## Ends of transfers -/

/-- How a transfer may end. Ranges always fit, so no check of a range fails, nor does a computation with positions. -/
def Guarded (n d : Nat) (drain : Drain) (before : List Entry) (source : Source) : Except Halt Transfer → Prop
  | .ok report => report.start < drain.geometry.capacity ∧ report.stop < drain.geometry.capacity ∧
      report.len ≤ drain.geometry.capacity
  | .error (.error (.sink start stop taken cause)) => ∃ len, Latest n (.refused start stop taken len cause) before
  | .error (.error (.positionOutOfRange position capacity)) =>
    -- the source was just found there, and nothing was claimed and no chunk offered before
    capacity = drain.geometry.capacity ∧ capacity ≤ position ∧ Latest n (.sampled position) before ∧
      (∀ e ∈ before.head?, e.source.position = position) ∧ ∀ ev ∈ deeds n before, ev.attempt = true
  | .error (.error (.rangeTooLong _ _)) => False
  | .error (.error (.pageSize page expected actual _)) =>
    ∃ bytes, source.page page = .ok bytes ∧ actual = bytes.length ∧ expected = drain.geometry.pageSize ∧
      actual ≠ expected
  | .error (.fault cause) =>
    -- the ring of the source does not have the page of the next chunk
    (∃ left ring, Handing (deeds n before) ∧ left? (deeds n before) = some left ∧ source = .ring ring ∧
      ring.page left.head.page = .error cause ∧ ring.geometry.pageCount ≤ left.head.page) ∨
    -- one more attempt was lost than can be counted, and nothing was claimed and no chunk offered before
    cause = .addOverflow ∧ Overrun n d drain before ∧ ∀ ev ∈ deeds n before, ev.attempt = true
  | .error .unfinished => False

/-- A report of a range names positions of the ring, with at most one turn between them. -/
theorem Lawful.delivered_inside {report : Transfer} (h : Lawful origin past) (hd : drainOf n past = some d)
    (ho : opened? d past = some drain) (hr : Event.delivered report ∈ deeds n past) :
    report.start < drain.geometry.capacity ∧ report.stop < drain.geometry.capacity ∧
      report.len ≤ drain.geometry.capacity := by
  have hstop := h.delivered_stop_lt hd ho hr
  obtain ⟨drains, source, before, hs, hd', ho', hc, -⟩ := h.moment hd ho hr rfl
  have hlaw := h.suffix ((List.suffix_cons _ _).trans hs)
  cases hc with
  | @delivered ds plan left stop hc hh hp hleft hend hadv =>
    have hfits := (hc.tally hp).fits
    rw [← hlaw.planned_geometry hd' ho' (planned?_mem hp)] at hstop ⊢
    exact ⟨hfits.start_lt, hstop, hfits.len_le⟩

/-- Every transfer ends as it may, but for one that was given too few attempts. -/
theorem Lawful.guarded (h : Lawful origin (⟨n, .ended outcome, drains, source⟩ :: past))
    (hd : drainOf n past = some d) (ho : opened? d past = some drain) (hfinished : outcome ≠ .error .unfinished) :
    Guarded n d drain past source outcome := by
  have hout := (h.allowed hd ho rfl).2
  match outcome with
  | .ok report =>
    rcases hout with ⟨position, rfl, -, hlt, -⟩ | hlatest
    · exact ⟨hlt, hlt, Nat.zero_le _⟩
    · exact h.2.2.delivered_inside hd ho (mem_deeds_of_latest hlatest rfl)
  | .error (.error (.sink start stop taken cause)) => exact hout
  | .error (.error (.positionOutOfRange position capacity)) =>
    obtain ⟨rfl, hlatest, hle⟩ := hout
    refine ⟨rfl, hle, hlatest, ?_, h.2.2.attempts_of_sampled hd hlatest⟩
    obtain ⟨drains', source', before, rfl⟩ := hlatest
    have hd' : drainOf n before = some d := by rw [← hd, drainOf_of_drain? rfl]
    have hsampled : position = source'.position := (h.2.2.allowed hd' ho rfl).2
    rintro e ⟨⟩
    exact hsampled.symm
  | .error (.error (.rangeTooLong _ _)) => exact hout
  | .error (.error (.pageSize page expected actual taken)) =>
    obtain ⟨left, bytes, -, -, -, -, hbytes, hexpected, hactual, hne, -⟩ := hout
    exact ⟨bytes, hbytes, hactual, hexpected, hne⟩
  | .error (.fault cause) =>
    rcases hout with ⟨left, hhanding, hleft, -, hfault⟩ | ⟨rfl, hoverrun⟩
    · cases source with
      | ring ring => exact .inl ⟨left, ring, hhanding, hleft, rfl, hfault, Ring.pageCount_le_of_fault hfault⟩
      | table pages position => cases hfault
    · obtain ⟨expected, hbeaten⟩ := hoverrun.beaten
      obtain ⟨position, hlatest, -⟩ := hbeaten.unread
      exact .inr ⟨rfl, hoverrun, h.2.2.attempts_of_sampled hd hlatest⟩
  | .error .unfinished => exact hfinished rfl

/-- On a ring of its drain's geometry, a transfer succeeds unless its sink refuses a chunk, or its count of lost attempts
overflows. -/
theorem Lawful.ok_or_sink (h : Lawful (.ring ring) (⟨n, .ended outcome, drains, source⟩ :: past))
    (hd : drainOf n past = some d) (ho : opened? d past = some drain) (hfinished : outcome ≠ .error .unfinished)
    (hg : drain.geometry = ring.geometry) :
    (∃ report, outcome = .ok report) ∨
      (∃ start stop taken cause, outcome = .error (.error (.sink start stop taken cause))) ∨ overran outcome = true := by
  cases outcome with
  | ok report => exact Or.inl ⟨report, rfl⟩
  | error cause =>
    refine Or.inr ?_
    by_cases hfound : ∀ x ∈ deeds n past, x.attempt = true
    · -- no range was found yet, so only the write position could be at fault, but that of a ring lies in it
      have hleft := (Course.of_trying hfound).2.1
      have hguarded := h.guarded hd ho hfinished
      have hout := (h.allowed hd ho rfl).2
      match cause with
      | .error (.sink start stop taken cause) => exact .inl ⟨_, _, _, _, rfl⟩
      | .error (.positionOutOfRange position capacity) =>
        obtain ⟨rfl, hle, ⟨drains', source', before, rfl⟩, hposition, -⟩ := hguarded
        have hsource : source' = .ring (ring.write (written before)) := h.2.2.2.1.source ring rfl
        have hlt := (ring.write (written before)).position_lt
        rw [Ring.geometry_write, ← hg] at hlt
        have := hposition _ rfl
        rw [hsource] at this
        exact absurd hle (Nat.not_le_of_lt (this ▸ hlt))
      | .error (.rangeTooLong _ _) => exact absurd hguarded id
      | .error (.pageSize page expected actual taken) =>
        obtain ⟨left, bytes, -, hsome, -⟩ := hout
        rw [hleft] at hsome
        cases hsome
      | .fault cause =>
        rcases hout with ⟨left, -, hsome, -⟩ | ⟨rfl, -⟩
        · rw [hleft] at hsome
          cases hsome
        · exact .inr rfl
      | .unfinished => exact absurd hguarded id
    · obtain ⟨plan, start, stop, reason, last, rest, hplan, rfl, -⟩ := h.sink_of_failed hd ho hg hfound
      exact .inl ⟨_, _, _, _, rfl⟩

/-- On a ring of its drain's geometry, a transfer that never comes too late fails just after its sink has refused a
chunk. -/
theorem Lawful.refused_of_failed {cause : Halt}
    (h : Lawful (.ring ring) (⟨n, .ended (.error cause), drains, source⟩ :: past)) (hd : drainOf n past = some d)
    (ho : opened? d past = some drain) (hfinished : cause ≠ .unfinished) (hg : drain.geometry = ring.geometry)
    (hfirst : ∀ expected, ¬Beaten n d drain expected past) :
    ∃ start stop taken len reason, Latest n (.refused start stop taken len reason) past := by
  have hfailed : (.error cause : Except Halt Transfer) ≠ .error .unfinished := fun heq =>
    hfinished (Except.error.inj heq)
  have hout := (h.allowed hd ho rfl).2
  rcases h.ok_or_sink hd ho hfailed hg with ⟨report, heq⟩ | ⟨start, stop, taken, reason, heq⟩ | hoverran
  · cases heq
  · cases heq
    obtain ⟨len, hlatest⟩ := hout
    exact ⟨start, stop, taken, len, reason, hlatest⟩
  · obtain ⟨expected, hbeaten⟩ := (overrun_of_concludes hout hoverran).2.beaten
    exact absurd hbeaten (hfirst expected)

end Session

end PagedRing
