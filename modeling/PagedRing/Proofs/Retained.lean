import PagedRing.Proofs.Stream

/-!
# The bytes after the cursor

A drain that is not shared moves its cursor only after a success. What stands in the ring after the cursor is what its
transfers try to deliver, one at a time, until one of them succeeds.

* `settledLen`, `successes`, `failures`: what the transfers of a drain came to.
* `OneByOne`, `Lawful.oneByOne`: at most one transfer of such a drain runs at a time.
* `Retained`: what holds of the bytes after the cursor, and of the transfers that tried to deliver them.
* `Lawful.retained`: a writer that keeps less than a turn ahead of the cursor keeps them.
-/

namespace PagedRing

/-- Whether an event moves a transfer on to a range or a chunk, or begins or ends it. -/
def Event.moves : Event → Bool
  | .began _ _ | .planned _ | .offered _ _ | .ended _ => true
  | _ => false

namespace Session

/-! ## Successes and failures -/

/-- The number of bytes that the transfers of a drain have reported as delivered. -/
def settledLen (d : Nat) : List Entry → Nat
  | [] => 0
  | e :: past =>
    match e.event with
    | .ended (.ok report) => if drainOf e.step past = some d then settledLen d past + report.len else settledLen d past
    | _ => settledLen d past

/-- The transfers of a drain that have succeeded, in order. -/
def successes (d : Nat) : List Entry → List Nat
  | [] => []
  | e :: past =>
    match e.event with
    | .ended (.ok _) => if drainOf e.step past = some d then successes d past ++ [e.step] else successes d past
    | _ => successes d past

/-- The transfers of a drain that have failed since the last one that succeeded. -/
def failures (d : Nat) : List Entry → List Nat
  | [] => []
  | e :: past =>
    match e.event with
    | .ended (.ok _) => if drainOf e.step past = some d then [] else failures d past
    | .ended (.error _) => if drainOf e.step past = some d then e.step :: failures d past else failures d past
    | _ => failures d past

variable {origin : Source} {n m d : Nat} {past before : List Entry} {drain : Drain} {ring : Ring} {e : Entry}
  {drains : Array (Option Drain)} {source : Source} {plan : Plan}

theorem over_cons_iff (h : e.event.ends = false) : Over n (e :: past) ↔ Over n past := by
  refine ⟨fun ⟨outcome, hmem⟩ => ⟨outcome, ?_⟩, Over.cons⟩
  obtain ⟨e', he', hn, hev, hl⟩ := mem_deeds.mp hmem
  rcases List.mem_cons.mp he' with rfl | he'
  · rw [hev] at h
    cases h
  · exact mem_deeds.mpr ⟨e', he', hn, hev, hl⟩

theorem over_of_ne (h : e.step ≠ n) : Over n (e :: past) ↔ Over n past := by
  unfold Over
  rw [deeds_of_ne h]

/-- What an event that does not move a transfer on leaves alone. -/
theorem deeds_unmoved (h : ¬ (e.step = n ∧ e.event.moves = true)) :
    drainOf n (e :: past) = drainOf n past ∧ planned? (deeds n (e :: past)) = planned? (deeds n past) ∧
      chunksOffered (deeds n (e :: past)) = chunksOffered (deeds n past) ∧ (Over n (e :: past) ↔ Over n past) := by
  by_cases hn : e.step = n
  · have hstill : e.event.moves = false := by simpa [hn] using h
    obtain ⟨k, event, drains, source⟩ := e
    refine ⟨drainOf_of_drain? ?_, planned?_cons ?_, chunksOffered_cons ?_, over_cons_iff ?_⟩
    all_goals cases event <;> first | rfl | cases hstill
  · rw [deeds_of_ne hn, drainOf_of_ne hn, over_of_ne hn]
    exact ⟨rfl, rfl, rfl, Iff.rfl⟩

/-- A transfer that has failed is over. -/
theorem over_of_failure (h : n ∈ failures d past) : Over n past := by
  induction past with
  | nil => cases h
  | cons e past ih =>
    obtain ⟨k, event, drains, source⟩ := e
    cases event with
    | ended outcome =>
      cases outcome with
      | ok report =>
        simp only [failures] at h
        split at h
        · cases h
        · exact (ih h).cons
      | error cause =>
        simp only [failures] at h
        split at h
        · rcases List.mem_cons.mp h with rfl | h
          · exact ⟨_, by rw [deeds_self rfl]; exact List.mem_cons_self⟩
          · exact (ih h).cons
        · exact (ih h).cons
    | _ => exact (ih h).cons

/-- Whether each transfer of a drain begins when all others are over. -/
def OneByOne (d : Nat) : List Entry → Prop :=
  Throughout fun e past => e.event.drain? = some d → ∀ m, drainOf m past = some d → Over m past

/-- Then at most one of them runs at a time. -/
theorem OneByOne.unique (h : OneByOne d past) (hn : drainOf n past = some d) (hm : drainOf m past = some d)
    (hno : ¬ Over n past) (hmo : ¬ Over m past) : n = m := by
  induction past with
  | nil => cases hn
  | cons e past ih =>
    have hno' : ¬ Over n past := fun hover => hno hover.cons
    have hmo' : ¬ Over m past := fun hover => hmo hover.cons
    by_cases hb : e.event.drain? = none
    · rw [drainOf_of_drain? hb] at hn hm
      exact ih h.tail hn hm hno' hmo'
    · obtain ⟨k, event, drains, source⟩ := e
      cases event with
      | began d' j =>
        by_cases hkn : k = n
        · by_cases hkm : k = m
          · exact hkn.symm.trans hkm
          · subst hkn
            rw [drainOf_began] at hn
            rw [drainOf_of_ne hkm] at hm
            exact absurd (h.head hn m hm) hmo'
        · rw [drainOf_of_ne hkn] at hn
          by_cases hkm : k = m
          · subst hkm
            rw [drainOf_began] at hm
            exact absurd (h.head hm n hn) hno'
          · rw [drainOf_of_ne hkm] at hm
            exact ih h.tail hn hm hno' hmo'
      | _ => exact absurd rfl hb

namespace Lawful

/-- A drain that was not opened has settled nothing. -/
theorem unsettled_of_unopened (h : Lawful origin past) (ho : opened? d past = none) :
    settledLen d past = 0 ∧ successes d past = [] ∧ failures d past = [] := by
  induction past with
  | nil => exact ⟨rfl, rfl, rfl⟩
  | cons e past ih =>
    have ho' : opened? d past = none := by
      cases hp : opened? d past with
      | none => rfl
      | some drain => rw [opened?_cons h hp] at ho; cases ho
    have hd : drainOf e.step past ≠ some d := by
      intro hd
      obtain ⟨drain, hdrain⟩ := opened_of_drainOf h.2.2 hd
      rw [ho'] at hdrain
      cases hdrain
    have ih := ih h.2.2 ho'
    obtain ⟨k, event, drains, source⟩ := e
    cases event with
    | ended outcome => cases outcome <;> simpa only [settledLen, successes, failures, hd, ↓reduceIte] using ih
    | _ => exact ih

/-! ## One transfer at a time -/

/-- A transfer of a drain that is not shared begins when all others are over. -/
theorem over_of_began {k : Nat} (h : Lawful origin (⟨n, .began d k, drains, source⟩ :: past))
    (ho : opened? d past = some drain) (hm : drain.mode ≠ .concurrent) (hd : drainOf m past = some d) :
    Over m past := by
  obtain ⟨-, taken, htaken, hover⟩ := h.1
  refine hover ?_ m hd
  have ho' : opened? d (⟨n, .began d k, drains, source⟩ :: past) = some drain := ho
  have hplace := (place_sequential_iff ho' hm).mp (h.2.1.place d)
  rcases hplace with hplace | ⟨own, hplace⟩
  · rw [show drains[d]? = some (some taken) from htaken] at hplace
    cases hplace
  · rw [show drains[d]? = some (some taken) from htaken] at hplace
    cases hplace
    exact DrainMode.noConfusion

/-- A drain that is not shared transfers one by one. -/
theorem oneByOne (h : Lawful origin past) (hm : ∀ first, opened? d past = some first → first.mode ≠ .concurrent) :
    OneByOne d past := by
  induction past with
  | nil => exact .nil
  | cons e past ih =>
    refine .cons (ih h.2.2 fun first ho => hm first (opened?_cons h ho)) fun hb m hd => ?_
    obtain ⟨n, event, drains, source⟩ := e
    cases event with
    | began d' k =>
      cases hb
      obtain ⟨drain, ho⟩ := opened_of_drainOf h.2.2 hd
      exact over_of_began h ho (hm drain (opened?_cons h ho)) hd
    | _ => cases hb

/-- At most one transfer of a drain that is not shared runs at a time. -/
theorem exclusive (h : Lawful origin past) (ho : opened? d past = some drain) (hm : drain.mode ≠ .concurrent)
    (hn : drainOf n past = some d) (hm' : drainOf m past = some d) (hno : ¬ Over n past) (hmo : ¬ Over m past) :
    n = m :=
  (h.oneByOne fun first hfirst => by cases hfirst.symm.trans ho; exact hm).unique hn hm' hno hmo

/-! ## How transfers end -/

/-- What a transfer that succeeds has delivered. -/
theorem success_of_ended {report : Transfer} (h : Lawful origin (⟨n, .ended (.ok report), drains, source⟩ :: past))
    (hd : drainOf n past = some d) (ho : opened? d past = some drain) (hm : drain.mode ≠ .concurrent) :
    (report = .emptyAt (settledTo d past) ∧ Latest n (.sampled (settledTo d past)) past ∧
      planned? (deeds n past) = none ∧ chunksAccepted (deeds n past) = []) ∨
    ∃ plan, planned? (deeds n past) = some plan ∧ report.len = plan.len ∧
      plan.geometry.advance plan.start plan.len = .ok report.stop ∧
      size (chunksOffered (deeds n past)) = plan.len ∧
        chunksAccepted (deeds n past) = chunksOffered (deeds n past) := by
  rcases (allowed h hd ho rfl).2 with ⟨position, rfl, hlatest, -, hbase⟩ | hlatest
  · have hsettled : settledTo d past = position := by
      cases hmode : drain.mode with
      | concurrent => exact absurd hmode hm
      | sequential scratch =>
        rw [base?, hmode] at hbase
        exact Option.some.inj hbase
    refine Or.inl ⟨by rw [hsettled], by rw [hsettled]; exact hlatest, ?_⟩
    have hcourse := h.2.2.course hd
    obtain ⟨drains', source', before, rfl⟩ := hlatest
    rw [deeds_self rfl] at hcourse ⊢
    exact ⟨(hcourse.of_finds rfl).1, (hcourse.of_finds rfl).2.2.2⟩
  · exact Or.inr (h.2.2.whole_of_delivered hd hlatest)

end Lawful

/-! ## The bytes after the cursor -/

/-- What holds of a range that starts at the cursor, and of the chunks of it that were offered. -/
structure Window (d : Nat) (past : List Entry) (n : Nat) (plan : Plan) : Prop where
  start : plan.start = settledTo d past
  len_le : settledLen d past + plan.len ≤ (stream d past).length
  bytes : content (chunksOffered (deeds n past)) =
    ((stream d past).drop (settledLen d past)).take (size (chunksOffered (deeds n past)))
  /-- The range ends where the stream ended when the write position was read. -/
  read : ∃ position drains source before, ⟨n, .sampled position, drains, source⟩ :: before <:+ past ∧
    stream d before = (stream d past).take (settledLen d past + plan.len)

/-- What holds of a transfer that has tried to deliver the bytes after the cursor, if it has got as far as a range: it
fails before the last chunk, and while it runs, no earlier failure had a longer range. -/
def Held (d : Nat) (past : List Entry) (n : Nat) : Prop :=
  ∀ plan, planned? (deeds n past) = some plan → Window d past n plan ∧
    (Over n past → ∃ last rest, plan.spans = .ok ((chunksAccepted (deeds n past)).map Prod.fst ++ last :: rest)) ∧
    (¬ Over n past → ∀ m ∈ failures d past, ∀ plan', planned? (deeds m past) = some plan' → plan'.len ≤ plan.len)

/-- What holds of the bytes after the cursor. -/
structure Retained (drain : Drain) (d : Nat) (past : List Entry) : Prop where
  settled : settledTo d past = (drain.cursor + settledLen d past) % drain.geometry.capacity
  le : settledLen d past ≤ (stream d past).length
  lt : (stream d past).length < settledLen d past + drain.geometry.capacity
  held : ∀ n, drainOf n past = some d → (Over n past → n ∈ failures d past) → Held d past n

theorem Window.frame (h : Window d past n plan) (hset : settledTo d (e :: past) = settledTo d past)
    (hlen : settledLen d (e :: past) = settledLen d past) {bytes : Bytes}
    (hstream : stream d (e :: past) = stream d past ++ bytes)
    (hle : size (chunksOffered (deeds n past)) ≤ plan.len)
    (hchunks : chunksOffered (deeds n (e :: past)) = chunksOffered (deeds n past)) : Window d (e :: past) n plan := by
  have hle' := h.len_le
  obtain ⟨position, drains, source, before, hs, hread⟩ := h.read
  refine ⟨by rw [hset]; exact h.start, ?_, ?_, position, drains, source, before, hs.trans (List.suffix_cons e past), ?_⟩
  · rw [hlen, hstream, List.length_append]; omega
  · rw [hchunks, hlen, hstream, h.bytes, List.drop_append_of_le_length (by omega),
      List.take_append_of_le_length (by rw [List.length_drop]; omega)]
  · rw [hlen, hstream, hread, List.take_append_of_le_length hle']

/-- What other steps do leaves a transfer alone, unless they move the cursor. -/
theorem Held.frame (h : Held d past n) (hcourse : Course (deeds n past))
    (hset : settledTo d (e :: past) = settledTo d past) (hlen : settledLen d (e :: past) = settledLen d past)
    {bytes : Bytes} (hstream : stream d (e :: past) = stream d past ++ bytes)
    (hplan : planned? (deeds n (e :: past)) = planned? (deeds n past))
    (hoffered : chunksOffered (deeds n (e :: past)) = chunksOffered (deeds n past))
    (haccepted : Over n past → chunksAccepted (deeds n (e :: past)) = chunksAccepted (deeds n past))
    (hover : Over n (e :: past) ↔ Over n past)
    (hfail : ∀ m ∈ failures d (e :: past), m ∈ failures d past ∧
      planned? (deeds m (e :: past)) = planned? (deeds m past)) : Held d (e :: past) n := by
  intro plan hp
  rw [hplan] at hp
  obtain ⟨hwindow, hstrict, hlonger⟩ := h plan hp
  have hsize : size (chunksOffered (deeds n past)) ≤ plan.len := (hcourse.tally hp).size_le
  refine ⟨hwindow.frame hset hlen hstream hsize hoffered, fun hov => ?_, fun hno m hm plan' hp' => ?_⟩
  · rw [hover] at hov
    rw [haccepted hov]
    exact hstrict hov
  · rw [hover] at hno
    obtain ⟨hm', hplan'⟩ := hfail m hm
    rw [hplan'] at hp'
    exact hlonger hno m hm' plan' hp'

/-- A chunk that is offered goes on where the chunks before it ended. -/
theorem Window.offered {span : Span} {bytes : Bytes} (h : Window d past n plan)
    (hbytes : bytes =
      ((stream d past).drop (settledLen d past + size (chunksOffered (deeds n past)))).take span.len) :
    Window d (⟨n, .offered span bytes, drains, source⟩ :: past) n plan := by
  obtain ⟨position, drains', source', before, hs, hread⟩ := h.read
  refine ⟨h.start, h.len_le, ?_, position, drains', source', before, hs.trans (List.suffix_cons _ past), hread⟩
  rw [deeds_self rfl, chunksOffered, content_append, content_singleton, size_append, h.bytes, hbytes]
  show _ = ((stream d past).drop (settledLen d past)).take _
  rw [show size [(span, ((stream d past).drop (settledLen d past + size (chunksOffered (deeds n past)))).take
    span.len)] = span.len from Nat.add_zero _, List.take_add, List.drop_drop]

namespace Lawful

/-- A transfer that does something is not over. -/
theorem not_over (h : Lawful origin (e :: past)) (hl : e.event.isLine = false) (hd : drainOf e.step past = some d) :
    ¬ Over e.step past := by
  rintro ⟨outcome, hmem⟩
  obtain ⟨drain, ho⟩ := opened_of_drainOf h.2.2 hd
  exact (h.allowed hd ho hl).1.unended hmem

/-- A transfer that is over does nothing any more. -/
theorem ne_of_over (h : Lawful origin (e :: past)) (hl : e.event.isLine = false) (hd : drainOf n past = some d)
    (hover : Over n past) : e.step ≠ n := by
  rintro rfl
  exact h.not_over hl hd hover

theorem deeds_of_over (h : Lawful origin (e :: past)) (hd : drainOf n past = some d) (hover : Over n past) :
    deeds n (e :: past) = deeds n past := by
  by_cases hl : e.event.isLine = true
  · exact deeds_line hl
  · exact deeds_of_ne (h.ne_of_over (Bool.not_eq_true _ ▸ hl) hd hover)

theorem drainOf_of_failure (hn : n ∈ failures d past) (h : Lawful origin past) : drainOf n past = some d := by
  induction past with
  | nil => cases hn
  | cons e past ih =>
    obtain ⟨k, event, drains, source⟩ := e
    refine h.drainOf_mono (List.suffix_cons _ _) ?_
    cases event with
    | ended outcome =>
      cases outcome with
      | ok report =>
        simp only [failures] at hn
        split at hn
        · cases hn
        · exact ih hn h.2.2
      | error cause =>
        simp only [failures] at hn
        split at hn
        · next hd =>
          rcases List.mem_cons.mp hn with rfl | hn
          · exact hd
          · exact ih hn h.2.2
        · exact ih hn h.2.2
    | _ => exact ih hn h.2.2

/-- A range that is found starts at the cursor and ends with the stream. -/
theorem window_of_planned (h : Lawful (.ring ring) (⟨n, .planned plan, drains, source⟩ :: past))
    (hd : drainOf n past = some d) (ho : opened? d past = some drain) (hm : drain.mode ≠ .concurrent)
    (hg : drain.geometry = ring.geometry) (ha : Abreast d past) (hr : Retained drain d past) :
    Window d (⟨n, .planned plan, drains, source⟩ :: past) n plan ∧
      settledLen d past + plan.len = (stream d past).length := by
  obtain ⟨hcourse, -, stop, hlen, hmode⟩ := h.allowed hd ho rfl
  obtain ⟨hstart, ⟨drains', source', before, hlatest⟩, -, hstop⟩ : plan.start = settledTo d past ∧
      Latest n (.sampled stop) past ∧ plan.start ≠ stop ∧ stop < drain.geometry.capacity := by
    cases hmode' : drain.mode with
    | concurrent => exact absurd hmode' hm
    | sequential scratch => rw [hmode'] at hmode; exact hmode
  have hzero := backlog_of_abreast h.2.2 ho ha
  have hcursor : plan.start = (drain.cursor + settledLen d past) % drain.geometry.capacity := hstart.trans hr.settled
  have hposition := h.2.2.sampled_eq ho hg hd ⟨drains', source', before, hlatest⟩
  rw [hzero, Nat.zero_add] at hposition
  have hlt : plan.start < drain.geometry.capacity := hcursor ▸ Nat.mod_lt _ drain.geometry.capacity_pos
  have hwhole : plan.len = (stream d past).length - settledLen d past := by
    rw [← Share.len_of_unreadLen (c := ⟨n, plan.start, stop, 0⟩) hlt hlen]
    exact Share.len_eq drain.geometry hcursor hposition hr.le hr.lt
  have hle := hr.le
  have htotal : settledLen d past + plan.len = (stream d past).length := by omega
  refine ⟨⟨hstart, Nat.le_of_eq htotal, ?_, stop, drains', source', before, ?_, ?_⟩, htotal⟩
  · subst hlatest
    rw [deeds_self rfl, deeds_self rfl]
    rw [deeds_self rfl] at hcourse
    cases hcourse with
    | planned hcourse _ _ _ =>
      rw [show chunksOffered (.planned plan :: .sampled stop :: deeds n before) = [] from (hcourse.of_finds rfl).2.2.1]
      rfl
  · rw [hlatest]; exact List.suffix_cons _ _
  · subst hlatest
    rw [show settledLen d (⟨n, .planned plan, drains, source⟩ :: ⟨n, .sampled stop, drains', source'⟩ :: before) +
      plan.len = _ from htotal]
    exact List.take_length.symm

/-- A range that was just found is as long as any that was found since the last success. -/
theorem held_of_planned (h : Lawful (.ring ring) (⟨n, .planned plan, drains, source⟩ :: past))
    (hd : drainOf n past = some d) (ho : opened? d past = some drain) (hm : drain.mode ≠ .concurrent)
    (hg : drain.geometry = ring.geometry) (ha : Abreast d past) (hr : Retained drain d past) :
    Held d (⟨n, .planned plan, drains, source⟩ :: past) n := by
  obtain ⟨hwindow, htotal⟩ := h.window_of_planned hd ho hm hg ha hr
  intro plan' hplan
  rw [deeds_self rfl] at hplan
  cases hplan
  refine ⟨hwindow, fun hover => ?_, fun _ m hfailed plan' hplan' => ?_⟩
  · exact absurd ((over_cons_iff (e := ⟨n, .planned plan, drains, source⟩) rfl).mp hover) (h.not_over rfl hd)
  · replace hfailed : m ∈ failures d past := hfailed
    have hm' := drainOf_of_failure hfailed h.2.2
    rw [deeds_of_ne (h.ne_of_over rfl hm' (over_of_failure hfailed))] at hplan'
    have := (hr.held m hm' (fun _ => hfailed) plan' hplan').1.len_le
    omega

/-- A chunk that is offered goes on in the stream where the chunks before it ended. -/
theorem held_of_offered {span : Span} {bytes : Bytes}
    (h : Lawful (.ring ring) (⟨n, .offered span bytes, drains, source⟩ :: past)) (hd : drainOf n past = some d)
    (ho : opened? d past = some drain) (hg : drain.geometry = ring.geometry) (ha : Abreast d past)
    (hr : Retained drain d past) : Held d (⟨n, .offered span bytes, drains, source⟩ :: past) n := by
  have hno : ¬ Over n past := h.not_over rfl hd
  intro plan hplan
  rw [planned?_cons (e := ⟨n, .offered span bytes, drains, source⟩) rfl] at hplan
  obtain ⟨hwindow, -, hlonger⟩ := hr.held n hd (fun hover => absurd hover hno) plan hplan
  have hlt := hr.lt
  obtain ⟨-, hbytes⟩ := h.offered_eq hd ho hg (backlog_of_abreast h.2.2 ho ha) hplan
    (hwindow.start.trans hr.settled) hwindow.len_le (fun _ => by omega)
  refine ⟨hwindow.offered hbytes, fun hover => ?_, fun _ m hfailed plan' hplan' => ?_⟩
  · exact absurd ((over_cons_iff (e := ⟨n, .offered span bytes, drains, source⟩) rfl).mp hover) hno
  · rw [planned?_cons (e := ⟨n, .offered span bytes, drains, source⟩) rfl] at hplan'
    exact hlonger hno m hfailed plan' hplan'

/-- A transfer that fails after it has found a range stops before the last chunk. -/
theorem held_of_failed {cause : Halt} (h : Lawful (.ring ring) (⟨n, .ended (.error cause), drains, source⟩ :: past))
    (hd : drainOf n past = some d) (ho : opened? d past = some drain) (hg : drain.geometry = ring.geometry)
    (hr : Retained drain d past) : Held d (⟨n, .ended (.error cause), drains, source⟩ :: past) n := by
  have hno : ¬ Over n past := h.not_over rfl hd
  intro plan hplan
  rw [planned?_cons (e := ⟨n, .ended (.error cause), drains, source⟩) rfl] at hplan
  have hwindow := (hr.held n hd (fun hover => absurd hover hno) plan hplan).1
  have hsize := ((h.2.2.course hd).tally hplan).size_le
  obtain ⟨plan', -, -, -, last, rest, hplan', -, -, hspans⟩ :=
    h.sink_of_failed hd ho hg fun hall => by cases hall _ (planned?_mem hplan)
  obtain rfl : plan' = plan := Option.some.inj (hplan'.symm.trans hplan)
  refine ⟨hwindow.frame rfl rfl (List.append_nil _).symm hsize (chunksOffered_cons rfl),
    fun _ => ⟨last, rest, ?_⟩, fun hno' => absurd ⟨_, by rw [deeds_self rfl]; exact List.mem_cons_self⟩ hno'⟩
  rw [chunksAccepted_cons (e := ⟨n, .ended (.error cause), drains, source⟩) rfl]
  exact hspans

/-- What settles nothing keeps the bytes after the cursor, if it keeps those that its own transfer delivers. -/
theorem retained_cons (h : Lawful origin (e :: past)) (hr : Retained drain d past)
    (hset : settledTo d (e :: past) = settledTo d past) (hlen : settledLen d (e :: past) = settledLen d past)
    (hfail : failures d (e :: past) = failures d past) {bytes : Bytes}
    (hstream : stream d (e :: past) = stream d past ++ bytes)
    (hlt : (stream d (e :: past)).length < settledLen d past + drain.geometry.capacity)
    (hown : e.event.moves = true → drainOf e.step (e :: past) = some d → Held d (e :: past) e.step) :
    Retained drain d (e :: past) := by
  have hle := hr.le
  refine ⟨by rw [hset, hlen]; exact hr.settled, ?_, by rw [hlen]; exact hlt, fun n hd hover => ?_⟩
  · rw [hlen, hstream, List.length_append]; omega
  · by_cases hn : e.step = n ∧ e.event.moves = true
    · obtain ⟨rfl, hmoves⟩ := hn
      exact hown hmoves hd
    · obtain ⟨hd', hplan, hoffered, hend⟩ := deeds_unmoved hn
      rw [hd'] at hd
      rw [hend, hfail] at hover
      refine (hr.held n hd hover).frame (h.2.2.course hd) hset hlen hstream hplan hoffered (fun hov => ?_) hend
        fun m hm => ?_
      · rw [h.deeds_of_over hd hov]
      · rw [hfail] at hm
        exact ⟨hm, by rw [h.deeds_of_over (drainOf_of_failure hm h.2.2) (over_of_failure hm)]⟩

/-- A transfer that succeeds moves the cursor over what it has delivered. -/
theorem retained_of_succeeded {report : Transfer}
    (h : Lawful (.ring ring) (⟨n, .ended (.ok report), drains, source⟩ :: past)) (hd : drainOf n past = some d)
    (ho : opened? d past = some drain) (hm : drain.mode ≠ .concurrent) (hr : Retained drain d past) :
    Retained drain d (⟨n, .ended (.ok report), drains, source⟩ :: past) := by
  have hno : ¬ Over n past := h.not_over rfl hd
  have hle := hr.le
  have hlt := hr.lt
  have hstop : report.stop = (settledTo d past + report.len) % drain.geometry.capacity ∧
      settledLen d past + report.len ≤ (stream d past).length := by
    rcases h.success_of_ended hd ho hm with ⟨rfl, -⟩ | ⟨plan, hplan, hlen, hadvance, -⟩
    · exact ⟨(Nat.mod_eq_of_lt (h.2.2.settledTo_lt ho)).symm, hle⟩
    · have hwindow := (hr.held n hd (fun hover => absurd hover hno) plan hplan).1
      have hfits := ((h.2.2.course hd).tally hplan).fits
      rw [plan.geometry.advance_of_le (Nat.le_of_lt hfits.start_lt), Except.ok.injEq, hwindow.start, ← hlen,
        h.2.2.planned_geometry hd ho (planned?_mem hplan)] at hadvance
      exact ⟨hadvance.symm, hlen ▸ hwindow.len_le⟩
  have hlen : settledLen d (⟨n, .ended (.ok report), drains, source⟩ :: past) = settledLen d past + report.len := by
    simp only [settledLen, hd, ↓reduceIte]
  refine ⟨?_, ?_, ?_, fun m hd' hover => ?_⟩
  · rw [hlen]
    simp only [settledTo, hd, ↓reduceIte]
    rw [hstop.1, hr.settled, Nat.mod_add_mod, Nat.add_assoc]
  · rw [hlen]; exact hstop.2
  · rw [hlen]
    show (stream d past).length < _
    omega
  · -- no other transfer of the drain runs, and none has failed since
    simp only [failures, hd, ↓reduceIte] at hover
    by_cases hnm : n = m
    · subst hnm
      cases hover ⟨_, by rw [deeds_self rfl]; exact List.mem_cons_self⟩
    · rw [over_of_ne hnm] at hover
      rw [drainOf_of_ne hnm] at hd'
      exact absurd (h.2.2.exclusive ho hm hd hd' hno fun hover' => by cases hover hover') hnm

/-- A transfer that fails leaves the bytes after the cursor to the next one. -/
theorem retained_of_failed {cause : Halt}
    (h : Lawful (.ring ring) (⟨n, .ended (.error cause), drains, source⟩ :: past)) (hd : drainOf n past = some d)
    (ho : opened? d past = some drain) (hm : drain.mode ≠ .concurrent) (hg : drain.geometry = ring.geometry)
    (hr : Retained drain d past) : Retained drain d (⟨n, .ended (.error cause), drains, source⟩ :: past) := by
  have hno : ¬ Over n past := h.not_over rfl hd
  refine ⟨hr.settled, hr.le, hr.lt, fun m hd' hover => ?_⟩
  by_cases hnm : n = m
  · subst hnm
    exact h.held_of_failed hd ho hg hr
  · have hover' : Over m past := by
      by_contra hmo
      exact hnm (h.2.2.exclusive ho hm hd (drainOf_of_ne (e := ⟨n, _, _, _⟩) hnm ▸ hd') hno hmo)
    have hfailed : m ∈ failures d past := by
      have hmem := hover hover'.cons
      simp only [failures, hd, ↓reduceIte, List.mem_cons] at hmem
      exact hmem.resolve_left (Ne.symm hnm)
    have hheld := hr.held m (drainOf_of_failure hfailed h.2.2) fun _ => hfailed
    intro plan hplan
    rw [deeds_of_ne hnm] at hplan
    have hsize := ((h.2.2.course (drainOf_of_failure hfailed h.2.2)).tally hplan).size_le
    refine ⟨(hheld plan hplan).1.frame rfl rfl (List.append_nil _).symm hsize (by rw [deeds_of_ne hnm]), fun _ => ?_,
      fun hno' => absurd hover'.cons hno'⟩
    rw [deeds_of_ne hnm]
    exact (hheld plan hplan).2.1 hover'

/-- A writer that keeps less than a turn ahead of the cursor keeps the bytes after it. -/
theorem retained (h : Lawful (.ring ring) past) (ho : opened? d past = some drain) (hm : drain.mode ≠ .concurrent)
    (hg : drain.geometry = ring.geometry) (ha : Abreast d past)
    (hk : KeptUp drain.geometry d (settledLen d) past) : Retained drain d past := by
  induction past with
  | nil => cases ho
  | cons e past ih =>
    have ha' := ha.tail
    obtain ⟨n, event, drains, source⟩ := e
    cases event with
    | opened d' cursor =>
      by_cases hdd : d' = d
      · have hlt := h.cursor_lt ho
        subst hdd
        obtain ⟨-, hnone, drain', hd', rfl, -⟩ := h.1
        obtain rfl : drain' = drain := by simpa [opened?, hd'] using ho
        have hlen : settledLen d' past = 0 := (h.2.2.unsettled_of_unopened hnone).1
        refine ⟨?_, ?_, ?_, fun m hd _ => ?_⟩
        · simp only [settledTo, settledLen, hlen, ↓reduceIte, Nat.add_zero]
          exact (Nat.mod_eq_of_lt hlt).symm
        · simp only [settledLen, hlen, Nat.zero_le]
        · simp only [settledLen, hlen, stream, ↓reduceIte, List.length_nil, Nat.zero_add]
          exact drain'.geometry.capacity_pos
        · rw [drainOf_of_drain? rfl] at hd
          obtain ⟨_, ho'⟩ := h.2.2.opened_of_drainOf hd
          rw [hnone] at ho'
          cases ho'
      · simp only [opened?, hdd, ↓reduceIte] at ho
        have hr := ih h.2.2 ho ha' hk.tail
        have hstream : stream d (⟨n, .opened d' cursor, drains, source⟩ :: past) = stream d past := by
          simp only [stream, hdd, ↓reduceIte]
        refine h.retained_cons hr ?_ rfl rfl (hstream.trans (List.append_nil _).symm) (hstream ▸ hr.lt)
          fun hmoves => by cases hmoves
        simp only [settledTo, hdd, ↓reduceIte]
    | wrote bytes =>
      have hroom := hk.head rfl (by rw [show opened? d past = some drain from ho]; rfl)
      rw [backlog_of_abreast h.2.2 ho ha', Nat.zero_add] at hroom
      exact h.retained_cons (ih h.2.2 ho ha' hk.tail) rfl rfl rfl rfl hroom fun hmoves => by cases hmoves
    | ended outcome =>
      have hr := ih h.2.2 ho ha' hk.tail
      by_cases hd : drainOf n past = some d
      · cases outcome with
        | ok report => exact h.retained_of_succeeded hd ho hm hr
        | error cause => exact h.retained_of_failed hd ho hm hg hr
      · obtain ⟨hset, hlen, hfail⟩ : settledTo d (⟨n, .ended outcome, drains, source⟩ :: past) = settledTo d past ∧
            settledLen d (⟨n, .ended outcome, drains, source⟩ :: past) = settledLen d past ∧
            failures d (⟨n, .ended outcome, drains, source⟩ :: past) = failures d past := by
          cases outcome <;> simp only [settledTo, settledLen, failures, hd, ↓reduceIte, and_self]
        refine h.retained_cons hr hset hlen hfail (List.append_nil _).symm (hlen ▸ hr.lt) fun _ hd' => ?_
        rw [drainOf_of_drain? rfl] at hd'
        exact absurd hd' hd
    | planned plan =>
      have hr := ih h.2.2 ho ha' hk.tail
      refine h.retained_cons hr rfl rfl rfl (List.append_nil _).symm hr.lt fun _ hd => ?_
      rw [drainOf_of_drain? rfl] at hd
      exact h.held_of_planned hd ho hm hg ha' hr
    | offered span bytes =>
      have hr := ih h.2.2 ho ha' hk.tail
      refine h.retained_cons hr rfl rfl rfl (List.append_nil _).symm hr.lt fun _ hd => ?_
      rw [drainOf_of_drain? rfl] at hd
      exact h.held_of_offered hd ho hg ha' hr
    | began d' k =>
      have hr := ih h.2.2 ho ha' hk.tail
      refine h.retained_cons hr rfl rfl rfl (List.append_nil _).symm hr.lt fun _ _ plan hplan => ?_
      rw [deeds_self rfl, show deeds n past = [] from h.1.1] at hplan
      cases hplan
    | _ =>
      have hr := ih h.2.2 ho ha' hk.tail
      exact h.retained_cons hr rfl rfl rfl (List.append_nil _).symm hr.lt fun hmoves => by cases hmoves

end Lawful

end Session

end PagedRing
