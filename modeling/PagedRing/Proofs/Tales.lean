import PagedRing.Proofs.Contention

/-!
# Tales of transfers

The log reports the attempts that a transfer loses, its claim, each chunk that it offers and how the delivery of its range
was concluded. These events are its tale, whatever the steps that its callbacks play report in between.

* `told`: the events of a step that the log reports, and `log_eq`: they are what the log of a session is made of.
* `Tale`, `tale`: losses, claim, chunks and conclusion, read off the deeds of a step.
* `Course.told_eq`: whatever course a transfer takes, its events are those of its tale.
* `Course.attempts_eq`: all its attempts but the last one were lost.
* `Course.of_delivered`, `Course.of_refused`, `Course.of_handing`: which spans of its range it has offered.
-/

namespace PagedRing

/-- Whether the log reports an event. -/
def Event.logged (event : Event) : Bool := event.logLine?.isSome

namespace Session

/-! ## The log -/

/-- The events of a step that the log reports, in order; what the steps of its callbacks report is not among them. -/
def told (n : Nat) (past : List Entry) : List Event :=
  ((past.reverse.filter fun e => e.step == n).map Entry.event).filter Event.logged

theorem told_eq_deeds (n : Nat) (past : List Entry) : told n past = (deeds n past).reverse.filter Event.logged := by
  unfold told
  induction past with
  | nil => rfl
  | cons e past ih =>
    obtain ⟨m, event, drains, source⟩ := e
    rw [List.reverse_cons, List.filter_append, List.map_append, List.filter_append, ih]
    by_cases hm : m = n
    · subst hm
      cases event <;> simp [deeds, Event.isLine, Event.logged, Event.logLine?]
    · simp [deeds, hm]

/-- The lines of the log for some entries. -/
def linesOf (entries : List Entry) : List LogLine := entries.filterMap fun e => e.event.logLine?

/-- What is added to a history, the journal has after what it had before. -/
theorem journal_of_suffix {s t : State} (h : s.past <:+ t.past) : t.journal.toList =
    s.journal.toList ++ (t.journal.extract s.journal.size t.journal.size).toList := by
  obtain ⟨new, hnew⟩ := List.reverse_suffix.mp h
  rw [Array.toList_extract, List.extract_eq_take_drop, List.take_of_length_le (by simp), ← hnew,
    List.drop_left' (by simp)]

theorem log_of_playAll {origin : Source} (budget : Nat) (steps : List Step) {s : State} (hs : Orderly origin s) :
    linesOf s.journal.toList ++ (playAll budget steps s).1.flatMap Played.log =
      linesOf (playAll budget steps s).2.journal.toList := by
  induction steps generalizing s with
  | nil => simp [playAll]
  | cons step rest ih =>
    obtain ⟨ht, hextends, -⟩ := play_sound budget step s hs
    rw [playAll, ← ih ht, journal_of_suffix hextends.suffix, linesOf, linesOf, List.filterMap_append,
      List.append_assoc]
    rfl

/-- The log of a session is what its steps report, in the order in which it happened. -/
theorem log_eq (session : Session) : session.answers.flatMap Played.log = linesOf session.past.reverse := by
  have hlog := log_of_playAll (session.cues + 1) session.steps
    (orderly_initial session.geometry session.source session.script)
  rw [past, State.past, List.reverse_reverse]
  exact hlog

/-- The lines of a step are those of its reported events. -/
theorem lines_eq_told (n : Nat) (past : List Entry) :
    linesOf (past.reverse.filter fun e => e.step == n) = (told n past).filterMap Event.logLine? := by
  rw [told, linesOf]
  generalize past.reverse.filter (fun e => e.step == n) = entries
  rw [List.filterMap_filter, List.filterMap_map]
  refine List.filterMap_congr fun e _ => ?_
  show e.event.logLine? = if e.event.logLine?.isSome then e.event.logLine? else none
  cases e.event.logLine? <;> rfl

/-! ## Tales -/

/-- An attempt of a shared drain to find unread bytes. -/
structure Attempt where
  /-- The cursor that it read. -/
  cursor : Nat
  /-- The write position that it read then. -/
  position : Nat

/-- An attempt that was lost. -/
structure Loss extends Attempt where
  /-- The cursor that it found in the end. -/
  seen : Nat

/-- What the log tells of a transfer. -/
structure Tale where
  /-- The attempts that were lost, in order. -/
  losses : List Loss
  /-- The range that was claimed. -/
  claim : Option (Nat × Nat)
  /-- The chunks that were offered, in order. -/
  chunks : List (Span × Bytes)
  /-- How the delivery of the range was concluded. -/
  conclusion : Option Event

/-- The events that a tale is told with, in order; lost attempts are numbered from 1, and a claim counts them. -/
def Tale.events (t : Tale) : List Event :=
  (t.losses.mapIdx fun i loss => .lost loss.cursor loss.seen (i + 1)) ++
    (t.claim.map fun range => .claimed range.1 range.2 t.losses.length).toList ++
    (t.chunks.map fun chunk => .offered chunk.1 chunk.2) ++ t.conclusion.toList

section

variable (t : Tale)

/-- A loss is told after the others, as long as nothing else is. -/
theorem Tale.events_loss (loss : Loss) (hclaim : t.claim = none) (hchunks : t.chunks = [])
    (hconclusion : t.conclusion = none) : Tale.events { t with losses := t.losses ++ [loss] } =
      t.events ++ [.lost loss.cursor loss.seen (t.losses.length + 1)] := by
  simp [events, hclaim, hchunks, hconclusion, List.mapIdx_append]

/-- A claim is told after the losses. -/
theorem Tale.events_claim (start stop : Nat) (hclaim : t.claim = none) (hchunks : t.chunks = [])
    (hconclusion : t.conclusion = none) : Tale.events { t with claim := some (start, stop) } =
      t.events ++ [.claimed start stop t.losses.length] := by
  simp [events, hclaim, hchunks, hconclusion]

/-- A chunk is told after the others. -/
theorem Tale.events_chunk (span : Span) (bytes : Bytes) (hconclusion : t.conclusion = none) :
    Tale.events { t with chunks := t.chunks ++ [(span, bytes)] } = t.events ++ [.offered span bytes] := by
  simp [events, hconclusion]

/-- The conclusion is told last. -/
theorem Tale.events_conclusion (event : Event) (hconclusion : t.conclusion = none) :
    Tale.events { t with conclusion := some event } = t.events ++ [event] := by
  simp [events, hconclusion]

end

/-- The write position that was read last. -/
def sampled? : List Event → Option Nat
  | [] => none
  | .sampled position :: _ => some position
  | _ :: ds => sampled? ds

/-- The attempts that were lost, in order. -/
def lossesOf : List Event → List Loss
  | [] => []
  | .lost expected seen _ :: ds => lossesOf ds ++ [⟨⟨expected, (sampled? ds).getD 0⟩, seen⟩]
  | _ :: ds => lossesOf ds

/-- The range that was claimed. -/
def claim? : List Event → Option (Nat × Nat)
  | [] => none
  | .claimed start stop _ :: _ => some (start, stop)
  | _ :: ds => claim? ds

/-- How the delivery of a range was concluded: it was delivered in full, or a chunk was refused. -/
def conclusion? : List Event → Option Event
  | [] => none
  | .delivered report :: _ => some (.delivered report)
  | .refused start stop taken len cause :: _ => some (.refused start stop taken len cause)
  | _ :: ds => conclusion? ds

/-- The attempts to find unread bytes, in order. -/
def attempts : List Event → List Attempt
  | [] => []
  | .sampled position :: ds => attempts ds ++ [⟨(loaded? ds).getD 0, position⟩]
  | _ :: ds => attempts ds

/-- The last attempt, unless it was lost. -/
def attempt? : List Event → Option Attempt
  | [] => none
  | .sampled position :: ds => some ⟨(loaded? ds).getD 0, position⟩
  | .lost _ _ _ :: _ => none
  | _ :: ds => attempt? ds

/-- The tale of some deeds. -/
def tale (ds : List Event) : Tale := ⟨lossesOf ds, claim? ds, chunksOffered ds, conclusion? ds⟩

theorem length_lossesOf (ds : List Event) : (lossesOf ds).length = losses ds := by
  induction ds with
  | nil => rfl
  | cons ev ds ih => cases ev <;> simp [lossesOf, losses, ih]

/-- A claim that is told was won. -/
theorem mem_of_claim? {ds : List Event} {range : Nat × Nat} (h : claim? ds = some range) :
    ∃ retries, .claimed range.1 range.2 retries ∈ ds := by
  induction ds with
  | nil => cases h
  | cons ev ds ih =>
    cases ev with
    | claimed start stop retries =>
      cases h
      exact ⟨retries, List.mem_cons_self⟩
    | _ =>
      obtain ⟨retries, hmem⟩ := ih h
      exact ⟨retries, List.mem_cons_of_mem _ hmem⟩

theorem not_claimed_of_claim? {ds : List Event} (h : claim? ds = none) (start stop retries : Nat) :
    .claimed start stop retries ∉ ds := by
  induction ds with
  | nil => exact List.not_mem_nil
  | cons ev ds ih =>
    cases ev with
    | claimed => cases h
    | _ => exact List.not_mem_cons_of_ne_of_not_mem (by rintro ⟨⟩) (ih h)

/-- A loss that is told was made, just after its attempt. -/
theorem moment_of_loss {ds : List Event} {loss : Loss} (h : loss ∈ lossesOf ds) :
    ∃ retries es, .lost loss.cursor loss.seen retries :: es <:+ ds ∧ (sampled? es).getD 0 = loss.position := by
  induction ds with
  | nil => cases h
  | cons ev ds ih =>
    have hearlier : loss ∈ lossesOf ds → ∃ retries es, .lost loss.cursor loss.seen retries :: es <:+ ev :: ds ∧
        (sampled? es).getD 0 = loss.position := by
      intro hmem
      obtain ⟨retries, es, hs, hposition⟩ := ih hmem
      exact ⟨retries, es, hs.trans (List.suffix_cons ev ds), hposition⟩
    cases ev with
    | lost expected seen retries =>
      rcases List.mem_append.mp h with hmem | hmem
      · exact hearlier hmem
      · obtain rfl := List.mem_singleton.mp hmem
        exact ⟨retries, ds, List.suffix_refl _, rfl⟩
    | _ => exact hearlier h

namespace Course

variable {ds : List Event} {ev : Event}

/-- As long as a transfer looks for unread bytes, its tale has no more than losses. -/
theorem untold_of_trying (h : ∀ x ∈ ds, x.attempt = true) : claim? ds = none ∧ conclusion? ds = none := by
  induction ds with
  | nil => exact ⟨rfl, rfl⟩
  | cons ev ds ih =>
    obtain ⟨hev, hds⟩ := List.forall_mem_cons.mp h
    have := ih hds
    cases ev <;> first | exact this | cases hev

/-- A delivery that goes on is not concluded. -/
theorem unconcluded (h : Course ds) : (Handing ds → conclusion? ds = none) ∧
    ∀ span bytes es, ds = .offered span bytes :: es → conclusion? ds = none := by
  induction h with
  | @planned ev ds plan h hf _ _ _ =>
    refine ⟨fun _ => ?_, fun _ _ _ hds => by cases hds⟩
    show conclusion? (ev :: ds) = none
    cases h with
    | sampled position h hr => exact (untold_of_trying ((h.sampled position hr).trying rfl rfl)).2
    | claimed h hl => exact (untold_of_trying (h.trying rfl rfl)).2
    | began | loaded | prompted | lost | planned | offered | accepted | refused | delivered | ended => cases hf
  | offered bytes _ hh _ _ ih =>
    refine ⟨fun hh' => ?_, fun _ _ _ _ => ih.1 hh⟩
    rcases hh' with ⟨_, _, hh'⟩ | ⟨_, _, _, hh'⟩ <;> cases hh'
  | accepted _ ih =>
    exact ⟨fun _ => ih.2 _ _ _ rfl, fun _ _ _ hds => by cases hds⟩
  | began | loaded | prompted | sampled | lost | claimed | refused | delivered | ended =>
    refine ⟨fun hh => ?_, fun _ _ _ hds => by cases hds⟩
    rcases hh with ⟨_, _, hh⟩ | ⟨_, _, _, hh⟩ <;> cases hh

/-- Whatever course a transfer takes, the events that the log reports are those of its tale. -/
theorem told_eq (h : Course ds) : ds.reverse.filter Event.logged = (tale ds).events := by
  have hcons : ∀ (ev : Event) (ds : List Event),
      (ev :: ds).reverse.filter Event.logged = ds.reverse.filter Event.logged ++ [ev].filter Event.logged := by
    intro ev ds
    rw [List.reverse_cons, List.filter_append]
  induction h with
  | began d k => rfl
  | loaded _ _ _ ih | prompted _ _ _ ih | sampled _ _ _ ih | planned _ _ _ _ ih | accepted _ ih | ended _ _ _ ih =>
    rw [hcons, ih]
    exact List.append_nil _
  | @lost position expected ds seen h _ ih =>
    have hall := h.trying rfl rfl
    obtain ⟨hclaim, hconclusion⟩ := untold_of_trying hall
    rw [hcons, ih, ← length_lossesOf]
    exact (Tale.events_loss _ ⟨⟨expected, position⟩, seen⟩ hclaim (of_trying hall).2.2.1 hconclusion).symm
  | @claimed start stop ds h _ ih =>
    have hall := h.trying rfl rfl
    obtain ⟨hclaim, hconclusion⟩ := untold_of_trying hall
    rw [hcons, ih, ← length_lossesOf]
    exact (Tale.events_claim _ start stop hclaim (of_trying hall).2.2.1 hconclusion).symm
  | offered bytes h hh _ _ ih =>
    rw [hcons, ih]
    exact (Tale.events_chunk _ _ bytes (h.unconcluded.1 hh)).symm
  | refused cause h _ _ ih =>
    rw [hcons, ih]
    exact (Tale.events_conclusion _ _ (h.unconcluded.2 _ _ _ rfl)).symm
  | delivered h hh _ _ _ _ ih =>
    rw [hcons, ih]
    exact (Tale.events_conclusion _ _ (h.unconcluded.1 hh)).symm

/-! ### Attempts -/

/-- An attempt begins only when the one before it is lost. -/
theorem unattempted (h : Course ds) : ∀ {ev : Event} {es : List Event}, ds = ev :: es →
    (ev.rests = true ∨ ev.looks = true ∨ ∃ cues, ev = .prompted cues) → attempt? ds = none := by
  induction h with
  | began | lost => intros; rfl
  | loaded _ _ hr ih => intros; exact ih rfl (.inl hr)
  | prompted _ _ hl ih => intros; exact ih rfl (.inr (.inl hl))
  | sampled | claimed | planned | offered | accepted | refused | delivered | ended =>
    rintro ev es ⟨⟩ (hev | hev | ⟨cues, hev⟩) <;> cases hev

/-- All attempts but the last one were lost. -/
theorem attempts_eq (h : Course ds) :
    attempts ds = (lossesOf ds).map Loss.toAttempt ++ (attempt? ds).toList := by
  induction h with
  | began => rfl
  | @sampled ev ds position h hl ih =>
    have hnone : attempt? (ev :: ds) = none := h.unattempted rfl (.inr hl)
    rw [hnone, Option.toList_none, List.append_nil] at ih
    exact congrArg (· ++ [_]) ih
  | @lost position expected ds seen h hload ih =>
    have hattempt : attempt? (.sampled position :: ds) = some ⟨expected, position⟩ := by
      rw [attempt?, hload]
      rfl
    rw [hattempt] at ih
    show attempts (.sampled position :: ds) = (lossesOf (.sampled position :: ds) ++ [_]).map Loss.toAttempt ++ []
    rw [ih, List.map_append, List.append_nil]
    rfl
  | loaded _ _ _ ih | prompted _ _ _ ih | claimed _ _ ih | planned _ _ _ _ ih | offered _ _ _ _ _ ih | accepted _ ih
  | refused _ _ _ _ ih | delivered _ _ _ _ _ _ ih | ended _ _ _ ih => exact ih

/-- The attempt that was not lost won the claim. -/
theorem attempt_of_claim (h : Course ds) {start stop : Nat} (hclaim : claim? ds = some (start, stop)) :
    attempt? ds = some ⟨start, stop⟩ := by
  induction h with
  | began => cases hclaim
  | sampled position h hl =>
    rw [(untold_of_trying ((h.sampled position hl).trying rfl rfl)).1] at hclaim
    cases hclaim
  | lost seen h hload =>
    rw [(untold_of_trying ((h.lost seen hload).trying rfl rfl)).1] at hclaim
    cases hclaim
  | claimed h hload =>
    cases hclaim
    simp only [attempt?, hload, Option.getD_some]
  | loaded _ _ _ ih | prompted _ _ _ ih | planned _ _ _ _ ih | offered _ _ _ _ _ ih | accepted _ ih
  | refused _ _ _ _ ih | delivered _ _ _ _ _ _ ih | ended _ _ _ ih => exact ih hclaim

/-- A transfer tells its only claim. -/
theorem claim_of_mem (h : Course ds) {start stop retries : Nat} (hmem : .claimed start stop retries ∈ ds) :
    claim? ds = some (start, stop) := by
  cases hclaim : claim? ds with
  | none => exact absurd hmem (not_claimed_of_claim? hclaim start stop retries)
  | some range =>
    obtain ⟨retries', hmem'⟩ := mem_of_claim? hclaim
    obtain ⟨hstart, hstop⟩ := (h.of_claimed hmem).2 _ _ _ hmem'
    rw [← hstart, ← hstop]

/-! ### Ranges -/

/-- A range is delivered by the plan of its bytes. -/
theorem ofRange_of_planned {plan : Plan} (h : Course (.planned plan :: ds)) :
    Plan.ofRange plan.geometry plan.start plan.len = .ok plan := by
  cases h with
  | planned _ _ hfits hzero =>
    obtain ⟨g, start, len, planned⟩ := plan
    obtain rfl : planned = 0 := hzero
    exact (Plan.fits_of_range hfits.start_lt hfits.len_le).1

/-- A range that was delivered in full has no spans but those that were offered. -/
theorem of_delivered {report : Transfer} (h : Course (.delivered report :: ds)) : ∃ plan stop,
    planned? ds = some plan ∧ plan.geometry.advance plan.start plan.len = .ok stop ∧
      report = ⟨plan.start, stop, plan.len, (chunksOffered ds).length⟩ ∧ chunksAccepted ds = chunksOffered ds ∧
        plan.spans = .ok ((chunksOffered ds).map Prod.fst) := by
  cases h with
  | @delivered ds plan left stop h hh hplan hleft hend hstop =>
    have haccepted := h.accepted_of_handing hh
    refine ⟨plan, stop, hplan, hstop, by rw [haccepted], haccepted, ?_⟩
    have htally := h.tally hplan
    obtain rfl := Option.some.inj (hleft.symm.trans htally.left)
    rw [htally.spans [] (Plan.spans_of_end (h.fits_of_planned hplan) hend), List.append_nil]

/-- A chunk that is refused is the last one that was offered, and all others were accepted. -/
theorem of_refused {start stop taken len : Nat} {cause : SinkError}
    (h : Course (.refused start stop taken len cause :: ds)) : ∃ plan last rest, planned? ds = some plan ∧
      plan.geometry.advance plan.start plan.len = .ok stop ∧ start = plan.start ∧ len = plan.len ∧
        taken = size (chunksAccepted ds) ∧ chunksOffered ds = chunksAccepted ds ++ [last] ∧
          plan.spans = .ok ((chunksAccepted ds).map Prod.fst ++ last.1 :: rest) := by
  cases h with
  | @refused ds span bytes plan stop cause h hplan hstop =>
    have hoffered : chunksOffered (.offered span bytes :: ds) = chunksAccepted ds ++ [(span, bytes)] := by
      rw [h.accepted_of_offered]
      rfl
    obtain ⟨rest, hspans⟩ := h.spans_of_planned hplan
    rw [hoffered, List.map_append, List.append_assoc] at hspans
    exact ⟨plan, (span, bytes), rest, hplan, hstop, rfl, rfl, rfl, hoffered, hspans⟩

/-- Between two chunks, the next span of the range follows those that were offered. -/
theorem of_handing (h : Course ds) (hh : Handing ds) {left : Plan} (hleft : left? ds = some left)
    (hlt : left.planned < left.len) : ∃ plan rest, planned? ds = some plan ∧ chunksAccepted ds = chunksOffered ds ∧
      plan.spans = .ok ((chunksOffered ds).map Prod.fst ++ left.head :: rest) := by
  obtain ⟨plan, hplan⟩ := planned?_of_left? hleft
  have htally := h.tally hplan
  have hfits := h.fits_of_planned hplan
  obtain rfl := Option.some.inj (hleft.symm.trans htally.left)
  obtain ⟨rest, hrest⟩ := Plan.exists_spans hfits.skip
  refine ⟨plan, rest, hplan, h.accepted_of_handing hh, htally.spans _ ?_⟩
  rw [Plan.spans_of_lt hfits hlt, hrest]
  rfl

end Course

end Session

end PagedRing
