import PagedRing.Proofs.Recording
import PagedRing.Proofs.Stream

/-!
# Exactly once

A shared drain that was opened at the write position hands out the stream piece by piece: each claim stands for the
slice after that of the claim before it, and its transfer hands the sink that slice. So no byte is handed out twice,
and none is left out but what a failed transfer left of its slice. For this the writer has to spare what is still
needed: the bytes that nobody has claimed, and those of running claims that were not handed out yet.

* `Spared`: what the writer has to spare.
* `Lawful.intact`: what was handed out of a claim is the beginning of its slice.
* `Lawful.outcome_of_share`: how the transfer of a claim may end, and what its sink has accepted then.
* `handed_out_exactly_once`: all of this for every moment of every session.
-/

namespace PagedRing.Session

/-- The bytes of the stream that a claim stands for. -/
def slice (g : Geometry) (d : Nat) (past : List Entry) (c : Share) : Bytes :=
  ((stream d past).drop c.first).take (c.len g)

/-- The number of bytes of a claim that its sink was handed. -/
def handed (past : List Entry) (c : Share) : Nat := size (chunksOffered (deeds c.step past))

/-- Whether each write spares what is still needed: the bytes that nobody has claimed, and those that the sink of a
running claim is still to be handed. -/
def Spared (g : Geometry) (d : Nat) : List Entry → Prop :=
  Throughout fun e past => e.event.writes → (opened? d past).isSome →
    (stream d (e :: past)).length < claimedLen g d past + g.capacity ∧
    ∀ c ∈ shares g d past, ¬ Over c.step past → handed past c < c.len g →
      (stream d (e :: past)).length < c.first + handed past c + g.capacity

/-- What holds of a claim at every moment after it was won. -/
structure Intact (g : Geometry) (d : Nat) (past : List Entry) (c : Share) : Prop where
  first_add_len_le : c.first + c.len g ≤ (stream d past).length
  handed_le : handed past c ≤ c.len g
  bytes : content (chunksOffered (deeds c.step past)) = ((stream d past).drop c.first).take (handed past c)
  spared : ¬ Over c.step past → handed past c < c.len g →
    (stream d past).length < c.first + handed past c + g.capacity

variable {g : Geometry} {n d : Nat} {past before : List Entry} {drain : Drain} {ring : Ring} {c : Share} {e : Entry}

/-- A writer that spares what is still needed keeps less than a turn ahead of the cursor. -/
theorem Lawful.keptUp_of_spared {origin : Source} (h : Lawful origin past)
    (hg : ∀ first, opened? d past = some first → first.geometry = g) (ha : Abreast d past) (hs : Spared g d past) :
    KeptUp g d (claimedLen g d) past := by
  induction past with
  | nil => exact .nil
  | cons e past ih =>
    have ha' := ha.tail
    refine .cons (ih h.2.2 (fun first ho => hg first (opened?_cons h ho)) ha' hs.tail) ?_
    intro hwrites hsome
    obtain ⟨first, ho⟩ := Option.isSome_iff_exists.mp hsome
    have hzero := backlog_of_abreast h.2.2 ho ha'
    rw [hg first (opened?_cons h ho)] at hzero
    rw [hzero, Nat.zero_add]
    exact (hs.head hwrites hsome).1

/-! ## What was handed out -/

theorem Intact.frame (h : Intact g d past c) (hstream : stream d (e :: past) = stream d past)
    (hchunks : chunksOffered (deeds c.step (e :: past)) = chunksOffered (deeds c.step past)) :
    Intact g d (e :: past) c := by
  have hhanded : handed (e :: past) c = handed past c := congrArg size hchunks
  refine ⟨?_, ?_, ?_, fun ho hlt => ?_⟩
  · rw [hstream]; exact h.first_add_len_le
  · rw [hhanded]; exact h.handed_le
  · rw [hstream, hchunks, hhanded]; exact h.bytes
  · rw [hstream, hhanded] at *
    exact h.spared (fun hover => ho hover.cons) hlt

/-- Bytes that are written leave alone what was handed out. -/
theorem Intact.wrote (h : Intact g d past c) {m : Nat} {bytes : Bytes} {drains : Array (Option Drain)} {source : Source}
    (hs : ¬ Over c.step past → handed past c < c.len g →
      (stream d past ++ bytes).length < c.first + handed past c + g.capacity) :
    Intact g d (⟨m, .wrote bytes, drains, source⟩ :: past) c := by
  have hchunks : chunksOffered (deeds c.step (⟨m, .wrote bytes, drains, source⟩ :: past)) =
      chunksOffered (deeds c.step past) := chunksOffered_cons rfl
  have hhanded : handed (⟨m, .wrote bytes, drains, source⟩ :: past) c = handed past c := congrArg size hchunks
  have hle := h.first_add_len_le
  have hhle := h.handed_le
  refine ⟨?_, ?_, ?_, fun ho hlt => ?_⟩
  · rw [stream, List.length_append]; omega
  · rw [hhanded]; exact hhle
  · rw [hchunks, hhanded, h.bytes, stream, List.drop_append_of_le_length (by omega),
      List.take_append_of_le_length (by rw [List.length_drop]; omega)]
  · rw [hhanded] at hlt ⊢
    exact hs (fun hover => ho hover.cons) hlt

/-- The numbers of a claim in the stream, from its position. -/
theorem Lawful.start_of_share {origin : Source} (h : Lawful origin past) (ho : opened? d past = some drain)
    (hc : c ∈ shares drain.geometry d past) :
    c.start = (drain.cursor + c.first) % drain.geometry.capacity ∧ c.start < drain.geometry.capacity := by
  obtain ⟨before, hwon⟩ := mem_shares_iff.mp hc
  obtain ⟨ho', hstart, -⟩ := h.of_won ho hwon
  obtain ⟨retries, drains, source, hs, -, hfirst⟩ := hwon
  have hlaw := h.suffix ((List.suffix_cons _ _).trans hs)
  rw [hstart, hfirst]
  exact ⟨hlaw.claimedTo_eq ho', hlaw.claimedTo_lt ho'⟩

/-- A chunk that is offered goes on in the slice where the chunks before it ended. -/
theorem Intact.chunk_eq (h : Intact drain.geometry d past c) {span : Span} {bytes : Bytes}
    {drains : Array (Option Drain)} {source : Source}
    (hlaw : Lawful (.ring ring) (⟨c.step, .offered span bytes, drains, source⟩ :: past))
    (hc : c ∈ shares drain.geometry d past) (ho : opened? d past = some drain) (hm : drain.mode = .concurrent)
    (hg : drain.geometry = ring.geometry) (hzero : backlog drain.geometry d past = 0) :
    handed past c + span.len ≤ c.len drain.geometry ∧
      bytes = ((stream d past).drop (c.first + handed past c)).take span.len := by
  have hd := hlaw.2.2.drainOf_share hc
  have hcourse := (hlaw.allowed hd ho rfl).1
  have hlast : ¬ Over c.step past := fun ⟨outcome, hmem⟩ => hcourse.unended hmem
  obtain ⟨plan, hplan⟩ := hcourse.planned_of_offered (by simp [chunksOffered])
  obtain ⟨c', hc', hstep, hstart, -, hlen⟩ := hlaw.2.2.share_of_planned (g := drain.geometry) hd ho hm hplan
  obtain rfl := hlaw.2.2.share_unique hc' hc hstep
  obtain ⟨hcstart, hclt⟩ := hlaw.2.2.start_of_share ho hc
  rw [Share.len_of_unreadLen hclt hlen]
  refine hlaw.offered_eq hd ho hg hzero hplan (hstart.symm.trans hcstart) ?_ fun hlt => ?_
  · rw [← Share.len_of_unreadLen hclt hlen]
    exact h.first_add_len_le
  · exact h.spared hlast (by rw [Share.len_of_unreadLen hclt hlen]; exact hlt)

/-- A chunk that is offered keeps what was handed out the beginning of the slice. -/
theorem Intact.offered (h : Intact drain.geometry d past c) {span : Span} {bytes : Bytes}
    {drains : Array (Option Drain)} {source : Source}
    (hlaw : Lawful (.ring ring) (⟨c.step, .offered span bytes, drains, source⟩ :: past))
    (hc : c ∈ shares drain.geometry d past) (ho : opened? d past = some drain) (hm : drain.mode = .concurrent)
    (hg : drain.geometry = ring.geometry) (hzero : backlog drain.geometry d past = 0) :
    Intact drain.geometry d (⟨c.step, .offered span bytes, drains, source⟩ :: past) c := by
  obtain ⟨hle, hbytes⟩ := h.chunk_eq hlaw hc ho hm hg hzero
  have hmore : handed (⟨c.step, .offered span bytes, drains, source⟩ :: past) c = handed past c + span.len := by
    rw [handed, deeds_self rfl, chunksOffered, size_append, handed]
    rfl
  refine ⟨h.first_add_len_le, by rw [hmore]; exact hle, ?_, fun hover hlt => ?_⟩
  · rw [deeds_self rfl, chunksOffered, content_append, hmore, h.bytes, List.take_add, List.drop_drop,
      content_singleton, stream, hbytes]
  · rw [hmore] at hlt ⊢
    have := h.spared (fun hover' => hover hover'.cons) (by omega)
    show (stream d past).length < _
    omega

/-- A claim that was just won covers what is unread, and its sink was handed nothing yet. -/
theorem Intact.claimed {drains : Array (Option Drain)} {source : Source} {m start stop retries : Nat}
    (hlaw : Lawful (.ring ring) (⟨m, .claimed start stop retries, drains, source⟩ :: past))
    (hd : drainOf m past = some d) (ho : opened? d past = some drain) (hg : drain.geometry = ring.geometry)
    (hzero : backlog drain.geometry d past = 0) (hk : KeptUp drain.geometry d (claimedLen drain.geometry d) past) :
    Intact drain.geometry d (⟨m, .claimed start stop retries, drains, source⟩ :: past)
      ⟨m, start, stop, claimedLen drain.geometry d past⟩ := by
  have hbefore := hlaw.2.2.claimedLen_le ho hg hk
  have ho' : opened? d (⟨m, .claimed start stop retries, drains, source⟩ :: past) = some drain := ho
  have hafter := hlaw.claimedLen_le ho' hg (.cons hk fun hwrites => by cases hwrites)
  rw [claimedLen_claimed hd] at hafter
  have hnone : chunksOffered (deeds m (⟨m, .claimed start stop retries, drains, source⟩ :: past)) = [] := by
    rw [deeds_self rfl]
    exact (Course.of_trying (hlaw.claims_first hd rfl)).2.2.1
  have hhanded : handed (⟨m, .claimed start stop retries, drains, source⟩ :: past)
      ⟨m, start, stop, claimedLen drain.geometry d past⟩ = 0 := by rw [handed, hnone]; rfl
  simp only [backlog, stream] at hafter
  rw [hzero] at hbefore hafter
  refine ⟨?_, ?_, ?_, fun _ _ => ?_⟩
  · show claimedLen drain.geometry d past + _ ≤ (stream d past).length
    omega
  · rw [hhanded]; exact Nat.zero_le _
  · rw [hhanded, hnone, List.take_zero]; rfl
  · rw [hhanded]
    show (stream d past).length < claimedLen drain.geometry d past + 0 + _
    omega

/-- At every moment, what was handed out of a claim is the beginning of its slice. -/
theorem Lawful.intact (h : Lawful (.ring ring) past) (ho : opened? d past = some drain) (hm : drain.mode = .concurrent)
    (hg : drain.geometry = ring.geometry) (ha : Abreast d past) (hs : Spared drain.geometry d past) :
    ∀ c ∈ shares drain.geometry d past, Intact drain.geometry d past c := by
  induction past with
  | nil => intro c hc; cases hc
  | cons e past ih =>
    intro c hc
    have ha' := ha.tail
    obtain ⟨first, hopen⟩ := h.opened_of_share hc
    obtain rfl : first = drain := Option.some.inj ((opened?_cons h hopen).symm.trans ho)
    have ih := ih h.2.2 hopen ha' hs.tail
    have hzero := backlog_of_abreast h.2.2 hopen ha'
    have hkept := keptUp_of_spared h.2.2 (fun f hf => by rw [Option.some.inj (hf.symm.trans hopen)]) ha' hs.tail
    obtain ⟨m, event, drains, source⟩ := e
    cases event with
    | wrote bytes => exact (ih c hc).wrote ((hs.head rfl (by rw [hopen]; rfl)).2 c hc)
    | claimed start stop retries =>
      by_cases hd : drainOf m past = some d
      · simp only [shares, hd, ↓reduceIte, List.mem_append, List.mem_singleton] at hc
        rcases hc with hc | rfl
        · exact (ih c hc).frame rfl (chunksOffered_cons rfl)
        · exact Intact.claimed h hd hopen hg hzero hkept
      · simp only [shares, hd, ↓reduceIte] at hc
        exact (ih c hc).frame rfl (chunksOffered_cons rfl)
    | offered span bytes =>
      by_cases hstep : m = c.step
      · subst hstep
        exact (ih c hc).offered h hc hopen hm hg hzero
      · exact (ih c hc).frame rfl (by rw [deeds_of_ne hstep])
    | opened d' cursor =>
      have hdd : d' ≠ d := by
        rintro rfl
        have := h.1.2.1
        rw [hopen] at this
        cases this
      refine (ih c hc).frame ?_ (chunksOffered_cons rfl)
      simp only [stream, hdd, ↓reduceIte]
    | _ => exact (ih c hc).frame rfl (chunksOffered_cons rfl)

/-! ## How transfers end -/

/-- How the transfer of a claim may end on a ring, and what its sink has accepted then. -/
theorem Lawful.outcome_of_share (h : Lawful (.ring ring) past) (ho : opened? d past = some drain)
    (hm : drain.mode = .concurrent) (hg : drain.geometry = ring.geometry) (hc : c ∈ shares drain.geometry d past)
    {outcome : Except Halt Transfer} (hend : Event.ended outcome ∈ deeds c.step past) :
    (∃ report, outcome = .ok report ∧ size (chunksAccepted (deeds c.step past)) = c.len drain.geometry) ∨
    ∃ start stop cause, outcome =
        .error (.error (.sink start stop (size (chunksAccepted (deeds c.step past))) cause)) ∧
      size (chunksAccepted (deeds c.step past)) < c.len drain.geometry := by
  have hd := h.drainOf_share hc
  obtain ⟨drains, source, before, hs, hds, hd', ho', hout⟩ := h.end_of_over hd ho hend
  have hlaw := h.suffix hs
  -- a transfer that has won a claim is not trying any more
  obtain ⟨retries, hclaimed⟩ := claimed_mem_deeds hc
  rw [hds] at hclaimed
  replace hclaimed := (List.mem_cons.mp hclaimed).resolve_left Event.noConfusion
  have hfound : ¬ ∀ x ∈ deeds c.step before, x.attempt = true := fun hall => by cases hall _ hclaimed
  -- whatever range it delivers is the range of the claim
  have hrange : ∀ {plan}, planned? (deeds c.step before) = some plan → plan.len = c.len drain.geometry := by
    intro plan hplan
    have hplan' : planned? (deeds c.step past) = some plan := by rw [hds]; exact hplan
    obtain ⟨c', hc', hstep, -, -, hlen⟩ := h.share_of_planned (g := drain.geometry) hd ho hm hplan'
    obtain rfl := h.share_unique hc' hc hstep
    exact (Share.len_of_unreadLen (h.start_of_share ho hc).2 hlen).symm
  have haccepted : chunksAccepted (deeds c.step past) = chunksAccepted (deeds c.step before) := by rw [hds]; rfl
  rw [haccepted]
  cases outcome with
  | ok report =>
    rcases hout with ⟨position, -, ⟨drains', source', before', rfl⟩, -⟩ | hlatest
    · have hcourse := hlaw.2.2.course hd'
      rw [deeds_self rfl] at hcourse hfound
      exact absurd (hcourse.trying rfl rfl) hfound
    · obtain ⟨plan, hplan, -, -, hwhole, heq⟩ := hlaw.2.2.whole_of_delivered hd' hlatest
      exact Or.inl ⟨report, rfl, by rw [heq, hwhole, hrange hplan]⟩
  | error cause =>
    obtain ⟨plan, start, stop, reason, -, -, hplan, rfl, hlt, -⟩ := hlaw.sink_of_failed hd' ho' hg hfound
    exact Or.inr ⟨start, stop, reason, rfl, hrange hplan ▸ hlt⟩

/-! ## The whole stream -/

/-- Whether the slices of claims follow one another in the stream, from a number on. -/
def Adjacent (g : Geometry) : Nat → List Share → Prop
  | _, [] => True
  | first, c :: rest => c.first = first ∧ Adjacent g (first + c.len g) rest

theorem Adjacent.snoc {first : Nat} {cs : List Share} (h : Adjacent g first cs)
    (hc : c.first = first + (cs.map (Share.len g)).sum) : Adjacent g first (cs ++ [c]) := by
  induction cs generalizing first with
  | nil => exact ⟨hc, trivial⟩
  | cons b cs ih =>
    refine ⟨h.1, ih h.2 ?_⟩
    rw [hc, List.map_cons, List.sum_cons, Nat.add_assoc]

/-- The slices of successive claims are adjacent. -/
theorem adjacent_shares (g : Geometry) (d : Nat) (past : List Entry) : Adjacent g 0 (shares g d past) := by
  induction past with
  | nil => trivial
  | cons e past ih =>
    unfold shares
    split
    · split
      · exact ih.snoc (Nat.zero_add _).symm
      · exact ih
    · exact ih

/-- Adjacent slices make up a piece of the stream. -/
theorem Adjacent.flatten_slices {first : Nat} {cs : List Share} (h : Adjacent g first cs) :
    (cs.map (slice g d past)).flatten = ((stream d past).drop first).take (cs.map (Share.len g)).sum := by
  induction cs generalizing first with
  | nil => rfl
  | cons c cs ih =>
    rw [List.map_cons, List.flatten_cons, ih h.2, slice, h.1, List.map_cons, List.sum_cons, List.take_add,
      List.drop_drop]

/-- What the transfer of a claim left out, or has not handed out yet. -/
def remainder (g : Geometry) (d : Nat) (past : List Entry) (c : Share) : Bytes :=
  (slice g d past c).drop (size (chunksAccepted (deeds c.step past)))

/-- What a history tells of the stream of a shared drain. -/
structure ExactlyOnce (g : Geometry) (d : Nat) (past : List Entry) : Prop where
  /-- Claims stand for slices of the stream, one after the other, and each of them is there. -/
  adjacent : Adjacent g 0 (shares g d past)
  whole : ∀ c ∈ shares g d past, (slice g d past c).length = c.len g
  /-- The sink of a claim is handed its slice, in order, chunk by chunk. -/
  handed : ∀ c ∈ shares g d past, content (chunksOffered (deeds c.step past)) <+: slice g d past c
  spans : ∀ c ∈ shares g d past, ∃ plan rest, Plan.ofPositions g c.start c.stop = .ok plan ∧
    plan.spans = .ok ((chunksAccepted (deeds c.step past)).map Prod.fst ++ rest)
  /-- A transfer that succeeds has handed out all of its slice. One that fails does so because of its sink, and says
  how much the sink has accepted. -/
  ended : ∀ c ∈ shares g d past, ∀ outcome, Event.ended outcome ∈ deeds c.step past →
    (∃ report, outcome = .ok report ∧ content (chunksAccepted (deeds c.step past)) = slice g d past c) ∨
    ∃ start stop taken cause, outcome = .error (.error (.sink start stop taken cause)) ∧ taken < c.len g ∧
      content (chunksAccepted (deeds c.step past)) = (slice g d past c).take taken
  /-- All that was claimed was accepted, but for the remainders of claims whose transfers did not succeed. -/
  tiled : (stream d past).take (claimedLen g d past) =
    ((shares g d past).map fun c => content (chunksAccepted (deeds c.step past)) ++ remainder g d past c).flatten
  remainder : ∀ c ∈ shares g d past, ∀ report, Event.ended (.ok report) ∈ deeds c.step past → remainder g d past c = []

/-- What the sink of a claim has accepted is the beginning of its slice. -/
theorem Intact.accepted {origin : Source} (h : Intact g d past c) (hlaw : Lawful origin past)
    (hd : drainOf c.step past = some d) :
    content (chunksAccepted (deeds c.step past)) =
      (slice g d past c).take (size (chunksAccepted (deeds c.step past))) := by
  obtain ⟨drain, ho⟩ := hlaw.opened_of_drainOf hd
  obtain ⟨more, hmore⟩ := (hlaw.course hd).accepted_isPrefix
  have hlen : (content (chunksAccepted (deeds c.step past))).length = size (chunksAccepted (deeds c.step past)) :=
    length_content fun chunk hchunk =>
      hlaw.length_of_offered hd ho chunk (by rw [← hmore]; exact List.mem_append_left more hchunk)
  have hsize : handed past c = size (chunksAccepted (deeds c.step past)) + size more := by
    rw [handed, ← hmore, size_append]
  have hbytes := h.bytes
  rw [hsize, ← hmore, content_append] at hbytes
  have hle := h.handed_le
  calc content (chunksAccepted (deeds c.step past))
      = (content (chunksAccepted (deeds c.step past)) ++ content more).take
          (size (chunksAccepted (deeds c.step past))) := by rw [← hlen, List.take_left]
    _ = (slice g d past c).take (size (chunksAccepted (deeds c.step past))) := by
        rw [hbytes, slice, List.take_take, List.take_take]
        congr 1
        omega

/-- A shared drain hands out its stream exactly once, in every history that spares what is still needed. -/
theorem Lawful.exactlyOnce (h : Lawful (.ring ring) past) (ho : opened? d past = some drain)
    (hm : drain.mode = .concurrent) (hg : drain.geometry = ring.geometry) (ha : Abreast d past)
    (hs : Spared drain.geometry d past) : ExactlyOnce drain.geometry d past := by
  have hintact := h.intact ho hm hg ha hs
  have hwhole : ∀ c ∈ shares drain.geometry d past, (slice drain.geometry d past c).length = c.len drain.geometry := by
    intro c hc
    have := (hintact c hc).first_add_len_le
    rw [slice, List.length_take, List.length_drop]
    omega
  have haccepted := fun c hc => (hintact c hc).accepted h (h.drainOf_share hc)
  have hended : ∀ c ∈ shares drain.geometry d past, ∀ outcome, Event.ended outcome ∈ deeds c.step past → _ :=
    fun c hc outcome hend => h.outcome_of_share ho hm hg hc hend
  refine ⟨adjacent_shares _ _ _, hwhole, fun c hc => ?_, fun c hc => ?_, fun c hc outcome hend => ?_, ?_, ?_⟩
  · rw [(hintact c hc).bytes, slice, ← Nat.min_eq_left (hintact c hc).handed_le, ← List.take_take]
    exact List.take_prefix _ _
  · obtain ⟨plan, rest, hplan, hspans⟩ := h.spans_of_share ho hm hc
    obtain ⟨more, hmore⟩ := (h.course (h.drainOf_share hc)).accepted_isPrefix
    refine ⟨plan, more.map Prod.fst ++ rest, hplan, ?_⟩
    rw [hspans, ← hmore, List.map_append, List.append_assoc]
  · rcases hended c hc outcome hend with ⟨report, rfl, hsize⟩ | ⟨start, stop, cause, rfl, hlt⟩
    · refine Or.inl ⟨report, rfl, ?_⟩
      rw [haccepted c hc, hsize, ← hwhole c hc, List.take_length]
    · exact Or.inr ⟨start, stop, _, cause, rfl, hlt, haccepted c hc⟩
  · rw [claimedLen, ← (stream d past).drop_zero, ← (adjacent_shares drain.geometry d past).flatten_slices]
    refine congrArg List.flatten (List.map_congr_left fun c hc => ?_)
    rw [haccepted c hc, remainder, List.take_append_drop]
  · intro c hc report hend
    rcases hended c hc _ hend with ⟨_, -, hsize⟩ | ⟨_, _, _, heq, -⟩
    · rw [remainder, hsize, ← hwhole c hc, List.drop_length]
    · cases heq

/-- In every session on a ring whose writer spares what is still needed, a shared drain that was opened at the write
position hands out its stream exactly once. The chunks are those that the sink of a claim is called with, and those that
it accepts. -/
theorem handed_out_exactly_once (session : Session) (d : Nat) (drain : Drain) (hsource : session.source = .ring ring)
    (hm : drain.mode = .concurrent) (hg : drain.geometry = ring.geometry) (ha : Abreast d session.past)
    (hs : Spared drain.geometry d session.past) :
    (∀ e before, e :: before <:+ session.past → opened? d (e :: before) = some drain →
      e.drains[d]? = some (some ⟨drain.geometry,
        (drain.cursor + claimedLen drain.geometry d (e :: before)) % drain.geometry.capacity, .concurrent⟩) ∧
      ExactlyOnce drain.geometry d (e :: before)) ∧
    ∀ c ∈ shares drain.geometry d session.past, Over c.step session.past ∧
      ∀ player, (host player c.step).HandsAsNoted := by
  have hlaw := session.lawful
  rw [hsource] at hlaw
  refine ⟨fun e before hsuffix ho' => ?_, fun c hc => ⟨session.finished (hlaw.drainOf_share hc), fun player => ?_⟩⟩
  · have hlaw' := hlaw.suffix hsuffix
    refine ⟨?_, hlaw'.exactlyOnce ho' hm hg (ha.suffix hsuffix) (hs.suffix hsuffix)⟩
    rw [← hlaw'.claimedTo_eq ho']
    exact (place_concurrent_iff ho' hm).mp (hlaw'.2.1.place d)
  · exact (host player c.step).hands_as_noted

theorem contended_abreast : Abreast 0 contended.past := by
  refine Throughout.of_check ?_
  cbv

theorem contended_spared : Spared contended.geometry 0 contended.past := by
  refine Throughout.of_check ?_
  cbv

theorem handed_out_contended : (∀ e before, e :: before <:+ contended.past →
    opened? 0 (e :: before) = some ⟨contended.geometry, 0, .concurrent⟩ →
      e.drains[0]? = some (some ⟨contended.geometry,
        (0 + claimedLen contended.geometry 0 (e :: before)) % contended.geometry.capacity, .concurrent⟩) ∧
      ExactlyOnce contended.geometry 0 (e :: before)) ∧
    ∀ c ∈ shares contended.geometry 0 contended.past, Over c.step contended.past ∧
      ∀ player, (host player c.step).HandsAsNoted := by
  exact handed_out_exactly_once contended 0 ⟨contended.geometry, 0, .concurrent⟩ rfl rfl rfl contended_abreast
    contended_spared

end PagedRing.Session
