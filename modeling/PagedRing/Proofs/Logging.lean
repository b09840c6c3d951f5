import PagedRing.Proofs.Guards
import PagedRing.Proofs.Recording
import PagedRing.Proofs.Tales

/-!
# What the log tells of a transfer

The tale of a transfer is true and complete. Every loss was one, a claim is told if and only if one was won, the chunks are
the spans of the range up to where the delivery ended, and the conclusion is the one of its outcome.

* `Ending`: what belongs to each way in which a transfer may end.
* `Lawful.ending`: how a transfer ends, its deeds tell.
* `Lost`, `Lawful.lost_of_told`: what a loss is, and that those that are told are losses.
* `Gained`, `Lawful.gained_of_told`: the same of a claim.
* `transfers_told`: all of this for every transfer of every session.
-/

namespace PagedRing.Session

/-! ## Ends -/

/-- A range between two positions of a ring, and the plan of its bytes. -/
structure Ranged (g : Geometry) (start stop : Nat) (plan : Plan) : Prop where
  start_lt : start < g.capacity
  stop_lt : stop < g.capacity
  ne : start ≠ stop
  /-- The plan is that of the bytes from the one position to the other. -/
  len : g.unreadLen start stop = .ok plan.len
  plan : Plan.ofRange g start plan.len = .ok plan

/-- The plan ends where the range does. -/
theorem Ranged.advance {g : Geometry} {start stop : Nat} {plan : Plan} (h : Ranged g start stop plan) :
    plan.geometry.advance plan.start plan.len = .ok stop := by
  obtain ⟨hadvance, hlt⟩ := g.advance_unreadLen h.start_lt h.stop_lt h.len
  have hplan : plan = ⟨g, start, plan.len, 0⟩ :=
    Except.ok.inj (h.plan.symm.trans (Plan.fits_of_range h.start_lt (Nat.le_of_lt hlt)).1)
  have hgeometry : plan.geometry = g := congrArg Plan.geometry hplan
  have hstart : plan.start = start := congrArg Plan.start hplan
  rwa [hgeometry, hstart]

/-- How a transfer may end that found its cursor and the write position at these places: its outcome, the chunks that it
offered, those that the sink accepted, and the event that concluded its delivery. -/
inductive Ending (g : Geometry) (cursor position : Nat) :
    Except Halt Transfer → (offered accepted : List (Span × Bytes)) → Option Event → Prop
  /-- Nothing was unread. -/
  | idle (found : cursor = position) (inside : position < g.capacity) :
      Ending g cursor position (.ok (.emptyAt position)) [] [] none
  /-- The write position was not one of the ring. -/
  | outside (out : g.capacity ≤ position) :
      Ending g cursor position (.error (.error (.positionOutOfRange position g.capacity))) [] [] none
  /-- The sink accepted all spans of the range. -/
  | whole {plan : Plan} {chunks : List (Span × Bytes)} (range : Ranged g cursor position plan)
      (spans : plan.spans = .ok (chunks.map Prod.fst)) :
      Ending g cursor position (.ok ⟨cursor, position, plan.len, chunks.length⟩) chunks chunks
        (some (.delivered ⟨cursor, position, plan.len, chunks.length⟩))
  /-- The sink accepted the first spans of the range and refused the next one. -/
  | refused {plan : Plan} {accepted : List (Span × Bytes)} {last : Span × Bytes} {rest : List Span} (cause : SinkError)
      (range : Ranged g cursor position plan) (spans : plan.spans = .ok (accepted.map Prod.fst ++ last.1 :: rest)) :
      Ending g cursor position (.error (.error (.sink cursor position (size accepted) cause))) (accepted ++ [last])
        accepted (some (.refused cursor position (size accepted) plan.len cause))
  /-- The page of the next span had the wrong length. -/
  | malformed {plan : Plan} {chunks : List (Span × Bytes)} {span : Span} {rest : List Span} {actual : Nat}
      (range : Ranged g cursor position plan) (spans : plan.spans = .ok (chunks.map Prod.fst ++ span :: rest))
      (wrong : actual ≠ g.pageSize) :
      Ending g cursor position (.error (.error (.pageSize span.page g.pageSize actual (size chunks)))) chunks chunks none
  /-- One more attempt was lost than can be counted. -/
  | overran (unread : cursor ≠ position) (inside : position < g.capacity) :
      Ending g cursor position (.error (.fault .addOverflow)) [] [] none
  /-- The source did not have the page of the next span. -/
  | faulted {plan : Plan} {chunks : List (Span × Bytes)} {span : Span} {rest : List Span} (cause : Fault)
      (range : Ranged g cursor position plan) (spans : plan.spans = .ok (chunks.map Prod.fst ++ span :: rest)) :
      Ending g cursor position (.error (.fault cause)) chunks chunks none

/-- Whether a transfer that found its cursor and the write position at these places had something to deliver. -/
def Unread (g : Geometry) (cursor position : Nat) : Prop := cursor ≠ position ∧ position < g.capacity

instance (g : Geometry) (cursor position : Nat) : Decidable (Unread g cursor position) :=
  inferInstanceAs (Decidable (_ ∧ _))

/-- What the log tells of a transfer's search for unread bytes that came to an end at these places: a shared drain lost
all attempts but the last one, and that one won the claim if something was unread and it was not `late` as well. -/
structure Searched (drain : Drain) (late : Bool) (cursor position : Nat) (ds : List Event) : Prop where
  attempt : drain.mode = .concurrent → attempt? ds = some ⟨cursor, position⟩
  claim : claim? ds =
    if drain.mode = .concurrent ∧ Unread drain.geometry cursor position ∧ late = false then some (cursor, position)
    else none

/-- A lost attempt of a transfer of a shared drain: it had found unread bytes, but the cursor was elsewhere meanwhile. -/
structure Lost (n d : Nat) (drain : Drain) (past : List Entry) (loss : Loss) : Prop where
  unread : Unread drain.geometry loss.cursor loss.position
  /-- The drain had its cursor there when the attempt read it. -/
  read : ∃ e ∈ past, e.step = n ∧ e.event = .loaded loss.cursor ∧
    e.drains[d]? = some (some ⟨drain.geometry, loss.cursor, .concurrent⟩)
  moved : loss.seen ≠ loss.cursor
  /-- The drain had its cursor there when the attempt was lost. -/
  found : ∃ e ∈ past, e.step = n ∧ (∃ retries, e.event = .lost loss.cursor loss.seen retries) ∧
    e.drains[d]? = some (some ⟨drain.geometry, loss.seen, .concurrent⟩)

/-- A claim of a transfer of a shared drain: it moved the cursor of the drain from the one position to the other. -/
def Gained (n d : Nat) (drain : Drain) (past : List Entry) (range : Nat × Nat) : Prop :=
  ∃ e before, e :: before <:+ past ∧ e.step = n ∧ range.1 = claimedTo d before ∧
    e.drains[d]? = some (some ⟨drain.geometry, range.2, .concurrent⟩)

namespace Lawful

variable {origin source : Source} {past before : List Entry} {n d : Nat} {drain : Drain}
  {drains : Array (Option Drain)} {outcome : Except Halt Transfer} {plan : Plan}

/-- At every moment, a shared drain has its cursor where its claims have led. -/
theorem shared_cursor (h : Lawful origin past) {e : Entry} (hs : e :: before <:+ past)
    (ho : opened? d before = some drain) (hm : drain.mode = .concurrent) :
    e.drains[d]? = some (some ⟨drain.geometry, claimedTo d (e :: before), .concurrent⟩) := by
  have hlaw := h.suffix hs
  exact (place_concurrent_iff (hlaw.opened?_cons ho) hm).mp (hlaw.2.1.place d)

/-- A claim that is told moved the cursor, and only transfers of shared drains win claims. -/
theorem gained_of_told (h : Lawful origin past) (hd : drainOf n past = some d) (ho : opened? d past = some drain)
    {range : Nat × Nat} (hclaim : claim? (deeds n past) = some range) :
    drain.mode = .concurrent ∧ Gained n d drain past range := by
  obtain ⟨retries, hmem⟩ := mem_of_claim? hclaim
  obtain ⟨drains, source, before, hs, hd', ho', -, hm, hstart, -⟩ := h.moment hd ho hmem rfl
  refine ⟨hm, _, before, hs, rfl, hstart, ?_⟩
  rw [h.shared_cursor hs ho' hm]
  simp only [claimedTo, hd', ↓reduceIte]

theorem claim_of_sequential (h : Lawful origin past) (hd : drainOf n past = some d) (ho : opened? d past = some drain)
    (hm : drain.mode ≠ .concurrent) : claim? (deeds n past) = none :=
  Option.eq_none_iff_forall_ne_some.mpr fun _ hclaim => hm (h.gained_of_told hd ho hclaim).1

/-- A range that a transfer delivers is what it found unread. -/
theorem range_of_planned (h : Lawful origin past) (hd : drainOf n past = some d) (ho : opened? d past = some drain)
    (hplan : planned? (deeds n past) = some plan) : ∃ stop, Ranged drain.geometry plan.start stop plan ∧
      Searched drain false plan.start stop (deeds n past) := by
  obtain ⟨drains, source, before, hs, hd', ho', hcourse, hgeometry, stop, hlen, htruth⟩ :=
    h.moment hd ho (planned?_mem hplan) rfl
  have hlaw : Lawful origin before := h.suffix ((List.suffix_cons _ _).trans hs)
  have hrange : Plan.ofRange drain.geometry plan.start plan.len = .ok plan := by
    rw [← hgeometry]
    exact hcourse.ofRange_of_planned
  cases hm : drain.mode with
  | concurrent =>
    simp only [hm] at htruth
    obtain ⟨retries, _, _, claiming, rfl⟩ := htruth
    have hd'' : drainOf n claiming = some d := by rw [← hd', drainOf_of_drain? rfl]
    obtain ⟨-, -, hstart, -, hne, hlt⟩ := hlaw.allowed hd'' ho' rfl
    have hmem : .claimed plan.start stop retries ∈ deeds n past :=
      mem_deeds.mpr ⟨_, hs.subset (List.mem_cons_of_mem _ List.mem_cons_self), rfl, rfl, rfl⟩
    have hclaim : claim? (deeds n past) = some (plan.start, stop) := (h.course hd).claim_of_mem hmem
    refine ⟨stop, ⟨hstart ▸ hlaw.2.2.claimedTo_lt ho', hlt, hne, hlen, hrange⟩, fun _ => ?_, ?_⟩
    · exact (h.course hd).attempt_of_claim hclaim
    · rw [hclaim, if_pos ⟨hm, ⟨hne, hlt⟩, rfl⟩]
  | sequential own =>
    simp only [hm] at htruth
    obtain ⟨hstart, -, hne, hlt⟩ := htruth
    have hshared : drain.mode ≠ .concurrent := by
      rw [hm]
      nofun
    refine ⟨stop, ⟨hstart ▸ hlaw.settledTo_lt ho', hlt, hne, hlen, hrange⟩, fun hm' => absurd hm' hshared, ?_⟩
    rw [h.claim_of_sequential hd ho hshared, if_neg fun hm' => hshared hm'.1]

/-- Between two chunks, the next span of the range follows those that the sink has accepted. -/
theorem range_of_handing (h : Lawful origin past) (hd : drainOf n past = some d) (ho : opened? d past = some drain)
    (hhanding : Handing (deeds n past)) {left : Plan} (hleft : left? (deeds n past) = some left)
    (hlt : left.planned < left.len) : ∃ plan stop rest, Ranged drain.geometry plan.start stop plan ∧
      Searched drain false plan.start stop (deeds n past) ∧
      plan.spans = .ok ((chunksOffered (deeds n past)).map Prod.fst ++ left.head :: rest) ∧
      chunksAccepted (deeds n past) = chunksOffered (deeds n past) ∧ conclusion? (deeds n past) = none := by
  have hcourse := h.course hd
  obtain ⟨plan, rest, hplan, haccepted, hspans⟩ := hcourse.of_handing hhanding hleft hlt
  obtain ⟨stop, hrange, hsearched⟩ := h.range_of_planned hd ho hplan
  exact ⟨plan, stop, rest, hrange, hsearched, hspans, haccepted, hcourse.unconcluded.1 hhanding⟩

/-- A transfer that ends right after it has read the write position delivers nothing. -/
theorem ending_of_sampled {position : Nat} (h : Lawful origin past) (hd : drainOf n past = some d)
    (hlatest : Latest n (.sampled position) past) :
    claim? (deeds n past) = none ∧ conclusion? (deeds n past) = none ∧ chunksOffered (deeds n past) = [] ∧
      chunksAccepted (deeds n past) = [] ∧
      attempt? (deeds n past) = some ⟨(loaded? (deeds n past)).getD 0, position⟩ := by
  have hall := h.attempts_of_sampled hd hlatest
  obtain ⟨hclaim, hconclusion⟩ := Course.untold_of_trying hall
  obtain ⟨-, -, hoffered, haccepted⟩ := Course.of_trying hall
  obtain ⟨_, _, before, rfl⟩ := hlatest
  refine ⟨hclaim, hconclusion, hoffered, haccepted, ?_⟩
  rw [deeds_self rfl]
  rfl

/-- A transfer that could not count a lost attempt delivers nothing. -/
theorem ending_of_overrun (h : Lawful origin past) (hd : drainOf n past = some d) (hoverrun : Overrun n d drain past) :
    ∃ cursor position, Ending drain.geometry cursor position (.error (.fault .addOverflow))
      (chunksOffered (deeds n past)) (chunksAccepted (deeds n past)) (conclusion? (deeds n past)) ∧
        Searched drain true cursor position (deeds n past) := by
  obtain ⟨expected, -, hload, -, position, hlatest, hne, hlt⟩ := hoverrun.beaten
  obtain ⟨hclaim, hconclusion, hoffered, haccepted, hattempt⟩ := h.ending_of_sampled hd hlatest
  refine ⟨expected, position, ?_, fun _ => ?_, ?_⟩
  · rw [hoffered, haccepted, hconclusion]
    exact .overran (Ne.symm hne) hlt
  · rw [hattempt, hload]
    rfl
  · rw [hclaim, if_neg fun hfound => Bool.noConfusion hfound.2.2]

/-- How a transfer ends, its deeds tell. -/
theorem ending (h : Lawful origin (⟨n, .ended outcome, drains, source⟩ :: past)) (hd : drainOf n past = some d)
    (ho : opened? d past = some drain) (hfinished : outcome ≠ .error .unfinished) :
    ∃ cursor position, Ending drain.geometry cursor position outcome (chunksOffered (deeds n past))
      (chunksAccepted (deeds n past)) (conclusion? (deeds n past)) ∧
        Searched drain (overran outcome) cursor position (deeds n past) := by
  have hlaw : Lawful origin past := h.2.2
  have hcourse := hlaw.course hd
  have hout := (h.allowed hd ho rfl).2
  by_cases hoverran : overran outcome = true
  · obtain ⟨rfl, hoverrun⟩ := overrun_of_concludes hout hoverran
    exact hlaw.ending_of_overrun hd hoverrun
  rw [Bool.not_eq_true] at hoverran
  match outcome with
  | .ok report =>
    rcases hout with ⟨position, rfl, hlatest, hlt, hbase⟩ | hlatest
    · obtain ⟨hclaim, hconclusion, hoffered, haccepted, hattempt⟩ := hlaw.ending_of_sampled hd hlatest
      refine ⟨position, position, ?_, fun hm => ?_, ?_⟩
      · rw [hoffered, haccepted, hconclusion]
        exact .idle rfl hlt
      · simp only [base?, hm] at hbase
        rw [hattempt, hbase]
        rfl
      · rw [hclaim, if_neg fun hfound => hfound.2.1.1 rfl]
    · obtain ⟨_, _, before, rfl⟩ := hlatest
      rw [deeds_self rfl] at hcourse
      obtain ⟨plan, stop, hplan, hstop, rfl, haccepted, hspans⟩ := hcourse.of_delivered
      obtain ⟨position, hrange, hsearched⟩ := hlaw.range_of_planned hd ho (by rw [deeds_self rfl]; exact hplan)
      obtain rfl : stop = position := Except.ok.inj (hstop.symm.trans hrange.advance)
      refine ⟨plan.start, stop, ?_, hsearched⟩
      rw [deeds_self rfl]
      show Ending _ _ _ _ (chunksOffered (deeds n before)) (chunksAccepted (deeds n before)) _
      rw [haccepted]
      exact .whole hrange hspans
  | .error (.error (.sink start stop taken cause)) =>
    obtain ⟨len, _, _, before, rfl⟩ := hout
    rw [deeds_self rfl] at hcourse
    obtain ⟨plan, last, rest, hplan, hstop, rfl, rfl, rfl, hoffered, hspans⟩ := hcourse.of_refused
    obtain ⟨position, hrange, hsearched⟩ := hlaw.range_of_planned hd ho (by rw [deeds_self rfl]; exact hplan)
    obtain rfl : stop = position := Except.ok.inj (hstop.symm.trans hrange.advance)
    refine ⟨plan.start, stop, ?_, hsearched⟩
    rw [deeds_self rfl]
    show Ending _ _ _ _ (chunksOffered (deeds n before)) (chunksAccepted (deeds n before)) _
    rw [hoffered]
    exact .refused cause hrange hspans
  | .error (.error (.positionOutOfRange position capacity)) =>
    obtain ⟨rfl, hlatest, hout⟩ := hout
    obtain ⟨hclaim, hconclusion, hoffered, haccepted, hattempt⟩ := hlaw.ending_of_sampled hd hlatest
    refine ⟨_, position, ?_, fun _ => hattempt, ?_⟩
    · rw [hoffered, haccepted, hconclusion]
      exact .outside hout
    · rw [hclaim, if_neg fun hfound => absurd hout (Nat.not_le_of_lt hfound.2.1.2)]
  | .error (.error (.rangeTooLong len capacity)) => exact absurd hout id
  | .error (.error (.pageSize page expected actual taken)) =>
    obtain ⟨left, bytes, hhanding, hleft, hlt, rfl, -, rfl, -, hwrong, htaken⟩ := hout
    obtain ⟨plan, position, rest, hrange, hsearched, hspans, haccepted, hnone⟩ :=
      hlaw.range_of_handing hd ho hhanding hleft hlt
    refine ⟨plan.start, position, ?_, hsearched⟩
    obtain rfl : taken = size (chunksOffered (deeds n past)) := htaken.trans (congrArg size haccepted)
    rw [hnone, haccepted]
    exact .malformed hrange hspans hwrong
  | .error (.fault cause) =>
    rcases hout with ⟨left, hhanding, hleft, hlt, -⟩ | ⟨rfl, -⟩
    · obtain ⟨plan, position, rest, hrange, hsearched, hspans, haccepted, hnone⟩ :=
        hlaw.range_of_handing hd ho hhanding hleft hlt
      refine ⟨plan.start, position, ?_, hoverran ▸ hsearched⟩
      rw [hnone, haccepted]
      exact .faulted cause hrange hspans
    · cases hoverran
  | .error .unfinished => exact absurd rfl hfinished

/-- Every loss that is told was one, and only transfers of shared drains have losses. -/
theorem lost_of_told (h : Lawful origin past) (hd : drainOf n past = some d) (ho : opened? d past = some drain)
    {loss : Loss} (hloss : loss ∈ lossesOf (deeds n past)) :
    drain.mode = .concurrent ∧ Lost n d drain past loss := by
  obtain ⟨retries, es, hes, hposition⟩ := moment_of_loss hloss
  obtain ⟨drains, source, before, hs, rfl⟩ := moment_of_suffix hes
  have hlaw : Lawful origin before := h.suffix ((List.suffix_cons _ _).trans hs)
  have hd' := h.drainOf_before hs hd rfl rfl
  have ho' := h.opened?_before ((List.suffix_cons _ _).trans hs) hd' ho
  obtain ⟨hcourse, hseen, -, hm, hload, hmoved, position, hlatest, hne, hlt⟩ := (h.suffix hs).allowed hd' ho' rfl
  have hlast : sampled? (deeds n before) = some position := by
    obtain ⟨_, _, _, rfl⟩ := hlatest
    rw [deeds_self rfl]
    rfl
  rw [hlast] at hposition
  obtain rfl : position = loss.position := hposition
  -- the read of the cursor is the one that the attempt began with
  have hloaded : .loaded loss.cursor ∈ deeds n before := loaded?_mem hload
  obtain ⟨drains', source', start, hread, hd'', ho'', -, -, hcursor⟩ := hlaw.moment hd' ho' hloaded rfl
  have hread' := hread.trans ((List.suffix_cons _ _).trans hs)
  refine ⟨hm, ⟨Ne.symm hne, hlt⟩, ⟨_, hread'.subset List.mem_cons_self, rfl, rfl, ?_⟩, hseen ▸ hmoved,
    ⟨_, hs.subset List.mem_cons_self, rfl, ⟨retries, rfl⟩, ?_⟩⟩
  · rw [h.shared_cursor hread' ho'' hm, claimedTo_quiet rfl, ← hcursor]
  · rw [h.shared_cursor hs ho' hm, claimedTo_quiet rfl, ← hseen]

end Lawful

/-! ## Every session -/

/-- What the log tells of a transfer that ended with this outcome, when it had found its cursor at `cursor` and the write
position at `position`. -/
structure Tells (n d : Nat) (drain : Drain) (past : List Entry) (outcome : Except Halt Transfer) (t : Tale)
    (cursor position : Nat) : Prop where
  /-- Among the events of the transfer the log reports those of the tale, in this order, and no others. -/
  told : told n past = t.events
  /-- They make up its lines. -/
  lines : linesOf (past.reverse.filter fun e => e.step == n) = t.events.filterMap Event.logLine?
  /-- A shared drain lost all attempts but the last one. -/
  attempts : drain.mode = .concurrent →
    attempts (deeds n past) = t.losses.map Loss.toAttempt ++ [⟨cursor, position⟩]
  /-- Any other one lost none. -/
  lost : ∀ loss ∈ t.losses, drain.mode = .concurrent ∧ Lost n d drain past loss
  /-- The last attempt of a shared drain won the claim, if something was unread and the count had not overflowed. -/
  claim : t.claim =
    if drain.mode = .concurrent ∧ Unread drain.geometry cursor position ∧ overran outcome = false then
      some (cursor, position)
    else none
  gained : ∀ range, t.claim = some range → Gained n d drain past range
  /-- One chunk is told for each that was handed to the sink. -/
  chunks : t.chunks = chunksOffered (deeds n past)
  /-- Chunks and conclusion are those of the outcome. -/
  ending : Ending drain.geometry cursor position outcome t.chunks (chunksAccepted (deeds n past)) t.conclusion

/-- In a lawful history, the log tells of every transfer that is over. -/
theorem Lawful.tells {origin : Source} {past : List Entry} {n d : Nat} {drain : Drain}
    {outcome : Except Halt Transfer} (h : Lawful origin past) (hd : drainOf n past = some d)
    (ho : opened? d past = some drain) (hend : .ended outcome ∈ deeds n past) (hfinished : outcome ≠ .error .unfinished) :
    ∃ cursor position, Tells n d drain past outcome (tale (deeds n past)) cursor position := by
  have hcourse := h.course hd
  have htold : told n past = (tale (deeds n past)).events := (told_eq_deeds n past).trans hcourse.told_eq
  obtain ⟨drains, source, before, hs, hdeeds, hd', ho', -⟩ := h.end_of_over hd ho hend
  obtain ⟨cursor, position, hending, hattempt, hclaim⟩ := (h.suffix hs).ending hd' ho' hfinished
  refine ⟨cursor, position, ?_⟩
  constructor
  case told => exact htold
  case lines => rw [← htold, lines_eq_told]
  case attempts =>
    intro hm
    rw [hcourse.attempts_eq, hdeeds]
    exact congrArg (_ ++ Option.toList ·) (hattempt hm)
  case lost => exact fun loss hloss => h.lost_of_told hd ho hloss
  case claim =>
    rw [hdeeds]
    exact hclaim
  case gained => exact fun range hrange => (h.gained_of_told hd ho hrange).2
  case chunks => rfl
  case ending =>
    rw [hdeeds]
    exact hending

/-- In every session, the log consists of what its steps report, and of each transfer, however its events are interleaved
with those of the steps that its callbacks play, it tells the lost attempts, the claim, the chunks and the conclusion that
belong to how the transfer ended, and nothing else. A chunk is told just before the sink is called with it, and there are
no other calls. -/
theorem transfers_told {n d : Nat} {drain : Drain} (session : Session) (hd : drainOf n session.past = some d)
    (ho : opened? d session.past = some drain) :
    session.answers.flatMap Played.log = linesOf session.past.reverse ∧ Over n session.past ∧
      (∀ outcome, .ended outcome ∈ deeds n session.past →
        ∃ t cursor position, Tells n d drain session.past outcome t cursor position) ∧
      ∀ player, (host player n).HandsAsNoted := by
  refine ⟨session.log_eq, session.finished hd, fun outcome hend => ?_, fun player => (host player n).hands_as_noted⟩
  refine ⟨tale (deeds n session.past), session.lawful.tells hd ho hend ?_⟩
  rintro rfl
  obtain ⟨e, he, -, hevent, -⟩ := mem_deeds.mp hend
  exact session.never_unfinished e he hevent

/-- Of two transfers of which one plays the other as it reads the write position, the outer one loses its first attempt
and delivers in the end, and the sink of the inner one refuses its second chunk. -/
theorem transfers_told_contended :
    told 3 contended.past = [.lost 0 2 1, .claimed 2 3 1, .offered ⟨2, 2, 0, 1, ⟨true, false, true⟩⟩ [12],
      .delivered ⟨2, 3, 1, 1⟩] ∧
    (∃ t cursor position, Tells 3 0 ⟨contended.geometry, 0, .concurrent⟩ contended.past (.ok ⟨2, 3, 1, 1⟩) t cursor
      position) ∧
    told 5 contended.past = [.claimed 0 2 0, .offered ⟨0, 0, 0, 1, ⟨true, false, false⟩⟩ [10],
      .offered ⟨1, 1, 0, 1, ⟨true, false, true⟩⟩ [11], .refused 0 2 1 2 ⟨.other, "full"⟩] ∧
    ∃ t cursor position, Tells 5 0 ⟨contended.geometry, 0, .concurrent⟩ contended.past
      (.error (.error (.sink 0 2 1 ⟨.other, "full"⟩))) t cursor position := by
  have houter : drainOf 3 contended.past = some 0 := by cbv
  have hinner : drainOf 5 contended.past = some 0 := by cbv
  have hdelivered : (deeds 3 contended.past).head? = some (.ended (.ok ⟨2, 3, 1, 1⟩)) := by cbv
  have hrefused : (deeds 5 contended.past).head? = some (.ended (.error (.error (.sink 0 2 1 ⟨.other, "full"⟩)))) := by
    cbv
  obtain ⟨-, -, htells, -⟩ := transfers_told contended houter contended_opened
  obtain ⟨-, -, htells', -⟩ := transfers_told contended hinner contended_opened
  exact ⟨by cbv, htells _ (List.mem_of_mem_head? hdelivered), by cbv, htells' _ (List.mem_of_mem_head? hrefused)⟩

end PagedRing.Session
