import PagedRing.Proofs.Chain
import PagedRing.Proofs.Contents

/-!
# Bytes in the ring

The bytes written since a drain was opened are its stream. The ring still holds each of them until a full turn later,
at the cell that its number in the stream tells.

* `Lawful.upstream`: the ring as the stream leaves it.
* `Lawful.claimedTo_eq`: where the cursor of a shared drain stands, from the number of bytes claimed.
* `Lawful.claimedLen_le`: a claim takes all that is unread.
-/

namespace PagedRing

namespace Session

/-! ## The stream of a drain -/

/-- The number of bytes that were unread when a drain was opened. -/
def backlog (g : Geometry) (d : Nat) : List Entry → Nat
  | [] => 0
  | e :: past =>
    match e.event with
    | .opened drain cursor =>
      if drain = d then (e.source.position + (g.capacity - cursor)) % g.capacity else backlog g d past
    | _ => backlog g d past

/-- The ring in which a drain found its first byte, and the ring as the stream of the drain leaves it. -/
structure Upstream (drain : Drain) (d : Nat) (past : List Entry) (r : Ring) (source : Source) : Prop where
  geometry : r.geometry = drain.geometry
  position : r.position = (drain.cursor + backlog drain.geometry d past) % drain.geometry.capacity
  source : source = .ring (r.write (stream d past))

variable {d : Nat} {past before : List Entry} {drain : Drain} {ring : Ring} {drains : Array (Option Drain)}
  {source : Source}

/-- A drain is opened with its cursor in its ring. -/
theorem Lawful.cursor_lt {origin : Source} (h : Lawful origin past) (ho : opened? d past = some drain) :
    drain.cursor < drain.geometry.capacity := by
  induction past with
  | nil => cases ho
  | cons e past ih =>
    obtain ⟨m, event, drains, source⟩ := e
    cases event with
    | opened d' cursor =>
      by_cases hdd : d' = d
      · subst hdd
        obtain ⟨-, -, drain', hd', rfl, hlt⟩ := h.1
        obtain rfl : drain' = drain := by simpa [opened?, hd'] using ho
        exact hlt
      · simp only [opened?, hdd, ↓reduceIte] at ho
        exact ih h.2.2 ho
    | _ => exact ih h.2.2 ho

/-- What was written before a drain was opened, and what the ring was like then. -/
theorem Lawful.written_of_opened (h : Lawful (.ring ring) past) (ho : opened? d past = some drain)
    (hg : drain.geometry = ring.geometry) :
    ∃ before, written past = before ++ stream d past ∧
      (ring.write before).position = (drain.cursor + backlog drain.geometry d past) % drain.geometry.capacity := by
  induction past with
  | nil => cases ho
  | cons e past ih =>
    obtain ⟨m, event, drains, source⟩ := e
    cases event with
    | opened d' cursor =>
      by_cases hdd : d' = d
      · have hlt := h.cursor_lt ho
        subst hdd
        obtain ⟨-, -, drain', hd', rfl, -⟩ := h.1
        obtain rfl : drain' = drain := by simpa [opened?, hd'] using ho
        have hsource := h.2.1.source ring rfl
        have hposition : source.position = (ring.write (written past)).position := by
          rw [show source = .ring (ring.write (written past)) from hsource]; rfl
        refine ⟨written past, by simp [written, stream], ?_⟩
        have hle : (ring.write (written past)).position < drain'.geometry.capacity := by
          rw [hg, ← ring.geometry_write (written past)]; exact Ring.position_lt _
        simp only [backlog, ↓reduceIte, Nat.add_mod_mod, hposition]
        rw [show drain'.cursor + ((ring.write (written past)).position + (drain'.geometry.capacity - drain'.cursor)) =
          (ring.write (written past)).position + drain'.geometry.capacity by omega, Nat.add_mod_right,
          Nat.mod_eq_of_lt hle]
      · simp only [opened?, hdd, ↓reduceIte] at ho
        simpa only [written, stream, backlog, hdd, ↓reduceIte] using ih h.2.2 ho
    | wrote bytes =>
      obtain ⟨before, hw, hp⟩ := ih h.2.2 ho
      exact ⟨before, by simp only [written, stream, hw, List.append_assoc], hp⟩
    | _ => exact ih h.2.2 ho

/-- A ring is what the stream of a drain made of it. -/
theorem Lawful.upstream (h : Lawful (.ring ring) past) (hf : Faithful (.ring ring) past drains source)
    (ho : opened? d past = some drain) (hg : drain.geometry = ring.geometry) : ∃ r, Upstream drain d past r source := by
  obtain ⟨before, hw, hp⟩ := h.written_of_opened ho hg
  refine ⟨ring.write before, by rw [Ring.geometry_write, hg], hp, ?_⟩
  rw [hf.source ring rfl, hw, Ring.write_append]

/-- The write position, from the number of bytes written. -/
theorem Upstream.position_eq {r : Ring} (h : Upstream drain d past r source) :
    source.position =
      (drain.cursor + (backlog drain.geometry d past + (stream d past).length)) % drain.geometry.capacity := by
  rw [h.source, Source.position, Ring.position_write, h.position, h.geometry, Nat.mod_add_mod, Nat.add_assoc]

/-- A write position that was read last still stands where the stream ends. -/
theorem Lawful.sampled_eq (h : Lawful (.ring ring) past) (ho : opened? d past = some drain)
    (hg : drain.geometry = ring.geometry) {n : Nat} (hd : drainOf n past = some d) {position : Nat}
    (hlatest : Latest n (.sampled position) past) :
    position = (drain.cursor + (backlog drain.geometry d past + (stream d past).length)) % drain.geometry.capacity := by
  obtain ⟨drains, source, before, rfl⟩ := hlatest
  obtain ⟨r, hup⟩ := h.upstream h.2.1 ho hg
  have hd' : drainOf n before = some d := by rw [← hd, drainOf_of_drain? rfl]
  have hsampled : position = source.position := (h.allowed hd' ho rfl).2
  exact hsampled.trans hup.position_eq

/-- A drain was opened at the write position if nothing was unread then. -/
def Abreast (d : Nat) : List Entry → Prop :=
  Throughout fun e _ => ∀ cursor ∈ e.event.opens? d, e.source.position = cursor

theorem Lawful.backlog_of_abreast {origin : Source} (h : Lawful origin past) (ho : opened? d past = some drain)
    (ha : Abreast d past) : backlog drain.geometry d past = 0 := by
  induction past with
  | nil => cases ho
  | cons e past ih =>
    have ha' := ha.tail
    obtain ⟨m, event, drains, source⟩ := e
    cases event with
    | opened d' cursor =>
      by_cases hdd : d' = d
      · have hlt := h.cursor_lt ho
        subst hdd
        obtain ⟨-, -, drain', hd', rfl, -⟩ := h.1
        obtain rfl : drain' = drain := by simpa [opened?, hd'] using ho
        have hposition : source.position = drain'.cursor := ha.head _ (by simp [Event.opens?])
        simp only [backlog, ↓reduceIte, hposition]
        rw [show drain'.cursor + (drain'.geometry.capacity - drain'.cursor) = drain'.geometry.capacity by omega,
          Nat.mod_self]
      · simp only [opened?, hdd, ↓reduceIte] at ho
        simpa only [backlog, hdd, ↓reduceIte] using ih h.2.2 ho ha'
    | _ => exact ih h.2.2 ho ha'

/-! ## Chunks of a ring -/

/-- A chunk holds the bytes of the stream that its position tells, unless a full turn came after the first of them. -/
theorem Upstream.chunk_eq {r : Ring} (h : Upstream drain d past r source) {left : Plan} {page : Bytes} {k : Nat}
    (hg : left.geometry = drain.geometry) (hpage : source.page left.head.page = .ok page)
    (hk : left.position = (drain.cursor + (backlog drain.geometry d past + k)) % drain.geometry.capacity)
    (hlen : k + left.step ≤ (stream d past).length) (hle : (stream d past).length ≤ k + drain.geometry.capacity) :
    (page.drop left.head.offsetInPage).take left.head.len = ((stream d past).drop k).take left.step := by
  have hgr : r.geometry = left.geometry := h.geometry.trans hg.symm
  have hoff := left.offsetInPage_add_step_le
  have hpos := left.geometry.pageOf_mul_add_offsetInPage left.position
  rw [h.source] at hpage
  obtain ⟨hcount, rfl⟩ := (Ring.page_eq_ok_iff _ _ _).mp hpage
  rw [Ring.geometry_write, hgr] at hcount ⊢
  have hend : left.position + left.step ≤ left.geometry.capacity := by
    have hturn : (left.geometry.pageOf left.position + 1) * left.geometry.pageSize ≤
        left.geometry.pageCount * left.geometry.pageSize := Nat.mul_le_mul_right _ hcount
    rw [left.geometry.pageCount_mul_pageSize, Nat.succ_mul] at hturn
    omega
  have hstart : left.position = (r.position + k) % r.geometry.capacity := by
    rw [hk, h.position, h.geometry, Nat.mod_add_mod, Nat.add_assoc]
  have hrun := r.run_write (stream d past) hstart (hgr ▸ hend) hlen (by rw [h.geometry]; exact hle)
  show List.take left.step (List.drop (left.geometry.offsetInPage left.position) _) = _
  rw [List.drop_take, List.drop_drop, List.take_take, Nat.min_eq_left (by omega), ← hrun]
  exact congrArg (fun o => List.take left.step (List.drop o _)) hpos

/-- A ring has every page of its geometry, and each of them has the length of a page. -/
theorem Upstream.page_length {r : Ring} (h : Upstream drain d past r source) {number : Nat}
    (hn : number < drain.geometry.pageCount) :
    ∃ page, source.page number = .ok page ∧ page.length = drain.geometry.pageSize := by
  have hg : (r.write (stream d past)).geometry = drain.geometry := by rw [Ring.geometry_write, h.geometry]
  refine ⟨_, by rw [h.source]; exact (Ring.page_eq_ok_iff _ _ _).mpr ⟨by rw [hg]; exact hn, rfl⟩, ?_⟩
  have hcap := drain.geometry.pageCount_mul_pageSize
  have hturn : (number + 1) * drain.geometry.pageSize ≤ drain.geometry.pageCount * drain.geometry.pageSize :=
    Nat.mul_le_mul_right _ hn
  rw [List.length_take, List.length_drop, Array.length_toList, (r.write _).size_cells, hg]
  rw [hcap, Nat.succ_mul] at hturn
  omega

/-- On a ring of its own geometry, a page is always there and always has the length of a page. -/
theorem Lawful.page_of_left (h : Lawful (.ring ring) past) (hf : Faithful (.ring ring) past drains source)
    (ho : opened? d past = some drain) (hg : drain.geometry = ring.geometry) {n : Nat} (hd : drainOf n past = some d)
    {left : Plan} (hleft : left? (deeds n past) = some left) :
    ∃ page, source.page left.head.page = .ok page ∧ page.length = drain.geometry.pageSize := by
  obtain ⟨r, hup⟩ := h.upstream hf ho hg
  obtain ⟨plan, hplan⟩ := planned?_of_left? hleft
  have hgeo := h.planned_geometry hd ho (planned?_mem hplan)
  have hl := (h.course hd).left_of_planned hplan
  rw [hleft, Option.some.injEq] at hl
  have hlg : left.geometry = drain.geometry := by rw [hl, ← hgeo]
  refine hup.page_length ?_
  rw [← hlg]
  exact left.geometry.pageOf_lt left.position_lt

/-- A transfer that has found a range on a ring fails only because of its sink, before the last chunk. -/
theorem Lawful.sink_of_failed {n : Nat} {cause : Halt}
    (h : Lawful (.ring ring) (⟨n, .ended (.error cause), drains, source⟩ :: past)) (hd : drainOf n past = some d)
    (ho : opened? d past = some drain) (hg : drain.geometry = ring.geometry)
    (hfound : ¬ ∀ x ∈ deeds n past, x.attempt = true) :
    ∃ plan start stop reason last rest, planned? (deeds n past) = some plan ∧
      cause = .error (.sink start stop (size (chunksAccepted (deeds n past))) reason) ∧
      size (chunksAccepted (deeds n past)) < plan.len ∧
      plan.spans = .ok ((chunksAccepted (deeds n past)).map Prod.fst ++ last :: rest) := by
  have hcourse := h.2.2.course hd
  have hout := (allowed h hd ho rfl).2
  have hpage : ∀ {left}, left? (deeds n past) = some left →
      ∃ page, source.page left.head.page = .ok page ∧ page.length = drain.geometry.pageSize := by
    intro left hleft
    refine h.page_of_left h.2.1 ho hg (by rw [drainOf_of_drain? rfl]; exact hd) ?_
    rw [deeds_self rfl]
    exact hleft
  match cause with
  | .error (.sink start stop taken reason) =>
    obtain ⟨len, drains', source', before, rfl⟩ := hout
    rw [deeds_self rfl] at hcourse ⊢
    generalize deeds n before = ds at hcourse
    cases hcourse with
    | @refused ds span bytes plan stop reason hcourse hplan hstop =>
      have hplan' : planned? (.offered span bytes :: ds) = some plan := hplan
      obtain ⟨l, hl⟩ := hcourse.spans_of_planned hplan'
      refine ⟨plan, _, _, reason, span, l, hplan, rfl, ?_, ?_⟩
      · show size (chunksAccepted ds) < plan.len
        rw [hcourse.accepted_of_offered]
        cases hcourse with
        | offered bytes hcourse hh hleft hlt =>
          have hl := hcourse.left_of_planned hplan
          rw [hleft, Option.some.injEq] at hl
          rw [hl] at hlt
          exact hlt
      · show plan.spans = .ok ((chunksAccepted ds).map Prod.fst ++ span :: l)
        rw [hl, hcourse.accepted_of_offered, chunksOffered, List.map_append, List.append_assoc]
        rfl
  | .error (.positionOutOfRange position capacity) => exact absurd (h.2.2.attempts_of_sampled hd hout.2.1) hfound
  | .error (.rangeTooLong _ _) => exact absurd hout id
  | .error (.pageSize page expected actual taken) =>
    obtain ⟨left, bytes, -, hleft, -, rfl, hbytes, hexpected, hactual, hne, -⟩ := hout
    obtain ⟨page', hpage', hlen⟩ := hpage hleft
    rw [hpage', Except.ok.injEq] at hbytes
    subst hbytes
    exact absurd (by rw [hactual, hlen, hexpected]) hne
  | .fault fault =>
    rcases hout with ⟨left, -, hleft, -, hfault⟩ | ⟨-, -, expected, hbeaten⟩
    · obtain ⟨page', hpage', -⟩ := hpage hleft
      rw [hpage'] at hfault
      cases hfault
    · obtain ⟨position, hlatest, -⟩ := hbeaten.unread
      exact absurd (h.2.2.attempts_of_sampled hd hlatest) hfound
  | .unfinished => exact absurd hout.2 hfound

/-- What a transfer that has found a range and succeeds has delivered. -/
theorem Lawful.whole_of_delivered {origin : Source} {n : Nat} {report : Transfer} (h : Lawful origin past)
    (hd : drainOf n past = some d) (hlatest : Latest n (.delivered report) past) :
    ∃ plan, planned? (deeds n past) = some plan ∧ report.len = plan.len ∧
      plan.geometry.advance plan.start plan.len = .ok report.stop ∧
      size (chunksOffered (deeds n past)) = plan.len ∧
        chunksAccepted (deeds n past) = chunksOffered (deeds n past) := by
  have hcourse := h.course hd
  obtain ⟨drains', source', before, rfl⟩ := hlatest
  rw [deeds_self rfl] at hcourse ⊢
  generalize deeds n before = ds at hcourse
  cases hcourse with
  | delivered hcourse hh hplan hleft hwhole hstop =>
    have hl := hcourse.left_of_planned hplan
    rw [hleft, Option.some.injEq] at hl
    rw [hl] at hwhole
    exact ⟨_, hplan, rfl, hstop, hwhole, hcourse.accepted_of_handing hh⟩

/-- A chunk that is offered goes on in the stream where the chunks before it ended. -/
theorem Lawful.offered_eq {n : Nat} {span : Span} {bytes : Bytes}
    (h : Lawful (.ring ring) (⟨n, .offered span bytes, drains, source⟩ :: past)) (hd : drainOf n past = some d)
    (ho : opened? d past = some drain) (hg : drain.geometry = ring.geometry)
    (hzero : backlog drain.geometry d past = 0) {plan : Plan} (hplan : planned? (deeds n past) = some plan)
    {first : Nat} (hstart : plan.start = (drain.cursor + first) % drain.geometry.capacity)
    (hle : first + plan.len ≤ (stream d past).length)
    (hroom : size (chunksOffered (deeds n past)) < plan.len →
      (stream d past).length < first + size (chunksOffered (deeds n past)) + drain.geometry.capacity) :
    size (chunksOffered (deeds n past)) + span.len ≤ plan.len ∧
      bytes = ((stream d past).drop (first + size (chunksOffered (deeds n past)))).take span.len := by
  have ho' : opened? d (⟨n, .offered span bytes, drains, source⟩ :: past) = some drain := ho
  obtain ⟨r, hup⟩ := h.upstream h.2.1 ho' hg
  obtain ⟨hcourse, page, hpage, -, rfl⟩ := h.allowed hd ho rfl
  have hgeo := h.2.2.planned_geometry hd ho (planned?_mem hplan)
  generalize deeds n past = ds at *
  cases hcourse with
  | @offered _ left _ hcourse hh hleft hlt =>
    have hl := hcourse.left_of_planned hplan
    have hfits := hcourse.fits_of_planned hplan
    rw [hleft, Option.some.injEq] at hl
    rw [← hl] at hfits
    have hplanned : size (chunksOffered ds) = left.planned := by rw [hl]
    have hlen : left.len = plan.len := by rw [hl]
    have hmore := Plan.planned_add_step_le hfits
    have hroom := hroom (by omega)
    have hposition : left.position =
        (drain.cursor + (backlog drain.geometry d past + (first + size (chunksOffered ds)))) %
          drain.geometry.capacity := by
      rw [hzero, Nat.zero_add, ← Nat.add_assoc, ← Nat.mod_add_mod, ← hstart, ← hgeo, hl]
      rfl
    refine ⟨by rw [hplanned, ← hlen]; exact hmore, ?_⟩
    have hg' : left.geometry = drain.geometry := by rw [hl, hgeo]
    exact hup.chunk_eq hg' hpage hposition
      (by show _ ≤ (stream d past).length; omega) (by show (stream d past).length ≤ _; omega)

theorem mem_chunksOffered {span : Span} {bytes : Bytes} {ds : List Event} (h : (span, bytes) ∈ chunksOffered ds) :
    Event.offered span bytes ∈ ds := by
  induction ds with
  | nil => cases h
  | cons ev ds ih =>
    cases ev with
    | offered span' bytes' =>
      rcases List.mem_append.mp h with h | h
      · exact List.mem_cons_of_mem _ (ih h)
      · cases List.mem_singleton.mp h
        exact List.mem_cons_self
    | _ => exact List.mem_cons_of_mem _ (ih h)

/-- Only an offer adds to the chunks that a step offered. -/
theorem chunksOffered_cons {n : Nat} {e : Entry} (h : e.event.offers = false) :
    chunksOffered (deeds n (e :: past)) = chunksOffered (deeds n past) := by
  refine deeds_cons_of (f := chunksOffered) fun ds => ?_
  cases hev : e.event with
  | offered span bytes => rw [hev] at h; cases h
  | _ => rfl

/-- Only an acceptance adds to the chunks that a sink accepted. -/
theorem chunksAccepted_cons {n : Nat} {e : Entry} (h : e.event.accepts = false) :
    chunksAccepted (deeds n (e :: past)) = chunksAccepted (deeds n past) := by
  refine deeds_cons_of (f := chunksAccepted) fun ds => ?_
  cases hev : e.event with
  | accepted span bytes => rw [hev] at h; cases h
  | _ => rfl

/-- Only the beginning of a delivery tells a range. -/
theorem planned?_cons {n : Nat} {e : Entry} (h : e.event.plans = false) :
    planned? (deeds n (e :: past)) = planned? (deeds n past) := by
  refine deeds_cons_of (f := planned?) fun ds => ?_
  cases hev : e.event with
  | planned plan => rw [hev] at h; cases h
  | _ => rfl

/-- A chunk is as long as its span. -/
theorem Lawful.length_of_offered {origin : Source} {n : Nat} (h : Lawful origin past) (hd : drainOf n past = some d)
    (ho : opened? d past = some drain) :
    ∀ chunk ∈ chunksOffered (deeds n past), chunk.2.length = chunk.1.len := by
  rintro ⟨span, bytes⟩ hchunk
  obtain ⟨drains, source, before, hs, hd', ho', hc, page, -, hlen, rfl⟩ := h.moment hd ho (mem_chunksOffered hchunk) rfl
  cases hc with
  | @offered _ left _ hcourse hh hleft hlt =>
    obtain ⟨plan, hplan⟩ := planned?_of_left? hleft
    have hgeo := (h.suffix ((List.suffix_cons _ _).trans hs)).planned_geometry hd' ho' (planned?_mem hplan)
    have hl := hcourse.left_of_planned hplan
    rw [hleft, Option.some.injEq] at hl
    have hoff := left.offsetInPage_add_step_le
    rw [show left.geometry = plan.geometry by rw [hl], hgeo, ← hlen] at hoff
    show (List.take left.step (List.drop _ page)).length = left.step
    rw [List.length_take, List.length_drop]
    have : left.head.offsetInPage + left.step ≤ page.length := by
      rw [show left.head.offsetInPage = drain.geometry.offsetInPage left.position by
        rw [← hgeo, show plan.geometry = left.geometry by rw [hl]]; rfl]
      exact hoff
    omega

theorem length_content {chunks : List (Span × Bytes)} (h : ∀ chunk ∈ chunks, chunk.2.length = chunk.1.len) :
    (content chunks).length = size chunks := by
  induction chunks with
  | nil => rfl
  | cons chunk chunks ih =>
    obtain ⟨h1, h2⟩ := List.forall_mem_cons.mp h
    rw [content, List.map_cons, List.flatten_cons, List.length_append, h1]
    exact congrArg (chunk.1.len + ·) (ih h2)

theorem content_append (chunks more : List (Span × Bytes)) :
    content (chunks ++ more) = content chunks ++ content more := by
  simp [content]

theorem content_singleton (span : Span) (bytes : Bytes) : content [(span, bytes)] = bytes := by
  simp [content]

theorem size_append (chunks more : List (Span × Bytes)) : size (chunks ++ more) = size chunks + size more := by
  simp [size]

/-! ## Bytes claimed -/

/-- The length of a claim between two numbers of the stream that are less than a turn apart. -/
theorem Share.len_eq (g : Geometry) {c : Share} {first a b : Nat} (hstart : c.start = (first + a) % g.capacity)
    (hstop : c.stop = (first + b) % g.capacity) (hab : a ≤ b) (hba : b < a + g.capacity) : c.len g = b - a := by
  have hpos := g.capacity_pos
  have hlt : c.start < g.capacity := hstart ▸ Nat.mod_lt _ hpos
  have hb : c.stop = (c.start + (b - a)) % g.capacity := by
    rw [hstop, hstart, Nat.mod_add_mod]
    congr 1
    omega
  unfold Share.len
  rcases Nat.lt_or_ge (c.start + (b - a)) g.capacity with hroom | hturn
  · rw [Nat.mod_eq_of_lt hroom] at hb
    rw [if_pos (by omega)]
    omega
  · rw [Nat.mod_eq_sub_mod hturn, Nat.mod_eq_of_lt (by omega)] at hb
    rw [if_neg (by omega)]
    omega

/-- The number of bytes of a claim is the length of the range that is delivered. -/
theorem Share.len_of_unreadLen {g : Geometry} {c : Share} {len : Nat} (hc : c.start < g.capacity)
    (h : g.unreadLen c.start c.stop = .ok len) : c.len g = len := by
  rw [g.unreadLen_of_le (Nat.le_of_lt hc), Except.ok.injEq] at h
  exact h

/-- A claim leads from its first to its last position. -/
theorem Share.start_add_len (g : Geometry) {c : Share} (hstart : c.start < g.capacity) (hstop : c.stop < g.capacity) :
    (c.start + c.len g) % g.capacity = c.stop := by
  unfold Share.len
  split
  · rw [show c.start + (c.stop - c.start) = c.stop by omega, Nat.mod_eq_of_lt hstop]
  · rw [show c.start + (g.capacity - c.start + c.stop) = c.stop + g.capacity by omega, Nat.add_mod_right,
      Nat.mod_eq_of_lt hstop]

theorem claimedLen_claimed {g : Geometry} {m start stop retries : Nat} (hd : drainOf m past = some d) :
    claimedLen g d (⟨m, .claimed start stop retries, drains, source⟩ :: past) =
      claimedLen g d past + Share.len g ⟨m, start, stop, claimedLen g d past⟩ := by
  simp only [claimedLen, shares, hd, ↓reduceIte, List.map_append, List.sum_append, List.map_cons, List.map_nil,
    List.sum_cons, List.sum_nil, Nat.add_zero]

/-- The cursor of a shared drain, from the number of bytes claimed. -/
theorem Lawful.claimedTo_eq {origin : Source} (h : Lawful origin past) (ho : opened? d past = some drain) :
    claimedTo d past = (drain.cursor + claimedLen drain.geometry d past) % drain.geometry.capacity := by
  induction past with
  | nil => cases ho
  | cons e past ih =>
    obtain ⟨m, event, drains, source⟩ := e
    cases event with
    | opened d' cursor =>
      by_cases hdd : d' = d
      · have hlt := h.cursor_lt ho
        subst hdd
        obtain ⟨-, hnone, drain', hd', rfl, -⟩ := h.1
        obtain rfl : drain' = drain := by simpa [opened?, hd'] using ho
        have hnil : shares drain'.geometry d' past = [] := h.2.2.shares_of_unopened hnone
        simp only [claimedTo, claimedLen, shares, hnil, ↓reduceIte, List.map_nil, List.sum_nil, Nat.add_zero]
        exact (Nat.mod_eq_of_lt hlt).symm
      · simp only [opened?, hdd, ↓reduceIte] at ho
        simpa only [claimedTo, claimedLen, shares, hdd, ↓reduceIte] using ih h.2.2 ho
    | claimed start stop retries =>
      have ih := ih h.2.2 ho
      by_cases hd : drainOf m past = some d
      · obtain ⟨-, -, hstart, -, -, hstop⟩ := allowed h hd ho rfl
        have hlt := h.2.2.claimedTo_lt ho
        rw [claimedLen_claimed hd, ← Nat.add_assoc, ← Nat.mod_add_mod, ← ih, ← hstart,
          Share.start_add_len drain.geometry (c := ⟨m, start, stop, _⟩) (hstart ▸ hlt) hstop]
        simp only [claimedTo, hd, ↓reduceIte]
      · simpa only [claimedTo, claimedLen, shares, hd, ↓reduceIte] using ih
    | _ => exact ih h.2.2 ho

/-! ## Bytes not claimed yet -/

/-- Whether the writer stays less than a turn ahead of a drain that has reached a number of its stream. -/
def KeptUp (g : Geometry) (d : Nat) (reached : List Entry → Nat) : List Entry → Prop :=
  Throughout fun e past => e.event.writes → (opened? d past).isSome →
    backlog g d past + (stream d (e :: past)).length < reached past + g.capacity

/-- A claim takes all that is unread, and less than a turn is unread at any time. -/
theorem Lawful.claimedLen_le (h : Lawful (.ring ring) past) (ho : opened? d past = some drain)
    (hg : drain.geometry = ring.geometry) (hk : KeptUp drain.geometry d (claimedLen drain.geometry d) past) :
    claimedLen drain.geometry d past ≤ backlog drain.geometry d past + (stream d past).length ∧
      backlog drain.geometry d past + (stream d past).length <
        claimedLen drain.geometry d past + drain.geometry.capacity := by
  induction past with
  | nil => cases ho
  | cons e past ih =>
    obtain ⟨m, event, drains, source⟩ := e
    cases event with
    | opened d' cursor =>
      by_cases hdd : d' = d
      · subst hdd
        obtain ⟨-, hnone, -⟩ := h.1
        have hnil : shares drain.geometry d' past = [] := h.2.2.shares_of_unopened hnone
        simp only [claimedLen, shares, hnil, stream, backlog, ↓reduceIte, List.map_nil, List.sum_nil, List.length_nil,
          Nat.add_zero, Nat.zero_add]
        exact ⟨Nat.zero_le _, Nat.mod_lt _ drain.geometry.capacity_pos⟩
      · simp only [opened?, hdd, ↓reduceIte] at ho
        simpa only [claimedLen, shares, stream, backlog, hdd, ↓reduceIte] using ih h.2.2 ho hk.tail
    | wrote bytes =>
      obtain ⟨hle, -⟩ := ih h.2.2 ho hk.tail
      have hlt := hk.head rfl (by rw [show opened? d past = some drain from ho]; rfl)
      refine ⟨?_, hlt⟩
      simp only [claimedLen, shares, backlog, stream, List.length_append] at hle ⊢
      omega
    | claimed start stop retries =>
      obtain ⟨hle, hlt⟩ := ih h.2.2 ho hk.tail
      by_cases hd : drainOf m past = some d
      · obtain ⟨-, -, hstart, hlatest, -, -⟩ := allowed h hd ho rfl
        have hcursor := hstart.trans (h.2.2.claimedTo_eq ho)
        have hstop := h.2.2.sampled_eq ho hg hd hlatest
        have hlen := Share.len_eq drain.geometry (c := ⟨m, start, stop, claimedLen drain.geometry d past⟩) hcursor hstop
          hle hlt
        rw [claimedLen_claimed hd, hlen]
        simp only [backlog, stream]
        have := drain.geometry.capacity_pos
        omega
      · simpa only [claimedLen, shares, stream, backlog, hd, ↓reduceIte] using ih h.2.2 ho hk.tail
    | _ => exact ih h.2.2 ho hk.tail

end Session

end PagedRing
