import Mathlib.Algebra.Order.Ring.Nat
import Mathlib.Data.List.Nodup
import PagedRing.Proofs.Tiling

/-!
# What a plan covers

The spans of a plan cover its range: one after the other, they name each of its positions once, in the order in which
they lie around the ring. A plan that is asked again after its last span answers that there is none.

* `Plan.draw`, `Plan.draws`: requests for spans, also beyond the last one.
* `Plan.flatMap_positions`: the positions of all spans.
* `Plan.split`: a span of a plan is the head of what the spans before it leave.
* `Plan.Tile`: how a span lies between the others, and `Plan.tile`.
* `Plan.covers`: all of it for a range of the ring.
-/

namespace PagedRing

/-- The positions of the bytes of a span in the ring, in order. -/
def Span.positions (s : Span) : List Nat := List.range' s.offset s.len

namespace Plan

/-! ## Requests -/

/-- The answer to a request for a span, and the plan after it; a plan at its end stays there. -/
def draw (p : Plan) : Except Fault (Option Span × Plan) := do
  match ← p.next with
  | none => return (none, p)
  | some (span, rest) => return (some span, rest)

/-- The answers to `count` requests, one after the other. -/
def draws : (count : Nat) → Plan → Except Fault (List (Option Span))
  | 0, _ => .ok []
  | count + 1, p => do
    let (answer, rest) ← p.draw
    let more ← draws count rest
    return answer :: more

variable {p : Plan} {l : List Span}

theorem draw_of_end (h : p.Fits) (hend : p.planned = p.len) : p.draw = .ok (none, p) := by
  rw [draw, (next_eq_none_iff h).mpr hend]
  rfl

theorem draw_of_lt (h : p.Fits) (hlt : p.planned < p.len) : p.draw = .ok (some p.head, p.skip) := by
  rw [draw, (next_eq_some_iff h).mpr ⟨hlt, rfl, rfl⟩]
  rfl

theorem spans_eq_nil_iff (h : p.Fits) : p.spans = .ok [] ↔ p.planned = p.len := by
  constructor
  · intro hnil
    rcases Nat.lt_or_eq_of_le h.planned_le with hlt | hend
    · obtain ⟨l, hl⟩ := exists_spans h.skip
      rw [spans_of_lt h hlt, hl] at hnil
      cases hnil
    · exact hend
  · exact spans_of_end h

theorem spans_eq_cons_iff (h : p.Fits) {span : Span} :
    p.spans = .ok (span :: l) ↔ p.planned < p.len ∧ span = p.head ∧ p.skip.spans = .ok l := by
  constructor
  · intro hcons
    rcases Nat.lt_or_eq_of_le h.planned_le with hlt | hend
    · obtain ⟨rest, hrest⟩ := exists_spans h.skip
      rw [spans_of_lt h hlt, hrest] at hcons
      cases hcons
      exact ⟨hlt, rfl, hrest⟩
    · rw [spans_of_end h hend] at hcons
      cases hcons
  · rintro ⟨hlt, rfl, hrest⟩
    rw [spans_of_lt h hlt, hrest]
    rfl

/-- The first requests are answered by the spans, in order, and all others by nothing. -/
theorem draws_eq (h : p.Fits) (hl : p.spans = .ok l) (count : Nat) :
    p.draws count = .ok ((List.range count).map fun i => l[i]?) := by
  induction count generalizing p l with
  | zero => rfl
  | succ count ih =>
    rw [List.range_succ_eq_map, List.map_cons, List.map_map]
    cases l with
    | nil =>
      rw [draws, draw_of_end h ((spans_eq_nil_iff h).mp hl)]
      simp only [bind, Except.bind, ih h hl]
      rfl
    | cons span l =>
      obtain ⟨hlt, rfl, hrest⟩ := (spans_eq_cons_iff h).mp hl
      rw [draws, draw_of_lt h hlt]
      simp only [bind, Except.bind, ih h.skip hrest]
      rfl

/-! ## Positions -/

/-- A span does not leave the ring. -/
theorem position_add_step_le (p : Plan) : p.position + p.step ≤ p.geometry.capacity := by
  have hpage := p.geometry.pageOf_lt p.position_lt
  have hpages : (p.geometry.pageOf p.position + 1) * p.geometry.pageSize ≤ p.geometry.capacity := by
    rw [← p.geometry.pageCount_mul_pageSize]
    exact Nat.mul_le_mul_right _ hpage
  have hposition := p.geometry.pageOf_mul_add_offsetInPage p.position
  have hstep := p.offsetInPage_add_step_le
  rw [Nat.succ_mul] at hpages
  omega

/-- A position of the next span, from its number in the range. -/
theorem position_add {i : Nat} (h : i < p.step) :
    p.position + i = (p.start + (p.planned + i)) % p.geometry.capacity := by
  have hlt : p.position + i < p.geometry.capacity := by
    have := p.position_add_step_le
    omega
  rw [← Nat.add_assoc, ← Nat.mod_add_mod]
  exact (Nat.mod_eq_of_lt hlt).symm

theorem positions_head (p : Plan) :
    p.head.positions = (List.range' p.planned p.step).map fun i => (p.start + i) % p.geometry.capacity := by
  show List.range' p.position p.step = _
  rw [List.range'_eq_map_range, List.range'_eq_map_range, List.map_map]
  refine List.map_congr_left fun i hi => ?_
  exact position_add (List.mem_range.mp hi)

/-- The spans name the positions that are not planned yet, each once and in order. -/
theorem flatMap_positions (h : p.Fits) (hl : p.spans = .ok l) : l.flatMap Span.positions =
    (List.range' p.planned (p.len - p.planned)).map fun i => (p.start + i) % p.geometry.capacity := by
  induction h using Fits.induction generalizing l with
  | stop p h hend =>
    rw [spans_of_end h hend] at hl
    cases hl
    rw [hend, Nat.sub_self]
    rfl
  | span p h hlt ih =>
    obtain ⟨rest, hrest⟩ := exists_spans h.skip
    rw [spans_of_lt h hlt, hrest] at hl
    cases hl
    have hle := planned_add_step_le h
    have hsplit : p.len - p.planned = p.step + (p.skip.len - p.skip.planned) := by
      simp only [skip]
      omega
    rw [List.flatMap_cons, positions_head, ih hrest, hsplit, ← List.range'_append_1, List.map_append]
    rfl

/-- Different bytes of a range that fits lie at different positions. -/
theorem nodup_positions (g : Geometry) (start : Nat) {len : Nat} (hlen : len ≤ g.capacity) :
    ((List.range len).map fun i => (start + i) % g.capacity).Nodup := by
  refine List.Nodup.map_on ?_ List.nodup_range
  intro i hi j hj heq
  rw [List.mem_range] at hi hj
  rcases Nat.le_total i j with hij | hji
  · exact g.eq_of_same_position heq.symm hij (by omega)
  · exact (g.eq_of_same_position heq hji (by omega)).symm

/-! ## Spans between others -/

/-- The plan after its next bytes. -/
def drop (p : Plan) (count : Nat) : Plan := { p with planned := p.planned + count }

@[simp] theorem drop_zero (p : Plan) : p.drop 0 = p := rfl

theorem drop_drop (p : Plan) (a b : Nat) : (p.drop a).drop b = p.drop (a + b) := by
  simp only [drop, Nat.add_assoc]

/-- A span that ends before its range ends with its page. -/
theorem offsetInPage_add_step (h : p.planned + p.step < p.len) :
    p.geometry.offsetInPage p.position + p.step = p.geometry.pageSize := by
  have hoffset := p.geometry.offsetInPage_lt p.position
  unfold step at h ⊢
  omega

/-- So the next one starts the next page, around the ring. -/
theorem position_skip_eq (h : p.planned + p.step < p.len) :
    p.skip.position = (p.geometry.pageOf p.position + 1) % p.geometry.pageCount * p.geometry.pageSize := by
  have hpage := p.geometry.pageOf_mul_add_offsetInPage p.position
  have hends := offsetInPage_add_step h
  have hmul : p.position + p.step = (p.geometry.pageOf p.position + 1) * p.geometry.pageSize := by
    rw [Nat.succ_mul]
    omega
  rw [position_skip, hmul, ← p.geometry.pageCount_mul_pageSize, Nat.mul_mod_mul_right]

theorem offsetInPage_skip (h : p.planned + p.step < p.len) : p.geometry.offsetInPage p.skip.position = 0 := by
  rw [position_skip_eq h, Geometry.offsetInPage, Nat.mul_mod_left]

theorem pageOf_skip (h : p.planned + p.step < p.len) :
    p.geometry.pageOf p.skip.position = (p.geometry.pageOf p.position + 1) % p.geometry.pageCount := by
  rw [position_skip_eq h, Geometry.pageOf, Nat.mul_div_cancel _ p.geometry.pageSize_pos]

/-- What the first spans of a plan leave has the others; it starts with a page, unless it is the whole plan. -/
theorem split {before after : List Span} (h : p.Fits) (hl : p.spans = .ok (before ++ after)) :
    (p.drop (before.map Span.len).sum).Fits ∧ (p.drop (before.map Span.len).sum).spans = .ok after ∧
      (before ≠ [] → after ≠ [] →
        p.geometry.offsetInPage (p.drop (before.map Span.len).sum).position = 0) := by
  induction before generalizing p with
  | nil => exact ⟨h, hl, fun hne => absurd rfl hne⟩
  | cons span before ih =>
    obtain ⟨hlt, rfl, hrest⟩ := (spans_eq_cons_iff h).mp hl
    obtain ⟨hfits, hspans, hstart⟩ := ih h.skip hrest
    have hdrop : p.drop ((p.head :: before).map Span.len).sum = p.skip.drop (before.map Span.len).sum := by
      rw [List.map_cons, List.sum_cons, ← drop_drop]
      rfl
    rw [hdrop]
    refine ⟨hfits, hspans, fun _ hafter => ?_⟩
    cases before with
    | nil =>
      refine offsetInPage_skip ?_
      refine Nat.lt_of_le_of_ne (planned_add_step_le h) fun hend => hafter ?_
      exact Except.ok.inj (hrest.symm.trans (spans_of_end h.skip hend))
    | cons span before => exact hstart (List.cons_ne_nil _ _) hafter

/-- How a span lies in the range from `start`, between the spans before and after it. -/
structure Tile (g : Geometry) (start : Nat) (before : List Span) (span : Span) (after : List Span) : Prop where
  /-- It is not empty. -/
  len_pos : 0 < span.len
  /-- Its page and its offset there tell its place in the ring. -/
  offset : span.page * g.pageSize + span.offsetInPage = span.offset
  /-- It does not leave its page. -/
  inside : span.offsetInPage + span.len ≤ g.pageSize
  /-- Its page is one of the ring. -/
  page_lt : span.page < g.pageCount
  /-- Only the first one may start inside a page. -/
  starts : before ≠ [] → span.offsetInPage = 0
  /-- Only the last one may end inside a page. -/
  ends : after ≠ [] → span.offsetInPage + span.len = g.pageSize
  /-- A whole page is flagged. -/
  fullPage : span.flags.fullPage = true ↔ span.len = g.pageSize
  /-- It is flagged if the spans before it reach the end of the ring. -/
  wrapped : span.flags.wrapped = true ↔ g.capacity - start ≤ (before.map Span.len).sum
  /-- Those are the spans below the start of the range. -/
  below : span.flags.wrapped = true ↔ span.offset < start
  /-- The last one is flagged. -/
  last : span.flags.last = true ↔ after = []

/-- The next span of a plan lies past the end of the ring if its bytes lie below the start of the range. -/
theorem position_lt_start_iff (h : p.Fits) (hlt : p.planned < p.len) :
    p.position < p.start ↔ p.geometry.capacity - p.start ≤ p.planned := by
  have hstart := h.start_lt
  have hlen := h.len_le
  rw [position]
  rcases Nat.lt_or_ge (p.start + p.planned) p.geometry.capacity with hin | hout
  · rw [Nat.mod_eq_of_lt hin]
    omega
  · rw [Nat.mod_eq_sub_mod hout, Nat.mod_eq_of_lt (by omega)]
    omega

/-- Every span of a range lies as it should. -/
theorem tile {before after : List Span} {span : Span} (h : p.Fits) (hzero : p.planned = 0)
    (hl : p.spans = .ok (before ++ span :: after)) : Tile p.geometry p.start before span after := by
  obtain ⟨hfits, hspans, hstart⟩ := split h hl
  have hplanned : (p.drop (before.map Span.len).sum).planned = (before.map Span.len).sum := by
    rw [drop, hzero, Nat.zero_add]
  generalize hq : p.drop (before.map Span.len).sum = q at *
  obtain ⟨hg, hs⟩ : q.geometry = p.geometry ∧ q.start = p.start := by
    rw [← hq]
    exact ⟨rfl, rfl⟩
  rw [← hg, ← hs]
  rw [← hg] at hstart
  obtain ⟨hlt, rfl, hrest⟩ := (spans_eq_cons_iff hfits).mp hspans
  have hlast : after = [] ↔ q.planned + q.step = q.len := by
    have hnil := spans_eq_nil_iff hfits.skip
    rw [hrest, Except.ok.injEq] at hnil
    exact hnil
  exact {
    len_pos := step_pos hlt
    offset := q.geometry.pageOf_mul_add_offsetInPage q.position
    inside := q.offsetInPage_add_step_le
    page_lt := q.geometry.pageOf_lt q.position_lt
    starts := fun hne => hstart hne (List.cons_ne_nil _ _)
    ends := fun hne => offsetInPage_add_step (Nat.lt_of_le_of_ne (planned_add_step_le hfits) fun heq =>
      hne (hlast.mpr heq))
    fullPage := beq_iff_eq
    wrapped := by rw [← hplanned]; exact decide_eq_true_iff
    below := Iff.trans decide_eq_true_iff (position_lt_start_iff hfits hlt).symm
    last := Iff.trans beq_iff_eq hlast.symm }

/-! ## Whole ranges -/

/-- How the spans of a plan cover the range of `len` bytes from `start`. -/
structure Cover (g : Geometry) (start len : Nat) (plan : Plan) (spans : List Span) : Prop where
  /-- The range is accepted. -/
  range_eq : ofRange g start len = .ok plan
  /-- The plan has these spans. -/
  spans_eq : plan.spans = .ok spans
  /-- No request fails: the first ones are answered by the spans, and all others by nothing. -/
  draws : ∀ count, plan.draws count = .ok ((List.range count).map fun i => spans[i]?)
  /-- The spans name the positions of the range in order. -/
  positions : spans.flatMap Span.positions = (List.range len).map fun i => (start + i) % g.capacity
  /-- They name none of them twice. -/
  nodup : (spans.flatMap Span.positions).Nodup
  /-- Each of them lies as it should. -/
  tile : ∀ before span after, spans = before ++ span :: after → Tile g start before span after

theorem cover_of_spans {g : Geometry} {start len : Nat} {l : List Span} (hstart : start < g.capacity)
    (hlen : len ≤ g.capacity) (hl : spans ⟨g, start, len, 0⟩ = .ok l) : Cover g start len ⟨g, start, len, 0⟩ l := by
  obtain ⟨hplan, hfits⟩ := fits_of_range hstart hlen
  have hpositions := flatMap_positions hfits hl
  rw [← List.range_eq_range'] at hpositions
  refine ⟨hplan, hl, draws_eq hfits hl, hpositions, ?_, ?_⟩
  · rw [hpositions]
    exact nodup_positions g start hlen
  · rintro before span after rfl
    exact tile hfits rfl hl

/-- The spans of a range are as long as the range. -/
theorem Cover.sum_len {g : Geometry} {start len : Nat} {plan : Plan} {l : List Span} (h : Cover g start len plan l) :
    (l.map Span.len).sum = len := by
  have hlength := congrArg List.length h.positions
  simpa [List.length_flatMap, Span.positions] using hlength

/-- A span of a range lies between the others. -/
theorem Cover.tile_of_mem {g : Geometry} {start len : Nat} {plan : Plan} {l : List Span} {span : Span}
    (h : Cover g start len plan l) (hmem : span ∈ l) : ∃ before after, Tile g start before span after := by
  obtain ⟨before, after, rfl⟩ := List.append_of_mem hmem
  exact ⟨before, after, h.tile before span after rfl⟩

/-- A range that starts in the ring and goes around it at most once is covered by the spans of its plan. -/
theorem covers (g : Geometry) {start len : Nat} (hstart : start < g.capacity) (hlen : len ≤ g.capacity) :
    ∃ plan spans, Cover g start len plan spans := by
  obtain ⟨spans, hspans⟩ := exists_spans (fits_of_range hstart hlen).2
  exact ⟨_, spans, cover_of_spans hstart hlen hspans⟩

/-- The largest ring whose size is a machine word, in pages of three bytes. -/
def widest : Geometry := ⟨18446744073709551615, 3, by decide, by decide, by decide⟩

/-- Nine bytes around the end of the largest ring. -/
theorem covers_around_the_end :
    18446744073709551611 < widest.capacity ∧ 9 ≤ widest.capacity ∧
      (∃ plan spans, Cover widest 18446744073709551611 9 plan spans) ∧
      draws 6 ⟨widest, 18446744073709551611, 9, 0⟩ = .ok [
        some ⟨18446744073709551611, 6148914691236517203, 2, 1, ⟨false, false, false⟩⟩,
        some ⟨18446744073709551612, 6148914691236517204, 0, 3, ⟨true, false, false⟩⟩,
        some ⟨0, 0, 0, 3, ⟨true, true, false⟩⟩,
        some ⟨3, 1, 0, 2, ⟨false, true, true⟩⟩, none, none] := by
  refine ⟨by decide, by decide, ?_, by decide +kernel⟩
  exact covers widest (by decide) (by decide)

end Plan

end PagedRing
