import Mathlib.Algebra.Order.Floor.Div
import PagedRing.Proofs.Coverage

/-!
# How many spans a plan has

The spans that are still to come are counted from the offset of the first one in its page and the number of bytes that
are left, and the bounds that are known in advance bracket that number. The pages of the spans follow each other around
the ring, so a range comes back to a page only if it goes all the way round from the middle of one; then its last span
takes the front of the page whose back was the first.

* `Plan.drawn`: a plan after some requests, and `Plan.drawn_eq`.
* `Plan.remaining_eq_sum`, `Plan.length_spans`: the bytes and the number of the spans that are left.
* `Plan.sizeHint_eq_error_iff`, `Plan.length_between`: the bounds on that number.
* `Plan.page_of_getElem?`: the page of each span.
* `Plan.Census`, `Plan.Revisits`: all of it, and `Plan.counted`.
-/

namespace PagedRing.Plan

variable {p : Plan} {l : List Span}

/-- The plan after `count` requests for spans. -/
def drawn : (count : Nat) → Plan → Except Fault Plan
  | 0, p => .ok p
  | count + 1, p => do
    let (_, rest) ← p.draw
    drawn count rest

/-- After some requests the spans that answered them are planned. -/
theorem drawn_eq (h : p.Fits) (hl : p.spans = .ok l) (count : Nat) :
    p.drawn count = .ok (p.drop ((l.take count).map Span.len).sum) := by
  induction count generalizing p l with
  | zero => rfl
  | succ count ih =>
    cases l with
    | nil =>
      rw [drawn, draw_of_end h ((spans_eq_nil_iff h).mp hl), List.take_nil]
      rw [← List.take_nil (i := count)]
      exact ih h hl
    | cons span l =>
      obtain ⟨hlt, rfl, hrest⟩ := (spans_eq_cons_iff h).mp hl
      rw [drawn, draw_of_lt h hlt, List.take_succ_cons, List.map_cons, List.sum_cons, ← drop_drop]
      exact ih h.skip hrest

/-! ## Bytes and spans that are left -/

/-- What remains of a range is what the spans to come are long. -/
theorem remaining_eq_sum (h : p.Fits) (hl : p.spans = .ok l) : p.remaining = (l.map Span.len).sum := by
  have hpositions := congrArg List.length (flatMap_positions h hl)
  rw [List.length_map, List.length_range', List.length_flatMap] at hpositions
  simp only [Span.positions, List.length_range'] at hpositions
  exact hpositions.symm

/-- The number of spans of a range of `len` bytes that starts at `offset` in a page. -/
def spanCount (g : Geometry) (offset len : Nat) : Nat :=
  if len = 0 then 0 else (offset + len) ⌈/⌉ g.pageSize

/-- A range whose first span does not leave its page has one span. -/
theorem spanCount_of_le {g : Geometry} {offset len : Nat} (hlen : 0 < len) (h : offset + len ≤ g.pageSize) :
    spanCount g offset len = 1 := by
  rw [spanCount, if_neg (Nat.ne_of_gt hlen)]
  apply Nat.le_antisymm
  · rw [ceilDiv_le_iff_le_mul g.pageSize_pos, Nat.mul_one]
    exact h
  · refine Nat.lt_of_not_le fun hle => ?_
    rw [ceilDiv_le_iff_le_mul g.pageSize_pos, Nat.mul_zero] at hle
    omega

/-- Any other one has one more than what is left after its first page. -/
theorem spanCount_of_lt {g : Geometry} {offset step len : Nat} (hstep : offset + step = g.pageSize) (h : step < len) :
    spanCount g offset len = spanCount g 0 (len - step) + 1 := by
  rw [spanCount, spanCount, if_neg (by omega), if_neg (by omega)]
  refine eq_of_forall_ge_iff fun count => ?_
  rw [ceilDiv_le_iff_le_mul g.pageSize_pos]
  cases count with
  | zero =>
    rw [Nat.mul_zero]
    omega
  | succ count =>
    rw [Nat.add_le_add_iff_right, ceilDiv_le_iff_le_mul g.pageSize_pos, Nat.mul_succ]
    omega

theorem length_spans (h : p.Fits) (hl : p.spans = .ok l) :
    l.length = spanCount p.geometry (p.geometry.offsetInPage p.position) p.remaining := by
  induction h using Fits.induction generalizing l with
  | stop p h hend =>
    rw [spans_of_end h hend] at hl
    cases hl
    rw [remaining, hend, Nat.sub_self]
    rfl
  | span p h hlt ih =>
    obtain ⟨rest, hrest⟩ := exists_spans h.skip
    rw [spans_of_lt h hlt, hrest] at hl
    cases hl
    have hlen : rest.length = spanCount p.geometry (p.geometry.offsetInPage p.skip.position) p.skip.remaining :=
      ih hrest
    have hstep := step_pos hlt
    rcases Nat.lt_or_eq_of_le (planned_add_step_le h) with hmore | hend
    · have hleft : p.skip.remaining = p.remaining - p.step := by
        simp only [remaining, skip]
        omega
      rw [offsetInPage_skip hmore, hleft] at hlen
      have hlonger : p.step < p.remaining := by
        rw [remaining]
        omega
      rw [List.length_cons, hlen, spanCount_of_lt (offsetInPage_add_step hmore) hlonger]
    · have hinside := p.offsetInPage_add_step_le
      obtain rfl : rest = [] := Except.ok.inj (hrest.symm.trans (spans_of_end h.skip hend))
      have hall : p.remaining = p.step := by
        rw [remaining]
        omega
      rw [hall, spanCount_of_le hstep hinside]
      rfl

/-! ## Bounds that are known in advance -/

/-- Without the offset of the first span, its number is known up to one. -/
theorem spanCount_bounds {g : Geometry} {offset len : Nat} (hoffset : offset < g.pageSize) (hlen : len ≠ 0) :
    len ⌈/⌉ g.pageSize ≤ spanCount g offset len ∧ spanCount g offset len ≤ len ⌈/⌉ g.pageSize + 1 := by
  rw [spanCount, if_neg hlen]
  have hshort := (ceilDiv_le_iff_le_mul g.pageSize_pos).mp (Nat.le_refl (len ⌈/⌉ g.pageSize))
  have hlong := (ceilDiv_le_iff_le_mul g.pageSize_pos).mp (Nat.le_refl ((offset + len) ⌈/⌉ g.pageSize))
  rw [ceilDiv_le_iff_le_mul g.pageSize_pos, ceilDiv_le_iff_le_mul g.pageSize_pos, Nat.mul_succ]
  omega

theorem sizeHint_of_pos (h : p.remaining ≠ 0) : p.sizeHint =
    (Word.add (p.remaining ⌈/⌉ p.geometry.pageSize) 1).map fun upper =>
      (p.remaining ⌈/⌉ p.geometry.pageSize, upper) := by
  rw [sizeHint, if_neg h, Nat.ceilDiv_eq_add_pred_div, Nat.add_sub_assoc p.geometry.pageSize_pos]
  rfl

/-- The larger bound is a word, unless the pages are single bytes and as many are left as there can be. -/
theorem ceilDiv_lt_iff (h : p.Fits) : p.remaining ⌈/⌉ p.geometry.pageSize + 1 < wordBound ↔
    ¬(p.geometry.pageSize = 1 ∧ p.remaining = 2 ^ 64 - 1) := by
  have hw : wordBound = 2 ^ 64 := rfl
  have hcapacity := p.geometry.capacity_lt
  have hlen := h.len_le
  have hremaining : p.remaining < wordBound := by
    rw [remaining]
    omega
  rcases Nat.lt_or_eq_of_le p.geometry.pageSize_pos with hpage | hpage
  · have hfew : p.remaining ⌈/⌉ p.geometry.pageSize ≤ wordBound - 2 := by
      rw [ceilDiv_le_iff_le_mul p.geometry.pageSize_pos]
      have hdouble : 2 * (wordBound - 2) ≤ p.geometry.pageSize * (wordBound - 2) := Nat.mul_le_mul_right _ hpage
      omega
    omega
  · have hone : p.geometry.pageSize = 1 := Eq.symm hpage
    rw [hone, ceilDiv_one]
    omega

/-- There are no bounds exactly if the larger one is no word. -/
theorem sizeHint_eq_error_iff (h : p.Fits) :
    (∃ fault, p.sizeHint = .error fault) ↔ p.geometry.pageSize = 1 ∧ p.remaining = 2 ^ 64 - 1 := by
  by_cases hzero : p.remaining = 0
  · rw [sizeHint, if_pos hzero, hzero]
    simp
  · rw [sizeHint_of_pos hzero, Word.add, ← not_iff_not, ← ceilDiv_lt_iff h]
    split
    · next hfits => simp only [Except.map, reduceCtorEq, exists_false, not_false_eq_true, hfits]
    · next hover => simp only [Except.map, Except.error.injEq, exists_eq', not_true_eq_false, hover]

/-- The bounds bracket the number of spans to come. -/
theorem length_between (h : p.Fits) (hl : p.spans = .ok l) {lower upper : Nat} (hhint : p.sizeHint = .ok (lower, upper)) :
    lower ≤ l.length ∧ l.length ≤ upper := by
  have hoffset := p.geometry.offsetInPage_lt p.position
  rw [length_spans h hl]
  by_cases hzero : p.remaining = 0
  · rw [sizeHint, if_pos hzero] at hhint
    cases hhint
    rw [spanCount, if_pos hzero]
    exact ⟨Nat.le_refl 0, Nat.le_refl 0⟩
  · rw [sizeHint_of_pos hzero, Word.add] at hhint
    split at hhint
    · cases hhint
      exact spanCount_bounds hoffset hzero
    · cases hhint

/-! ## Pages of a whole range -/

/-- The pages of the spans follow each other around the ring. -/
theorem page_of_getElem? (h : p.Fits) (hl : p.spans = .ok l) {i : Nat} {span : Span} (hspan : l[i]? = some span) :
    span.page = (p.geometry.pageOf p.position + i) % p.geometry.pageCount := by
  induction h using Fits.induction generalizing l i with
  | stop p h hend =>
    rw [spans_of_end h hend] at hl
    cases hl
    cases hspan
  | span p h hlt ih =>
    obtain ⟨rest, hrest⟩ := exists_spans h.skip
    rw [spans_of_lt h hlt, hrest] at hl
    cases hl
    cases i with
    | zero =>
      cases hspan
      exact (Nat.mod_eq_of_lt (p.geometry.pageOf_lt p.position_lt)).symm
    | succ i =>
      have hmore : p.planned + p.step < p.len := by
        refine Nat.lt_of_le_of_ne (planned_add_step_le h) fun hend => ?_
        rw [spans_of_end h.skip hend] at hrest
        cases hrest
        cases hspan
      have hpage : span.page = (p.geometry.pageOf p.skip.position + i) % p.geometry.pageCount := ih hrest hspan
      rw [hpage, pageOf_skip hmore, Nat.mod_add_mod, Nat.add_right_comm, Nat.add_assoc]

/-- Pages that follow each other around the ring are the same ones exactly if all of them lie between. -/
theorem page_eq_iff {first count i j : Nat} (hij : i < j) (hcount : j ≤ count) :
    (first + i) % count = (first + j) % count ↔ i = 0 ∧ j = count := by
  constructor
  · intro heq
    have hmod := Nat.sub_mod_eq_zero_of_mod_eq heq.symm
    rw [Nat.add_sub_add_left] at hmod
    rcases Nat.lt_or_eq_of_le (show j - i ≤ count by omega) with hlt | hall
    · rw [Nat.mod_eq_of_lt hlt] at hmod
      omega
    · omega
  · rintro ⟨rfl, rfl⟩
    rw [Nat.add_mod_right, Nat.add_zero]

/-- What a range does with the pages of its ring. -/
structure Revisits (g : Geometry) (start len : Nat) (spans : List Span) : Prop where
  /-- Only the first span and the last one may name one page, and they do if the range goes all the way round from the
  middle of it. -/
  page_eq_iff : ∀ i j a b, i < j → spans[i]? = some a → spans[j]? = some b →
    (a.page = b.page ↔ g.capacity < g.offsetInPage start + len ∧ i = 0 ∧ j + 1 = spans.length)
  /-- Then there are both of them, and one span more than pages; the last one ends in front of the first. -/
  turn : g.capacity < g.offsetInPage start + len → spans.length = g.pageCount + 1 ∧
    ∃ first middle last, spans = first :: (middle ++ [last]) ∧ first.page = last.page ∧
      last.offsetInPage + last.len ≤ first.offsetInPage

section

variable {g : Geometry} {start len : Nat}

/-- A range has at most one span more than there are pages, and that many exactly if it comes back to its first page. -/
theorem length_of_range (hstart : start < g.capacity) (hlen : len ≤ g.capacity)
    (hl : spans ⟨g, start, len, 0⟩ = .ok l) : l.length ≤ g.pageCount + 1 ∧
      (g.capacity < g.offsetInPage start + len ↔ l.length = g.pageCount + 1) := by
  have hoffset := g.offsetInPage_lt start
  have hpages := g.pageCount_mul_pageSize
  have hposition : position ⟨g, start, len, 0⟩ = start := Nat.mod_eq_of_lt hstart
  have hcount : l.length = spanCount g (g.offsetInPage start) len := by
    rw [length_spans (fits_of_range hstart hlen).2 hl, hposition]
    rfl
  rw [hcount, spanCount]
  split
  · have := g.pageSize_le
    omega
  · have hle := ceilDiv_le_iff_le_mul (b := g.offsetInPage start + len) (c := g.pageCount) g.pageSize_pos
    have hle' := ceilDiv_le_iff_le_mul (b := g.offsetInPage start + len) (c := g.pageCount + 1) g.pageSize_pos
    rw [Nat.mul_comm, hpages] at hle
    rw [Nat.mul_succ, Nat.mul_comm, hpages] at hle'
    omega

/-- The last span of a range that comes back to a page ends in front of the first one, as no position is named twice. -/
theorem Cover.ends_before {plan : Plan} {first last : Span} {middle : List Span}
    (h : Cover g start len plan (first :: (middle ++ [last]))) (hpage : first.page = last.page) :
    last.offsetInPage + last.len ≤ first.offsetInPage := by
  have hfirst := h.tile [] first (middle ++ [last]) rfl
  have hlast := h.tile (first :: middle) last [] rfl
  have hzero := hlast.starts (List.cons_ne_nil _ _)
  have hplace := hfirst.offset
  have hplace' := hlast.offset
  rw [hpage] at hplace
  have hlen := hfirst.len_pos
  refine Nat.le_of_not_lt fun hover => ?_
  -- else both of them name the position of the first byte
  have hnodup := h.nodup
  rw [List.flatMap_cons, List.nodup_append] at hnodup
  refine hnodup.2.2 first.offset ?_ first.offset ?_ rfl
  · rw [Span.positions, List.mem_range'_1]
    omega
  · rw [List.flatMap_append, List.mem_append]
    refine .inr ?_
    rw [List.flatMap_singleton, Span.positions, List.mem_range'_1]
    omega

theorem revisits {plan : Plan} (hstart : start < g.capacity) (hlen : len ≤ g.capacity)
    (h : Cover g start len plan l) : Revisits g start len l := by
  obtain ⟨hplan, hfits⟩ := fits_of_range hstart hlen
  obtain rfl : plan = ⟨g, start, len, 0⟩ := Except.ok.inj (h.range_eq.symm.trans hplan)
  obtain ⟨hmost, hround⟩ := length_of_range hstart hlen h.spans_eq
  have hsame : ∀ i j a b, i < j → l[i]? = some a → l[j]? = some b →
      (a.page = b.page ↔ g.capacity < g.offsetInPage start + len ∧ i = 0 ∧ j + 1 = l.length) := by
    intro i j a b hij ha hb
    have hj : j < l.length := (List.getElem?_eq_some_iff.mp hb).1
    have hpage : a.page = b.page ↔ i = 0 ∧ j = g.pageCount := by
      rw [page_of_getElem? hfits h.spans_eq ha, page_of_getElem? hfits h.spans_eq hb]
      apply page_eq_iff hij
      show j ≤ g.pageCount
      omega
    rw [hpage, hround]
    omega
  refine ⟨hsame, fun hover => ?_⟩
  have hlength := hround.mp hover
  have hpages : 0 < g.pageCount := Nat.div_pos g.pageSize_le g.pageSize_pos
  obtain ⟨first, rest, rfl⟩ := List.exists_cons_of_length_eq_add_one hlength
  have hrest : rest ≠ [] := by
    rintro rfl
    simp at hlength
    omega
  obtain ⟨middle, last, rfl⟩ : ∃ middle last, rest = middle ++ [last] :=
    ⟨rest.dropLast, rest.getLast hrest, (List.dropLast_append_getLast hrest).symm⟩
  have hpage : first.page = last.page := by
    refine (hsame 0 (middle.length + 1) first last (Nat.succ_pos _) rfl ?_).mpr ⟨hover, rfl, ?_⟩
    · simp
    · simp
  exact ⟨hlength, first, middle, last, rfl, hpage, h.ends_before hpage⟩

end

/-! ## Every range -/

/-- What a plan with these spans to come knows of them. -/
structure Census (p : Plan) (spans : List Span) : Prop where
  /-- They are those that further requests are answered with. -/
  spans_eq : p.spans = .ok spans
  /-- What remains is as long as they are. -/
  remaining : p.remaining = (spans.map Span.len).sum
  /-- Their number, from the offset of the next position and what remains. -/
  length : spans.length = if p.remaining = 0 then 0 else
    (p.geometry.offsetInPage p.position + p.remaining) ⌈/⌉ p.geometry.pageSize
  /-- There are no bounds on it exactly in one corner. -/
  unhinted_iff : (∃ fault, p.sizeHint = .error fault) ↔ p.geometry.pageSize = 1 ∧ p.remaining = 2 ^ 64 - 1
  /-- If there are, they bracket it. -/
  hinted : ∀ lower upper, p.sizeHint = .ok (lower, upper) → lower ≤ spans.length ∧ spans.length ≤ upper

theorem census (h : p.Fits) (hl : p.spans = .ok l) : Census p l :=
  ⟨hl, remaining_eq_sum h hl, length_spans h hl, sizeHint_eq_error_iff h, fun _ _ => length_between h hl⟩

/-- In every range that starts in the ring and goes around it at most once, the spans to come are counted after any
number of requests, and a page is named twice only by the first and the last of them all. -/
theorem counted (g : Geometry) {start len : Nat} (hstart : start < g.capacity) (hlen : len ≤ g.capacity) :
    ∃ plan spans, ofRange g start len = .ok plan ∧
      (∀ count, ∃ rest, plan.drawn count = .ok rest ∧ Census rest (spans.drop count)) ∧
      Revisits g start len spans := by
  obtain ⟨hplan, hfits⟩ := fits_of_range hstart hlen
  obtain ⟨spans, hspans⟩ := exists_spans hfits
  refine ⟨_, spans, hplan, fun count => ⟨_, drawn_eq hfits hspans count, ?_⟩,
    revisits hstart hlen (cover_of_spans hstart hlen hspans)⟩
  rw [← List.take_append_drop count spans] at hspans
  obtain ⟨hrest, hspans, -⟩ := split hfits hspans
  exact census hrest hspans

/-- Five pages of four bytes each. -/
def fivePages : Geometry := ⟨20, 4, by decide, by decide, by decide⟩

/-- The largest ring whose size is a machine word, in pages of single bytes. -/
def finest : Geometry := { widest with pageSize := 1, pageSize_dvd := Nat.one_dvd _ }

/-- The whole ring from the middle of its second page on, and the corner in which there are no bounds. -/
theorem counted_from_mid_page :
    6 < fivePages.capacity ∧ 20 ≤ fivePages.capacity ∧
      (∃ plan spans, ofRange fivePages 6 20 = .ok plan ∧
        (∀ count, ∃ rest, plan.drawn count = .ok rest ∧ Census rest (spans.drop count)) ∧
        Revisits fivePages 6 20 spans) ∧
      draws 7 ⟨fivePages, 6, 20, 0⟩ = .ok [
        some ⟨6, 1, 2, 2, ⟨false, false, false⟩⟩, some ⟨8, 2, 0, 4, ⟨true, false, false⟩⟩,
        some ⟨12, 3, 0, 4, ⟨true, false, false⟩⟩, some ⟨16, 4, 0, 4, ⟨true, false, false⟩⟩,
        some ⟨0, 0, 0, 4, ⟨true, true, false⟩⟩, some ⟨4, 1, 0, 2, ⟨false, true, true⟩⟩, none] ∧
      sizeHint ⟨finest, 0, finest.capacity, 0⟩ = .error .addOverflow := by
  refine ⟨by decide, by decide, ?_, by decide +kernel, by decide +kernel⟩
  exact counted fivePages (by decide) (by decide)

end PagedRing.Plan
