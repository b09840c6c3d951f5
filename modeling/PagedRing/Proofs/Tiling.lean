import PagedRing.Delivery

/-!
# Plans that fit their ring

A plan fits if its range starts in the ring and goes around it at most once. Then no computation on the way fails, and
each span is a run of bytes of one page.

* `Plan.next_of_fits`: the next span of a plan that fits, without the checks.
* `Plan.Fits.skip`: what is left of a plan that fits, fits.
* `Plan.exists_spans`: a plan that fits has its spans.
* `Plan.spans_of_longer`: a longer range has the spans of a shorter one, except its last.
* `Plan.copyFrom_eq`: a span of a page is copied without fail.
-/

namespace PagedRing

/-- The bytes of a span, taken from its page. -/
def Span.cut (span : Span) (page : Bytes) : Bytes := (page.drop span.offsetInPage).take span.len

/-- The scratch after the bytes of a span were copied: only a whole page goes through it. -/
def Span.store (span : Span) (page : Bytes) (scratch : Scratch) : Scratch :=
  if span.flags.fullPage then scratch.load page.length page else scratch

namespace Plan

variable {p : Plan}

/-- The range starts in the ring and goes around it at most once, and no more of it is planned than there is. -/
structure Fits (p : Plan) : Prop where
  start_lt : p.start < p.geometry.capacity
  len_le : p.len ≤ p.geometry.capacity
  planned_le : p.planned ≤ p.len

/-- Position of the first byte that is not planned yet. -/
def position (p : Plan) : Nat := (p.start + p.planned) % p.geometry.capacity

/-- Number of bytes of the next span: it ends with its page or with the range. -/
def step (p : Plan) : Nat :=
  min (p.geometry.pageSize - p.geometry.offsetInPage p.position) (p.len - p.planned)

/-- The next span of a plan that is not at its end. -/
def head (p : Plan) : Span where
  offset := p.position
  page := p.geometry.pageOf p.position
  offsetInPage := p.geometry.offsetInPage p.position
  len := p.step
  flags := ⟨p.step == p.geometry.pageSize, decide (p.geometry.capacity - p.start ≤ p.planned),
    p.planned + p.step == p.len⟩

/-- The plan after its next span. -/
def skip (p : Plan) : Plan := { p with planned := p.planned + p.step }

/-! ## One span -/

/-- The next span of a plan that fits. -/
theorem next_of_fits (h : p.Fits) :
    p.next = .ok (if p.len ≤ p.planned then none else some (p.head, p.skip)) := by
  unfold next
  split
  · rfl
  · next hlt =>
    have hw := p.geometry.capacity_lt
    have ho := p.geometry.offsetInPage_lt p.position
    have hl := h.len_le
    have hadv : p.geometry.advance p.start p.planned = .ok p.position :=
      p.geometry.advance_of_le (Nat.le_of_lt h.start_lt) _
    have hstep : p.planned + p.step ≤ p.len := by
      have := Nat.min_le_right (p.geometry.pageSize - p.geometry.offsetInPage p.position) (p.len - p.planned)
      unfold step
      omega
    have hadd : Word.add p.planned (min (p.geometry.pageSize - p.geometry.offsetInPage p.position)
        (p.len - p.planned)) = .ok (p.planned + p.step) :=
      Word.add_of_lt (show p.planned + p.step < wordBound by omega)
    simp only [hadv, bind, Except.bind, Word.sub_of_le (Nat.le_of_lt ho), Word.sub_of_le (Nat.le_of_not_le hlt),
      Word.sub_of_le (Nat.le_of_lt h.start_lt), hadd]
    rfl

/-- A plan that fits has a next span exactly when it is not at its end. -/
theorem next_eq_some_iff (h : p.Fits) {span : Span} {rest : Plan} :
    p.next = .ok (some (span, rest)) ↔ p.planned < p.len ∧ span = p.head ∧ rest = p.skip := by
  rw [next_of_fits h]
  by_cases hlt : p.len ≤ p.planned
  · simp only [hlt, ↓reduceIte, Except.ok.injEq, reduceCtorEq, false_iff]
    omega
  · simp only [hlt, ↓reduceIte, Except.ok.injEq, Option.some.injEq, Prod.mk.injEq]
    constructor
    · rintro ⟨rfl, rfl⟩
      exact ⟨by omega, rfl, rfl⟩
    · rintro ⟨-, rfl, rfl⟩
      exact ⟨rfl, rfl⟩

/-- A plan that fits is at its end exactly when nothing remains. -/
theorem next_eq_none_iff (h : p.Fits) : p.next = .ok none ↔ p.planned = p.len := by
  have := h.planned_le
  rw [next_of_fits h]
  by_cases hlt : p.len ≤ p.planned
  · simp only [hlt, ↓reduceIte, true_iff]
    omega
  · simp only [hlt, ↓reduceIte, Except.ok.injEq, reduceCtorEq, false_iff]
    omega

theorem position_lt (p : Plan) : p.position < p.geometry.capacity := Nat.mod_lt _ p.geometry.capacity_pos

/-- The pages of a plan have numbers that can be counted. -/
theorem head_page_lt (p : Plan) : p.head.page + 1 < wordBound := by
  have hpage : p.head.page < p.geometry.pageCount := p.geometry.pageOf_lt p.position_lt
  have hcount := p.geometry.pageCount_mul_pageSize
  have hle := Nat.le_mul_of_pos_right p.geometry.pageCount p.geometry.pageSize_pos
  have hcapacity := p.geometry.capacity_lt
  omega

/-- The next span after a span starts where that one ends, around the ring. -/
theorem position_skip (p : Plan) : p.skip.position = (p.position + p.step) % p.geometry.capacity := by
  rw [position, position, Nat.mod_add_mod, Nat.add_assoc]
  rfl

/-- A plan that is not at its end moves on. -/
theorem step_pos (h : p.planned < p.len) : 0 < p.step := by
  have := p.geometry.offsetInPage_lt p.position
  unfold step
  omega

theorem planned_add_step_le (h : p.Fits) : p.planned + p.step ≤ p.len := by
  have := h.planned_le
  unfold step
  omega

theorem offsetInPage_add_step_le (p : Plan) :
    p.geometry.offsetInPage p.position + p.step ≤ p.geometry.pageSize := by
  have := p.geometry.offsetInPage_lt p.position
  unfold step
  omega

/-- What is left of a plan that fits, fits. -/
theorem Fits.skip (h : p.Fits) : p.skip.Fits := ⟨h.start_lt, h.len_le, planned_add_step_le h⟩

/-- A plan that fits comes to its end span by span. -/
theorem Fits.induction {motive : ∀ p : Plan, p.Fits → Prop}
    (stop : ∀ p (h : p.Fits), p.planned = p.len → motive p h)
    (span : ∀ p (h : p.Fits), p.planned < p.len → motive p.skip h.skip → motive p h) (h : p.Fits) : motive p h := by
  induction hr : p.len - p.planned using Nat.strongRecOn generalizing p with
  | _ r ih =>
    rcases Nat.lt_or_eq_of_le h.planned_le with hlt | hend
    · have hstep := step_pos hlt
      exact span p h hlt (ih (p.skip.len - p.skip.planned) (by simp only [Plan.skip]; omega) h.skip rfl)
    · exact stop p h hend

/-- A range that starts in the ring and goes around it at most once is accepted, and its plan fits. -/
theorem fits_of_range {g : Geometry} {start len : Nat} (hstart : start < g.capacity) (hlen : len ≤ g.capacity) :
    ofRange g start len = .ok ⟨g, start, len, 0⟩ ∧ Fits ⟨g, start, len, 0⟩ := by
  refine ⟨?_, hstart, hlen, Nat.zero_le _⟩
  rw [ofRange, g.contains_iff.mpr hstart, if_neg (by decide), if_neg (by omega)]

/-! ## All spans -/

theorem spans_of_end (h : p.Fits) (hend : p.planned = p.len) : p.spans = .ok [] := by
  rw [spans]
  split
  · next hn => rw [(next_eq_none_iff h).mpr hend] at hn; cases hn
  · rfl
  · next hn => rw [(next_eq_none_iff h).mpr hend] at hn; cases hn

theorem spans_of_lt (h : p.Fits) (hlt : p.planned < p.len) : p.spans = p.skip.spans.map (p.head :: ·) := by
  have hnext := (next_eq_some_iff h).mpr ⟨hlt, rfl, rfl⟩
  rw [spans]
  split
  · next hn => rw [hnext] at hn; cases hn
  · next hn => rw [hnext] at hn; cases hn
  · next hn => rw [hnext] at hn; cases hn; rfl

/-- A plan that fits has its spans. -/
theorem exists_spans (h : p.Fits) : ∃ l, p.spans = .ok l := by
  induction h using Fits.induction with
  | stop p h hend => exact ⟨[], spans_of_end h hend⟩
  | span p h hlt ih =>
    obtain ⟨l, hl⟩ := ih
    exact ⟨p.head :: l, by rw [spans_of_lt h hlt, hl]; rfl⟩

/-- A longer range has the spans of a shorter one, except its last. -/
theorem spans_of_longer {p q : Plan} (hp : p.Fits) (hq : q.Fits) (hg : q.geometry = p.geometry)
    (hstart : q.start = p.start) (hplanned : q.planned = p.planned) (hlen : p.len ≤ q.len) {l rest : List Span}
    {last : Span} (h : p.spans = .ok (l ++ last :: rest)) : ∃ more, q.spans = .ok (l ++ more) := by
  induction l generalizing p q with
  | nil => exact exists_spans hq
  | cons a l ih =>
    rcases Nat.lt_or_eq_of_le hp.planned_le with hlt | hend
    · rw [spans_of_lt hp hlt] at h
      cases hs : p.skip.spans with
      | error fault => rw [hs] at h; cases h
      | ok spans =>
        rw [hs] at h
        obtain ⟨rfl, rfl⟩ := List.cons.inj (Except.ok.inj h)
        -- the span is not the last one, so it ends with its page
        have hmore : p.planned + p.step < p.len := by
          refine Nat.lt_of_le_of_ne (planned_add_step_le hp) fun hend => ?_
          rw [spans_of_end hp.skip hend] at hs
          simp at hs
        have hposition : q.position = p.position := by rw [position, position, hg, hstart, hplanned]
        have hstep : q.step = p.step := by
          have := p.geometry.offsetInPage_lt p.position
          unfold step at hmore ⊢
          rw [hposition, hg, hplanned]
          omega
        have hhead : q.head = p.head := by
          have hlast : (p.planned + p.step == p.len) = false := by simpa using Nat.ne_of_lt hmore
          have hlast' : (p.planned + p.step == q.len) = false := by simpa using Nat.ne_of_lt (by omega)
          unfold head
          rw [hposition, hstep, hg, hstart, hplanned, hlast, hlast']
        obtain ⟨more, hq'⟩ := ih hp.skip hq.skip hg hstart (by rw [skip, skip, hplanned, hstep]) hlen hs
        refine ⟨more, ?_⟩
        rw [spans_of_lt hq (by omega), hq', hhead]
        rfl
    · rw [spans_of_end hp hend] at h
      simp at h

/-! ## Bytes of a span -/

/-- A span of a page is copied without fail, through the scratch or not. -/
theorem copyFrom_eq (p : Plan) {page : Bytes} (h : page.length = p.geometry.pageSize) (scratch : Scratch) :
    p.head.copyFrom page scratch = .ok (p.head.cut page, p.head.store page scratch) := by
  have hle : p.head.offsetInPage + p.head.len ≤ page.length := h ▸ offsetInPage_add_step_le p
  have hw : page.length < wordBound := by
    have := p.geometry.pageSize_le
    have := p.geometry.capacity_lt
    omega
  unfold Span.copyFrom Span.store Span.cut
  split
  · next hfull =>
    have hstep : p.head.len = page.length := by rw [h]; exact eq_of_beq hfull
    have hoff : p.head.offsetInPage = 0 := by omega
    rw [hstep, hoff, List.drop_zero, List.take_length]
    exact congrArg (fun bytes => Except.ok (bytes, scratch.load page.length page)) (Scratch.bytes_load scratch page)
  · simp only [Span.range, Word.add_of_lt (Nat.lt_of_le_of_lt hle hw), bind, Except.bind, pure, Except.pure,
      if_pos hle]
    rw [List.take_drop]

theorem copyFrom_head (p : Plan) {page : Bytes} (h : page.length = p.geometry.pageSize) (scratch : Scratch) :
    ∃ scratch', p.head.copyFrom page scratch =
      .ok ((page.drop p.head.offsetInPage).take p.head.len, scratch') :=
  ⟨_, copyFrom_eq p h scratch⟩

end Plan

end PagedRing
