import PagedRing.Proofs.Account
import PagedRing.Proofs.Distances

/-!
# Completing a transfer that failed

A transfer of a concurrent drain that the sink ended tells in its error which range it had claimed and how much of it
was accepted. That is enough to complete it: what is left starts where a chunk starts, and a delivery of it hands out
the chunks that were missing, just as an uninterrupted delivery would have.

* `Plan.unwrapped_spans`: plans that have the same bytes before them have the same spans, but for one flag.
* `World.Shows`, `World.Willing`: a source that does not change, and a sink that accepts everything.
* `World.deliver_willing`: a delivery between the two.
* `World.claim_reads`: a claim hands nothing out.
* `completes_of_split`: what comes after the spans that were accepted completes them.
* `World.completes_from_error`: the failed transfer, its completion and the uninterrupted delivery.
-/

namespace PagedRing

/-! ## What is left of a plan -/

/-- A span without the flag that tells where its range started. -/
def Span.unwrapped (span : Span) : Span := { span with flags := { span.flags with wrapped := false } }

namespace Plan

/-- The spans that are still to come depend on the position and on the number of bytes left; where the range started
shows in one flag only. -/
theorem unwrapped_spans {p q : Plan} {l m : List Span} (hp : p.Fits) (hq : q.Fits) (hg : q.geometry = p.geometry)
    (hposition : q.position = p.position) (hleft : q.len - q.planned = p.len - p.planned) (hl : p.spans = .ok l)
    (hm : q.spans = .ok m) : m.map Span.unwrapped = l.map Span.unwrapped := by
  induction hp using Fits.induction generalizing q l m with
  | stop p hp hend =>
    have hle := hq.planned_le
    rw [spans_of_end hp hend] at hl
    rw [spans_of_end hq (by omega)] at hm
    cases hl
    cases hm
    rfl
  | span p hp hlt ih =>
    obtain ⟨l, hl'⟩ := exists_spans hp.skip
    obtain ⟨m, hm'⟩ := exists_spans hq.skip
    have hle := planned_add_step_le hp
    rw [spans_of_lt hp hlt, hl'] at hl
    rw [spans_of_lt hq (by omega), hm'] at hm
    cases hl
    cases hm
    have hstep : q.step = p.step := by rw [step, step, hg, hposition, hleft]
    have hlast : (q.planned + q.step == q.len) = (p.planned + p.step == p.len) := by
      rw [Bool.eq_iff_iff, beq_iff_eq, beq_iff_eq]
      omega
    have hhead : q.head.unwrapped = p.head.unwrapped := by
      unfold head Span.unwrapped
      rw [hg, hposition, hlast, hstep]
    have hnext : q.skip.position = p.skip.position := by
      rw [position_skip, position_skip, hg, hposition, hstep]
    have hrest := ih hq.skip hg hnext (by simp only [skip]; omega) hl' hm'
    rw [List.map_cons, List.map_cons, hhead, hrest]

/-- The spans of a range from one of them on are those of the range that is left, but for one flag. That range starts
where the whole one does or with a page. -/
theorem spans_of_rest {g : Geometry} {start len delivered : Nat} {before rest : List Span} {span : Span}
    (hstart : start < g.capacity) (hlen : len ≤ g.capacity)
    (hspans : spans ⟨g, start, len, 0⟩ = .ok (before ++ span :: rest))
    (hdelivered : (before.map Span.len).sum = delivered) :
    delivered < len ∧
      ((start + delivered) % g.capacity = start ∨ g.offsetInPage ((start + delivered) % g.capacity) = 0) ∧
      ∃ more, spans ⟨g, (start + delivered) % g.capacity, len - delivered, 0⟩ = .ok more ∧
        more.map Span.unwrapped = (span :: rest).map Span.unwrapped := by
  obtain ⟨hleft, hrest, hboundary⟩ := split (fits_of_range hstart hlen).2 hspans
  rw [hdelivered] at hleft hrest hboundary
  have hposition : (drop ⟨g, start, len, 0⟩ delivered).position = (start + delivered) % g.capacity := by
    simp only [position, drop, Nat.zero_add]
  have hmissing : 0 + delivered < len := ((spans_eq_cons_iff hleft).mp hrest).1
  rw [Nat.zero_add] at hmissing
  refine ⟨hmissing, ?_, ?_⟩
  · cases before with
    | nil =>
      obtain rfl : 0 = delivered := hdelivered
      exact .inl (Nat.mod_eq_of_lt hstart)
    | cons first before =>
      rw [hposition] at hboundary
      exact .inr (hboundary (List.cons_ne_nil _ _) (List.cons_ne_nil _ _))
  · have hresume : (start + delivered) % g.capacity < g.capacity := Nat.mod_lt _ g.capacity_pos
    have hshort : len - delivered ≤ g.capacity := by omega
    have hfits := (fits_of_range hresume hshort).2
    obtain ⟨more, hmore⟩ := exists_spans hfits
    refine ⟨more, hmore, unwrapped_spans hleft hfits rfl ?_ ?_ hrest hmore⟩
    · rw [hposition]
      exact Nat.mod_mod _ _
    · simp only [drop, Nat.zero_add, Nat.sub_zero]

end Plan

/-! ## Sources that do not change -/

namespace World

variable {σ : Type} {w : World σ} {g : Geometry} {pages : Nat → Bytes}

/-- Whenever a page is fetched, it is the same one, and it has the length of a page. -/
structure Shows (w : World σ) (g : Geometry) (pages : Nat → Bytes) : Prop where
  fetch : ∀ number < g.pageCount, ∀ world, (w.fetch number world).1 = .ok (pages number)
  length : ∀ number < g.pageCount, (pages number).length = g.pageSize

/-- The sink accepts everything. -/
def Willing (w : World σ) : Prop := ∀ bytes world, (w.accept bytes world).1 = .ok ()

/-- The bytes that a source shows for a span. -/
def cutOf (pages : Nat → Bytes) (span : Span) : Bytes := span.cut (pages span.page)

/-- From a source that does not change the sink accepts what the source shows for the spans. -/
theorem accepted_of_shows (hshows : w.Shows g pages) {served : List (Span × Bytes)} {calls : List Call}
    {world last : σ} (hleads : w.Leads world calls last) (hsub : servings served ⊆ calls)
    (hpages : ∀ c ∈ served, c.1.page < g.pageCount) :
    accepted (servings served) = (served.map Prod.fst).map (cutOf pages) := by
  rw [accepted_servings, List.map_map]
  refine List.map_congr_left fun c hc => ?_
  have hmem : Call.fetch c.1.page (.ok c.2) ∈ servings served :=
    List.mem_flatMap.mpr ⟨c, hc, List.mem_cons_self ..⟩
  obtain ⟨mid, hmid⟩ := hleads.answers _ (hsub hmem)
  rw [hshows.fetch _ (hpages c hc)] at hmid
  rw [← Except.ok.inj hmid]
  rfl

/-- A delivery from a source that does not change to a sink that accepts everything. -/
theorem deliver_willing (hshows : w.Shows g pages) (hwilling : w.Willing) {start len : Nat} (hstart : start < g.capacity)
    (hlen : len ≤ g.capacity) {spans : List Span} (hspans : Plan.spans ⟨g, start, len, 0⟩ = .ok spans)
    (scratch : Scratch) (world : σ) (cursor : Nat) :
    (w.host.deliver g start len scratch (.start world cursor)).1 =
        .ok ⟨start, (start + len) % g.capacity, len, spans.length⟩ ∧
      accepted (w.host.deliver g start len scratch (.start world cursor)).2.2.calls = spans.map (cutOf pages) := by
  obtain ⟨spans', calls, ⟨plan, hplan, hspans'⟩, hreaches, haccount, -⟩ :=
    w.deliver_account hstart hlen scratch (.start world cursor)
  cases hplan.symm.trans (Plan.fits_of_range hstart hlen).1
  cases hspans.symm.trans hspans'
  have hcover := Plan.cover_of_spans hstart hlen hspans
  have hpage : ∀ span ∈ spans, span.page < g.pageCount := fun span hmem => by
    obtain ⟨before, after, htile⟩ := hcover.tile_of_mem hmem
    exact htile.page_lt
  have hleads := hreaches.leads
  rw [hreaches.made]
  generalize (w.host.deliver g start len scratch (.start world cursor)).1 = outcome at haccount ⊢
  cases haccount with
  | whole served split length =>
    refine ⟨rfl, ?_⟩
    rw [← split]
    exact accepted_of_shows hshows hleads (List.Subset.refl _)
      fun c hc => hpage _ (split ▸ List.mem_map_of_mem hc)
  | malformed served span rest page split length wrong =>
    have hspan := hpage span (split ▸ List.mem_append_right _ (List.mem_cons_self ..))
    obtain ⟨mid, hmid⟩ := hleads.answers _ (List.mem_append_right _ (List.mem_singleton_self _))
    rw [hshows.fetch _ hspan] at hmid
    exact absurd (Except.ok.inj hmid ▸ hshows.length _ hspan) wrong
  | refused served span rest page cause split length right =>
    obtain ⟨mid, hmid⟩ := hleads.answers _ (List.mem_append_right _ (List.mem_cons_of_mem _ (List.mem_singleton_self _)))
    rw [hwilling] at hmid
    cases hmid
  | faulted served span rest fault split length =>
    have hspan := hpage span (split ▸ List.mem_append_right _ (List.mem_cons_self ..))
    obtain ⟨mid, hmid⟩ := hleads.answers _ (List.mem_append_right _ (List.mem_singleton_self _))
    rw [hshows.fetch _ hspan] at hmid
    cases hmid

end World

/-! ## Claims -/

/-- The place of a cursor that belongs to the world: the source and the sink may move it, as other transfers of the same
drain do. -/
def Stage.within {σ : Type} (cell : Concurrent.Cell σ) : Concurrent.Cell (Stage σ) :=
  ⟨fun s => cell.load s.world, fun position s => { s with world := cell.store position s.world }⟩

/-- A claim hands nothing out and does not fail in a sink; a range that it wins ends in the ring. -/
theorem World.claim_reads {σ : Type} (w : World σ) (cell : Concurrent.Cell σ) (g : Geometry) (attempts retries : Nat)
    (s : Stage σ) :
    accepted (Concurrent.claim w.host (Stage.within cell) g attempts retries s).2.calls = accepted s.calls ∧
      match (Concurrent.claim w.host (Stage.within cell) g attempts retries s).1 with
      | .ok (.won _ stop) => stop < g.capacity
      | .ok (.idle _) | .error .unfinished | .error (.fault _) | .error (.error (.positionOutOfRange _ _)) => True
      | .error _ => False := by
  induction attempts generalizing retries s with
  | zero => exact ⟨rfl, trivial⟩
  | succ attempts ih =>
    have hread : w.host.readPosition g s =
        (if g.contains (w.position s.world).1 then .ok (w.position s.world).1
          else .error (.error (.positionOutOfRange (w.position s.world).1 g.capacity)),
          s.after (.position (w.position s.world).1) (w.position s.world).2) := rfl
    have hcalls : accepted (s.after (.position (w.position s.world).1) (w.position s.world).2).calls =
        accepted s.calls := by
      simp only [Stage.after, accepted_append]
      exact List.append_nil _
    unfold Concurrent.claim
    simp only [World.host_note, hread]
    generalize s.after (.position (w.position s.world).1) (w.position s.world).2 = t at hcalls ⊢
    by_cases hcontains : g.contains (w.position s.world).1 = true
    · simp only [hcontains, ↓reduceIte]
      split
      · split
        · exact ⟨hcalls, g.contains_iff.mp hcontains⟩
        · split
          · exact ⟨hcalls, trivial⟩
          · rw [← hcalls]
            exact ih _ t
      · exact ⟨hcalls, trivial⟩
    · simp only [hcontains, Bool.false_eq_true, ↓reduceIte]
      exact ⟨hcalls, trivial⟩

/-- A transfer that the sink ended had won a claim, and its delivery ended in the sink. -/
theorem World.transfer_sink {σ : Type} {w : World σ} {cell : Concurrent.Cell σ} {g : Geometry} {attempts : Nat}
    {scratch : Scratch} {s : Stage σ} {start stop delivered : Nat} {cause : SinkError}
    (h : (Concurrent.transfer w.host (Stage.within cell) g attempts scratch s).1 =
      .error (.error (.sink start stop delivered cause))) :
    ∃ first last len t, Concurrent.transfer w.host (Stage.within cell) g attempts scratch s =
        w.host.deliver g first len scratch t ∧ last < g.capacity ∧ g.unreadLen first last = .ok len ∧
      accepted t.calls = accepted s.calls := by
  obtain ⟨hcalls, hclaim⟩ := w.claim_reads cell g attempts 0 s
  unfold Concurrent.transfer at h ⊢
  rcases hc : Concurrent.claim w.host (Stage.within cell) g attempts 0 s with ⟨halt | position | ⟨first, last⟩, t⟩
  · rw [hc] at h hclaim
    cases h
    exact absurd hclaim id
  · rw [hc] at h
    cases h
  · rw [hc] at h hclaim hcalls
    dsimp only at h ⊢
    cases hlen : g.unreadLen first last with
    | error fault => rw [hlen] at h; cases h
    | ok len => exact ⟨first, last, len, t, rfl, hclaim, hlen, hcalls⟩

/-! ## Completion -/

/-- How a transfer is completed that a sink ended after `delivered` bytes of the range from `start` to `stop`, when it
had accepted the chunks `before`: a delivery of `rest` bytes from `resume`. -/
structure Completes (g : Geometry) (pages : Nat → Bytes) (start stop delivered : Nat) (before : List Bytes)
    (len resume rest : Nat) : Prop where
  /-- The bounds tell the length of the range. -/
  unread : g.unreadLen start stop = .ok len
  /-- Some of it is missing. -/
  delivered_lt : delivered < len
  /-- It is what comes after the bytes that were accepted. -/
  resumes : g.advance start delivered = .ok resume
  /-- It starts with the range or with a page. -/
  boundary : resume = start ∨ g.offsetInPage resume = 0
  /-- The bounds tell how much it is. -/
  missing : g.unreadLen resume stop = .ok rest
  rest_eq : rest = len - delivered
  /-- It is delivered to every sink that accepts everything. -/
  completed : ∀ {τ : Type} (v : World τ), v.Shows g pages → v.Willing → ∀ scratch world cursor,
    ∃ chunks, (v.host.deliver g resume rest scratch (.start world cursor)).1 = .ok ⟨resume, stop, rest, chunks⟩
  /-- So would the whole range have been. -/
  uninterrupted : ∀ {τ : Type} (v : World τ), v.Shows g pages → v.Willing → ∀ scratch world cursor,
    ∃ chunks, (v.host.deliver g start len scratch (.start world cursor)).1 = .ok ⟨start, stop, len, chunks⟩
  /-- The chunks are those that were missing. -/
  joined : ∀ {τ υ : Type} (v : World τ) (u : World υ), v.Shows g pages → v.Willing → u.Shows g pages → u.Willing →
    ∀ scratch world cursor scratch' world' cursor',
      before ++ accepted (v.host.deliver g resume rest scratch (.start world cursor)).2.2.calls =
        accepted (u.host.deliver g start len scratch' (.start world' cursor')).2.2.calls

/-- A range some of whose spans were accepted is completed by what comes after them. -/
theorem completes_of_split {g : Geometry} {pages : Nat → Bytes} {start len delivered : Nat} {before rest : List Span}
    {span : Span} (hstart : start < g.capacity) (hlt : len < g.capacity)
    (hspans : Plan.spans ⟨g, start, len, 0⟩ = .ok (before ++ span :: rest))
    (hdelivered : (before.map Span.len).sum = delivered) :
    Completes g pages start ((start + len) % g.capacity) delivered (before.map (World.cutOf pages)) len
      ((start + delivered) % g.capacity) (len - delivered) := by
  have hlen : len ≤ g.capacity := Nat.le_of_lt hlt
  obtain ⟨hmissing, hboundary, more, hmore, hunwrapped⟩ := Plan.spans_of_rest hstart hlen hspans hdelivered
  have hresume : (start + delivered) % g.capacity < g.capacity := Nat.mod_lt _ g.capacity_pos
  have hrest : len - delivered < g.capacity := by omega
  have hend : ((start + delivered) % g.capacity + (len - delivered)) % g.capacity = (start + len) % g.capacity := by
    rw [Nat.mod_add_mod]
    congr 1
    omega
  -- the flag that may differ does not matter to the bytes of a span
  have hsame : more.map (World.cutOf pages) = (span :: rest).map (World.cutOf pages) := by
    have := congrArg (List.map (World.cutOf pages)) hunwrapped
    rwa [List.map_map, List.map_map] at this
  constructor
  case unread =>
    apply g.unreadLen_of_advance hstart hlt
    exact g.advance_of_le (Nat.le_of_lt hstart) len
  case delivered_lt => exact hmissing
  case resumes => exact g.advance_of_le (Nat.le_of_lt hstart) delivered
  case boundary => exact hboundary
  case missing =>
    apply g.unreadLen_of_advance hresume hrest
    rw [g.advance_of_le (Nat.le_of_lt hresume), hend]
  case rest_eq => rfl
  case completed =>
    intro τ v hshows hwilling scratch world cursor
    obtain ⟨hreport, -⟩ :=
      World.deliver_willing hshows hwilling hresume (Nat.le_of_lt hrest) hmore scratch world cursor
    exact ⟨_, hend ▸ hreport⟩
  case uninterrupted =>
    intro τ v hshows hwilling scratch world cursor
    exact ⟨_, (World.deliver_willing hshows hwilling hstart hlen hspans scratch world cursor).1⟩
  case joined =>
    intro τ υ v u hv hvwilling hu huwilling scratch world cursor scratch' world' cursor'
    obtain ⟨-, hresumed⟩ :=
      World.deliver_willing hv hvwilling hresume (Nat.le_of_lt hrest) hmore scratch world cursor
    obtain ⟨-, hwhole⟩ := World.deliver_willing hu huwilling hstart hlen hspans scratch' world' cursor'
    rw [hresumed, hwhole, hsame, List.map_append]

/-- A transfer that failed in the sink is completed from its error alone, wherever in the claimed range it ended and
whatever else moved the cursor meanwhile. -/
theorem World.completes_from_error {σ : Type} (w : World σ) (cell : Concurrent.Cell σ) {g : Geometry}
    {pages : Nat → Bytes} (hshows : w.Shows g pages) {attempts : Nat} {scratch : Scratch} {world : σ} {cursor : Nat}
    {start stop delivered : Nat} {cause : SinkError}
    (h : (Concurrent.transfer w.host (Stage.within cell) g attempts scratch (.start world cursor)).1 =
      .error (.error (.sink start stop delivered cause))) :
    ∃ len resume rest, Completes g pages start stop delivered
      (accepted (Concurrent.transfer w.host (Stage.within cell) g attempts scratch (.start world cursor)).2.2.calls)
      len resume rest := by
  obtain ⟨first, last, len, t, heq, hlast, hlen, hcalls⟩ := transfer_sink h
  rw [heq] at h ⊢
  have hfirst : first < g.capacity := by
    apply Nat.lt_of_not_le
    intro hout
    rw [w.host.deliver_of_outside hout] at h
    cases h
  obtain ⟨hadv, hlt⟩ := g.advance_unreadLen hfirst hlast hlen
  rw [g.advance_of_le (Nat.le_of_lt hfirst)] at hadv
  obtain rfl : (first + len) % g.capacity = last := Except.ok.inj hadv
  obtain ⟨spans, calls, ⟨plan, hplan, hspans⟩, hreaches, haccount, -⟩ :=
    w.deliver_account hfirst (Nat.le_of_lt hlt) scratch t
  cases hplan.symm.trans (Plan.fits_of_range hfirst (Nat.le_of_lt hlt)).1
  have hcover := Plan.cover_of_spans hfirst (Nat.le_of_lt hlt) hspans
  have hleads := hreaches.leads
  rw [hreaches.made, accepted_append, hcalls]
  rw [h] at haccount
  cases haccount with
  | refused served span rest page _ split length right =>
    have hpages : ∀ c ∈ served, c.1.page < g.pageCount := by
      intro c hc
      obtain ⟨before, after, htile⟩ := hcover.tile_of_mem (split ▸ List.mem_append_left _ (List.mem_map_of_mem hc))
      exact htile.page_lt
    have hbefore : accepted (servings served) = (served.map Prod.fst).map (cutOf pages) :=
      accepted_of_shows hshows hleads (List.subset_append_left _ _) hpages
    have hsum : ((served.map Prod.fst).map Span.len).sum = (served.map fun c => c.1.len).sum := by
      rw [List.map_map]
      rfl
    rw [accepted_append, hbefore]
    show ∃ len resume rest, Completes g pages _ _ _ ([] ++ (_ ++ [])) len resume rest
    rw [List.nil_append, List.append_nil]
    exact ⟨len, _, _, completes_of_split hfirst hlt (split.symm ▸ hspans) hsum⟩

/-- Three pages of four bytes each. -/
def threeQuads : Geometry := ⟨12, 4, by decide, by decide, by decide⟩

/-- The content of the pages. -/
def numbered (page : Nat) : Bytes := (List.range 4).map fun i => UInt8.ofNat (10 * page + i)

/-- A source of three pages, whose write position is 3, and a sink that refuses its third chunk. The first number is the
shared cursor, and the second one says how many chunks the sink was handed; as the write position is read, another
transfer moves the cursor to 6. -/
def overtaken : World (Nat × Nat) where
  position world := (3, 6, world.2)
  fetch page world := (.ok (numbered page), world)
  accept _ world := (if world.2 = 2 then .error ⟨.other, "full"⟩ else .ok (), world.1, world.2 + 1)

/-- The cursor of this drain. -/
def sharedCursor : Concurrent.Cell (Nat × Nat) := ⟨Prod.fst, fun position world => (position, world.2)⟩

/-- A transfer that loses its first claim and fails behind the end of the ring. -/
theorem World.completes_from_error_overtaken :
    overtaken.Shows threeQuads numbered ∧
    (Concurrent.transfer overtaken.host (Stage.within sharedCursor) threeQuads 2 .empty (.start (5, 0) 0)).1 =
      .error (.error (.sink 6 3 6 ⟨.other, "full"⟩)) ∧
    ∃ len resume rest, Completes threeQuads numbered 6 3 6
      (accepted (Concurrent.transfer overtaken.host (Stage.within sharedCursor) threeQuads 2 .empty
        (.start (5, 0) 0)).2.2.calls) len resume rest := by
  have hshows : overtaken.Shows threeQuads numbered := by
    refine ⟨fun _ _ _ => rfl, fun _ _ => ?_⟩
    exact List.length_map _
  have hfailed : (Concurrent.transfer overtaken.host (Stage.within sharedCursor) threeQuads 2 .empty
      (.start (5, 0) 0)).1 = .error (.error (.sink 6 3 6 ⟨.other, "full"⟩)) := by decide +kernel
  exact ⟨hshows, hfailed, completes_from_error overtaken sharedCursor hshows hfailed⟩

end PagedRing
