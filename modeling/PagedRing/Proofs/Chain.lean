import Mathlib
import PagedRing.Proofs.Runs

/-!
# Claims form a chain

Each claim that is won on a shared drain starts where the one before it stopped, and nothing but a claim moves the
cursor: not a transfer that finds nothing, nor a lost attempt, nor a delivery that fails.

* `mem_shares_iff`: the claims of a drain and the events that won them.
* `Lawful.chained`: the claims lead from the first cursor to where the cursor stands.
* `Lawful.steps_nodup`: a transfer wins at most one claim.
* `Lawful.share_of_planned`: a transfer delivers the range that it claimed.
* `claims_chain`: all of this for every session.
-/

namespace PagedRing.Session

/-! ## Claims and their events -/

/-- Whether claims lead from one position to another, each from where the one before it stopped. -/
def Chained : (first : Nat) → List Share → (last : Nat) → Prop
  | first, [], last => first = last
  | first, c :: rest, last => c.start = first ∧ Chained c.stop rest last

theorem Chained.snoc {first last : Nat} {cs : List Share} (h : Chained first cs last) {c : Share}
    (hc : c.start = last) : Chained first (cs ++ [c]) c.stop := by
  induction cs generalizing first with
  | nil => exact ⟨hc.trans (Eq.symm h), rfl⟩
  | cons b cs ih => exact ⟨h.1, ih h.2⟩

section

variable {g : Geometry} {n d : Nat} {past : List Entry} {c : Share}

/-- Whether a claim on a drain was won just after a moment. -/
def Won (g : Geometry) (d : Nat) (c : Share) (before past : List Entry) : Prop :=
  ∃ retries drains source, ⟨c.step, .claimed c.start c.stop retries, drains, source⟩ :: before <:+ past ∧
    drainOf c.step before = some d ∧ c.first = claimedLen g d before

/-- The claims of a drain and the events that won them. -/
theorem mem_shares_iff : c ∈ shares g d past ↔ ∃ before, Won g d c before past := by
  induction past with
  | nil =>
    constructor
    · intro h; cases h
    · rintro ⟨before, _, _, _, hs, -⟩
      cases List.suffix_nil.mp hs
  | cons e past ih =>
    have hmono : (∃ before, Won g d c before past) → ∃ before, Won g d c before (e :: past) := by
      rintro ⟨before, retries, drains, source, hs, hd, hf⟩
      exact ⟨before, retries, drains, source, hs.trans (List.suffix_cons e past), hd, hf⟩
    obtain ⟨m, event, drains, source⟩ := e
    by_cases hev : ∃ start stop retries, event = .claimed start stop retries ∧ drainOf m past = some d
    · obtain ⟨start, stop, retries, rfl, hd⟩ := hev
      simp only [shares, hd, ↓reduceIte, List.mem_append, List.mem_singleton]
      constructor
      · rintro (h | rfl)
        · exact hmono (ih.mp h)
        · exact ⟨past, retries, drains, source, List.suffix_refl _, hd, rfl⟩
      · rintro ⟨before, retries', drains', source', hs, hd', hf⟩
        rcases List.suffix_cons_iff.mp hs with heq | hs
        · obtain ⟨k, start', stop', first'⟩ := c
          cases heq
          exact Or.inr (by rw [Share.mk.injEq]; exact ⟨rfl, rfl, rfl, hf⟩)
        · exact Or.inl (ih.mpr ⟨before, retries', drains', source', hs, hd', hf⟩)
    · have hshares : shares g d (⟨m, event, drains, source⟩ :: past) = shares g d past := by
        cases event with
        | claimed start stop retries =>
          have hd : drainOf m past ≠ some d := fun hd => hev ⟨start, stop, retries, rfl, hd⟩
          simp only [shares, hd, ↓reduceIte]
        | _ => rfl
      rw [hshares, ih]
      refine ⟨hmono, ?_⟩
      rintro ⟨before, retries', drains', source', hs, hd', hf⟩
      rcases List.suffix_cons_iff.mp hs with heq | hs
      · cases heq
        exact absurd ⟨c.start, c.stop, retries', rfl, hd'⟩ hev
      · exact ⟨before, retries', drains', source', hs, hd', hf⟩

/-- A claim is a deed of the step that won it. -/
theorem claimed_mem_deeds (h : c ∈ shares g d past) :
    ∃ retries, Event.claimed c.start c.stop retries ∈ deeds c.step past := by
  obtain ⟨before, retries, drains, source, hs, -⟩ := mem_shares_iff.mp h
  exact ⟨retries, mem_deeds.mpr ⟨_, hs.subset List.mem_cons_self, rfl, rfl, rfl⟩⟩

end

namespace Lawful

variable {origin : Source} {g : Geometry} {n d : Nat} {past : List Entry} {drain : Drain} {c : Share}

/-- A claim belongs to a transfer of its drain. -/
theorem drainOf_share (h : Lawful origin past) (hc : c ∈ shares g d past) : drainOf c.step past = some d := by
  obtain ⟨before, retries, drains, source, hs, hd, -⟩ := mem_shares_iff.mp hc
  exact drainOf_mono h ((List.suffix_cons _ _).trans hs) hd

/-- A drain that was not opened has no claims. -/
theorem shares_of_unopened (h : Lawful origin past) (ho : opened? d past = none) : shares g d past = [] := by
  refine List.eq_nil_iff_forall_not_mem.mpr fun c hc => ?_
  obtain ⟨drain, hd⟩ := opened_of_drainOf h (drainOf_share h hc)
  rw [ho] at hd
  cases hd

/-- A drain is opened before claims are won on it. -/
theorem opened_of_share {e : Entry} (h : Lawful origin (e :: past)) (hc : c ∈ shares g d (e :: past)) :
    ∃ drain, opened? d past = some drain := by
  obtain ⟨before, retries, drains, source, hs, hd, -⟩ := mem_shares_iff.mp hc
  have hsuffix : before <:+ past := by
    rcases List.suffix_cons_iff.mp hs with heq | hs
    · exact (List.cons.inj heq).2 ▸ List.suffix_refl before
    · exact (List.suffix_cons _ _).trans hs
  obtain ⟨drain, ho⟩ := opened_of_drainOf (h.2.2.suffix hsuffix) hd
  exact ⟨drain, h.2.2.opened?_suffix hsuffix ho⟩

/-- Before a transfer wins a claim, it has won none and has offered nothing. -/
theorem claims_first {e : Entry} (h : Lawful origin (e :: past)) (hd : drainOf e.step past = some d)
    {start stop retries : Nat} (he : e.event = .claimed start stop retries) :
    ∀ x ∈ deeds e.step past, x.attempt = true := by
  obtain ⟨drain, ho⟩ := opened_of_drainOf h.2.2 hd
  have hc := (allowed h hd ho (by rw [he]; rfl)).1
  rw [he] at hc
  generalize deeds e.step past = ds at hc ⊢
  cases hc with
  | claimed hc hl => exact hc.trying rfl rfl

/-- A transfer wins at most one claim. -/
theorem steps_nodup (h : Lawful origin past) : ((shares g d past).map Share.step).Nodup := by
  induction past with
  | nil => exact List.nodup_nil
  | cons e past ih =>
    obtain ⟨m, event, drains, source⟩ := e
    cases event with
    | claimed start stop retries =>
      simp only [shares]
      split
      · next hd =>
        rw [List.map_append, List.nodup_append]
        refine ⟨ih h.2.2, by simp, ?_⟩
        intro k hk k' hk' heq
        subst heq
        obtain ⟨c, hc, rfl⟩ := List.mem_map.mp hk
        obtain rfl : c.step = m := List.mem_singleton.mp hk'
        obtain ⟨retries', hmem⟩ := claimed_mem_deeds hc
        have := claims_first h hd rfl _ hmem
        cases this
      · exact ih h.2.2
    | _ => exact ih h.2.2

/-- A transfer that won a claim is the only one with its number. -/
theorem share_unique (h : Lawful origin past) {c' : Share} (hc : c ∈ shares g d past) (hc' : c' ∈ shares g d past)
    (hstep : c.step = c'.step) : c = c' :=
  List.inj_on_of_nodup_map h.steps_nodup hc hc' hstep

/-- What a claim is, where it was won. -/
theorem of_won (h : Lawful origin past) (ho : opened? d past = some drain) {before : List Entry}
    (hc : Won g d c before past) :
    opened? d before = some drain ∧ c.start = claimedTo d before ∧ Latest c.step (.sampled c.stop) before ∧
      c.start ≠ c.stop ∧ c.stop < drain.geometry.capacity := by
  obtain ⟨retries, drains, source, hs, hd, -⟩ := hc
  have hlaw := suffix h hs
  obtain ⟨drain', ho'⟩ := opened_of_drainOf hlaw.2.2 hd
  obtain rfl : drain' = drain :=
    Option.some.inj ((opened?_suffix h ((List.suffix_cons _ _).trans hs) ho').symm.trans ho)
  exact ⟨ho', (allowed hlaw hd ho' rfl).2.2⟩

/-- A drain starts with the cursor with which it was opened. -/
theorem chained (h : Lawful origin past) (ho : opened? d past = some drain) :
    Chained drain.cursor (shares g d past) (claimedTo d past) := by
  induction past with
  | nil => cases ho
  | cons e past ih =>
    obtain ⟨m, event, drains, source⟩ := e
    cases event with
    | opened d' cursor =>
      by_cases hdd : d' = d
      · subst hdd
        obtain ⟨-, hnone, drain', hd', rfl, -⟩ := h.1
        obtain rfl : drain' = drain := by simpa [opened?, hd'] using ho
        have hnil : shares g d' past = [] := shares_of_unopened h.2.2 hnone
        simp only [shares, hnil, claimedTo, ↓reduceIte]
        rfl
      · simp only [opened?, hdd, ↓reduceIte] at ho
        simpa only [shares, claimedTo, hdd, ↓reduceIte] using ih h.2.2 ho
    | claimed start stop retries =>
      have ih := ih h.2.2 ho
      by_cases hd : drainOf m past = some d
      · have hstart : start = claimedTo d past := (allowed h hd ho rfl).2.2.1
        simp only [shares, claimedTo, hd, ↓reduceIte]
        exact ih.snoc hstart
      · simpa only [shares, claimedTo, hd, ↓reduceIte] using ih
    | _ => exact ih h.2.2 ho

/-- A transfer delivers the range that it claimed. -/
theorem share_of_planned (h : Lawful origin past) (hd : drainOf n past = some d) (ho : opened? d past = some drain)
    (hm : drain.mode = .concurrent) {plan : Plan} (hp : planned? (deeds n past) = some plan) :
    ∃ c ∈ shares g d past, c.step = n ∧ c.start = plan.start ∧ plan.geometry = drain.geometry ∧
      drain.geometry.unreadLen c.start c.stop = .ok plan.len := by
  obtain ⟨drains, source, before, hs, hd', ho', hcourse, hgeo, stop, hlen, ht⟩ :=
    moment h hd ho (planned?_mem hp) rfl
  simp only [hm] at ht
  obtain ⟨retries, drains', source', before', rfl⟩ := ht
  have hs' := (List.suffix_cons _ _).trans hs
  have hd'' : drainOf n before' = some d := by
    rw [← hd', drainOf_of_drain? rfl]
  have hc : (⟨n, plan.start, stop, claimedLen g d before'⟩ : Share) ∈ shares g d past :=
    mem_shares_iff.mpr ⟨before', retries, drains', source', hs', hd'', rfl⟩
  exact ⟨_, hc, rfl, rfl, hgeo, hlen⟩

/-- The range of a claim. -/
theorem plan_of_share (h : Lawful origin past) (ho : opened? d past = some drain) (hc : c ∈ shares g d past) :
    ∃ len, drain.geometry.unreadLen c.start c.stop = .ok len ∧
      Plan.ofPositions drain.geometry c.start c.stop = .ok ⟨drain.geometry, c.start, len, 0⟩ ∧
      Plan.Fits ⟨drain.geometry, c.start, len, 0⟩ := by
  obtain ⟨before, hwon⟩ := mem_shares_iff.mp hc
  obtain ⟨ho', hstart, -, -, hstop⟩ := h.of_won ho hwon
  obtain ⟨retries, drains, source, hs, -⟩ := hwon
  have hlt := (h.suffix ((List.suffix_cons _ _).trans hs)).claimedTo_lt ho'
  rw [← hstart] at hlt
  have hlen : drain.geometry.unreadLen c.start c.stop = .ok _ := drain.geometry.unreadLen_of_le (Nat.le_of_lt hlt)
  have hle := (drain.geometry.advance_unreadLen hlt hstop hlen).2
  refine ⟨_, hlen, ?_, hlt, Nat.le_of_lt hle, Nat.zero_le _⟩
  have hcontains := drain.geometry.contains_iff.mpr hlt
  simp only [Plan.ofPositions, hlen, bind, Except.bind, Plan.ofRange, hcontains, Nat.not_lt_of_gt hle, Bool.not_true,
    ↓reduceIte, Bool.false_eq_true]

/-- A transfer of a shared drain offers chunks of the range that it claimed, in order. -/
theorem spans_of_share (h : Lawful origin past) (ho : opened? d past = some drain) (hm : drain.mode = .concurrent)
    (hc : c ∈ shares g d past) : ∃ plan rest, Plan.ofPositions drain.geometry c.start c.stop = .ok plan ∧
      plan.spans = .ok ((chunksOffered (deeds c.step past)).map Prod.fst ++ rest) := by
  have hd := drainOf_share h hc
  have hcourse := course h hd
  obtain ⟨len, hlen, hplan, hfits⟩ := plan_of_share h ho hc
  refine ⟨⟨drain.geometry, c.start, len, 0⟩, ?_⟩
  by_cases hne : chunksOffered (deeds c.step past) = []
  · obtain ⟨l, hl⟩ := Plan.exists_spans hfits
    exact ⟨l, hplan, by rw [hne]; exact hl⟩
  · obtain ⟨plan, hp⟩ := hcourse.planned_of_offered hne
    obtain ⟨c', hc', hn, hstart, hgeo, hlen'⟩ := share_of_planned (g := g) h hd ho hm hp
    obtain rfl := h.share_unique hc' hc hn
    obtain ⟨rest, hspans⟩ := hcourse.spans_of_planned hp
    have hzero := (hcourse.tally hp).planned
    rw [hlen, Except.ok.injEq] at hlen'
    refine ⟨rest, hplan, ?_⟩
    rw [← hspans, hlen', hstart, ← hgeo, ← hzero]

/-- What a transfer of a shared drain offers, it has claimed. -/
theorem share_of_offered (h : Lawful origin past) (hd : drainOf n past = some d) (ho : opened? d past = some drain)
    (hm : drain.mode = .concurrent) (hne : chunksOffered (deeds n past) ≠ []) :
    ∃ c ∈ shares g d past, c.step = n := by
  obtain ⟨plan, hp⟩ := (course h hd).planned_of_offered hne
  obtain ⟨c, hc, hn, -⟩ := share_of_planned (g := g) h hd ho hm hp
  exact ⟨c, hc, hn⟩

end Lawful

/-! ## Every session -/

/-- What a history tells of the claims on a shared drain. -/
structure ClaimChain (d : Nat) (drain : Drain) (past : List Entry) : Prop where
  /-- Each claim ends at the write position that was read just before it was won. -/
  sampled : ∀ c ∈ shares drain.geometry d past, c.start ≠ c.stop ∧ c.stop < drain.geometry.capacity ∧
    ∃ retries won read before, won :: read :: before <:+ past ∧ won.step = c.step ∧ read.step = c.step ∧
      won.event = .claimed c.start c.stop retries ∧ read.event = .sampled c.stop ∧ read.source.position = c.stop
  /-- At every moment, the claims so far lead from the first cursor to where the cursor stands. -/
  cursor : ∀ e before, e :: before <:+ past → opened? d (e :: before) = some drain →
    ∃ cursor, e.drains[d]? = some (some ⟨drain.geometry, cursor, .concurrent⟩) ∧
      Chained drain.cursor (shares drain.geometry d (e :: before)) cursor
  /-- A transfer wins at most one claim. -/
  once : ((shares drain.geometry d past).map Share.step).Nodup
  /-- A transfer offers nothing but chunks of its claim, in order. -/
  spans : ∀ n, drainOf n past = some d → chunksOffered (deeds n past) ≠ [] →
    ∃ c ∈ shares drain.geometry d past, c.step = n ∧ ∃ plan rest,
      Plan.ofPositions drain.geometry c.start c.stop = .ok plan ∧
        plan.spans = .ok ((chunksOffered (deeds n past)).map Prod.fst ++ rest)

/-- The claims on a shared drain form a chain, in every lawful history. -/
theorem Lawful.claimChain {origin : Source} {d : Nat} {past : List Entry} {drain : Drain} (h : Lawful origin past)
    (ho : opened? d past = some drain) (hm : drain.mode = .concurrent) : ClaimChain d drain past where
  sampled c hc := by
    obtain ⟨before, hwon⟩ := mem_shares_iff.mp hc
    obtain ⟨ho', -, ⟨drains, source, before', rfl⟩, hne, hlt⟩ := h.of_won ho hwon
    obtain ⟨retries, drains', source', hs, hd, -⟩ := hwon
    have hs' := (List.suffix_cons _ _).trans hs
    have htrue := (Lawful.allowed (h.suffix hs') (by rw [← hd, drainOf_of_drain? rfl]) ho' rfl).2
    exact ⟨hne, hlt, retries, _, _, before', hs, rfl, rfl, rfl, rfl, (show c.stop = source.position from htrue).symm⟩
  cursor e before hs ho' := by
    have hlaw := h.suffix hs
    exact ⟨_, (place_concurrent_iff ho' hm).mp (hlaw.2.1.place d), hlaw.chained ho'⟩
  once := h.steps_nodup
  spans n hd hne := by
    obtain ⟨c, hc, rfl⟩ := h.share_of_offered (g := drain.geometry) hd ho hm hne
    exact ⟨c, hc, rfl, h.spans_of_share ho hm hc⟩

/-- In every session the claims on a shared drain form a chain from its first cursor to its last. -/
theorem claims_chain (session : Session) {d : Nat} {drain : Drain} (ho : opened? d session.past = some drain)
    (hm : drain.mode = .concurrent) :
    ClaimChain d drain session.past ∧
      ∃ cursor, session.run.2.drains[d]? = some (some ⟨drain.geometry, cursor, .concurrent⟩) ∧
        Chained drain.cursor (shares drain.geometry d session.past) cursor :=
  ⟨session.lawful.claimChain ho hm, _, session.orderly.place_concurrent ho hm, session.lawful.chained ho⟩

/-- A ring of four bytes in pages of one. -/
def quad : Geometry := ⟨4, 1, by decide, by decide, by decide⟩

/-- A ring of four bytes in which a transfer is overtaken between the cursor and the write position by another one. A
byte is written while that one delivers, and its sink fails at the second chunk. -/
def contended : Session where
  geometry := quad
  source := .ring (.zeros quad)
  script := [.play 0 (.write [10, 11]) false, .play 0 (.transfer 0 1 none) false]
  steps := [.openDrain .concurrent none none, .openSink .chunks [],
    .openSink .chunks [.play 0 (.write [12]) false, .fail 1 ⟨.other, "full"⟩], .transfer 0 0 none]

theorem contended_opened : opened? 0 contended.past = some ⟨contended.geometry, 0, .concurrent⟩ := by cbv

theorem contended_shares : shares contended.geometry 0 contended.past = [⟨5, 0, 2, 0⟩, ⟨3, 2, 3, 2⟩] := by cbv

theorem claims_chain_contended : ClaimChain 0 ⟨contended.geometry, 0, .concurrent⟩ contended.past ∧
    ∃ cursor, contended.run.2.drains[0]? = some (some ⟨contended.geometry, cursor, .concurrent⟩) ∧
      Chained 0 [⟨5, 0, 2, 0⟩, ⟨3, 2, 3, 2⟩] cursor := by
  have h := claims_chain contended contended_opened rfl
  rw [contended_shares] at h
  exact h

end PagedRing.Session
