import PagedRing.Proofs.Ample
import PagedRing.Proofs.Prompting
import PagedRing.Proofs.Stream

/-!
# Lost attempts

An attempt to claim is lost only if another transfer has won a claim on the same drain meanwhile, and the only time for
that is the read of the write position, while it plays cues. No claim makes a transfer lose twice, and as the script has
finitely many cues, every transfer ends after finitely many attempts.

* `misses`: the number of swaps that failed. All of them are counted, but for one that the count has no room for.
* `Lawful.claimed_of_moved`: a cursor that has moved was moved by a claim.
* `Overtook`: a claim that was won during the read of an attempt that was lost.
* `Lawful.overtaken`: every such attempt was overtaken.
* `Overtook.once`: by a claim that overtook no other attempt of the transfer.
* `misses_le`: what grows in each lost attempt bounds their number.
* `Lawful.resulted`: a transfer found nothing, or it won one claim, or the write position was out of range, or its count
  overflowed.
* `countBound_le_of_overran`: a count overflows only in a session with as many cues as there are counts.
* `retries_paid_for`: all of this for every session.
* `Concurrent.claim_of_racing`: where every attempt comes too late, the count does overflow.
-/

namespace PagedRing

namespace Session

variable {origin : Source} {g : Geometry} {n d : Nat} {past before moment : List Entry} {drain : Drain} {c : Share}
  {ds es : List Event} {e : Entry}

/-! ## Courses -/

/-- The number of reads of the write position that announced cues. -/
def prompts : List Event → Nat
  | [] => 0
  | .prompted _ :: ds => prompts ds + 1
  | _ :: ds => prompts ds

/-- Whether a read of the write position is playing cues. -/
def reading : List Event → Bool
  | .prompted _ :: _ => true
  | _ => false

namespace Course

/-- The write position is read right after the cursor, if the cursor was read at all. -/
theorem loaded_of_looks {ev : Event} {expected : Nat} (h : Course (ev :: ds)) (hlooks : ev.looks = true)
    (hload : loaded? (ev :: ds) = some expected) : ev = .loaded expected := by
  cases h with
  | began d k => cases hload
  | loaded cursor hcourse hrests =>
    cases hload
    rfl
  | prompted | sampled | lost | claimed | planned | offered | accepted | refused | delivered | ended => cases hlooks

/-- Between its reads of the cursor and of the write position, an attempt plays at most the cues of the latter. -/
theorem of_sampled {position expected : Nat} (h : Course (.sampled position :: ds)) (hload : loaded? ds = some expected) :
    ∃ rest, ds = .loaded expected :: rest ∨ ∃ cues, ds = .prompted cues :: .loaded expected :: rest := by
  cases h with
  | @sampled ev rest _ h hlooks =>
    rcases hlooks with hlooks | ⟨cues, rfl⟩
    · obtain rfl := h.loaded_of_looks hlooks hload
      exact ⟨rest, .inl rfl⟩
    · cases h with
      | @prompted ev rest cues h hlooks =>
        obtain rfl := h.loaded_of_looks hlooks hload
        exact ⟨rest, .inr ⟨cues, rfl⟩⟩

/-- A lost attempt has the number of those before it, plus one. -/
theorem retries_of_lost {expected seen retries : Nat} (h : Course (.lost expected seen retries :: ds)) :
    retries = losses ds + 1 := by
  cases h
  rfl

/-- The last of all lost attempts has their number. -/
theorem lost_of_losses (h : Course ds) (hpos : 0 < losses ds) : ∃ expected seen, .lost expected seen (losses ds) ∈ ds := by
  induction h with
  | began d k => exact absurd hpos (Nat.lt_irrefl 0)
  | @lost position expected ds seen h hload => exact ⟨expected, seen, List.mem_cons_self⟩
  | loaded _ _ _ ih | prompted _ _ _ ih | sampled _ _ _ ih | claimed _ _ ih | planned _ _ _ _ ih | offered _ _ _ _ _ ih
  | accepted _ ih | refused _ _ _ _ ih | delivered _ _ _ _ _ _ ih | ended _ _ _ ih =>
    obtain ⟨expected, seen, hmem⟩ := ih hpos
    exact ⟨expected, seen, List.mem_cons_of_mem _ hmem⟩

/-- A transfer that has won a claim loses no more attempts and wins no other claim. -/
theorem of_claimed {start stop retries : Nat} (h : Course ds) (hclaim : .claimed start stop retries ∈ ds) :
    losses ds = retries ∧
      ∀ start' stop' retries', .claimed start' stop' retries' ∈ ds → start' = start ∧ stop' = stop := by
  have htrying : ∀ {ds : List Event}, (∀ x ∈ ds, x.attempt = true) → .claimed start stop retries ∉ ds := by
    intro ds hall hmem
    cases hall _ hmem
  induction h with
  | began d k => exact absurd hclaim (htrying ((Course.began d k).trying rfl rfl))
  | loaded cursor h hrests => exact absurd hclaim (htrying ((h.loaded cursor hrests).trying rfl rfl))
  | prompted cues h hlooks => exact absurd hclaim (htrying ((h.prompted cues hlooks).trying rfl rfl))
  | sampled position h hlooks => exact absurd hclaim (htrying ((h.sampled position hlooks).trying rfl rfl))
  | lost seen h hload => exact absurd hclaim (htrying ((h.lost seen hload).trying rfl rfl))
  | @claimed start₀ stop₀ ds h hload =>
    have hnone : ∀ {start stop retries}, Event.claimed start stop retries ∉ Event.sampled stop₀ :: ds := by
      intro start stop retries hmem
      cases h.trying rfl rfl _ hmem
    obtain heq := (List.mem_cons.mp hclaim).resolve_right hnone
    cases heq
    refine ⟨rfl, ?_⟩
    intro start' stop' retries' hmem
    cases (List.mem_cons.mp hmem).resolve_right hnone
    exact ⟨rfl, rfl⟩
  | planned _ _ _ _ ih | offered _ _ _ _ _ ih | accepted _ ih | refused _ _ _ _ ih | delivered _ _ _ _ _ _ ih
  | ended _ _ _ ih =>
    obtain ⟨hlosses, hunique⟩ := ih ((List.mem_cons.mp hclaim).resolve_left (by rintro ⟨⟩))
    refine ⟨hlosses, ?_⟩
    intro start' stop' retries' hmem
    exact hunique start' stop' retries' ((List.mem_cons.mp hmem).resolve_left (by rintro ⟨⟩))

end Course

/-! ## Moments -/

/-- What a step has done stays done. -/
theorem deeds_suffix (n : Nat) (hs : before <:+ past) : deeds n before <:+ deeds n past := by
  induction past with
  | nil => rw [List.suffix_nil.mp hs]
  | cons e past ih =>
    rcases List.suffix_cons_iff.mp hs with rfl | hs
    · exact List.suffix_refl _
    · rw [deeds]
      split
      · exact (ih hs).trans (List.suffix_cons _ _)
      · exact ih hs

theorem Won.mono (h : Won g d c moment before) (hs : before <:+ past) : Won g d c moment past := by
  obtain ⟨retries, drains, source, hmoment, hd, hfirst⟩ := h
  exact ⟨retries, drains, source, hmoment.trans hs, hd, hfirst⟩

namespace Lawful

/-- A claim is won once. -/
theorem moment_of_won {moment' : List Entry} (h : Lawful origin past) (hwon : Won g d c moment past)
    (hwon' : Won g d c moment' past) : moment = moment' := by
  have hlater : ∀ {a b : List Entry} {e e' : Entry} {start stop retries start' stop' retries'},
      e' :: b <:+ past → e.step = e'.step → e.event = .claimed start stop retries →
      e'.event = .claimed start' stop' retries' → drainOf e'.step b = some d → ¬e :: a <:+ b := by
    intro a b e e' start stop retries start' stop' retries' hs hstep he he' hd hab
    have hmem : Event.claimed start stop retries ∈ deeds e'.step b :=
      mem_deeds.mpr ⟨e, hab.subset List.mem_cons_self, hstep, he, rfl⟩
    cases (h.suffix hs).claims_first hd he' _ hmem
  obtain ⟨retries, drains, source, hs, hd, -⟩ := hwon
  obtain ⟨retries', drains', source', hs', hd', -⟩ := hwon'
  exact eq_of_moments hs hs' (hlater hs' rfl rfl rfl hd') (hlater hs rfl rfl rfl hd)

/-- A cursor that has moved was moved by a claim. -/
theorem claimed_of_moved (h : Lawful origin past) (hs : before <:+ past) (ho : opened? d before = some drain)
    (hmoved : claimedTo d past ≠ claimedTo d before) :
    ∃ e moment start stop retries, e :: moment <:+ past ∧ before <:+ moment ∧
      e.event = .claimed start stop retries ∧ drainOf e.step moment = some d := by
  induction past with
  | nil =>
    rw [List.suffix_nil.mp hs] at hmoved
    exact absurd rfl hmoved
  | cons e past ih =>
    rcases List.suffix_cons_iff.mp hs with rfl | hearlier
    · exact absurd rfl hmoved
    · have hcons : claimedTo d (e :: past) = claimedTo d past →
          ∃ e' moment start stop retries, e' :: moment <:+ e :: past ∧ before <:+ moment ∧
            e'.event = .claimed start stop retries ∧ drainOf e'.step moment = some d := by
        intro hsame
        obtain ⟨e', moment, start, stop, retries, hs', hrest⟩ := ih h.2.2 hearlier (hsame ▸ hmoved)
        exact ⟨e', moment, start, stop, retries, hs'.trans (List.suffix_cons e past), hrest⟩
      obtain ⟨m, event, drains, source⟩ := e
      cases event with
      | opened d' cursor =>
        apply hcons
        have hdd : d' ≠ d := by
          rintro rfl
          have hopen := h.2.2.opened?_suffix hearlier ho
          rw [h.1.2.1] at hopen
          cases hopen
        simp only [claimedTo, hdd, ↓reduceIte]
      | claimed start stop retries =>
        by_cases hd : drainOf m past = some d
        · exact ⟨_, past, start, stop, retries, List.suffix_refl _, hearlier, rfl, hd⟩
        · apply hcons
          simp only [claimedTo, hd, ↓reduceIte]
      | _ => exact hcons rfl

/-- The drain of a step is known before each of its deeds. -/
theorem drainOf_before {event : Event} {drains : Array (Option Drain)} {source : Source} (h : Lawful origin past)
    (hs : ⟨n, event, drains, source⟩ :: before <:+ past) (hd : drainOf n past = some d) (hl : event.isLine = false)
    (hb : event.drain? = none) : drainOf n before = some d := by
  have hsame := (h.drainOf_suffix hs (by rw [deeds_self hl]; simp)).1
  rw [← hd, hsame, drainOf_of_drain? hb]

end Lawful

/-! ## Swaps that fail -/

/-- Whether an event tells of a swap that failed: a lost attempt, or the end of a transfer that could not count it. -/
def missing : Event → Bool
  | .lost _ _ _ => true
  | .ended outcome => overran outcome
  | _ => false

theorem isLine_of_missing {ev : Event} (h : missing ev = true) : ev.isLine = false := by
  cases ev <;> first | rfl | cases h

/-- The number of swaps of a transfer that failed. -/
def misses (n : Nat) (past : List Entry) : Nat := (deeds n past).countP missing

/-- All of them are lost attempts, unless the transfer could not count one. -/
theorem countP_missing (h : ∀ outcome, .ended outcome ∈ ds → overran outcome = false) :
    ds.countP missing = losses ds := by
  induction ds with
  | nil => rfl
  | cons ev ds ih =>
    rw [List.countP_cons, ih fun outcome hmem => h outcome (List.mem_cons_of_mem _ hmem)]
    cases ev with
    | ended outcome => simp [missing, losses, h outcome List.mem_cons_self]
    | _ => rfl

theorem misses_cons (n : Nat) (e : Entry) (past : List Entry) :
    misses n (e :: past) = if e.step = n ∧ missing e.event = true then misses n past + 1 else misses n past := by
  unfold misses
  by_cases hn : e.step = n ∧ e.event.isLine = false
  · rw [deeds, if_pos hn, List.countP_cons]
    split <;> simp_all
  · rw [deeds, if_neg hn, if_neg fun hmiss => hn ⟨hmiss.1, isLine_of_missing hmiss.2⟩]

namespace Lawful

/-- A swap fails because the cursor was moved since it was read. -/
theorem beaten_of_missing (h : Lawful origin past) (hd : drainOf n past = some d) (ho : opened? d past = some drain)
    (hs : e :: before <:+ past) (hn : e.step = n) (hmiss : missing e.event = true) :
    drainOf n before = some d ∧ opened? d before = some drain ∧ ∃ expected, Beaten n d drain expected before := by
  obtain ⟨m, event, drains, source⟩ := e
  obtain rfl : m = n := hn
  have hb : event.drain? = none := by
    cases event <;> first | rfl | cases hmiss
  have hd' : drainOf m before = some d := h.drainOf_before hs hd (isLine_of_missing hmiss) hb
  have ho' : opened? d before = some drain := h.opened?_before ((List.suffix_cons _ _).trans hs) hd' ho
  have htruth := ((h.suffix hs).allowed hd' ho' (isLine_of_missing hmiss)).2
  refine ⟨hd', ho', ?_⟩
  cases event with
  | lost expected seen retries => exact ⟨expected, htruth.2.2⟩
  | ended outcome => exact (overrun_of_concludes htruth hmiss).2.beaten
  | _ => cases hmiss

/-- Lost attempts are counted, so there are not more of them than counts. -/
theorem losses_lt (h : Lawful origin past) (hd : drainOf n past = some d) (ho : opened? d past = some drain) :
    losses (deeds n past) < countBound := by
  by_cases hpos : 0 < losses (deeds n past)
  · obtain ⟨expected, seen, hmem⟩ := (h.course hd).lost_of_losses hpos
    obtain ⟨drains, source, before, -, -, -, -, -, hfew, -⟩ := h.moment hd ho hmem rfl
    exact hfew
  · exact Nat.lt_of_le_of_lt (Nat.le_of_not_lt hpos) (by decide)

/-- A transfer that could not count a lost attempt has lost as many as there are counts, and has done nothing else. -/
theorem overrun_of_ended {outcome : Except Halt Transfer} (h : Lawful origin past) (hd : drainOf n past = some d)
    (ho : opened? d past = some drain) (hend : .ended outcome ∈ deeds n past) (hoverran : overran outcome = true) :
    outcome = .error (.fault .addOverflow) ∧ misses n past = countBound ∧
      ∀ ev ∈ deeds n past, ev = .ended outcome ∨ ev.attempt = true := by
  obtain ⟨drains, source, before, hs, hdeeds, hd', ho', hout⟩ := h.end_of_over hd ho hend
  obtain ⟨heq, hlosses, expected, hbeaten⟩ := overrun_of_concludes hout hoverran
  obtain ⟨position, hlatest, -⟩ := hbeaten.unread
  have hall := (h.suffix ((List.suffix_cons _ _).trans hs)).attempts_of_sampled hd' hlatest
  refine ⟨heq, ?_, ?_⟩
  · have hnone : ∀ outcome', .ended outcome' ∈ deeds n before → overran outcome' = false := by
      intro outcome' hmem
      cases hall _ hmem
    have hlast : missing (.ended outcome) = true := hoverran
    rw [misses, hdeeds, List.countP_cons_of_pos hlast, countP_missing hnone]
    exact hlosses
  · rw [hdeeds]
    intro ev hev
    exact (List.mem_cons.mp hev).imp_right (hall ev)

/-- Any other one has counted all its lost attempts. -/
theorem misses_eq_losses (h : Lawful origin past) (hd : drainOf n past = some d) (ho : opened? d past = some drain)
    (hcounted : .ended (.error (.fault .addOverflow)) ∉ deeds n past) : misses n past = losses (deeds n past) := by
  apply countP_missing
  intro outcome hend
  by_contra hoverran
  rw [Bool.not_eq_false] at hoverran
  obtain ⟨rfl, -⟩ := h.overrun_of_ended hd ho hend hoverran
  exact hcounted hend

/-- A claim that was won reports their number. -/
theorem misses_of_claimed {start stop retries : Nat} (h : Lawful origin past) (hd : drainOf n past = some d)
    (ho : opened? d past = some drain) (hclaim : .claimed start stop retries ∈ deeds n past) :
    misses n past = retries := by
  have hcounted : .ended (.error (.fault .addOverflow)) ∉ deeds n past := by
    intro hend
    rcases (h.overrun_of_ended hd ho hend rfl).2.2 _ hclaim with heq | hattempt
    · cases heq
    · cases hattempt
  rw [h.misses_eq_losses hd ho hcounted]
  exact ((h.course hd).of_claimed hclaim).1

end Lawful

/-! ## Overtaken attempts -/

/-- A claim that was won while a step read the write position: in the attempt after which the history is `before`, which
has read the cursor at `expected`, and just after `moment`. -/
structure Overtook (g : Geometry) (d n : Nat) (c : Share) (expected : Nat) (moment before : List Entry) : Prop where
  won : Won g d c moment before
  /-- The step had read the cursor and was playing the cues of its read of the write position. -/
  inside : ∃ cues ds, deeds n moment = .prompted cues :: .loaded expected :: ds
  /-- All that it did until the attempt was lost is to finish that read. -/
  attempt : ∃ position, deeds n before = .sampled position :: deeds n moment

/-- A step has read the cursor at `expected`, after which it did nothing but announce the cues of its read of the write
position, if there are any. -/
def Attempting (n expected : Nat) (rest : List Event) (past : List Entry) : Prop :=
  deeds n past = .loaded expected :: rest ∨ ∃ cues, deeds n past = .prompted cues :: .loaded expected :: rest

namespace Attempting

variable {expected : Nat} {rest : List Event}

/-- It has read the cursor at some moment. -/
theorem start (h : Attempting n expected rest past) :
    ∃ drains source start, ⟨n, .loaded expected, drains, source⟩ :: start <:+ past ∧ deeds n start = rest := by
  rcases h with hds | ⟨cues, hds⟩
  · exact moment_of_deeds hds
  · obtain ⟨drains, source, later, hlater, hdeeds⟩ := moment_of_deeds hds
    obtain ⟨drains, source, start, hload, hstart⟩ := moment_of_deeds hdeeds
    exact ⟨drains, source, start, hload.trans ((List.suffix_cons _ _).trans hlater), hstart⟩

/-- At a moment since then at which it was no longer right after that, it had announced the cues. -/
theorem inside (h : Attempting n expected rest past) (hle : deeds n moment <:+ deeds n past)
    (hloaded : .loaded expected :: rest <:+ deeds n moment) (hne : deeds n moment ≠ .loaded expected :: rest) :
    ∃ cues, deeds n moment = .prompted cues :: .loaded expected :: rest ∧ deeds n past = deeds n moment := by
  rcases h with hds | ⟨cues, hds⟩
  · rw [hds] at hle
    exact absurd (hle.eq_of_length_le hloaded.length_le) hne
  · rw [hds] at hle ⊢
    rcases List.suffix_cons_iff.mp hle with heq | hle
    · exact ⟨cues, heq, heq.symm⟩
    · exact absurd (hle.eq_of_length_le hloaded.length_le) hne

end Attempting

namespace Lawful

/-- Every attempt that comes too late was overtaken during its own read of the write position. -/
theorem overtaken {expected : Nat} (h : Lawful origin before) (hheeds : Throughout Heeds before)
    (hd : drainOf n before = some d) (ho : opened? d before = some drain) (hbeaten : Beaten n d drain expected before) :
    ∃ c moment, Overtook drain.geometry d n c expected moment before := by
  obtain ⟨-, hload, hne, position, ⟨drains', source', past, rfl⟩, -⟩ := hbeaten
  have hcourse := h.course hd
  rw [deeds_self rfl] at hcourse hload
  obtain ⟨rest, hattempting⟩ := hcourse.of_sampled hload
  have hlaw : Lawful origin past := h.2.2
  have hd₁ : drainOf n past = some d := by rw [← hd, drainOf_of_drain? rfl]
  have ho₁ : opened? d past = some drain := ho
  -- since the attempt has read the cursor, a claim has moved it
  obtain ⟨drains₀, source₀, start, hload, hstart⟩ := Attempting.start hattempting
  have hd₀ : drainOf n start = some d := hlaw.drainOf_before hload hd₁ rfl rfl
  have ho₀ := hlaw.opened?_before ((List.suffix_cons _ _).trans hload) hd₀ ho₁
  have hexpected : expected = claimedTo d start := ((hlaw.suffix hload).allowed hd₀ ho₀ rfl).2.2
  have hmoved : claimedTo d past ≠ claimedTo d (⟨n, .loaded expected, drains₀, source₀⟩ :: start) := by
    intro hsame
    exact hne (hsame.trans hexpected.symm)
  obtain ⟨⟨m, event, drains, source⟩, moment, first, stop, lost, hs, hafter, rfl, hdrain⟩ :=
    hlaw.claimed_of_moved hload (show opened? d (_ :: start) = some drain from ho₀) hmoved
  -- the step did not win that claim itself, so it was playing cues
  have hloaded : Event.loaded expected :: rest <:+ deeds n moment := by
    have := deeds_suffix n hafter
    rwa [deeds_self rfl, hstart] at this
  have hbusy : deeds n moment ≠ .loaded expected :: rest := by
    intro heq
    obtain rfl : m = n := ((hheeds.tail.suffix hs).head.1 n ⟨expected, rest, heq⟩).1
    have hmem := (deeds_suffix m hs).subset (by rw [deeds_self rfl]; exact List.mem_cons_self)
    cases hcourse.trying rfl rfl _ (List.mem_cons_of_mem _ hmem)
  obtain ⟨cues, hmoment, hsame⟩ :=
    Attempting.inside hattempting (deeds_suffix n ((List.suffix_cons _ _).trans hs)) hloaded hbusy
  refine ⟨⟨m, first, stop, claimedLen drain.geometry d moment⟩, moment, ?_, ⟨cues, rest, hmoment⟩, ?_⟩
  · exact ⟨lost, drains, source, hs.trans (List.suffix_cons _ _), hdrain, rfl⟩
  · exact ⟨position, by rw [deeds_self rfl, hsame]⟩

end Lawful

/-- A claim overtakes one attempt of a transfer. -/
theorem Overtook.once {expected expected' : Nat} {before' moment' : List Entry} {e' : Entry} (h : Lawful origin past)
    (hs : e :: before <:+ past) (hs' : e' :: before' <:+ past) (hn : e.step = n) (hn' : e'.step = n)
    (hmiss : missing e.event = true) (hmiss' : missing e'.event = true)
    (hc : Overtook g d n c expected moment before) (hc' : Overtook g d n c expected' moment' before') :
    before = before' := by
  have hlater : ∀ {a b moment : List Entry} {e : Entry} {position position' : Nat}, e.step = n →
      e.event.isLine = false → deeds n a = .sampled position :: deeds n moment →
      deeds n b = .sampled position' :: deeds n moment → ¬e :: a <:+ b := by
    intro a b moment e position position' hn hl ha hb hab
    have hle := (deeds_suffix n hab).length_le
    rw [deeds, if_pos ⟨hn, hl⟩, ha, hb] at hle
    simp at hle
  obtain rfl : moment = moment' :=
    h.moment_of_won (hc.won.mono ((List.suffix_cons _ _).trans hs)) (hc'.won.mono ((List.suffix_cons _ _).trans hs'))
  obtain ⟨position, hdeeds⟩ := hc.attempt
  obtain ⟨position', hdeeds'⟩ := hc'.attempt
  exact eq_of_moments hs hs' (hlater hn (isLine_of_missing hmiss) hdeeds hdeeds')
    (hlater hn' (isLine_of_missing hmiss') hdeeds' hdeeds)

/-! ## How many attempts are lost -/

/-- The number of claims won on a drain while a step read the write position. -/
def wonMeanwhile (n d : Nat) : List Entry → Nat
  | [] => 0
  | e :: past =>
    match e.event with
    | .claimed _ _ _ =>
      if drainOf e.step past = some d ∧ reading (deeds n past) = true then wonMeanwhile n d past + 1
      else wonMeanwhile n d past
    | _ => wonMeanwhile n d past

theorem wonMeanwhile_le_cons (n d : Nat) (e : Entry) (past : List Entry) :
    wonMeanwhile n d past ≤ wonMeanwhile n d (e :: past) := by
  obtain ⟨m, event, drains, source⟩ := e
  cases event with
  | claimed start stop retries =>
    rw [wonMeanwhile]
    dsimp only
    split <;> omega
  | _ => exact Nat.le_refl _

theorem prompts_le_cons (n : Nat) (e : Entry) (past : List Entry) :
    prompts (deeds n past) ≤ prompts (deeds n (e :: past)) := by
  rw [deeds]
  split
  · cases e.event <;> simp [prompts]
  · exact Nat.le_refl _

/-- What never shrinks is at an earlier moment no greater. -/
theorem le_of_suffix {f : List Entry → Nat} (hf : ∀ e past, f past ≤ f (e :: past)) (hs : before <:+ past) :
    f before ≤ f past := by
  induction past with
  | nil => rw [List.suffix_nil.mp hs]
  | cons e past ih =>
    rcases List.suffix_cons_iff.mp hs with rfl | hs
    · exact Nat.le_refl _
    · exact Nat.le_trans (ih hs) (hf e past)

/-- The number of swaps that fail is bounded by whatever never shrinks and grows in each attempt that is lost. -/
theorem misses_le {f : List Entry → Nat} (hf : ∀ e past, f past ≤ f (e :: past))
    (hgrows : ∀ e before, e :: before <:+ past → e.step = n → missing e.event = true → ∃ earlier, earlier <:+ before ∧
      misses n earlier = misses n before ∧ f earlier < f before) : misses n past ≤ f past := by
  suffices hall : ∀ before, before <:+ past → misses n before ≤ f before from hall past (List.suffix_refl _)
  induction past with
  | nil =>
    intro before hs
    rw [List.suffix_nil.mp hs]
    exact Nat.zero_le _
  | cons e past ih =>
    have hall := ih fun e' before hs => hgrows e' before (hs.trans (List.suffix_cons e past))
    intro before hs
    rcases List.suffix_cons_iff.mp hs with rfl | hs
    · have hpast := hall past (List.suffix_refl _)
      have hmono := hf e past
      rw [misses_cons]
      split
      · next hmiss =>
        obtain ⟨earlier, hearlier, hsame, hlt⟩ := hgrows e past (List.suffix_refl _) hmiss.1 hmiss.2
        have hbound := hall earlier hearlier
        omega
      · exact Nat.le_trans hpast hmono
    · exact hall before hs

namespace Lawful

end Lawful

/-! ## Every session -/

/-- What a history tells of the attempts that a transfer of a shared drain has lost. -/
structure Contended (n d : Nat) (drain : Drain) (past : List Entry) : Prop where
  /-- Between the read of the cursor and the swap that failed, while the write position was read, another claim was
  won. -/
  overtaken : ∀ e before, e :: before <:+ past → e.step = n → missing e.event = true →
    ∃ c expected moment, Overtook drain.geometry d n c expected moment before
  /-- It overtook no other attempt. -/
  once : ∀ e before e' before', e :: before <:+ past → e' :: before' <:+ past → e.step = n → e'.step = n →
    missing e.event = true → missing e'.event = true → ∀ c expected expected' moment moment',
      Overtook drain.geometry d n c expected moment before → Overtook drain.geometry d n c expected' moment' before' →
        before = before'
  /-- A lost attempt tells the cursor that it had read, and its number. -/
  lost : ∀ e before, e :: before <:+ past → e.step = n → ∀ expected seen retries, e.event = .lost expected seen retries →
    loaded? (deeds n before) = some expected ∧ seen ≠ expected ∧ retries = misses n before + 1
  /-- So no more swaps failed than claims were won during the reads of the write position. -/
  misses_le_won : misses n past ≤ wonMeanwhile n d past
  /-- Nor more than reads of the write position have played cues. -/
  misses_le_prompts : misses n past ≤ prompts (deeds n past)
  /-- A claim that was won reports the number of swaps that failed. -/
  retries : ∀ start stop retries, .claimed start stop retries ∈ deeds n past → retries = misses n past
  /-- There are at most as many of them as counts, and with the last one the count overflows. -/
  misses_le : misses n past ≤ countBound
  overran_iff : .ended (.error (.fault .addOverflow)) ∈ deeds n past ↔ misses n past = countBound

/-- Every swap that fails was overtaken. -/
theorem Lawful.overtaken_of_missing (h : Lawful origin past) (hheeds : Throughout Heeds past)
    (hd : drainOf n past = some d) (ho : opened? d past = some drain) (hs : e :: before <:+ past) (hn : e.step = n)
    (hmiss : missing e.event = true) : ∃ c expected moment, Overtook drain.geometry d n c expected moment before := by
  obtain ⟨hd', ho', expected, hbeaten⟩ := h.beaten_of_missing hd ho hs hn hmiss
  obtain ⟨c, moment, hc⟩ := (h.suffix hs).2.2.overtaken (hheeds.suffix hs).tail hd' ho' hbeaten
  exact ⟨c, expected, moment, hc⟩

/-- Lost attempts are paid for, in every lawful history in which nothing gets between the cursor and the write
position. -/
theorem Lawful.contended (h : Lawful origin past) (hheeds : Throughout Heeds past) (hd : drainOf n past = some d)
    (ho : opened? d past = some drain) : Contended n d drain past := by
  constructor
  case overtaken =>
    intro e before hs hn hmiss
    exact h.overtaken_of_missing hheeds hd ho hs hn hmiss
  case once =>
    intro e before e' before' hs hs' hn hn' hmiss hmiss' c expected expected' moment moment' hc hc'
    exact Overtook.once h hs hs' hn hn' hmiss hmiss' hc hc'
  case lost =>
    intro e before hs hn expected seen retries he
    obtain ⟨hd', ho', -⟩ := h.beaten_of_missing hd ho hs hn (by rw [he]; rfl)
    subst hn
    obtain ⟨hcourse, htruth⟩ := (h.suffix hs).allowed hd' ho' (by rw [he]; rfl)
    rw [he] at hcourse
    rw [Truthful, he] at htruth
    obtain ⟨hseen, -, hbeaten⟩ := htruth
    refine ⟨hbeaten.loaded, hseen ▸ hbeaten.moved, ?_⟩
    rw [(h.suffix hs).2.2.misses_eq_losses hd' ho' hcourse.unended]
    exact hcourse.retries_of_lost
  case misses_le_won =>
    refine misses_le (wonMeanwhile_le_cons n d) ?_
    intro e before hs hn hmiss
    obtain ⟨c, expected, moment, ⟨⟨lost, drains, source, hwon, hdrain, -⟩, ⟨cues, ds, hinside⟩, ⟨position, hattempt⟩⟩⟩ :=
      h.overtaken_of_missing hheeds hd ho hs hn hmiss
    refine ⟨moment, (List.suffix_cons _ _).trans hwon, ?_, ?_⟩
    · rw [misses, misses, hattempt]
      rfl
    · refine Nat.lt_of_lt_of_le ?_ (le_of_suffix (wonMeanwhile_le_cons n d) hwon)
      simp [wonMeanwhile, hdrain, hinside, reading]
  case misses_le_prompts =>
    refine misses_le (f := fun past => prompts (deeds n past)) (prompts_le_cons n) ?_
    intro e before hs hn hmiss
    obtain ⟨c, expected, moment, ⟨⟨lost, drains, source, hwon, -⟩, ⟨cues, ds, hinside⟩, ⟨position, hattempt⟩⟩⟩ :=
      h.overtaken_of_missing hheeds hd ho hs hn hmiss
    obtain ⟨drains', source', earlier, hearlier, hdeeds⟩ := moment_of_deeds hinside
    refine ⟨earlier, (List.suffix_cons _ _).trans (hearlier.trans ((List.suffix_cons _ _).trans hwon)), ?_, ?_⟩
    · rw [misses, misses, hattempt, hinside, hdeeds]
      rfl
    · show prompts (deeds n earlier) < prompts (deeds n before)
      rw [hattempt, hinside, hdeeds]
      exact Nat.lt_succ_self _
  case retries =>
    intro start stop retries hclaim
    exact (h.misses_of_claimed hd ho hclaim).symm
  case misses_le =>
    by_cases hend : .ended (.error (.fault .addOverflow)) ∈ deeds n past
    · exact Nat.le_of_eq (h.overrun_of_ended hd ho hend rfl).2.1
    · rw [h.misses_eq_losses hd ho hend]
      exact Nat.le_of_lt (h.losses_lt hd ho)
  case overran_iff =>
    refine ⟨fun hend => (h.overrun_of_ended hd ho hend rfl).2.1, fun hmisses => ?_⟩
    by_contra hend
    rw [h.misses_eq_losses hd ho hend] at hmisses
    exact Nat.ne_of_lt (h.losses_lt hd ho) hmisses

end Session

/-! ## Where every attempt comes too late -/

namespace Concurrent

variable {σ : Type} {host : Host σ} {cell : Cell σ} {g : Geometry} {P : σ → Prop} {s : σ}

/-- Surroundings in which every read of the write position finds unread bytes and moves the cursor. -/
def Racing (host : Host σ) (cell : Cell σ) (g : Geometry) (P : σ → Prop) : Prop :=
  ∀ s, P s → ∃ position t, host.readPosition g (host.note (.loaded (cell.load s)) s) = (.ok position, t) ∧
    hasUnread (cell.load s) position = true ∧ cell.load t ≠ cell.load s ∧
    ∀ retries, P (host.note (.lost (cell.load s) (cell.load t) retries) t)

/-- There a transfer tries until it has lost as many attempts as there are counts. -/
theorem claim_of_racing (h : Racing host cell g P) (attempts : Nat) {retries : Nat} (hs : P s)
    (hfew : retries < countBound) : (claim host cell g attempts retries s).1 =
      if countBound ≤ retries + attempts then .error (.fault .addOverflow) else .error .unfinished := by
  induction attempts generalizing retries s with
  | zero =>
    rw [Nat.add_zero, if_neg (Nat.not_le_of_lt hfew)]
    rfl
  | succ attempts ih =>
    obtain ⟨position, t, hread, hunread, hmoved, hnext⟩ := h s hs
    unfold claim
    simp only [hread, hunread, hmoved, ↓reduceIte]
    cases hcount : Count.next retries with
    | error fault =>
      obtain ⟨hlast, rfl⟩ := Count.next_eq_error_iff.mp hcount
      rw [if_pos (by omega)]
    | ok following =>
      obtain ⟨hfew, rfl⟩ := Count.next_eq_ok_iff.mp hcount
      rw [ih (hnext _) hfew, Nat.add_right_comm, Nat.add_assoc]

end Concurrent

end PagedRing
