import PagedRing.Proofs.Course

/-!
# Lawful histories

What one entry of a history may be, given the entries before it. `Truthful` says what an event of a transfer means,
`Faithful` how the drains and the source stand after a history, and a history is `Lawful` if each of its entries is
allowed where it stands and leaves the drains and the source as the history says.

* `Lawful.suffix`: every moment of a lawful history is a lawful history.
* `Lawful.opened_of_drainOf`: a drain that transfers was opened.
* `Lawful.course`: the deeds of a transfer follow a course.
* `Lawful.claimedTo_lt`, `Lawful.settledTo_lt`: cursors stay in their rings.
-/

namespace PagedRing.Session

/-! ## Laws -/

/-- The position up to which a transfer takes the bytes as read: a shared drain goes by the cursor that it read, any
other one by its own. -/
def base? (n d : Nat) (drain : Drain) (past : List Entry) : Option Nat :=
  match drain.mode with
  | .concurrent => loaded? (deeds n past)
  | .sequential _ => some (settledTo d past)

/-- An attempt of a transfer of a shared drain that comes too late: it has read the cursor at `expected` and then a write
position up to which bytes are unread, but the cursor is elsewhere by now. -/
structure Beaten (n d : Nat) (drain : Drain) (expected : Nat) (past : List Entry) : Prop where
  shared : drain.mode = .concurrent
  loaded : loaded? (deeds n past) = some expected
  moved : claimedTo d past ≠ expected
  unread : ∃ position, Latest n (.sampled position) past ∧ position ≠ expected ∧ position < drain.geometry.capacity

/-- A transfer of a shared drain has lost one more attempt than can be counted. -/
structure Overrun (n d : Nat) (drain : Drain) (past : List Entry) : Prop where
  uncounted : losses (deeds n past) + 1 = countBound
  beaten : ∃ expected, Beaten n d drain expected past

/-- Whether a transfer ended because its count of lost attempts overflowed. -/
def overran : Except Halt Transfer → Bool
  | .error (.fault .addOverflow) => true
  | _ => false

/-- What the outcome of a transfer means. -/
def Concludes (n d : Nat) (drain : Drain) (past : List Entry) (source : Source) : Except Halt Transfer → Prop
  | .ok report =>
    (∃ position, report = .emptyAt position ∧ Latest n (.sampled position) past ∧
      position < drain.geometry.capacity ∧ base? n d drain past = some position) ∨
    Latest n (.delivered report) past
  | .error (.error (.sink start stop taken cause)) => ∃ len, Latest n (.refused start stop taken len cause) past
  | .error (.error (.positionOutOfRange position capacity)) =>
    capacity = drain.geometry.capacity ∧ Latest n (.sampled position) past ∧ capacity ≤ position
  | .error (.error (.rangeTooLong _ _)) => False
  | .error (.error (.pageSize page expected actual taken)) =>
    ∃ left bytes, Handing (deeds n past) ∧ left? (deeds n past) = some left ∧ left.planned < left.len ∧
      page = left.head.page ∧ source.page page = .ok bytes ∧ expected = drain.geometry.pageSize ∧
      actual = bytes.length ∧ actual ≠ expected ∧ taken = size (chunksAccepted (deeds n past))
  | .error (.fault cause) =>
    (∃ left, Handing (deeds n past) ∧ left? (deeds n past) = some left ∧ left.planned < left.len ∧
      source.page left.head.page = .error cause) ∨
    cause = .addOverflow ∧ Overrun n d drain past
  | .error .unfinished => drain.mode = .concurrent ∧ ∀ ev ∈ deeds n past, ev.attempt = true

/-- Of the faults of a transfer, only an overrun of its count is a sum that is too large: the pages of a range have
numbers that can be counted. -/
theorem overrun_of_concludes {n d : Nat} {drain : Drain} {past : List Entry} {source : Source}
    {outcome : Except Halt Transfer} (h : Concludes n d drain past source outcome) (hoverran : overran outcome = true) :
    outcome = .error (.fault .addOverflow) ∧ Overrun n d drain past := by
  match outcome with
  | .error (.fault .addOverflow) =>
    rcases h with ⟨left, -, -, -, hpage⟩ | ⟨-, hoverrun⟩
    · exact absurd hpage (source.page_ne_addOverflow left.head_page_lt)
    · exact ⟨rfl, hoverrun⟩

/-- What an event of a transfer means. -/
def Truthful (d : Nat) (drain : Drain) (past : List Entry) (e : Entry) : Prop :=
  match e.event with
  | .loaded cursor => drain.mode = .concurrent ∧ cursor = claimedTo d past
  | .sampled position => position = e.source.position
  | .lost expected seen retries => seen = claimedTo d past ∧ retries < countBound ∧ Beaten e.step d drain expected past
  | .claimed start stop _ =>
    drain.mode = .concurrent ∧ start = claimedTo d past ∧ Latest e.step (.sampled stop) past ∧ start ≠ stop ∧
      stop < drain.geometry.capacity
  | .planned plan =>
    plan.geometry = drain.geometry ∧ ∃ stop, drain.geometry.unreadLen plan.start stop = .ok plan.len ∧
      match drain.mode with
      | .concurrent => ∃ retries, Latest e.step (.claimed plan.start stop retries) past
      | .sequential _ =>
        plan.start = settledTo d past ∧ Latest e.step (.sampled stop) past ∧ plan.start ≠ stop ∧
          stop < drain.geometry.capacity
  | .offered span bytes =>
    ∃ page, e.source.page span.page = .ok page ∧ page.length = drain.geometry.pageSize ∧
      bytes = (page.drop span.offsetInPage).take span.len
  | .ended outcome => Concludes e.step d drain past e.source outcome
  | _ => True

/-- What an entry may be. A drain is opened once, a step begins one transfer, and a drain that is not shared begins
one only when all others are over. -/
def Allowed (past : List Entry) (e : Entry) : Prop :=
  match e.event with
  | .opened d cursor =>
    drainOf e.step past = none ∧ opened? d past = none ∧
      ∃ drain, e.drains[d]? = some (some drain) ∧ drain.cursor = cursor ∧ cursor < drain.geometry.capacity
  | .wrote _ => drainOf e.step past = none
  | .began d _ =>
    deeds e.step past = [] ∧
      ∃ drain, e.drains[d]? = some (some drain) ∧
        (drain.mode ≠ .concurrent → ∀ m, drainOf m past = some d → Over m past)
  | .line _ => True
  | _ => ∀ d drain, drainOf e.step past = some d → opened? d past = some drain →
      Course (e.event :: deeds e.step past) ∧ Truthful d drain past e

/-- An event that a transfer may add, and that means what it says, is allowed. -/
theorem allowed_of_course {past : List Entry} {e : Entry} {d : Nat} {drain : Drain} (hb : e.event.drain? = none)
    (hd : drainOf e.step past = some d) (ho : opened? d past = some drain)
    (hc : Course (e.event :: deeds e.step past)) (ht : Truthful d drain past e) : Allowed past e := by
  have hall : ∀ d' drain', drainOf e.step past = some d' → opened? d' past = some drain' →
      Course (e.event :: deeds e.step past) ∧ Truthful d' drain' past e := by
    intro d' drain' hd' ho'
    obtain rfl : d' = d := Option.some.inj (hd'.symm.trans hd)
    obtain rfl : drain' = drain := Option.some.inj (ho'.symm.trans ho)
    exact ⟨hc, ht⟩
  obtain ⟨n, event, drains, source⟩ := e
  cases event with
  | opened | wrote => cases hc
  | began => cases hb
  | line => trivial
  | _ => exact hall

/-- How the place of a drain looks after a history: that of a drain which is not shared is empty while the drain is in
use, and after it was given up. -/
def Place (d : Nat) (past : List Entry) (place : Option (Option Drain)) : Prop :=
  match opened? d past with
  | none => place = none
  | some drain =>
    match drain.mode with
    | .concurrent => place = some (some ⟨drain.geometry, claimedTo d past, .concurrent⟩)
    | .sequential _ =>
      place = some none ∨ ∃ own, place = some (some ⟨drain.geometry, settledTo d past, .sequential own⟩)

theorem Place.quiet {d : Nat} {e : Entry} {past : List Entry} {place : Option (Option Drain)}
    (h : e.event.quiet = true) : Place d (e :: past) place ↔ Place d past place := by
  simp only [Place, opened?_quiet h, claimedTo_quiet h, settledTo_quiet h]

/-- What a transfer does leaves the places of other drains as they are. -/
theorem Place.of_ne {d : Nat} {e : Entry} {past : List Entry} {place : Option (Option Drain)}
    (hn : ∀ k cursor, e.event ≠ .opened k cursor) (hd : drainOf e.step past ≠ some d) :
    Place d (e :: past) place ↔ Place d past place := by
  obtain ⟨n, event, drains, source⟩ := e
  cases event with
  | opened k cursor => exact absurd rfl (hn k cursor)
  | claimed start stop retries => simp only [Place, opened?, claimedTo, settledTo, hd, ↓reduceIte]
  | ended outcome =>
    cases outcome with
    | ok report => simp only [Place, opened?, claimedTo, settledTo, hd, ↓reduceIte]
    | error cause => rfl
  | _ => rfl

theorem place_concurrent_iff {d : Nat} {past : List Entry} {drain : Drain} {place : Option (Option Drain)}
    (ho : opened? d past = some drain) (hm : drain.mode = .concurrent) :
    Place d past place ↔ place = some (some ⟨drain.geometry, claimedTo d past, .concurrent⟩) := by
  simp only [Place, ho, hm]

theorem place_sequential_iff {d : Nat} {past : List Entry} {drain : Drain} {place : Option (Option Drain)}
    (ho : opened? d past = some drain) (hm : drain.mode ≠ .concurrent) :
    Place d past place ↔
      place = some none ∨ ∃ own, place = some (some ⟨drain.geometry, settledTo d past, .sequential own⟩) := by
  cases hmode : drain.mode with
  | concurrent => exact absurd hmode hm
  | sequential scratch => simp only [Place, ho, hmode]

/-- How the drains and the source stand after a history that began with a source. -/
structure Faithful (origin : Source) (past : List Entry) (drains : Array (Option Drain)) (source : Source) : Prop where
  place : ∀ d, Place d past drains[d]?
  source : ∀ ring, origin = .ring ring → source = .ring (ring.write (written past))

/-- A history in which each entry is allowed where it stands and leaves things as the history says. -/
def Lawful (origin : Source) : List Entry → Prop
  | [] => True
  | e :: past => Allowed past e ∧ Faithful origin (e :: past) e.drains e.source ∧ Lawful origin past

/-! ## Moments -/

namespace Lawful

variable {origin : Source} {past before : List Entry} {e : Entry} {n d : Nat} {drain : Drain}

/-- Every moment of a lawful history is a lawful history. -/
theorem suffix (h : Lawful origin past) (hs : before <:+ past) : Lawful origin before := by
  induction past with
  | nil => rw [List.suffix_nil.mp hs]; exact h
  | cons e past ih =>
    rcases List.suffix_cons_iff.mp hs with rfl | hs
    · exact h
    · exact ih h.2.2 hs

/-- A drain is opened once. -/
theorem opened?_cons (h : Lawful origin (e :: past)) (hd : opened? d past = some drain) :
    opened? d (e :: past) = some drain := by
  obtain ⟨n, event, drains, source⟩ := e
  cases event with
  | opened d' cursor =>
    by_cases hdd : d' = d
    · subst hdd
      have := h.1.2.1
      rw [hd] at this
      cases this
    · simpa [opened?, hdd] using hd
  | _ => exact hd

/-- A drain that transfers was opened. -/
theorem opened_of_drainOf (h : Lawful origin past) (hd : drainOf n past = some d) :
    ∃ drain, opened? d past = some drain := by
  induction past with
  | nil => cases hd
  | cons e past ih =>
    by_cases hn : e.event.drain? = none
    · rw [drainOf_of_drain? hn] at hd
      obtain ⟨drain, hdrain⟩ := ih h.2.2 hd
      exact ⟨drain, opened?_cons h hdrain⟩
    · obtain ⟨m, event, drains, source⟩ := e
      cases event with
      | began d' k =>
        by_cases hm : m = n
        · subst hm
          rw [drainOf_began] at hd
          cases hd
          obtain ⟨-, drain, hdrain, -⟩ := h.1
          have hp := h.2.1.place d
          unfold Place at hp
          cases ho : opened? d (⟨m, .began d k, drains, source⟩ :: past) with
          | none => rw [ho] at hp; rw [hp] at hdrain; cases hdrain
          | some drain => exact ⟨drain, rfl⟩
        · rw [drainOf_of_ne hm] at hd
          obtain ⟨drain, hdrain⟩ := ih h.2.2 hd
          exact ⟨drain, opened?_cons h hdrain⟩
      | _ => simp [Event.drain?] at hn

/-- What an event of a transfer is, where it stands. -/
theorem allowed (h : Lawful origin (e :: past)) (hd : drainOf e.step past = some d) (ho : opened? d past = some drain)
    (hl : e.event.isLine = false) : Course (e.event :: deeds e.step past) ∧ Truthful d drain past e := by
  obtain ⟨n, event, drains, source⟩ := e
  have ha := h.1
  cases event with
  | opened => exact absurd (hd.symm.trans ha.1) (by simp)
  | wrote => exact absurd (hd.symm.trans ha) (by simp)
  | began =>
    have hn : drainOf n past = none := by rw [drainOf, ha.1]; rfl
    exact absurd (hd.symm.trans hn) (by simp)
  | line => cases hl
  | _ => exact ha d drain hd ho

/-- The deeds of a transfer follow a course. -/
theorem course (h : Lawful origin past) (hd : drainOf n past = some d) : Course (deeds n past) := by
  induction past with
  | nil => cases hd
  | cons e past ih =>
    by_cases hn : e.step = n ∧ e.event.isLine = false
    · obtain ⟨rfl, hl⟩ := hn
      rw [deeds, if_pos ⟨rfl, hl⟩]
      cases hp : drainOf e.step past with
      | some d' =>
        obtain ⟨drain, ho⟩ := opened_of_drainOf h.2.2 hp
        exact (allowed h hp ho hl).1
      | none =>
        obtain ⟨n, event, drains, source⟩ := e
        cases event with
        | began d' k => rw [h.1.1]; exact .began d' k
        | _ => rw [drainOf_of_drain? rfl, hp] at hd; cases hd
    · rw [deeds, if_neg hn]
      refine ih h.2.2 ?_
      rwa [drainOf, deeds, if_neg hn] at hd

/-- A transfer that has just read the write position has done nothing but look for unread bytes. -/
theorem attempts_of_sampled {position : Nat} (h : Lawful origin past) (hd : drainOf n past = some d)
    (hlatest : Latest n (.sampled position) past) : ∀ ev ∈ deeds n past, ev.attempt = true := by
  have hcourse := h.course hd
  obtain ⟨_, _, before, rfl⟩ := hlatest
  rw [deeds_self rfl] at hcourse ⊢
  exact hcourse.trying rfl rfl

/-! ## Deeds -/

theorem opened?_suffix (h : Lawful origin past) (hs : before <:+ past) (ho : opened? d before = some drain) :
    opened? d past = some drain := by
  induction past with
  | nil => rw [List.suffix_nil.mp hs] at ho; exact ho
  | cons e past ih =>
    rcases List.suffix_cons_iff.mp hs with rfl | hs
    · exact ho
    · exact opened?_cons h (ih h.2.2 hs)

/-- The drain of a transfer was opened before the transfer began. -/
theorem opened?_before (h : Lawful origin past) (hs : before <:+ past) (hd : drainOf n before = some d)
    (ho : opened? d past = some drain) : opened? d before = some drain := by
  obtain ⟨first, ho'⟩ := opened_of_drainOf (suffix h hs) hd
  obtain rfl : first = drain := Option.some.inj ((opened?_suffix h hs ho').symm.trans ho)
  exact ho'

/-- The first deed of a step tells its drain. -/
theorem drainOf_suffix (h : Lawful origin past) (hs : before <:+ past) (hne : deeds n before ≠ []) :
    drainOf n past = drainOf n before ∧ deeds n past ≠ [] := by
  induction past with
  | nil => rw [List.suffix_nil.mp hs] at hne; exact absurd rfl hne
  | cons e past ih =>
    rcases List.suffix_cons_iff.mp hs with rfl | hs
    · exact ⟨rfl, hne⟩
    · obtain ⟨hd, hp⟩ := ih h.2.2 hs
      refine ⟨?_, ?_⟩
      · by_cases hn : e.event.drain? = none
        · rw [drainOf_of_drain? hn, hd]
        · obtain ⟨m, event, drains, source⟩ := e
          cases event with
          | began d' k =>
            rw [drainOf_of_ne (e := ⟨m, .began d' k, drains, source⟩) ?_, hd]
            rintro rfl
            exact hp h.1.1
          | _ => simp [Event.drain?] at hn
      · by_cases hn : e.step = n ∧ e.event.isLine = false
        · rw [deeds, if_pos hn]; simp
        · rwa [deeds, if_neg hn]

/-- What a moment knows of a drain of a step, every later one knows. -/
theorem drainOf_mono (h : Lawful origin past) (hs : before <:+ past) (hd : drainOf n before = some d) :
    drainOf n past = some d := by
  rw [(drainOf_suffix h hs ?_).1, hd]
  intro hnil
  rw [drainOf, hnil] at hd
  cases hd

/-- Every deed of a transfer was allowed where it stands. -/
theorem moment (h : Lawful origin past) (hd : drainOf n past = some d) (ho : opened? d past = some drain)
    {event : Event} (hev : event ∈ deeds n past) (hb : event.drain? = none) :
    ∃ drains source before, ⟨n, event, drains, source⟩ :: before <:+ past ∧ drainOf n before = some d ∧
      opened? d before = some drain ∧ Course (event :: deeds n before) ∧
      Truthful d drain before ⟨n, event, drains, source⟩ := by
  obtain ⟨e, he, rfl, rfl, hl⟩ := mem_deeds.mp hev
  obtain ⟨later, before, rfl⟩ := List.append_of_mem he
  have hs : e :: before <:+ later ++ e :: before := List.suffix_append _ _
  have hb' : drainOf e.step before = some d := by
    have hne : deeds e.step (e :: before) ≠ [] := by rw [deeds, if_pos ⟨rfl, hl⟩]; simp
    rw [← drainOf_of_drain? (e := e) hb, ← (drainOf_suffix h hs hne).1, hd]
  have hlaw := suffix h hs
  have ho' := opened?_before h ((List.suffix_cons e before).trans hs) hb' ho
  exact ⟨e.drains, e.source, before, hs, hb', ho', allowed hlaw hb' ho' hl⟩

theorem mem_deeds_of_latest {event : Event} (h : Latest n event past) (hl : event.isLine = false) :
    event ∈ deeds n past := by
  obtain ⟨drains, source, before, rfl⟩ := h
  rw [deeds_self hl]
  exact List.mem_cons_self

/-- The range of a transfer is one of its drain's ring. -/
theorem planned_geometry (h : Lawful origin past) (hd : drainOf n past = some d) (ho : opened? d past = some drain)
    {plan : Plan} (hp : Event.planned plan ∈ deeds n past) : plan.geometry = drain.geometry := by
  obtain ⟨drains, source, before, -, -, -, -, ht⟩ := moment h hd ho hp rfl
  exact ht.1

/-- A report of a range names the position where the range ends. -/
theorem delivered_stop_lt (h : Lawful origin past) (hd : drainOf n past = some d) (ho : opened? d past = some drain)
    {report : Transfer} (hr : Event.delivered report ∈ deeds n past) : report.stop < drain.geometry.capacity := by
  obtain ⟨drains, source, before, hs, hd', ho', hc, -⟩ := moment h hd ho hr rfl
  cases hc with
  | delivered hc hh hp hleft hend hadv =>
    rename_i plan left stop
    have hfits := (hc.tally hp).fits
    rw [← planned_geometry (suffix h ((List.suffix_cons _ _).trans hs)) hd' ho' (planned?_mem hp)]
    rw [plan.geometry.advance_of_le (Nat.le_of_lt hfits.start_lt)] at hadv
    cases hadv
    exact Nat.mod_lt _ plan.geometry.capacity_pos

/-- The end of a transfer, where it ended. -/
theorem end_of_over (h : Lawful origin past) (hd : drainOf n past = some d)
    (ho : opened? d past = some drain) {outcome : Except Halt Transfer} (hend : Event.ended outcome ∈ deeds n past) :
    ∃ drains source before, ⟨n, .ended outcome, drains, source⟩ :: before <:+ past ∧
      deeds n past = .ended outcome :: deeds n before ∧ drainOf n before = some d ∧ opened? d before = some drain ∧
      Concludes n d drain before source outcome := by
  have hcourse := h.course hd
  cases hds : deeds n past with
  | nil => rw [hds] at hend; cases hend
  | cons ev es =>
    rw [hds] at hcourse hend
    rcases List.mem_cons.mp hend with rfl | hend
    · obtain ⟨drains, source, before, hs, hbefore⟩ := moment_of_deeds hds
      have hlaw := h.suffix hs
      have hd' : drainOf n before = some d := by
        have := (drainOf_suffix h hs (by rw [deeds_self rfl]; simp)).1
        rw [← drainOf_of_drain? (e := ⟨n, .ended outcome, drains, source⟩) rfl, ← this, hd]
      have ho' := opened?_before h ((List.suffix_cons _ _).trans hs) hd' ho
      exact ⟨drains, source, before, hs, by rw [hbefore], hd', ho', (allowed hlaw hd' ho' rfl).2⟩
    · exact absurd hend hcourse.unended

/-! ## Cursors -/

/-- A claim ends in the ring, so a shared cursor stays there. -/
theorem claimedTo_lt (h : Lawful origin past) (ho : opened? d past = some drain) :
    claimedTo d past < drain.geometry.capacity := by
  induction past with
  | nil => cases ho
  | cons e past ih =>
    obtain ⟨n, event, drains, source⟩ := e
    cases event with
    | opened d' cursor =>
      by_cases hdd : d' = d
      · subst hdd
        obtain ⟨-, -, drain', hd', rfl, hlt⟩ := h.1
        obtain rfl : drain' = drain := by simpa [opened?, hd'] using ho
        simpa [claimedTo] using hlt
      · simp only [opened?, hdd, ↓reduceIte] at ho
        simpa only [claimedTo, hdd, ↓reduceIte] using ih h.2.2 ho
    | claimed start stop retries =>
      simp only [claimedTo]
      split
      · next hd => exact (allowed h hd ho rfl).2.2.2.2.2
      · exact ih h.2.2 ho
    | _ => exact ih h.2.2 ho

/-- A transfer that succeeds ends in the ring, so every cursor stays there. -/
theorem settledTo_lt (h : Lawful origin past) (ho : opened? d past = some drain) :
    settledTo d past < drain.geometry.capacity := by
  induction past with
  | nil => cases ho
  | cons e past ih =>
    obtain ⟨n, event, drains, source⟩ := e
    cases event with
    | opened d' cursor =>
      by_cases hdd : d' = d
      · subst hdd
        obtain ⟨-, -, drain', hd', rfl, hlt⟩ := h.1
        obtain rfl : drain' = drain := by simpa [opened?, hd'] using ho
        simpa [settledTo] using hlt
      · simp only [opened?, hdd, ↓reduceIte] at ho
        simpa only [settledTo, hdd, ↓reduceIte] using ih h.2.2 ho
    | ended outcome =>
      cases outcome with
      | error cause => exact ih h.2.2 ho
      | ok report =>
        simp only [settledTo]
        split
        · next hd =>
          rcases (allowed h hd ho rfl).2 with ⟨position, rfl, -, hlt, -⟩ | hlatest
          · exact hlt
          · exact delivered_stop_lt h.2.2 hd ho (mem_deeds_of_latest hlatest rfl)
        · exact ih h.2.2 ho
    | _ => exact ih h.2.2 ho

/-- Only transfers of a drain that is not shared move its cursor. -/
theorem settledTo_append {new : List Entry} (h : Lawful origin (new ++ past)) (ho : opened? d past = some drain)
    (hno : ∀ e ∈ new, drainOf e.step (new ++ past) ≠ some d) : settledTo d (new ++ past) = settledTo d past := by
  induction new with
  | nil => rfl
  | cons e new ih =>
    rw [List.cons_append] at h hno ⊢
    have hs : new ++ past <:+ e :: (new ++ past) := List.suffix_cons _ _
    have hopen : opened? d (new ++ past) = some drain := h.2.2.opened?_suffix (List.suffix_append _ _) ho
    rw [← ih h.2.2 fun e' he' hm => hno e' (List.mem_cons_of_mem _ he') (drainOf_mono h hs hm)]
    obtain ⟨k, event, drains, source⟩ := e
    cases event with
    | opened d' cursor =>
      have hdd : d' ≠ d := by
        rintro rfl
        have := h.1.2.1
        rw [hopen] at this
        cases this
      simp only [settledTo, hdd, ↓reduceIte]
    | ended outcome =>
      cases outcome with
      | error cause => rfl
      | ok report =>
        have : drainOf k (new ++ past) ≠ some d := fun hm =>
          hno _ List.mem_cons_self (drainOf_mono h hs hm)
        simp only [settledTo, this, ↓reduceIte]
    | _ => rfl

end Lawful

end PagedRing.Session
