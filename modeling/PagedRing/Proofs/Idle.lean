import PagedRing.Proofs.Stream

/-!
# Idle answers

A transfer of a shared drain that reads the write position where it has read the cursor answers that nothing is unread
there, and does not look at the cursor again. Transfers that overtake it in between may have moved the cursor on, so
the answer is right exactly if what they have claimed is a whole number of turns.

* `claimedSince`: what was claimed since a transfer has read the cursor.
* `Lawful.idle`: where the cursor stands when a transfer answers that nothing is unread, and how much is unread.
* `idle_right_iff`: this for every moment of every session.
* `not_idle_right`: the answer is wrong in a session.
-/

namespace PagedRing

/-- What is left of less than a turn, if it makes up a whole number of turns with another number of bytes. -/
theorem Geometry.rest_of_turns (g : Geometry) {taken rest : Nat} (h : (taken + rest) % g.capacity = 0)
    (hlt : rest < g.capacity) : rest = (g.capacity - taken % g.capacity) % g.capacity := by
  have hmod := Nat.mod_lt taken g.capacity_pos
  rw [← Nat.mod_add_mod] at h
  generalize taken % g.capacity = part at h hmod ⊢
  rcases Nat.eq_zero_or_pos part with rfl | hpos
  · rw [Nat.zero_add, Nat.mod_eq_of_lt hlt] at h
    rw [Nat.sub_zero, Nat.mod_self, h]
  · rcases Nat.lt_or_ge (part + rest) g.capacity with hroom | hturn
    · rw [Nat.mod_eq_of_lt hroom] at h
      omega
    · rw [Nat.mod_eq_sub_mod hturn, Nat.mod_eq_of_lt (by omega)] at h
      rw [Nat.mod_eq_of_lt (by omega)]
      omega

namespace Session

/-- What had happened when a step read the shared cursor for the last time. -/
def loadedAt? (n : Nat) : List Entry → Option (List Entry)
  | [] => none
  | e :: past =>
    if e.step = n then
      match e.event with
      | .loaded _ => some past
      | _ => loadedAt? n past
    else loadedAt? n past

/-- The number of bytes that a drain has claimed since an earlier moment. -/
def claimedSince (g : Geometry) (d : Nat) (before past : List Entry) : Nat :=
  claimedLen g d past - claimedLen g d before

variable {origin : Source} {g : Geometry} {n d : Nat} {past before : List Entry} {drain : Drain} {ring : Ring}
  {e : Entry}
  {drains : Array (Option Drain)} {source : Source}

theorem loadedAt_of_loaded {cursor : Nat} (h : loaded? (deeds n past) = some cursor) :
    ∃ drains source before, loadedAt? n past = some before ∧
      ⟨n, .loaded cursor, drains, source⟩ :: before <:+ past := by
  induction past with
  | nil => cases h
  | cons e past ih =>
    have hcons : loaded? (deeds n past) = some cursor → loadedAt? n (e :: past) = loadedAt? n past →
        ∃ drains source before, loadedAt? n (e :: past) = some before ∧
          ⟨n, .loaded cursor, drains, source⟩ :: before <:+ e :: past := by
      intro h heq
      obtain ⟨drains, source, before, hat, hs⟩ := ih h
      exact ⟨drains, source, before, heq.trans hat, hs.trans (List.suffix_cons e past)⟩
    obtain ⟨k, event, drains, source⟩ := e
    by_cases hn : k = n
    · subst hn
      cases event with
      | loaded cursor' =>
        rw [deeds_self rfl] at h
        cases h
        exact ⟨drains, source, past, by simp only [loadedAt?, ↓reduceIte], List.suffix_refl _⟩
      | line bytes =>
        rw [deeds_line rfl] at h
        exact hcons h (by simp only [loadedAt?, ↓reduceIte])
      | _ =>
        rw [deeds_self rfl] at h
        exact hcons h (by simp only [loadedAt?, ↓reduceIte])
    · rw [deeds_of_ne hn] at h
      exact hcons h (by simp only [loadedAt?, hn, ↓reduceIte])

/-- What was claimed stays claimed. -/
theorem claimedLen_mono (hs : before <:+ past) : claimedLen g d before ≤ claimedLen g d past := by
  induction past with
  | nil => exact List.suffix_nil.mp hs ▸ Nat.le_refl _
  | cons e past ih =>
    rcases List.suffix_cons_iff.mp hs with rfl | hs
    · exact Nat.le_refl _
    · refine Nat.le_trans (ih hs) ?_
      obtain ⟨k, event, drains, source⟩ := e
      cases event with
      | claimed start stop retries =>
        by_cases hd : drainOf k past = some d
        · rw [claimedLen_claimed hd]
          exact Nat.le_add_right _ _
        · simp only [claimedLen, shares, hd, ↓reduceIte, Nat.le_refl]
      | _ => exact Nat.le_refl _

/-- What holds when a transfer answers that nothing is unread at a position; it read the cursor after `before`. -/
structure Idle (drain : Drain) (d position : Nat) (before past : List Entry) : Prop where
  /-- The cursor stood there when the transfer read it. -/
  loaded : claimedTo d before = position
  /-- What was claimed since has moved it on. -/
  cursor : claimedTo d past = (position + claimedSince drain.geometry d before past) % drain.geometry.capacity
  /-- What is unread leads from the cursor back to the position. -/
  unread : backlog drain.geometry d past + (stream d past).length = claimedLen drain.geometry d past +
    (drain.geometry.capacity - claimedSince drain.geometry d before past % drain.geometry.capacity) %
      drain.geometry.capacity
  /-- The answer is right exactly if a whole number of turns was claimed since. -/
  right_iff : claimedTo d past = position ↔ drain.geometry.capacity ∣ claimedSince drain.geometry d before past
  unread_iff : claimedLen drain.geometry d past = backlog drain.geometry d past + (stream d past).length ↔
    drain.geometry.capacity ∣ claimedSince drain.geometry d before past
  /-- Nothing was claimed since if the writer is less than a turn ahead of the cursor that was read. -/
  still : backlog drain.geometry d past + (stream d past).length <
    claimedLen drain.geometry d before + drain.geometry.capacity → claimedSince drain.geometry d before past = 0

/-- What follows from the numbers of bytes claimed and written. -/
theorem idle_of_numbers {position : Nat} (hloaded : position = claimedTo d before)
    (hbefore : claimedTo d before =
      (drain.cursor + claimedLen drain.geometry d before) % drain.geometry.capacity)
    (hnow : claimedTo d past = (drain.cursor + claimedLen drain.geometry d past) % drain.geometry.capacity)
    (hposition : position =
      (drain.cursor + (backlog drain.geometry d past + (stream d past).length)) % drain.geometry.capacity)
    (hmono : claimedLen drain.geometry d before ≤ claimedLen drain.geometry d past)
    (hle : claimedLen drain.geometry d past ≤ backlog drain.geometry d past + (stream d past).length)
    (hlt : backlog drain.geometry d past + (stream d past).length <
      claimedLen drain.geometry d past + drain.geometry.capacity) : Idle drain d position before past := by
  obtain ⟨taken, htaken⟩ : ∃ taken, claimedSince drain.geometry d before past = taken := ⟨_, rfl⟩
  obtain ⟨total, htotal⟩ : ∃ total, backlog drain.geometry d past + (stream d past).length = total := ⟨_, rfl⟩
  have hsince : claimedLen drain.geometry d past = claimedLen drain.geometry d before + taken := by
    rw [← htaken, claimedSince]
    omega
  rw [htotal] at hposition hle hlt
  have hsame := hposition.symm.trans (hloaded.trans hbefore)
  have hturns : (taken + (total - claimedLen drain.geometry d past)) % drain.geometry.capacity = 0 := by
    have hmod := Nat.sub_mod_eq_zero_of_mod_eq hsame
    rwa [show drain.cursor + total - (drain.cursor + claimedLen drain.geometry d before) =
      taken + (total - claimedLen drain.geometry d past) by omega] at hmod
  have hrest := drain.geometry.rest_of_turns hturns (by omega)
  have hunread : claimedLen drain.geometry d past = total ↔ drain.geometry.capacity ∣ taken := by
    constructor
    · intro heq
      rw [heq, Nat.sub_self, Nat.add_zero] at hturns
      exact Nat.dvd_of_mod_eq_zero hturns
    · intro hdvd
      rw [Nat.mod_eq_zero_of_dvd hdvd, Nat.sub_zero, Nat.mod_self] at hrest
      omega
  have hcursor : claimedTo d past = (position + taken) % drain.geometry.capacity := by
    rw [hnow, hsince, ← Nat.add_assoc, ← Nat.mod_add_mod, ← hbefore, ← hloaded]
  have hright : claimedTo d past = position ↔ claimedLen drain.geometry d past = total := by
    rw [hnow, hposition]
    exact ⟨fun heq => drain.geometry.eq_of_same_position heq.symm hle hlt, fun heq => by rw [heq]⟩
  refine ⟨hloaded.symm, ?_, ?_, ?_, ?_, fun hroom => ?_⟩
  · rw [htaken]; exact hcursor
  · rw [htaken, htotal]; omega
  · rw [htaken, hright, hunread]
  · rw [htaken, htotal]; exact hunread
  · rw [htotal] at hroom
    have := drain.geometry.eq_of_same_position hsame (by omega) hroom
    omega

namespace Lawful

/-- A range of a shared drain is not empty. -/
theorem len_pos_of_planned {plan : Plan} (h : Lawful origin past) (hd : drainOf n past = some d)
    (ho : opened? d past = some drain) (hm : drain.mode = .concurrent) (hplan : planned? (deeds n past) = some plan) :
    0 < plan.len := by
  obtain ⟨drains, source, before, hs, hd', ho', hcourse, -, stop, hlen, hmode⟩ :=
    h.moment hd ho (planned?_mem hplan) rfl
  rw [hm] at hmode
  obtain ⟨retries, drains', source', before', rfl⟩ := hmode
  have hlaw := h.suffix ((List.suffix_cons _ _).trans hs)
  have hd'' : drainOf n before' = some d := by rw [← hd', drainOf_of_drain? rfl]
  obtain ⟨-, -, hstart, -, hne, -⟩ := hlaw.allowed hd'' ho' rfl
  have ho'' : opened? d before' = some drain := ho'
  have hlt := hlaw.2.2.claimedTo_lt ho''
  rw [drain.geometry.unreadLen_of_le (Nat.le_of_lt (hstart ▸ hlt)), Except.ok.injEq] at hlen
  split at hlen <;> omega

/-- A transfer answers that nothing is unread if it has read the write position where it has read the cursor. -/
theorem idle_of_ended {position : Nat}
    (h : Lawful origin (⟨n, .ended (.ok (.emptyAt position)), drains, source⟩ :: past)) (hd : drainOf n past = some d)
    (ho : opened? d past = some drain) (hm : drain.mode = .concurrent) :
    Latest n (.sampled position) past ∧ loaded? (deeds n past) = some position := by
  rcases (h.allowed hd ho rfl).2 with ⟨position', heq, hlatest, -, hbase⟩ | hlatest
  · obtain rfl : position = position' := congrArg Transfer.start heq
    rw [base?, hm] at hbase
    exact ⟨hlatest, hbase⟩
  · obtain ⟨plan, hplan, hlen, -⟩ := h.2.2.whole_of_delivered hd hlatest
    have hpos := h.2.2.len_pos_of_planned hd ho hm hplan
    rw [← hlen] at hpos
    cases hpos

/-- Where the cursor stands when a transfer answers that nothing is unread, and how much is unread. -/
theorem idle {position : Nat}
    (h : Lawful (.ring ring) (⟨n, .ended (.ok (.emptyAt position)), drains, source⟩ :: past))
    (hd : drainOf n past = some d) (ho : opened? d past = some drain) (hm : drain.mode = .concurrent)
    (hg : drain.geometry = ring.geometry) (hk : KeptUp drain.geometry d (claimedLen drain.geometry d) past) :
    ∃ before, loadedAt? n past = some before ∧ Idle drain d position before past := by
  obtain ⟨hlatest, hload⟩ := h.idle_of_ended hd ho hm
  obtain ⟨drains', source', before, hat, hs⟩ := loadedAt_of_loaded hload
  refine ⟨before, hat, ?_⟩
  have hs' : before <:+ past := (List.suffix_cons _ _).trans hs
  have hlaw := h.2.2.suffix hs
  have hd' : drainOf n before = some d := by
    have hsame := (h.2.2.drainOf_suffix hs (by rw [deeds_self rfl]; simp)).1
    rw [← hd, hsame, drainOf_of_drain? rfl]
  have ho' := h.2.2.opened?_before hs' hd' ho
  have hloaded : position = claimedTo d before := (hlaw.allowed hd' ho' rfl).2.2
  have hposition := h.2.2.sampled_eq ho hg hd hlatest
  have hbefore := hlaw.2.2.claimedTo_eq ho'
  have hnow := h.2.2.claimedTo_eq ho
  obtain ⟨hle, hlt⟩ := h.2.2.claimedLen_le ho hg hk
  exact idle_of_numbers hloaded hbefore hnow hposition (claimedLen_mono hs') hle hlt

end Lawful

/-- In every session on a ring whose writer keeps less than a turn ahead of the cursor of a shared drain, a transfer
that answers that nothing is unread is right exactly if what was claimed since it has read the cursor is a whole number
of turns. -/
theorem idle_right_iff (session : Session) (hsource : session.source = .ring ring) (hs : e :: past <:+ session.past)
    {position : Nat} (hanswer : e.event = .ended (.ok (.emptyAt position))) (hd : drainOf e.step past = some d)
    (ho : opened? d past = some drain) (hm : drain.mode = .concurrent) (hg : drain.geometry = ring.geometry)
    (hk : KeptUp drain.geometry d (claimedLen drain.geometry d) past) :
    ∃ before, loadedAt? e.step past = some before ∧ Idle drain d position before past ∧
      (e.drains[d]?.join.map Drain.cursor = some position ↔
        drain.geometry.capacity ∣ claimedSince drain.geometry d before past) := by
  have hlaw : Lawful (.ring ring) (e :: past) := hsource ▸ session.lawful.suffix hs
  obtain ⟨n, event, drains, source⟩ := e
  obtain rfl : event = .ended (.ok (.emptyAt position)) := hanswer
  obtain ⟨before, hat, hidle⟩ := hlaw.idle hd ho hm hg hk
  have ho' : opened? d (⟨n, .ended (.ok (.emptyAt position)), drains, source⟩ :: past) = some drain := ho
  have hplace : drains[d]? = some (some ⟨drain.geometry, claimedTo d past, .concurrent⟩) := by
    rw [(place_concurrent_iff ho' hm).mp (hlaw.2.1.place d)]
    simp only [claimedTo]
  refine ⟨before, hat, hidle, ?_⟩
  rw [← hidle.right_iff, hplace, Option.join_some, Option.map_some, Option.some.injEq]

/-- A ring of four bytes in which a transfer reads the cursor, and before it reads the write position, two bytes are
written and claimed and two more are written. -/
def overtaken : Session where
  geometry := quad
  source := .ring (.zeros quad)
  script := [.play 0 (.write [10, 11]) false, .play 0 (.transfer 0 1 none) false, .play 0 (.write [12, 13]) false]
  steps := [.openDrain .concurrent none none, .openSink .chunks [], .openSink .chunks [], .transfer 0 0 none]

/-- The last thing that happens there is that the transfer answers that nothing is unread at 0, and the cursor stands
at 2. -/
theorem overtaken_past : ∃ e past, e :: past <:+ overtaken.past ∧ past = overtaken.past.tail ∧ e.step = 3 ∧
    e.event = .ended (.ok (.emptyAt 0)) ∧ e.drains[0]?.join.map Drain.cursor = some 2 := by
  have hstep : overtaken.past.head?.map Entry.step = some 3 := by cbv
  have hevent : overtaken.past.head?.map Entry.event = some (.ended (.ok (.emptyAt 0))) := by cbv
  have hcursor : (overtaken.past.head?.map fun e => e.drains[0]?.join.map Drain.cursor) = some (some 2) := by cbv
  generalize overtaken.past = past at *
  cases past with
  | nil => cases hstep
  | cons e past =>
    exact ⟨e, past, List.suffix_refl _, rfl, Option.some.inj hstep, Option.some.inj hevent, Option.some.inj hcursor⟩

/-- The writer stays less than a turn ahead of the cursor. -/
theorem overtaken_keptUp : KeptUp overtaken.geometry 0 (claimedLen overtaken.geometry 0) overtaken.past := by
  refine Throughout.of_check ?_
  cbv

theorem overtaken_opened : opened? 0 overtaken.past.tail = some ⟨overtaken.geometry, 0, .concurrent⟩ := by cbv

theorem overtaken_drainOf : drainOf 3 overtaken.past.tail = some 0 := by cbv

theorem idle_overtaken : ∃ e past before, e :: past <:+ overtaken.past ∧ loadedAt? e.step past = some before ∧
    Idle ⟨overtaken.geometry, 0, .concurrent⟩ 0 0 before past ∧
      (e.drains[0]?.join.map Drain.cursor = some 0 ↔
        overtaken.geometry.capacity ∣ claimedSince overtaken.geometry 0 before past) := by
  obtain ⟨e, past, hs, htail, hstep, hevent, -⟩ := overtaken_past
  have hd : drainOf e.step past = some 0 := by rw [hstep, htail, overtaken_drainOf]
  have ho : opened? 0 past = some ⟨overtaken.geometry, 0, .concurrent⟩ := by rw [htail, overtaken_opened]
  have hk := Throughout.suffix overtaken_keptUp ((List.suffix_cons e past).trans hs)
  obtain ⟨before, hidle⟩ := idle_right_iff overtaken rfl hs hevent hd ho rfl rfl hk
  exact ⟨e, past, before, hs, hidle⟩

/-- So an answer that nothing is unread may be wrong, also if the writer stays less than a turn ahead of the cursor. -/
theorem not_idle_right : ¬ ∀ (session : Session) (ring : Ring) (d position : Nat) (drain : Drain) (e : Entry)
    (past : List Entry), session.source = .ring ring → drain.geometry = ring.geometry → drain.mode = .concurrent →
      KeptUp drain.geometry d (claimedLen drain.geometry d) session.past → e :: past <:+ session.past →
        e.event = .ended (.ok (.emptyAt position)) → drainOf e.step past = some d → opened? d past = some drain →
          e.drains[d]?.join.map Drain.cursor = some position := by
  intro hall
  obtain ⟨e, past, hs, htail, hstep, hevent, hcursor⟩ := overtaken_past
  have hd : drainOf e.step past = some 0 := by rw [hstep, htail, overtaken_drainOf]
  have ho : opened? 0 past = some ⟨overtaken.geometry, 0, .concurrent⟩ := by rw [htail, overtaken_opened]
  have hright := hall overtaken _ 0 0 ⟨overtaken.geometry, 0, .concurrent⟩ e past rfl rfl rfl overtaken_keptUp hs hevent
    hd ho
  rw [hcursor] at hright
  cases hright

end Session

end PagedRing
